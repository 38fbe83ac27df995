/-
  File:      Pgvec/Nodes/TidBitmapScan.lean
  Subject:   ITERATING A TID BITMAP, privately or with shared state.

  The sorted pages and the pages of the sorted chunks are merged into one list of answers (`answers`). An
  iterator stands for the rest of that list (`remaining`): a call gives its head and leaves its tail
  (`iterateNext_spec`), so the k-th call gives the k-th answer, whoever makes it.

  * `Wf.private_arrays`, `Wf.sortedIndexes_eq` -- both kinds of arrays hold the same sorted pages and chunks;
  * `Wf.scan_returns` -- the answers of a bitmap are right for the set it stands for;
  * **`Wf.private_iterate`**, **`Wf.shared_iterate`** -- a call.
-/
import Pgvec.Nodes.TidBitmapFacts

namespace Pgvec.Tbm

open Pgvec.Hnsw (ItemPointer InvalidBlockNumber)

/-! ## 1. The answers of an iteration -/

/-- A lossy page indicator from a chunk. -/
def lossyResult (blockno : Nat) : TBMIterateResult := ⟨blockno, true, true, none⟩

/-- An exact page. -/
def exactResult (page : PagetableEntry) : TBMIterateResult := ⟨page.blockno, false, page.recheck, some page⟩

/-- The answers for lossy pages and exact pages, the numerically earlier one first. -/
def answers : List Nat → List PagetableEntry → List TBMIterateResult
  | [], pages => pages.map exactResult
  | c :: cs, [] => (c :: cs).map lossyResult
  | c :: cs, page :: pages =>
      if c < page.blockno then lossyResult c :: answers cs (page :: pages)
      else exactResult page :: answers (c :: cs) pages
termination_by cs pages => cs.length + pages.length

theorem mem_answers {r : TBMIterateResult} (cs : List Nat) (pages : List PagetableEntry) :
    r ∈ answers cs pages ↔ (∃ c ∈ cs, r = lossyResult c) ∨ ∃ page ∈ pages, r = exactResult page := by
  induction cs, pages using answers.induct with
  | case1 pages =>
      rw [answers, List.mem_map]
      refine ⟨fun ⟨p, hp, h⟩ => Or.inr ⟨p, hp, h.symm⟩, fun h => ?_⟩
      rcases h with ⟨_, hc, _⟩ | ⟨p, hp, h⟩
      · exact absurd hc List.not_mem_nil
      · exact ⟨p, hp, h.symm⟩
  | case2 c cs =>
      rw [answers, List.mem_map]
      refine ⟨fun ⟨x, hx, h⟩ => Or.inl ⟨x, hx, h.symm⟩, fun h => ?_⟩
      rcases h with ⟨x, hx, h⟩ | ⟨_, hp, _⟩
      · exact ⟨x, hx, h.symm⟩
      · exact absurd hp List.not_mem_nil
  | case3 c cs page pages hlt ih =>
      rw [answers, if_pos hlt, List.mem_cons, ih]
      simp only [List.exists_mem_cons_iff, or_assoc]
  | case4 c cs page pages hlt ih =>
      rw [answers, if_neg hlt, List.mem_cons, ih]
      simp only [List.exists_mem_cons_iff]
      exact or_left_comm

/-- **The answers come in strictly increasing order** when no page is stored both ways. -/
theorem answers_pairwise (cs : List Nat) (pages : List PagetableEntry) : cs.Pairwise (· < ·) →
    pages.Pairwise (fun p q => p.blockno < q.blockno) → (∀ c ∈ cs, ∀ p ∈ pages, c ≠ p.blockno) →
    (answers cs pages).Pairwise fun r s => r.blockno < s.blockno := by
  induction cs, pages using answers.induct with
  | case1 pages =>
      intro _ hp _
      rw [answers]
      exact List.pairwise_map.mpr hp
  | case2 c cs =>
      intro hc _ _
      rw [answers]
      exact List.pairwise_map.mpr hc
  | case3 c cs page pages hlt ih =>
      intro hc hp hd
      obtain ⟨hc1, hc2⟩ := List.pairwise_cons.mp hc
      rw [answers, if_pos hlt]
      refine List.pairwise_cons.mpr ⟨fun r hr => ?_, ih hc2 hp fun x hx => hd x (List.mem_cons_of_mem _ hx)⟩
      rcases (mem_answers _ _).mp hr with ⟨x, hx, rfl⟩ | ⟨p, hpm, rfl⟩
      · exact hc1 x hx
      · rcases List.mem_cons.mp hpm with rfl | hpm
        · exact hlt
        · exact hlt.trans ((List.pairwise_cons.mp hp).1 p hpm)
  | case4 c cs page pages hlt ih =>
      intro hc hp hd
      obtain ⟨hp1, hp2⟩ := List.pairwise_cons.mp hp
      have hgt : page.blockno < c :=
        lt_of_le_of_ne (Nat.le_of_not_lt hlt) (hd c List.mem_cons_self page List.mem_cons_self).symm
      rw [answers, if_neg hlt]
      refine List.pairwise_cons.mpr ⟨fun r hr => ?_, ih hc hp2 fun x hx p hpm => hd x hx p (List.mem_cons_of_mem _ hpm)⟩
      rcases (mem_answers _ _).mp hr with ⟨x, hx, rfl⟩ | ⟨p, hpm, rfl⟩
      · rcases List.mem_cons.mp hx with rfl | hx
        · exact hgt
        · exact hgt.trans ((List.pairwise_cons.mp hc).1 x hx)
      · exact hp1 p hpm

/-! ## 2. What remains for an iterator -/

/-- The pages of a chunk, from a bit on. -/
def chunkFrom (c : PagetableEntry) (bit : Nat) : List Nat :=
  ((List.range' bit (PAGES_PER_CHUNK - bit)).filter fun x => c.bit x).map fun x => c.blockno + x

/-- The pages of the chunks, from a bit of one of them on. -/
def chunkRest (chunks : List PagetableEntry) (ptr bit : Nat) : List Nat :=
  match chunks.drop ptr with
  | [] => []
  | c :: cs => chunkFrom c bit ++ cs.flatMap fun c => chunkFrom c 0

/-- What remains for an iterator. -/
def remaining (pages chunks : List PagetableEntry) (it : IterState) : List TBMIterateResult :=
  answers (chunkRest chunks it.schunkptr it.schunkbit) (pages.drop it.spageptr)

theorem chunkFrom_step (c : PagetableEntry) {bit : Nat} (hlt : bit < PAGES_PER_CHUNK) :
    chunkFrom c bit = if c.bit bit = true then (c.blockno + bit) :: chunkFrom c (bit + 1) else chunkFrom c (bit + 1) := by
  have hr : List.range' bit (PAGES_PER_CHUNK - bit) = bit :: List.range' (bit + 1) (PAGES_PER_CHUNK - (bit + 1)) := by
    rw [show PAGES_PER_CHUNK - bit = PAGES_PER_CHUNK - (bit + 1) + 1 by omega, List.range'_succ]
  rw [chunkFrom, hr]
  by_cases hb : c.bit bit = true
  · rw [if_pos hb, List.filter_cons_of_pos hb, List.map_cons]
    rfl
  · rw [if_neg hb, List.filter_cons_of_neg hb]
    rfl

theorem chunkFrom_end (c : PagetableEntry) {bit : Nat} (h : PAGES_PER_CHUNK ≤ bit) : chunkFrom c bit = [] := by
  rw [chunkFrom, Nat.sub_eq_zero_of_le h]
  rfl

/-- **`tbm_advance_schunkbit`** finds the next page of a chunk. -/
theorem advance_schunkbit_spec (c : PagetableEntry) (bit : Nat) :
    chunkFrom c (tbm_advance_schunkbit c bit) = chunkFrom c bit ∧
    if tbm_advance_schunkbit c bit < PAGES_PER_CHUNK then
      chunkFrom c bit = (c.blockno + tbm_advance_schunkbit c bit) :: chunkFrom c (tbm_advance_schunkbit c bit + 1)
    else chunkFrom c bit = [] := by
  induction bit using tbm_advance_schunkbit.induct c with
  | case1 bit hlt hb =>
      rw [tbm_advance_schunkbit, if_pos hlt, if_pos hb, if_pos hlt, chunkFrom_step c hlt, if_pos hb]
      exact ⟨rfl, rfl⟩
  | case2 bit hlt hb ih =>
      rw [tbm_advance_schunkbit, if_pos hlt, if_neg hb, chunkFrom_step c hlt, if_neg hb]
      exact ih
  | case3 bit hlt =>
      rw [tbm_advance_schunkbit, if_neg hlt, if_neg hlt]
      exact ⟨rfl, chunkFrom_end c (Nat.le_of_not_lt hlt)⟩

theorem chunkRest_of_getElem? {chunks : List PagetableEntry} {ptr : Nat} {c : PagetableEntry}
    (h : chunks[ptr]? = some c) (bit : Nat) :
    chunkRest chunks ptr bit = chunkFrom c bit ++ chunkRest chunks (ptr + 1) 0 := by
  obtain ⟨hlt, hget⟩ := List.getElem?_eq_some_iff.mp h
  rw [chunkRest, List.drop_eq_getElem_cons hlt, hget]
  simp only
  rw [chunkRest]
  cases chunks.drop (ptr + 1) with
  | nil => rfl
  | cons d ds => rw [List.flatMap_cons]

variable {pages chunks : List PagetableEntry} {spages schunks : Nat → Option PagetableEntry}

/-- **The chunk pointer is advanced to the next lossy page**, if any, and passes none. -/
theorem nextChunkPage_spec (hs : ∀ i < chunks.length, schunks i = chunks[i]?) {it it' : IterState}
    (hit : nextChunkPage chunks.length schunks it = it') :
    it'.spageptr = it.spageptr ∧
    chunkRest chunks it'.schunkptr it'.schunkbit = chunkRest chunks it.schunkptr it.schunkbit ∧
    (if it'.schunkptr < chunks.length then
      ∃ c, schunks it'.schunkptr = some c ∧ chunkRest chunks it'.schunkptr it'.schunkbit =
        (c.blockno + it'.schunkbit) :: chunkRest chunks it'.schunkptr (it'.schunkbit + 1)
    else chunkRest chunks it'.schunkptr it'.schunkbit = []) := by
  induction it using nextChunkPage.induct chunks.length schunks with
  | case1 it hlt hnone =>
      rw [hs _ hlt, List.getElem?_eq_getElem hlt] at hnone
      cases hnone
  | case2 it hlt c hc bit hbit =>
      have hget : chunks[it.schunkptr]? = some c := (hs _ hlt).symm.trans hc
      obtain ⟨hsame, hadv⟩ := advance_schunkbit_spec c it.schunkbit
      rw [if_pos hbit] at hadv
      rw [nextChunkPage, if_pos hlt, hc] at hit
      obtain rfl := (if_pos hbit).symm.trans hit
      refine ⟨rfl, ?_, ?_⟩
      · rw [chunkRest_of_getElem? hget, chunkRest_of_getElem? hget, hsame]
      · rw [if_pos hlt]
        refine ⟨c, hc, ?_⟩
        rw [chunkRest_of_getElem? hget, chunkRest_of_getElem? hget, hsame, hadv, List.cons_append]
  | case3 it hlt c hc bit hbit ih =>
      have hget : chunks[it.schunkptr]? = some c := (hs _ hlt).symm.trans hc
      obtain ⟨_, hadv⟩ := advance_schunkbit_spec c it.schunkbit
      rw [if_neg hbit] at hadv
      rw [nextChunkPage, if_pos hlt, hc] at hit
      obtain ⟨h1, h2, h3⟩ := ih ((if_neg hbit).symm.trans hit)
      refine ⟨h1, ?_, h3⟩
      rw [h2, chunkRest_of_getElem? hget, hadv, List.nil_append]
  | case4 it hlt =>
      rw [nextChunkPage, if_neg hlt] at hit
      subst hit
      refine ⟨rfl, rfl, ?_⟩
      rw [if_neg hlt, chunkRest, List.drop_eq_nil_iff.mpr (Nat.le_of_not_lt hlt)]

/-- **A call gives the next answer.** -/
theorem iterateNext_spec (hp : ∀ i < pages.length, spages i = pages[i]?)
    (hs : ∀ i < chunks.length, schunks i = chunks[i]?) (it : IterState) :
    (iterateNext pages.length chunks.length spages schunks it).1 = (remaining pages chunks it).head? ∧
      remaining pages chunks (iterateNext pages.length chunks.length spages schunks it).2 =
        (remaining pages chunks it).tail := by
  obtain ⟨h1, h2, h3⟩ := nextChunkPage_spec hs (rfl : nextChunkPage chunks.length schunks it = _)
  unfold iterateNext
  generalize nextChunkPage chunks.length schunks it = it' at h1 h2 h3
  have hpage : (if it'.spageptr < pages.length then spages it'.spageptr else none) = pages[it'.spageptr]? := by
    split
    · rename_i hlt
      exact hp _ hlt
    · rename_i hge
      exact (List.getElem?_eq_none (Nat.le_of_not_lt hge)).symm
  have hdrop : ∀ page, pages[it'.spageptr]? = some page →
      pages.drop it'.spageptr = page :: pages.drop (it'.spageptr + 1) := by
    intro page hpg
    obtain ⟨hlt, hget⟩ := List.getElem?_eq_some_iff.mp hpg
    rw [List.drop_eq_getElem_cons hlt, hget]
  have hrem : remaining pages chunks it = remaining pages chunks it' := by
    rw [remaining, remaining, h1, h2]
  simp only [hpage]
  rw [hrem]
  unfold remaining
  by_cases hlt : it'.schunkptr < chunks.length
  · rw [if_pos hlt] at h3 ⊢
    obtain ⟨c, hc, hrest⟩ := h3
    rw [hc]
    rcases hpg : pages[it'.spageptr]? with _ | page
    · simp only
      rw [List.drop_eq_nil_iff.mpr (List.getElem?_eq_none_iff.mp hpg), hrest, answers]
      refine ⟨rfl, ?_⟩
      cases chunkRest chunks it'.schunkptr (it'.schunkbit + 1) <;> rw [answers] <;> rfl
    · simp only
      by_cases hcmp : c.blockno + it'.schunkbit < page.blockno
      · rw [if_pos hcmp, hdrop page hpg, hrest, answers, if_pos hcmp]
        exact ⟨rfl, rfl⟩
      · rw [if_neg hcmp, hdrop page hpg, hrest, answers, if_neg hcmp]
        exact ⟨rfl, rfl⟩
  · rw [if_neg hlt] at h3 ⊢
    rcases hpg : pages[it'.spageptr]? with _ | page
    · simp only
      rw [List.drop_eq_nil_iff.mpr (List.getElem?_eq_none_iff.mp hpg), h3, answers]
      exact ⟨rfl, rfl⟩
    · simp only
      rw [hdrop page hpg, h3, answers, answers]
      exact ⟨rfl, rfl⟩

/-! ## 3. The sorted pages and chunks -/

variable {H : Type} {T : PageTable H} {tbm : TIDBitmap H}

/-- The entries of one kind, sorted. -/
def sortedEntries (T : PageTable H) (tbm : TIDBitmap H) (kind : PagetableEntry → Bool) : List PagetableEntry :=
  ((tbm.entries T).filter kind).mergeSort tbm_comparator

/-- No block number has two entries. -/
theorem Wf.entries_nodup (h : Wf T tbm) : ((tbm.entries T).map (·.blockno)).Nodup := by
  have hkey : ∀ {k e}, tbm.store.find T k = some e → e.blockno = k := h.table.key
  unfold TIDBitmap.entries
  rcases hs : tbm.store with _ | e1 | hh
  · exact List.nodup_nil
  · exact List.nodup_singleton _
  · rw [hs] at hkey
    refine List.pairwise_map.mpr (List.pairwise_filterMap.mpr ((T.scan_nodup hh).imp ?_))
    intro k k' hne e he e' he' heq
    exact hne (by rw [← hkey he, ← hkey he', heq])

theorem pairwise_comparator (l : List PagetableEntry) :
    (l.mergeSort tbm_comparator).Pairwise fun p q => p.blockno ≤ q.blockno := by
  have htrans : ∀ a b c : PagetableEntry, tbm_comparator a b = true → tbm_comparator b c = true →
      tbm_comparator a c = true := by
    intro a b c hab hbc
    exact decide_eq_true ((of_decide_eq_true hab).trans (of_decide_eq_true hbc))
  have htotal : ∀ a b : PagetableEntry, (tbm_comparator a b || tbm_comparator b a) = true := by
    intro a b
    rw [Bool.or_eq_true]
    exact (Nat.le_total a.blockno b.blockno).imp (fun h => decide_eq_true h) fun h => decide_eq_true h
  exact (List.pairwise_mergeSort htrans htotal l).imp fun h => of_decide_eq_true h

/-- **The sorted entries are in strictly increasing order.** -/
theorem Wf.sorted_pairwise (h : Wf T tbm) (kind : PagetableEntry → Bool) :
    (sortedEntries T tbm kind).Pairwise fun p q => p.blockno < q.blockno := by
  have hnodup : ((sortedEntries T tbm kind).map (·.blockno)).Nodup := by
    refine ((List.mergeSort_perm _ _).map _).nodup_iff.mpr ?_
    exact h.entries_nodup.sublist (List.filter_sublist.map _)
  refine ((pairwise_comparator _).and (List.pairwise_map.mp hnodup)).imp ?_
  intro p q hpq
  exact lt_of_le_of_ne hpq.1 hpq.2

theorem mem_sortedEntries {kind : PagetableEntry → Bool} {e : PagetableEntry} :
    e ∈ sortedEntries T tbm kind ↔ (∃ k, tbm.find T k = some e) ∧ kind e = true := by
  rw [sortedEntries, List.mem_mergeSort, List.mem_filter, mem_entries]

/-- The counters are the numbers of entries. -/
theorem Wf.sorted_length (h : Wf T tbm) (kind : PagetableEntry → Bool) :
    (sortedEntries T tbm kind).length = count kind (tbm.find T) := by
  have hset : {k | (tbm.find T k).any kind = true} = (((sortedEntries T tbm kind).map (·.blockno)).toFinset : Set Nat) := by
    ext k
    rw [List.coe_toFinset, Set.mem_ofPred_eq, Set.mem_ofPred_eq, List.mem_map, Option.any_eq_true]
    constructor
    · rintro ⟨e, he, hk⟩
      exact ⟨e, mem_sortedEntries.mpr ⟨⟨k, he⟩, hk⟩, h.table.key he⟩
    · rintro ⟨e, he, rfl⟩
      obtain ⟨⟨k, hk⟩, hkind⟩ := mem_sortedEntries.mp he
      exact ⟨e, (h.table.key hk).symm ▸ hk, hkind⟩
  have hnodup : ((sortedEntries T tbm kind).map (·.blockno)).Nodup :=
    List.pairwise_map.mpr ((h.sorted_pairwise kind).imp fun hlt => Nat.ne_of_lt hlt)
  rw [count, hset, Set.ncard_coe_finset, List.toFinset_card_of_nodup hnodup, List.length_map]

/-- The pages and the chunks of a bitmap, sorted. -/
abbrev sortedPages (T : PageTable H) (tbm : TIDBitmap H) : List PagetableEntry :=
  sortedEntries T tbm fun page => !page.ischunk

abbrev sortedChunks (T : PageTable H) (tbm : TIDBitmap H) : List PagetableEntry :=
  sortedEntries T tbm fun page => page.ischunk

theorem Wf.npages_eq (h : Wf T tbm) : tbm.npages = (sortedPages T tbm).length := by
  rw [h.npages, h.sorted_length]

theorem Wf.nchunks_eq (h : Wf T tbm) : tbm.nchunks = (sortedChunks T tbm).length := by
  rw [h.nchunks, h.sorted_length]

/-- **A private iterator finds the sorted pages and chunks.** -/
theorem Wf.private_arrays (h : Wf T tbm) :
    (∀ i < (sortedPages T tbm).length, (match tbm.store with
      | .TBM_ONE_PAGE entry1 => some entry1
      | _ => (tbm_begin_private_iterate T tbm).spages[i]?) = (sortedPages T tbm)[i]?) ∧
    ∀ i < (sortedChunks T tbm).length,
      (tbm_begin_private_iterate T tbm).schunks[i]? = (sortedChunks T tbm)[i]? := by
  have hchunks : (∀ hh, tbm.store ≠ .TBM_HASH hh) → sortedChunks T tbm = [] := by
    intro hne
    by_contra hnil
    have := List.length_pos_of_ne_nil hnil
    rw [← h.nchunks_eq] at this
    obtain ⟨hh, hs⟩ := h.hash (Nat.ne_of_gt this)
    exact hne hh hs
  unfold tbm_begin_private_iterate
  rcases hs : tbm.store with _ | e1 | hh
  · have hnil : ∀ kind, sortedEntries T tbm kind = [] := by
      intro kind
      rw [sortedEntries, TIDBitmap.entries, hs]
      exact List.mergeSort_nil
    unfold sortedPages sortedChunks
    rw [hnil, hnil]
    exact ⟨fun i hi => absurd hi (Nat.not_lt_zero i), fun i hi => absurd hi (Nat.not_lt_zero i)⟩
  · constructor
    · intro i hi
      have hlen : (sortedPages T tbm).length ≤ 1 := by
        unfold sortedPages
        rw [sortedEntries, List.length_mergeSort, TIDBitmap.entries, hs]
        exact List.length_filter_le _ _
      obtain rfl : i = 0 := by omega
      have hm : (sortedPages T tbm)[0] ∈ tbm.entries T := mem_entries.mpr (mem_sortedEntries.mp (List.getElem_mem hi)).1
      rw [TIDBitmap.entries, hs] at hm
      rw [List.getElem?_eq_getElem hi, List.mem_singleton.mp hm]
    · intro i hi
      rw [hchunks (by rw [hs]; exact nofun)] at hi
      exact absurd hi (Nat.not_lt_zero i)
  · exact ⟨fun i _ => rfl, fun i _ => rfl⟩

theorem filterMap_range_getElem? {α : Type} (l : List α) : (List.range l.length).filterMap (fun i => l[i]?) = l := by
  have hmap : (List.range l.length).map (fun i => l[i]?) = l.map some := by
    refine List.ext_getElem? fun i => ?_
    rw [List.getElem?_map, List.getElem?_map]
    rcases Nat.lt_or_ge i l.length with hlt | hge
    · rw [List.getElem?_range hlt, Option.map_some, List.getElem?_eq_getElem hlt]
      rfl
    · rw [List.getElem?_eq_none (by rw [List.length_range]; exact hge), List.getElem?_eq_none hge]
      rfl
  have := congrArg (List.filterMap id) hmap
  rw [List.filterMap_map, List.filterMap_map] at this
  exact this.trans List.filterMap_some

/-- **The sorted indexes point to the sorted entries.** -/
theorem Wf.sortedIndexes_eq (h : Wf T tbm) (kind : PagetableEntry → Bool) (i : Nat) :
    ((sortedIndexes (tbm.entries T) kind)[i]?.bind fun idx => (tbm.entries T)[idx]?) =
      (sortedEntries T tbm kind)[i]? := by
  let base := tbm.entries T
  let l := sortedIndexes base kind
  have hmem : ∀ idx ∈ l, ∃ e, base[idx]? = some e := by
    intro idx hidx
    have hidx' : idx ∈ (List.range base.length).filter fun idx => base[idx]?.any kind := List.mem_mergeSort.mp hidx
    exact ⟨_, List.getElem?_eq_getElem (List.mem_range.mp (List.mem_filter.mp hidx').1)⟩
  have hperm : (l.filterMap fun idx => base[idx]?).Perm (base.filter kind) := by
    refine ((List.mergeSort_perm _ _).filterMap _).trans (List.Perm.of_eq ?_)
    rw [List.filterMap_filter, show base.filter kind = ((List.range base.length).filterMap fun i => base[i]?).filter kind by
      rw [filterMap_range_getElem?], List.filter_filterMap]
    congr 1
    funext idx
    cases base[idx]? with
    | none => rfl
    | some e => rfl
  have hsorted : (l.filterMap fun idx => base[idx]?).Pairwise fun p q => p.blockno ≤ q.blockno := by
    have htrans : ∀ a b c : Nat, tbm_shared_comparator base a b = true → tbm_shared_comparator base b c = true →
        tbm_shared_comparator base a c = true := by
      intro a b c hab hbc
      exact decide_eq_true ((of_decide_eq_true hab).trans (of_decide_eq_true hbc))
    have htotal : ∀ a b : Nat, (tbm_shared_comparator base a b || tbm_shared_comparator base b a) = true := by
      intro a b
      rw [Bool.or_eq_true]
      exact (Nat.le_total _ _).imp (fun h => decide_eq_true h) fun h => decide_eq_true h
    refine List.pairwise_filterMap.mpr ((List.pairwise_mergeSort htrans htotal _).imp ?_)
    intro a b hab p hp q hq
    have := of_decide_eq_true hab
    rw [hp, hq] at this
    exact this
  have heq : (l.filterMap fun idx => base[idx]?) = sortedEntries T tbm kind := by
    refine List.Perm.eq_of_pairwise ?_ hsorted (pairwise_comparator _) (hperm.trans (List.mergeSort_perm _ _).symm)
    intro p q hp hq h1 h2
    obtain ⟨k, hk⟩ := mem_entries.mp (List.mem_filter.mp (hperm.subset hp)).1
    obtain ⟨⟨k', hk'⟩, _⟩ := mem_sortedEntries.mp hq
    have hkk : k = k' := by rw [← h.table.key hk, ← h.table.key hk', Nat.le_antisymm h1 h2]
    rw [hkk, hk'] at hk
    exact (Option.some.inj hk).symm
  have hmap : l.map (fun idx => base[idx]?) = (sortedEntries T tbm kind).map some := by
    rw [← heq, List.map_filterMap_some_eq_filter_map_isSome, List.filter_eq_self.mpr]
    intro o ho
    obtain ⟨idx, hidx, rfl⟩ := List.mem_map.mp ho
    obtain ⟨e, he⟩ := hmem idx hidx
    rw [he]
    rfl
  have := congrArg (fun l => (l[i]?).bind id) hmap
  simp only [List.getElem?_map] at this
  rw [Option.bind_map, Option.bind_map] at this
  exact this.trans (by cases (sortedEntries T tbm kind)[i]? <;> rfl)

/-! ## 4. The answers of a bitmap -/

theorem mem_chunkFrom {c : PagetableEntry} {p : Nat} :
    p ∈ chunkFrom c 0 ↔ ∃ x < PAGES_PER_CHUNK, c.bit x = true ∧ p = c.blockno + x := by
  rw [chunkFrom, List.mem_map]
  constructor
  · rintro ⟨x, hx, rfl⟩
    obtain ⟨hr, hb⟩ := List.mem_filter.mp hx
    exact ⟨x, by have := List.mem_range'_1.mp hr; omega, hb, rfl⟩
  · rintro ⟨x, hx, hb, rfl⟩
    exact ⟨x, List.mem_filter.mpr ⟨List.mem_range'_1.mpr (by omega), hb⟩, rfl⟩

theorem chunkFrom_pairwise (c : PagetableEntry) : (chunkFrom c 0).Pairwise (· < ·) := by
  have hrange : (List.range' 0 (PAGES_PER_CHUNK - 0)).Pairwise (· < ·) := List.pairwise_lt_range'
  exact List.pairwise_map.mpr ((hrange.filter _).imp fun hlt => Nat.add_lt_add_left hlt _)

/-- The pages of the chunks of a bitmap, in order. -/
def lossyPages (T : PageTable H) (tbm : TIDBitmap H) : List Nat := (sortedChunks T tbm).flatMap fun c => chunkFrom c 0

theorem Wf.mem_lossyPages (h : Wf T tbm) (p : Nat) : p ∈ lossyPages T tbm ↔ LossyAt (tbm.find T) p := by
  rw [lossyPages, List.mem_flatMap]
  constructor
  · rintro ⟨c, hc, hp⟩
    obtain ⟨⟨k, hk⟩, hcc⟩ := mem_sortedEntries.mp hc
    obtain ⟨x, hx, hb, rfl⟩ := mem_chunkFrom.mp hp
    rw [h.table.key hk]
    exact (lossyAt_chunk h.table hk hcc hx).mpr hb
  · rintro ⟨c, hc, hcc, hb⟩
    refine ⟨c, mem_sortedEntries.mpr ⟨⟨_, hc⟩, hcc⟩, mem_chunkFrom.mpr ⟨_, mod_chunk_lt p, hb, ?_⟩⟩
    rw [h.table.key hc, header_add]

theorem Wf.lossyPages_pairwise (h : Wf T tbm) : (lossyPages T tbm).Pairwise (· < ·) := by
  have hmod : ∀ c ∈ sortedChunks T tbm, c.blockno % PAGES_PER_CHUNK = 0 := by
    intro c hc
    obtain ⟨⟨k, hk⟩, hcc⟩ := mem_sortedEntries.mp hc
    rw [h.table.key hk]
    exact h.table.header hk hcc
  refine List.pairwise_flatMap.mpr ⟨fun c _ => chunkFrom_pairwise c, ?_⟩
  refine (h.sorted_pairwise _).imp_of_mem ?_
  intro c d hc hd hlt p hp q hq
  obtain ⟨x, hx, _, rfl⟩ := mem_chunkFrom.mp hp
  obtain ⟨y, _, _, rfl⟩ := mem_chunkFrom.mp hq
  -- the ranges of two chunks do not overlap
  have h1 := hmod c hc
  have h2 := hmod d hd
  unfold PAGES_PER_CHUNK at *
  omega

/-- What an iteration of a bitmap returns. -/
def scanAnswers (T : PageTable H) (tbm : TIDBitmap H) : List TBMIterateResult :=
  answers (lossyPages T tbm) (sortedPages T tbm)

theorem remaining_init : remaining (sortedPages T tbm) (sortedChunks T tbm) .init = scanAnswers T tbm := by
  unfold remaining scanAnswers
  congr 1
  unfold chunkRest lossyPages
  simp only [IterState.init, List.drop_zero]
  cases sortedChunks T tbm with
  | nil => rfl
  | cons c cs => rfl

/-- **What an iteration must return for a set of TIDs**: blocks in strictly increasing order, which cover the set
    and are exact where neither lossy nor to be rechecked. -/
structure Returns (M : Set ItemPointer) (L : List TBMIterateResult) : Prop where
  increasing : L.Pairwise fun r s => r.blockno < s.blockno
  cover : ∀ t ∈ M, ∃ r ∈ L, r.blockno = t.blkno ∧
    (r.lossy = true ∨ t.offno ∈ (tbm_extract_page_tuple r TBM_MAX_TUPLES_PER_PAGE).1)
  exact : ∀ r ∈ L, r.lossy = false → r.recheck = false → ∀ max_offsets,
    ∀ off ∈ (tbm_extract_page_tuple r max_offsets).1, ⟨r.blockno, off⟩ ∈ M

/-- An exact page has at most `TBM_MAX_TUPLES_PER_PAGE` offsets. -/
theorem Wf.bits_length (h : Wf T tbm) {k : Nat} {e : PagetableEntry} (he : tbm.find T k = some e) (hc : e.ischunk = false) :
    (e.bits WORDS_PER_PAGE 1).length ≤ TBM_MAX_TUPLES_PER_PAGE := by
  have hsub : (e.bits WORDS_PER_PAGE 1) ⊆ List.range' 1 TBM_MAX_TUPLES_PER_PAGE := by
    intro off hoff
    obtain ⟨x, _, rfl, hb⟩ := (mem_bits _ _ _ _).mp hoff
    have hx : x < TBM_MAX_TUPLES_PER_PAGE := by
      by_contra hge
      rw [h.table.offsets he hc x (Nat.le_of_not_lt hge)] at hb
      cases hb
    exact List.mem_range'_1.mpr (by omega)
  have hnodup : (e.bits WORDS_PER_PAGE 1).Nodup := (bits_pairwise _ _ _).imp fun hlt => Nat.ne_of_lt hlt
  have := (List.subperm_of_subset hnodup hsub).length_le
  rwa [List.length_range'] at this

/-- **The answers of a bitmap are right.** -/
theorem Wf.scan_returns (h : Wf T tbm) {M : Set ItemPointer} (hb : Bounds (tbm.find T) M M) :
    Returns M (scanAnswers T tbm) where
  increasing := by
    refine answers_pairwise _ _ h.lossyPages_pairwise (h.sorted_pairwise _) ?_
    rintro p hp e he rfl
    obtain ⟨⟨k, hk⟩, hc⟩ := mem_sortedEntries.mp he
    have hl := (h.mem_lossyPages _).mp hp
    rw [h.table.key hk] at hl
    rw [h.table.apart hl hk] at hc
    cases hc
  cover t ht := by
    rcases hb.cover t ht with hl | ⟨e, ⟨he, hc⟩, hoff, hbit⟩
    · exact ⟨_, (mem_answers _ _).mpr (Or.inl ⟨_, (h.mem_lossyPages _).mpr hl, rfl⟩), rfl, Or.inl rfl⟩
    · have hm : e ∈ sortedPages T tbm := mem_sortedEntries.mpr ⟨⟨_, he⟩, by rw [hc]; rfl⟩
      refine ⟨_, (mem_answers _ _).mpr (Or.inr ⟨e, hm, rfl⟩), h.table.key he, Or.inr ?_⟩
      have hx : t.offno - 1 < TBM_MAX_TUPLES_PER_PAGE := by
        by_contra hge
        rw [h.table.offsets he hc _ (Nat.le_of_not_lt hge)] at hbit
        cases hbit
      have hmem : t.offno ∈ e.bits WORDS_PER_PAGE 1 := by
        refine (mem_bits _ _ _ _).mpr ⟨t.offno - 1, ?_, by omega, hbit⟩
        unfold WORDS_PER_PAGE TBM_MAX_TUPLES_PER_PAGE BITS_PER_BITMAPWORD at *
        omega
      simp only [tbm_extract_page_tuple, exactResult]
      rw [List.take_of_length_le (h.bits_length he hc)]
      exact hmem
  exact r hr hlossy hrecheck max_offsets off hoff := by
    rcases (mem_answers _ _).mp hr with ⟨c, _, rfl⟩ | ⟨e, he, rfl⟩
    · cases hlossy
    · obtain ⟨⟨k, hk⟩, hc⟩ := mem_sortedEntries.mp he
      rw [Bool.not_eq_true'] at hc
      have hoff' := List.mem_of_mem_take (l := e.bits WORDS_PER_PAGE 1) hoff
      obtain ⟨x, _, rfl, hbit⟩ := (mem_bits _ _ _ _).mp hoff'
      have := hb.exact k e ⟨hk, hc⟩ hrecheck x hbit
      rw [← h.table.key hk, Nat.add_comm x 1] at this
      exact this

/-! ## 5. The calls of the iterators -/

/-- **A call of a private iterator.** -/
theorem Wf.private_iterate (h : Wf T tbm) (it : IterState) :
    (tbm_private_iterate tbm (tbm_begin_private_iterate T tbm) it).1 =
        (remaining (sortedPages T tbm) (sortedChunks T tbm) it).head? ∧
      remaining (sortedPages T tbm) (sortedChunks T tbm)
          (tbm_private_iterate tbm (tbm_begin_private_iterate T tbm) it).2 =
        (remaining (sortedPages T tbm) (sortedChunks T tbm) it).tail := by
  obtain ⟨hp, hs⟩ := h.private_arrays
  have hstep := iterateNext_spec hp hs it
  rw [← h.npages_eq, ← h.nchunks_eq] at hstep
  exact hstep

/-- **A call of a shared iterator**, which changes `spageptr`, `schunkptr` and `schunkbit` only. -/
theorem Wf.shared_iterate (h : Wf T tbm) (it : IterState) :
    (tbm_shared_iterate { tbm_prepare_shared_iterate T tbm with it := it }).1 =
        (remaining (sortedPages T tbm) (sortedChunks T tbm) it).head? ∧
      ∃ it', (tbm_shared_iterate { tbm_prepare_shared_iterate T tbm with it := it }).2 =
          { tbm_prepare_shared_iterate T tbm with it := it' } ∧
        remaining (sortedPages T tbm) (sortedChunks T tbm) it' =
          (remaining (sortedPages T tbm) (sortedChunks T tbm) it).tail := by
  have hp : ∀ i < (sortedPages T tbm).length, ((tbm_prepare_shared_iterate T tbm).ptpages[i]?.bind fun idx =>
      (tbm_prepare_shared_iterate T tbm).ptbase[idx]?) = (sortedPages T tbm)[i]? := fun i _ => h.sortedIndexes_eq _ i
  have hs : ∀ i < (sortedChunks T tbm).length, ((tbm_prepare_shared_iterate T tbm).ptchunks[i]?.bind fun idx =>
      (tbm_prepare_shared_iterate T tbm).ptbase[idx]?) = (sortedChunks T tbm)[i]? := fun i _ => h.sortedIndexes_eq _ i
  have hstep := iterateNext_spec hp hs it
  rw [← h.npages_eq, ← h.nchunks_eq] at hstep
  exact ⟨hstep.1, _, rfl, hstep.2⟩

end Pgvec.Tbm
