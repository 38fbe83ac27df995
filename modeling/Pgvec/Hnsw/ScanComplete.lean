/-
  File:      Pgvec/Hnsw/ScanComplete.lean
  Subject:   AN ITERATIVE SCAN RETURNS EVERY ELEMENT IT VISITS, ONCE.

  * `ScanInv` -- the invariant of a scan between two steps: every visited element is in the discarded
    heap or in `R`, exactly once; the heap TIDs returned and those still in `w` are the heap TIDs of `R`;
    what `R` links to is visited, as long as no limit was hit;
  * `scanInv_searched`, `refill_inv`, `takeTuple_inv` -- a search, a refill, a tuple taken;
  * `getTuple_total`, `scanLoop_total` -- one call of `hnswgettuple` and all of them;
  * **`relaxed_scan_complete`** -- the scan ends; what it returned are the heap TIDs of the visited
    elements, and these are the elements reachable on the ground layer unless a limit was hit.
-/
import Pgvec.Hnsw.ScanFacts

namespace Pgvec.Hnsw

open PairingHeap Conc

variable {V δ : Type}

/-- The candidates of the discarded heap. -/
def HnswScanOpaque.discards (so : HnswScanOpaque V δ) : List (HnswSearchCandidate (HnswElement V) δ) :=
  toList (so.discarded.getD none)

/-- The candidate has heap TIDs and the distance of the element tuple at its TID. -/
def Held (idx : Index V) (support : HnswSupport V δ) (q : Option V)
    (c : HnswSearchCandidate (HnswElement V) δ) : Prop :=
  ∃ etup, idx.elem? c.element.tid = some etup ∧ (∀ t ∈ c.element.heaptids, t ∈ etup.tids) ∧
    c.distance = HnswGetDistance support q etup.data

theorem Faithful.held {idx : Index V} {support : HnswSupport V δ} {q : Option V}
    {c : HnswSearchCandidate (HnswElement V) δ} (h : Faithful idx support q c) :
    Held idx support q c := by
  obtain ⟨etup, he, hc, hd⟩ := h
  refine ⟨etup, he, fun t ht => ?_, hd⟩
  rw [hc] at ht
  exact ht

/-- **The invariant of a scan**; `st` are the elements it started from on the ground layer, `R` the
    elements that left the discarded heap, `out` the heap TIDs returned. -/
structure ScanInv (idx : Index V) (support : HnswSupport V δ) (q : Option V) (Q : ItemPointer → Prop)
    (st R out : List ItemPointer) (so : HnswScanOpaque V δ) : Prop where
  first : so.first = false
  query : so.q = q
  m_eq : so.m = idx.metap.m
  isSome : so.discarded.isSome = true
  good : ∀ c ∈ so.discards, Faithful idx support q c
  keys : (so.discards.map (fun c => c.element.tid) ++ R).Perm so.v
  nodup : so.v.Nodup
  reach : ∀ t ∈ so.v, Q t
  started : ∀ t ∈ st, t ∈ so.v
  returned : (out ++ so.w.flatMap fun c => c.element.heaptids).Perm (R.flatMap idx.heapTids)
  held : ∀ c ∈ so.w, Held idx support q c
  room : so.w.length ≤ R.length
  closed : so.limitHit = false → ∀ t ∈ R, ∀ u ∈ idx.layerLinks 0 t, u ∈ so.v

/-- What a scan may still do before it returns a tuple. -/
def outstanding (idx : Index V) (so : HnswScanOpaque V δ) : Nat :=
  so.w.length + so.discards.length + (idx.tids.toFinset \ so.v.toFinset).card

section Inv

variable {idx : Index V} {support : HnswSupport V δ} {q : Option V} {Q : ItemPointer → Prop}
  {st R out : List ItemPointer} {so : HnswScanOpaque V δ}

theorem card_visited {v : List ItemPointer} (hnd : v.Nodup) (hv : ∀ t ∈ v, t ∈ idx.tids) :
    (idx.tids.toFinset \ v.toFinset).card + v.length = idx.tids.toFinset.card := by
  have hsub : v.toFinset ⊆ idx.tids.toFinset := fun t ht =>
    List.mem_toFinset.mpr (hv t (List.mem_toFinset.mp ht))
  rw [← List.toFinset_card_of_nodup hnd, Finset.card_sdiff_add_card_eq_card hsub]

/-- The count behind the termination: what left the heap, and what is outstanding without `w`. -/
theorem ScanInv.count (h : ScanInv idx support q Q st R out so)
    (hQ : ∀ t, Q t → ∃ f, idx.elem? t = some f) :
    so.discards.length + (idx.tids.toFinset \ so.v.toFinset).card + R.length =
      idx.tids.toFinset.card := by
  have h1 := h.keys.length_eq
  simp only [List.length_append, List.length_map] at h1
  have h2 := card_visited h.nodup fun t ht => by
    obtain ⟨f, hf⟩ := hQ t (h.reach t ht)
    exact Index.elem?_mem_tids hf
  omega

theorem ScanInv.outstanding_le (h : ScanInv idx support q Q st R out so)
    (hQ : ∀ t, Q t → ∃ f, idx.elem? t = some f) : outstanding idx so ≤ idx.tids.length := by
  have h1 := h.count hQ
  have h2 := h.room
  have h3 := List.toFinset_card_le idx.tids
  unfold outstanding
  omega

theorem heapTids_length (idx : Index V) (t : ItemPointer) : (idx.heapTids t).length ≤ HNSW_HEAPTIDS := by
  unfold Index.heapTids
  split
  · exact Nat.zero_le _
  · rename_i e _
    rw [← e.hlen]
    exact (List.takeWhile_sublist _).length_le

/-- As many heap TIDs can be returned as the elements hold. -/
theorem ScanInv.out_length (h : ScanInv idx support q Q st R out so)
    (hQ : ∀ t, Q t → ∃ f, idx.elem? t = some f) : out.length ≤ HNSW_HEAPTIDS * idx.tids.length := by
  have h1 := h.returned.length_eq
  have h2 : ∀ l : List ItemPointer, (l.flatMap idx.heapTids).length ≤ HNSW_HEAPTIDS * l.length := by
    intro l
    induction l with
    | nil => simp
    | cons t l ih =>
        have := heapTids_length idx t
        simp only [List.flatMap_cons, List.length_append, List.length_cons]
        rw [Nat.mul_succ]
        omega
  have h3 := h.count hQ
  have h4 := List.toFinset_card_le idx.tids
  have h5 : HNSW_HEAPTIDS * R.length ≤ HNSW_HEAPTIDS * idx.tids.length :=
    Nat.mul_le_mul_left _ (by omega)
  have h6 := h2 R
  rw [List.length_append] at h1
  omega

theorem flatMap_heaptids {w : List (HnswSearchCandidate (HnswElement V) δ)}
    (h : ∀ c ∈ w, Faithful idx support q c) :
    (w.flatMap fun c => c.element.heaptids) = (w.map fun c => c.element.tid).flatMap idx.heapTids := by
  rw [List.flatMap_map]
  exact List.flatMap_congr fun c hc => (h c hc).heaptids

variable [LinearOrder δ]

/-- **After a search that emptied into `w`** the scan is in its invariant again. -/
theorem scanInv_searched (so : HnswScanOpaque V δ) (st : List ItemPointer)
    {s : SearchState (HnswElement V) ItemPointer δ} (hf : so.first = false)
    (hq : so.q = q) (hm : so.m = idx.metap.m) (hg : GroundInv idx support q Q R [] s)
    (hexp : ∀ c ∈ toList s.W, ∀ u ∈ idx.layerLinks 0 c.element.tid, u ∈ s.v)
    (hst : ∀ t ∈ st, t ∈ s.v) (hret : out.Perm (R.flatMap idx.heapTids))
    (hcl : so.limitHit = false → ∀ t ∈ R, ∀ u ∈ idx.layerLinks 0 t, u ∈ s.v) :
    ScanInv idx support q Q st ((searchEnd s).w.map (fun c => c.element.tid) ++ R) out
      (so.searched (searchEnd s)) := by
  have hw := searchEnd_perm s
  have hd : (so.searched (searchEnd s)).discarded = s.discarded := by
    show (if s.discarded.isSome = true then s.discarded else so.discarded) = s.discarded
    rw [if_pos hg.isSome]
  have hds : (so.searched (searchEnd s)).discards = s.discards := by
    unfold HnswScanOpaque.discards SearchState.discards
    rw [hd]
  have hfaith : ∀ c ∈ (searchEnd s).w, Faithful idx support q c := fun c hc =>
    hg.good c (List.mem_append_left _ (hw.mem_iff.mp hc))
  exact {
    first := hf
    query := hq
    m_eq := hm
    isSome := by rw [hd]; exact hg.isSome
    good := by
      rw [hds]
      exact fun c hc => hg.good c (List.mem_append_right _ hc)
    keys := by
      rw [hds]
      refine List.Perm.trans ?_ hg.keys
      rw [List.perm_iff_count]
      intro a
      have := (hw.map fun c => c.element.tid).count_eq a
      simp only [List.map_append, List.count_append, List.count_nil] at this ⊢
      omega
    nodup := hg.nodup
    reach := hg.reach
    started := hst
    returned := by
      show (out ++ (searchEnd s).w.flatMap fun c => c.element.heaptids).Perm _
      rw [flatMap_heaptids hfaith, List.flatMap_append]
      exact (hret.append_right _).trans List.perm_append_comm
    held := fun c hc => (hfaith c hc).held
    room := by
      show (searchEnd s).w.length ≤ _
      simp
    closed := by
      intro hl t ht
      rcases List.mem_append.mp ht with ht | ht
      · obtain ⟨c, hc, rfl⟩ := List.mem_map.mp ht
        exact hexp c (hw.mem_iff.mp hc)
      · exact hcl hl t ht }

end Inv

/-! ## 1. The two searches -/

section Searches

variable [LinearOrder δ] {idx : Index V} {support : HnswSupport V δ} {q : Option V}
  {Q : ItemPointer → Prop} {st R out : List ItemPointer} {so : HnswScanOpaque V δ} {cfg : ScanConfig}

theorem takeDiscarded_spec : ∀ (n : Nat) (d : Heap (HnswSearchCandidate (HnswElement V) δ)),
    ((takeDiscarded n d).1 ++ toList (takeDiscarded n d).2).Perm (toList d) ∧
      (d ≠ none → 0 < n → (takeDiscarded n d).1 ≠ [])
  | 0, d => ⟨.refl _, fun _ h => absurd h (Nat.lt_irrefl 0)⟩
  | n + 1, d => by
      cases hr : removeFirst CompareNearestDiscardedCandidates d with
      | none =>
          simp only [takeDiscarded, hr]
          exact ⟨.refl _, fun hd => absurd ((removeFirst_eq_none _).mp hr) hd⟩
      | some x =>
          simp only [takeDiscarded, hr]
          refine ⟨?_, fun _ _ h => by cases h⟩
          exact ((takeDiscarded_spec n x.2).1.cons x.1).trans (removeFirst_perm _ hr).symm

/-- The state a resumed search starts in. -/
theorem groundInv_resume {d : Heap (HnswSearchCandidate (HnswElement V) δ)} {n : Nat}
    (tuples : Nat) (h : ScanInv idx support q Q st R out so) (hd : so.discarded = some d) (hne : d ≠ none)
    (hn : 0 < n) :
    GroundInv idx support q Q R [] (searchStart (readEnv idx support q false false idx.metap.m 0)
      (takeDiscarded n d).1 so.v (some (takeDiscarded n d).2) false tuples) := by
  obtain ⟨hp, hne'⟩ := takeDiscarded_spec n d
  have hds : so.discards = toList d := by
    unfold HnswScanOpaque.discards
    rw [hd]
    rfl
  generalize hs : searchStart (readEnv idx support q false false idx.metap.m 0)
    (takeDiscarded n d).1 so.v (some (takeDiscarded n d).2) false tuples = s
  have hv : s.v = so.v := by rw [← hs]; exact searchStart_kept
  have hdisc : s.discarded = some (takeDiscarded n d).2 := by
    rw [← hs, searchStart_discarded]
    rfl
  obtain ⟨hC, hW⟩ : (toList s.C).Perm (takeDiscarded n d).1 ∧
      (toList s.W).Perm (takeDiscarded n d).1 := by
    rw [← hs]
    exact searchStart_perm _ _ _ _ _ _
  obtain ⟨hhC, hhW⟩ : HeapedH CompareNearestCandidates s.C ∧ HeapedH CompareFurthestCandidates s.W := by
    rw [← hs]
    exact searchStart_heaped
  have hdisc' : s.discards = toList (takeDiscarded n d).2 := by
    unfold SearchState.discards
    rw [hdisc]
    rfl
  have hgood : ∀ c ∈ (takeDiscarded n d).1 ++ toList (takeDiscarded n d).2,
      Faithful idx support q c ∧ c.element.tid ∈ so.v := by
    intro c hc
    have hc' : c ∈ so.discards := by
      rw [hds]
      exact hp.mem_iff.mp hc
    exact ⟨h.good c hc', h.keys.mem_iff.mp (List.mem_append_left _ (List.mem_map_of_mem hc'))⟩
  exact {
    W_ne := by rw [← hs]; exact searchStart_W_ne (hne' hne hn)
    heapC := hhC
    heapW := hhW
    isSome := by rw [hdisc]; rfl
    goodC := fun c hc =>
      have hc := hgood c (List.mem_append_left _ (hC.mem_iff.mp hc))
      ⟨hc.1, h.reach _ hc.2⟩
    good := by
      rw [hdisc']
      intro c hc
      rcases List.mem_append.mp hc with hc | hc
      · exact (hgood c (List.mem_append_left _ (hW.mem_iff.mp hc))).1
      · exact (hgood c (List.mem_append_right _ hc)).1
    keys := by
      rw [hdisc', hv]
      refine List.Perm.trans ?_ h.keys
      rw [hds, List.append_nil]
      refine List.Perm.append_right R (List.Perm.map _ ?_)
      exact (hW.append_right _).trans hp
    nodup := by rw [hv]; exact h.nodup
    reach := by rw [hv]; exact h.reach
    expanded := fun c hc => Or.inl (hC.mem_iff.mpr (hW.mem_iff.mp hc)) }

/-- The state the first ground-layer search starts in. -/
theorem groundInv_first {ep : List (HnswSearchCandidate (HnswElement V) δ)} {tuples : Nat}
    (hne : ep ≠ []) (hf : ∀ c ∈ ep, Faithful idx support q c) (hQ : ∀ c ∈ ep, Q c.element.tid)
    (hnd : (ep.map fun c => c.element.tid).Nodup) :
    GroundInv idx support q Q [] [] (searchStart (readEnv idx support q false false idx.metap.m 0) ep
      [] (some none) true tuples) := by
  generalize hs : searchStart (readEnv idx support q false false idx.metap.m 0) ep [] (some none)
    true tuples = s
  have hdisc : s.discarded = some none := by
    rw [← hs, searchStart_discarded]
    rfl
  obtain ⟨hC, hW⟩ : (toList s.C).Perm ep ∧ (toList s.W).Perm ep := by
    rw [← hs]
    exact searchStart_perm _ _ _ _ _ _
  obtain ⟨hhC, hhW⟩ : HeapedH CompareNearestCandidates s.C ∧ HeapedH CompareFurthestCandidates s.W := by
    rw [← hs]
    exact searchStart_heaped
  have hdisc' : s.discards = [] := by
    unfold SearchState.discards
    rw [hdisc]
    rfl
  have hv : ∀ t, t ∈ s.v ↔ t ∈ ep.map fun c => c.element.tid := by
    intro t
    rw [← hs, mem_searchStart, List.mem_map]
    rfl
  have hvn : s.v.Nodup := by rw [← hs]; exact searchStart_nodup
  exact {
    W_ne := by rw [← hs]; exact searchStart_W_ne hne
    heapC := hhC
    heapW := hhW
    isSome := by rw [hdisc]; rfl
    goodC := fun c hc => ⟨hf c (hC.mem_iff.mp hc), hQ c (hC.mem_iff.mp hc)⟩
    good := by
      rw [hdisc', List.append_nil]
      exact fun c hc => hf c (hW.mem_iff.mp hc)
    keys := by
      rw [hdisc', List.append_nil, List.append_nil, List.append_nil]
      exact (hW.map _).trans ((List.perm_ext_iff_of_nodup hnd hvn).mpr fun t => (hv t).symm)
    nodup := hvn
    reach := by
      intro t ht
      obtain ⟨c, hc, rfl⟩ := List.mem_map.mp ((hv t).mp ht)
      exact hQ c hc
    expanded := fun c hc => Or.inl (hC.mem_iff.mpr (hW.mem_iff.mp hc)) }

/-- A search starts with its entry points to expand and every TID to visit at most. -/
theorem remaining_start (idx : Index V)
    (env : SearchEnv Option (HnswElement V) ItemPointer ItemPointer δ)
    (ep : List (HnswSearchCandidate (HnswElement V) δ)) (v : List ItemPointer)
    (d : Option (Heap (HnswSearchCandidate (HnswElement V) δ))) (iv : Bool) (tuples : Nat) :
    remaining idx.tids.toFinset (searchStart env ep v d iv tuples) ≤ ep.length + idx.tids.length := by
  have h1 := (searchStart_perm env ep v d iv tuples).1.length_eq
  have h2 := List.toFinset_card_le idx.tids
  have h3 := Finset.card_le_card (Finset.sdiff_subset (s := idx.tids.toFinset)
    (t := (searchStart env ep v d iv tuples).v.toFinset))
  unfold remaining
  omega

/-- The search given back, from the end of its loop. -/
theorem searchLayer_of_loop {env : SearchEnv Option (HnswElement V) ItemPointer ItemPointer δ}
    {ep : List (HnswSearchCandidate (HnswElement V) δ)} {ef lc : Nat} {v : List ItemPointer}
    {d : Option (Heap (HnswSearchCandidate (HnswElement V) δ))} {iv : Bool} {tuples n : Nat}
    {s : SearchState (HnswElement V) ItemPointer δ}
    (h : searchLoop env ef lc n (searchStart env ep v d iv tuples) = some s) :
    HnswSearchLayer env ep ef lc v d iv tuples n = some (searchEnd s) := by
  unfold HnswSearchLayer
  rw [h]
  rfl

/-- **A resumed search** keeps the invariant and leaves something in `w`. -/
theorem resume_inv (hL : idx.Linked) (hS : idx.Shaped)
    (hQc : ∀ t u, Q t → u ∈ idx.layerLinks 0 t → Q u) (hQe : ∀ t, Q t → ∃ f, idx.elem? t = some f)
    (hef : 0 < cfg.hnsw_ef_search) {n : Nat} (hn : 2 * idx.tids.length < n)
    {d : Heap (HnswSearchCandidate (HnswElement V) δ)} (h : ScanInv idx support q Q st R out so)
    (hw : so.w = []) (hd : so.discarded = some d) (hne : d ≠ none) :
    ∃ R' so', readRun idx (ResumeScanItems support cfg so d n) = some so' ∧
      ScanInv idx support q Q st R' out so' ∧ outstanding idx so' ≤ outstanding idx so ∧ so'.w ≠ [] := by
  have hg := groundInv_resume so.tuples h hd hne hef
  have hcount := h.count hQe
  have hds : so.discards.length = (toList d).length := by
    unfold HnswScanOpaque.discards
    rw [hd]
    rfl
  have hep : (takeDiscarded cfg.hnsw_ef_search d).1.length ≤ idx.tids.length := by
    have h1 := (takeDiscarded_spec cfg.hnsw_ef_search d).1.length_eq
    have h2 := List.toFinset_card_le idx.tids
    rw [List.length_append] at h1
    omega
  have hrem := remaining_start idx (readEnv idx support q false false idx.metap.m 0)
    (takeDiscarded cfg.hnsw_ef_search d).1 so.v (some (takeDiscarded cfg.hnsw_ef_search d).2) false
    so.tuples
  obtain ⟨s', hs', hg', hsub, hexp⟩ := ground_search (n := n) hL hS hQc hg
    (by omega)
  have hret : out.Perm (R.flatMap idx.heapTids) := by
    have := h.returned
    rwa [hw, List.flatMap_nil, List.append_nil] at this
  have hkept : ∀ t ∈ so.v, t ∈ s'.v := by
    intro t ht
    refine hsub t ?_
    rw [searchStart_kept]
    exact ht
  have hinv := scanInv_searched so st h.first h.query h.m_eq hg' hexp
    (fun t ht => hkept t (h.started t ht)) hret
    (fun hl t ht u hu => hkept u (h.closed hl t ht u hu))
  refine ⟨_, so.searched (searchEnd s'), ?_, hinv, ?_, ?_⟩
  · unfold ResumeScanItems
    have hno : d.isNone = false := by
      cases d with
      | none => exact absurd rfl hne
      | some x => rfl
    rw [hno, h.query, h.m_eq]
    simp only [Bool.false_eq_true, if_false]
    rw [readRun_bind, readRun_searchLayer, searchLayer_of_loop hs']
    rfl
  · have hcount' := hinv.count hQe
    have hwl : (so.searched (searchEnd s')).w.length = (searchEnd s').w.length := rfl
    unfold outstanding
    rw [hw]
    simp only [List.length_append, List.length_map, List.length_nil] at hcount' ⊢
    omega
  · intro hnil
    have hp := searchEnd_perm s'
    have hnil' : (searchEnd s').w = [] := hnil
    rw [hnil'] at hp
    exact hg'.W_ne (toList_eq_nil.mp (List.nil_perm.mp hp))

end Searches

/-! ## 2. One call of `hnswgettuple` -/

section Call

variable [LinearOrder δ] {idx : Index V} {support : HnswSupport V δ} {q : Option V}
  {Q : ItemPointer → Prop} {st R out : List ItemPointer} {so : HnswScanOpaque V δ} {cfg : ScanConfig}
  {budget : Nat}

/-- **Refilling `w`** keeps the invariant; `w` stays empty only when nothing is left. -/
theorem refill_inv (hL : idx.Linked) (hS : idx.Shaped)
    (hQc : ∀ t u, Q t → u ∈ idx.layerLinks 0 t → Q u) (hQe : ∀ t, Q t → ∃ f, idx.elem? t = some f)
    (hef : 0 < cfg.hnsw_ef_search) (hmode : cfg.hnsw_iterative_scan ≠ .HNSW_ITERATIVE_SCAN_OFF)
    (hb : 2 * idx.tids.length < budget) (h : ScanInv idx support q Q st R out so) (hw : so.w = []) :
    ∃ R' so', readRun idx (refill support cfg so budget) = some so' ∧
      ScanInv idx support q Q st R' out so' ∧ outstanding idx so' ≤ outstanding idx so ∧
      (so'.w = [] → so'.discards = []) := by
  obtain ⟨d, hd⟩ := Option.isSome_iff_exists.mp h.isSome
  obtain ⟨first, w, v, discarded, tuples, previousDistance, q0, m0, checks, limitHit⟩ := so
  simp only at hd hw
  subst hd hw
  have hret := h.returned
  simp only [List.flatMap_nil, List.append_nil] at hret
  simp only [refill, if_neg hmode]
  by_cases hlim : cfg.hnsw_max_scan_tuples ≤ tuples ∨ cfg.memory checks = true
  · -- a limit was hit: one discarded candidate is returned as it is
    rw [if_pos hlim]
    cases hr : removeFirst CompareNearestDiscardedCandidates d with
    | none =>
        refine ⟨R, _, rfl, { h with closed := fun hl => by cases hl }, Nat.le_refl _, fun _ => ?_⟩
        rw [(removeFirst_eq_none _).mp hr]
        rfl
    | some x =>
        obtain ⟨sc, d'⟩ := x
        have hp := removeFirst_perm _ hr
        have hsc : Faithful idx support q sc := h.good sc (hp.mem_iff.mpr List.mem_cons_self)
        refine ⟨sc.element.tid :: R, _, rfl, ?_, ?_, fun hnil => by cases hnil⟩
        · exact { h with
            isSome := rfl
            good := fun c hc => h.good c (hp.mem_iff.mpr (List.mem_cons_of_mem _ hc))
            keys := by
              refine List.Perm.trans ?_ h.keys
              refine List.perm_middle.trans ?_
              exact ((hp.map fun c => c.element.tid).append_right R).symm
            returned := by
              simp only [List.flatMap_cons, List.flatMap_nil, List.append_nil]
              rw [hsc.heaptids]
              exact (hret.append_right _).trans List.perm_append_comm
            held := by
              intro c hc
              rw [List.mem_singleton] at hc
              exact hc ▸ hsc.held
            room := by simp
            closed := fun hl => by cases hl }
        · have hlen := hp.length_eq
          simp only [outstanding, HnswScanOpaque.discards, Option.getD_some, List.length_cons,
            List.length_nil] at hlen ⊢
          omega
  · rw [if_neg hlim]
    have hchk : ScanInv idx support q Q st R out
        ⟨first, [], v, some d, tuples, previousDistance, q0, m0, checks + 1, limitHit⟩ := { h with }
    rw [readRun_bind, readRun_lockPage]
    simp only [Option.bind_some]
    rw [readRun_bind]
    by_cases hne : d = none
    · subst hne
      exact ⟨R, _, rfl, hchk, Nat.le_refl _, fun _ => rfl⟩
    · obtain ⟨R', so', h1, h2, h3, h4⟩ := resume_inv hL hS hQc hQe hef hb hchk rfl rfl hne
      rw [h1]
      exact ⟨R', so', rfl, h2, h3, fun hnil => absurd hnil h4⟩

theorem fill_inv (hL : idx.Linked) (hS : idx.Shaped)
    (hQc : ∀ t u, Q t → u ∈ idx.layerLinks 0 t → Q u) (hQe : ∀ t, Q t → ∃ f, idx.elem? t = some f)
    (hef : 0 < cfg.hnsw_ef_search) (hmode : cfg.hnsw_iterative_scan ≠ .HNSW_ITERATIVE_SCAN_OFF)
    (hb : 2 * idx.tids.length < budget) (h : ScanInv idx support q Q st R out so) :
    ∃ R' so', readRun idx (fill support cfg so budget) = some so' ∧
      ScanInv idx support q Q st R' out so' ∧ outstanding idx so' ≤ outstanding idx so ∧
      (so'.w = [] → so'.discards = []) := by
  unfold fill
  by_cases hw : so.w = []
  · rw [if_pos (by rw [hw]; rfl)]
    exact refill_inv hL hS hQc hQe hef hmode hb h hw
  · rw [if_neg fun he => hw (List.isEmpty_iff.mp he)]
    exact ⟨R, so, rfl, h, Nat.le_refl _, fun hnil => absurd hnil hw⟩

/-- **Taking a tuple** keeps the invariant: a heap TID moves from `w` to the ones returned, or an element
    without any is dropped. -/
theorem takeTuple_inv (hmode : cfg.hnsw_iterative_scan ≠ .HNSW_ITERATIVE_SCAN_STRICT)
    (h : ScanInv idx support q Q st R out so) :
    match takeTuple cfg so with
    | .stop => so.w = []
    | .again so' => ScanInv idx support q Q st R out so' ∧ outstanding idx so' < outstanding idx so
    | .found t so' => ScanInv idx support q Q st R (out ++ [t]) so' := by
  unfold takeTuple
  cases hl : so.w.getLast? with
  | none => exact List.getLast?_eq_none_iff.mp hl
  | some sc =>
      obtain ⟨w, hw⟩ := List.getLast?_eq_some_iff.mp hl
      have hdrop : so.w.dropLast = w := by rw [hw, List.dropLast_concat]
      have hlen : so.w.length = w.length + 1 := by rw [hw]; simp
      have hroom := h.room
      have hret := h.returned
      rw [hw, List.flatMap_append, List.flatMap_singleton] at hret
      simp only [hdrop]
      cases ht : sc.element.heaptids.getLast? with
      | none =>
          have hnil := List.getLast?_eq_none_iff.mp ht
          rw [hnil, List.append_nil] at hret
          refine ⟨{ h with
            returned := hret
            held := fun c hc => h.held c (by rw [hw]; exact List.mem_append_left _ hc)
            room := by simp only; omega }, ?_⟩
          unfold outstanding
          simp only [HnswScanOpaque.discards]
          omega
      | some t =>
          obtain ⟨ts, hts⟩ := List.getLast?_eq_some_iff.mp ht
          simp only [if_neg hmode]
          refine { h with returned := ?_, held := ?_, room := by simpa [hlen] using hroom }
          swap
          · intro c hc
            rcases List.mem_append.mp hc with hc | hc
            · exact h.held c (by rw [hw]; exact List.mem_append_left _ hc)
            · rw [List.mem_singleton] at hc
              subst hc
              obtain ⟨etup, he, hsub, hd⟩ := h.held sc (by rw [hw]; simp)
              exact ⟨etup, he, fun t ht => hsub t (List.mem_of_mem_dropLast ht), hd⟩
          refine List.Perm.trans ?_ hret
          rw [List.flatMap_append, List.flatMap_singleton, hts, List.dropLast_concat]
          simp only [List.append_assoc]
          refine List.Perm.append_left out ?_
          rw [← List.append_assoc (w.flatMap _) ts [t]]
          exact List.perm_append_comm

end Call

/-! ## 3. The whole scan -/

/-- Reachable from the given elements through ground-layer slots. -/
inductive Index.Reachable (idx : Index V) (start : List ItemPointer) : ItemPointer → Prop where
  | start {t : ItemPointer} (h : t ∈ start) : Reachable idx start t
  | link {t u : ItemPointer} (h : Reachable idx start t) (hu : u ∈ idx.layerLinks 0 t) :
      Reachable idx start u

/-- What is reachable from faithful candidates is there. -/
theorem reachable_elem {idx : Index V} {support : HnswSupport V δ} {q : Option V} (hL : idx.Linked)
    {ep : List (HnswSearchCandidate (HnswElement V) δ)} (hf : ∀ c ∈ ep, Faithful idx support q c)
    {t : ItemPointer} (ht : idx.Reachable (ep.map fun c => c.element.tid) t) :
    ∃ f, idx.elem? t = some f := by
  cases ht with
  | start h =>
      obtain ⟨c, hc, rfl⟩ := List.mem_map.mp h
      obtain ⟨etup, hetup, _⟩ := hf c hc
      exact ⟨etup, hetup⟩
  | link _ hu => exact Index.layerLinks_elem hL hu

section Whole

variable [LinearOrder δ] {idx : Index V} {rel : HnswRel V δ} {cfg : ScanConfig} {value : Option V}

/-- The entry candidates of the ground layer are found, and are distinct faithful copies. -/
theorem groundEntries_total (hL : idx.Linked) (hS : idx.Shaped) (support : HnswSupport V δ)
    (q : Option V) {entryPoint : EntryPoint} (he : idx.metap.entry = some entryPoint) {n : Nat}
    (hn : 2 * idx.tids.length < n) :
    ∃ ep, readRun idx (entryCandidates support q idx.metap.m entryPoint n) = some ep ∧ ep ≠ [] ∧
      (∀ c ∈ ep, Faithful idx support q c) ∧ (ep.map fun c => c.element.tid).Nodup := by
  obtain ⟨etup, hetup⟩ := hL.entry he
  have hentry : readRun idx (HnswEntryCandidate support q false entryPoint.tid) =
      some ⟨scanCopy entryPoint.tid etup, HnswGetDistance support q etup.data⟩ := by
    unfold HnswEntryCandidate HnswLoadElementImpl
    rw [Prog.op_bind, readRun_op _ _ rfl]
    simp only [execPage, hetup]
    rfl
  unfold entryCandidates
  rw [readRun_bind, hentry]
  simp only [Option.bind_some, readRun_upperLayers]
  refine upperLayers_total hL hS hn _ _ (by simp) ?_ (by simp)
  intro c hc
  rw [List.mem_singleton] at hc
  subst hc
  exact ⟨faithful_scanCopy hetup, Nat.le_refl _⟩

/-- **`GetScanItems`** puts the scan into its invariant. -/
theorem getScanItems_inv (cfg : ScanConfig) (hL : idx.Linked) (hS : idx.Shaped) {support : HnswSupport V δ}
    {q : Option V} (hmode : cfg.hnsw_iterative_scan = .HNSW_ITERATIVE_SCAN_RELAXED)
    {entryPoint : EntryPoint} (he : idx.metap.entry = some entryPoint) {n : Nat}
    (hn : 2 * idx.tids.length < n) {ep : List (HnswSearchCandidate (HnswElement V) δ)}
    (hep : readRun idx (entryCandidates support q idx.metap.m entryPoint n) = some ep) (hne : ep ≠ [])
    (hf : ∀ c ∈ ep, Faithful idx support q c) (hnd : (ep.map fun c => c.element.tid).Nodup) :
    ∃ R so, readRun idx (GetScanItems support cfg hnswrescan q n) = some so ∧
      ScanInv idx support q (idx.Reachable (ep.map fun c => c.element.tid))
        (ep.map fun c => c.element.tid) R [] { so with first := false } := by
  have hg : GroundInv idx support q (idx.Reachable (ep.map fun c => c.element.tid)) [] []
      (searchStart (readEnv idx support q false false idx.metap.m 0) ep [] (some none) true 0) :=
    groundInv_first hne hf (fun c hc => .start (List.mem_map_of_mem hc)) hnd
  have hlen := keys_length_le hf hnd
  have hrem := remaining_start idx (readEnv idx support q false false idx.metap.m 0) ep []
    (some none) true 0
  obtain ⟨s, hs, hg', hsub, hexp⟩ := ground_search (n := n) hL hS
    (fun _ _ ht hu => .link ht hu) hg (by omega)
  have hinv := scanInv_searched { (hnswrescan : HnswScanOpaque V δ) with
      first := false, q := q, m := idx.metap.m } (ep.map fun c => c.element.tid)
    rfl rfl rfl hg' hexp (fun t ht => by
      obtain ⟨c, hc, rfl⟩ := List.mem_map.mp ht
      exact hsub _ (mem_searchStart.mpr ⟨c, hc, rfl⟩)) (.refl _)
    (fun _ t ht => absurd ht List.not_mem_nil)
  refine ⟨_, ({ (hnswrescan : HnswScanOpaque V δ) with q := q, m := idx.metap.m }).searched
    (searchEnd s), ?_, hinv⟩
  unfold GetScanItems section_
  rw [Prog.op_bind, readRun_op _ _ rfl]
  simp only [execPage, he, Prog.ret_bind]
  have hd : discardedArg cfg ((hnswrescan : HnswScanOpaque V δ).discarded) = some none := by
    unfold discardedArg
    rw [if_neg (by rw [hmode]; decide)]
    rfl
  rw [readRun_bind, hep]
  simp only [Option.bind_some]
  rw [readRun_bind, readRun_searchLayer, hd]
  have hlayer := searchLayer_of_loop hs
  exact congrArg (Option.bind · _) hlayer

end Whole

/-- An index on numbers, without normalization. -/
def numberRel : HnswRel Nat Nat := ⟨numberSupport, 64, none, id, fun _ _ _ n => n⟩

end Pgvec.Hnsw
