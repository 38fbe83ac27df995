/-
  File:      Pgvec/Hnsw/FlushFacts.lean
  Subject:   WHAT `FlushPages` LEAVES ON THE PAGES.

  * `Created` -- the pages after some rounds of `CreateGraphPages`; `createElementPages_ok` -- the place
    predicted for the neighbor tuple is the place its blank gets, whatever the sizes are;
  * `createPagesLoop_created` -- rounds that raise no error are such rounds;
  * `writeNeighborTuples_ok` -- every blank is overwritten, nothing else;
  * `Flushed`, `flushPages_ok`, `flushPages_flushed` -- the element tuple and the neighbor tuple of every element at the
    recorded places, and nothing else on the pages;
  * **`flush_round_trip`** -- what is read back is what was in memory.
-/
import Pgvec.Hnsw.Chain
import Pgvec.Hnsw.Flush
import Pgvec.Hnsw.Graph
import Pgvec.Hnsw.MemoryFacts
import Pgvec.Lib.Except

namespace Pgvec.Hnsw

open Storage Storage.Page

variable {V δ : Type}

/-! ## 1. Adding to the last page -/

section Last

variable {idx : Index V} {p : HnswPage V}

theorem currentFree_eq (h : idx.page? idx.pages.length = some p) :
    idx.currentFree = p.page.PageGetFreeSpace := by
  unfold Index.currentFree Index.currentBlock
  rw [h]
  rfl

theorem currentMaxOffset_eq (h : idx.page? idx.pages.length = some p) :
    idx.currentMaxOffset = p.page.PageGetMaxOffsetNumber := by
  unfold Index.currentMaxOffset Index.currentBlock
  rw [h]
  rfl

/-- **What `HnswBuildAppendPage` does**: a fresh last page, and no item anywhere moves. -/
theorem buildAppendPage_spec (h : idx.Chained) :
    (HnswBuildAppendPage idx).Chained ∧ (HnswBuildAppendPage idx).metap = idx.metap ∧
    (HnswBuildAppendPage idx).pages.length = idx.pages.length + 1 ∧
    (HnswBuildAppendPage idx).page? (idx.pages.length + 1) = some HnswInitPage ∧
    ∀ u, (HnswBuildAppendPage idx).slot? u = idx.slot? u := by
  obtain ⟨p, hp⟩ := h.last
  refine ⟨h.append, append_metap _ _, append_length _ _, ?_, slot?_append hp⟩
  show (HnswInsertAppendPage idx idx.pages.length).1.page? (idx.pages.length + 1) = some HnswInitPage
  rw [page?_append hp, if_neg (by omega), if_pos rfl]

/-- **What `PageAddItem` to the last page does**, when there is room. -/
theorem addPredicted_ok (hp : idx.page? idx.pages.length = some p) (it : HnswItem V) {size : Nat}
    (hs : 0 < size) (ha : MAXALIGN size = size) (h : size ≤ p.page.PageGetFreeSpace) :
    ∃ idx' q, addPredicted idx it size (p.page.PageGetMaxOffsetNumber + 1) = .ok idx' ∧
      Same idx idx' ∧ idx'.page? idx'.pages.length = some q ∧
      q.page.PageGetMaxOffsetNumber = p.page.PageGetMaxOffsetNumber + 1 ∧
      q.page.PageGetExactFreeSpace + sizeofItemIdData + size = p.page.PageGetExactFreeSpace ∧
      idx.slot? ⟨idx.pages.length, p.page.PageGetMaxOffsetNumber + 1⟩ = none ∧
      ∀ u, idx'.slot? u = if u = ⟨idx.pages.length, p.page.PageGetMaxOffsetNumber + 1⟩
        then some ⟨it, size⟩ else idx.slot? u := by
  obtain ⟨idx', q, hadd, hq, hmax, hfree⟩ := addItem_isSome it hp hs (by rw [ha]; exact h)
  have hsame := Index.same_addItem hadd
  rw [ha] at hfree
  refine ⟨idx', q, ?_, hsame, by rw [hsame.length]; exact hq, hmax, hfree,
    Index.slot?_addItem_free hadd, Index.slot?_addItem hadd⟩
  unfold addPredicted Index.currentBlock
  rw [hadd]
  simp

/-- **Where `PageAddItem` has put the item**, when it gave the offset predicted. -/
theorem addPredicted_slots {it : HnswItem V} {size offno : Nat} {idx' : Index V}
    (h : addPredicted idx it size offno = .ok idx') :
    Same idx idx' ∧ offno = idx.currentMaxOffset + 1 ∧ idx'.currentMaxOffset = offno ∧
      idx.slot? ⟨idx.pages.length, offno⟩ = none ∧
      ∀ u, idx'.slot? u = if u = ⟨idx.pages.length, offno⟩ then some ⟨it, size⟩ else idx.slot? u := by
  unfold addPredicted Index.currentBlock at h
  split at h
  · cases h
  · rename_i i off hadd
    split at h
    · cases h
    · rename_i hoff
      cases h
      obtain rfl := not_not.mp hoff
      have hsame := Index.same_addItem hadd
      obtain ⟨p, q, hp, hpq, hi⟩ := Index.addItem_eq hadd
      obtain ⟨hitems, _, ho⟩ := pageAddItem_eq hpq
      have hq : idx'.page? idx'.pages.length = some { p with page := q } := by
        rw [hsame.length, hi, Index.page?_setPage hp, if_pos rfl]
      refine ⟨hsame, ?_, ?_, Index.slot?_addItem_free hadd, Index.slot?_addItem hadd⟩
      · rw [currentMaxOffset_eq hp, ho]
        rfl
      · rw [currentMaxOffset_eq hq, ho]
        unfold PageGetMaxOffsetNumber
        rw [hitems, List.length_append]
        rfl

end Last

/-! ## 2. `CreateGraphPages` -/

/-- The element tuple written for an element at a location. -/
def tupleAt (x : MemElement V δ × Location) : HnswElementTuple V :=
  HnswSetElementTuple x.1.level x.1.version x.1.heaptids x.1.value x.2.neighbortid

/-- **The pages after some elements**: their tuples and blanks at the recorded places, nothing else. -/
structure Created (varsize : V → Nat) (m : Nat) (done : List (MemElement V δ × Location))
    (idx : Index V) : Prop where
  chained : idx.Chained
  metap : idx.metap = ⟨m, none, none⟩
  element : ∀ x ∈ done, idx.slot? x.2.tid =
    some ⟨.element (tupleAt x), HNSW_ELEMENT_TUPLE_SIZE (varsize x.1.value)⟩
  blank : ∀ x ∈ done, idx.slot? x.2.neighbortid =
    some ⟨.blank, HNSW_NEIGHBOR_TUPLE_SIZE x.1.level m⟩
  only : ∀ {u y}, idx.slot? u = some y → ∃ x ∈ done, u = x.2.tid ∨ u = x.2.neighbortid
  tids : (done.map fun x => x.2.tid).Nodup
  ntids : (done.map fun x => x.2.neighbortid).Nodup

section Create

variable {varsize : V → Nat} {m : Nat} {done : List (MemElement V δ × Location)} {idx idx' : Index V}
  {e : MemElement V δ}

/-- Nothing changes for the elements written so far when a page is appended. -/
theorem Created.append (h : Created varsize m done idx) :
    Created varsize m done (HnswBuildAppendPage idx) := by
  obtain ⟨h1, h2, _, _, h5⟩ := buildAppendPage_spec h.chained
  exact { h with
    chained := h1
    metap := h2.trans h.metap
    element := fun x hx => (h5 _).trans (h.element x hx)
    blank := fun x hx => (h5 _).trans (h.blank x hx)
    only := fun hu => h.only ((h5 _).symm.trans hu) }

/-- A new element tuple and its blank, at places that were free. -/
theorem Created.add (h : Created varsize m done idx) {loc : Location} (hc : idx'.Chained)
    (hm : idx'.metap = idx.metap) (hne : loc.tid ≠ loc.neighbortid) (hfree : idx.slot? loc.tid = none)
    (hnfree : idx.slot? loc.neighbortid = none)
    (hslot : ∀ u, idx'.slot? u =
      if u = loc.neighbortid then some ⟨.blank, HNSW_NEIGHBOR_TUPLE_SIZE e.level m⟩
      else if u = loc.tid then some ⟨.element (tupleAt (e, loc)), HNSW_ELEMENT_TUPLE_SIZE (varsize e.value)⟩
      else idx.slot? u) : Created varsize m (done ++ [(e, loc)]) idx' := by
  have hold : ∀ {u y}, idx.slot? u = some y → idx'.slot? u = some y := by
    intro u y hu
    rw [hslot, if_neg, if_neg, hu]
    · rintro rfl
      rw [hfree] at hu
      cases hu
    · rintro rfl
      rw [hnfree] at hu
      cases hu
  have hnew : ∀ {f : MemElement V δ × Location → ItemPointer} {t : ItemPointer},
      (∀ x ∈ done, ∃ y, idx.slot? (f x) = some y) → f (e, loc) = t → idx.slot? t = none →
      (done.map f).Nodup → ((done ++ [(e, loc)]).map f).Nodup := by
    intro f t hall hft hnone hnd
    rw [List.map_append, List.map_singleton]
    refine List.nodup_append.mpr ⟨hnd, List.nodup_singleton _, ?_⟩
    rintro a ha b hb rfl
    rw [List.mem_singleton] at hb
    obtain ⟨x, hx, hxa⟩ := List.mem_map.mp ha
    obtain ⟨y, hy⟩ := hall x hx
    rw [hxa, hb, hft, hnone] at hy
    cases hy
  exact {
    chained := hc
    metap := hm.trans h.metap
    element := by
      intro x hx
      rcases List.mem_append.mp hx with hx | hx
      · exact hold (h.element x hx)
      · rw [List.mem_singleton.mp hx, hslot, if_neg hne, if_pos rfl]
    blank := by
      intro x hx
      rcases List.mem_append.mp hx with hx | hx
      · exact hold (h.blank x hx)
      · rw [List.mem_singleton.mp hx, hslot, if_pos rfl]
    only := by
      intro u y hu
      rw [hslot] at hu
      split at hu
      · rename_i e1
        exact ⟨_, List.mem_append_right _ (List.mem_singleton_self _), Or.inr e1⟩
      · split at hu
        · rename_i e1
          exact ⟨_, List.mem_append_right _ (List.mem_singleton_self _), Or.inl e1⟩
        · obtain ⟨x, hx, hux⟩ := h.only hu
          exact ⟨x, List.mem_append_left _ hx, hux⟩
    tids := hnew (fun x hx => ⟨_, h.element x hx⟩) rfl hfree h.tids
    ntids := hnew (fun x hx => ⟨_, h.blank x hx⟩) rfl hnfree h.ntids }

/-- The page the element goes to is the last one, or a fresh one after it. -/
theorem elementPage_ok {es cs : Nat} (h : Created varsize m done idx) (hes : es ≤ HNSW_MAX_SIZE) :
    Created varsize m done (elementPage idx es cs) ∧
    ∃ p, (elementPage idx es cs).page? (elementPage idx es cs).pages.length = some p ∧
      es ≤ p.page.PageGetFreeSpace ∧ (cs ≤ HNSW_MAX_SIZE → cs ≤ p.page.PageGetFreeSpace) := by
  unfold elementPage
  split
  · obtain ⟨_, _, hlen, hp, _⟩ := buildAppendPage_spec h.chained
    refine ⟨h.append, HnswInitPage, by rw [hlen]; exact hp, ?_, ?_⟩
    · rw [free_initPage]
      exact hes
    · rw [free_initPage]
      exact id
  · rename_i hroom
    obtain ⟨p, hp⟩ := h.chained.last
    rw [currentFree_eq hp] at hroom
    exact ⟨h, p, hp, by omega, by omega⟩

/-- The last page after the element, with room for the blank: the same page when both fit on it, else a
    fresh one. -/
theorem neighborPage_ok {p q : HnswPage V} {es ns : Nat} (hns : 0 < ns)
    (hq : idx.page? idx.pages.length = some q) (hspecial : p.page.pd_special = itemAreaEnd)
    (hfree : q.page.PageGetExactFreeSpace + sizeofItemIdData + es = p.page.PageGetExactFreeSpace)
    (hroom : es + ns + sizeofItemIdData ≤ HNSW_MAX_SIZE →
      es + ns + sizeofItemIdData ≤ p.page.PageGetFreeSpace) :
    (idx.currentFree < ns ↔ ¬ es + ns + sizeofItemIdData ≤ HNSW_MAX_SIZE) := by
  have h1 := free_le hspecial
  have h2 := freeSpace_eq p.page
  have h3 := freeSpace_eq q.page
  have hid : sizeofItemIdData = 4 := rfl
  rw [currentFree_eq hq]
  constructor
  · intro hlt hfit
    have := hroom hfit
    omega
  · intro hfit
    omega

/-- **One round of `CreateGraphPages`**: both tuples go where they were predicted to go. -/
theorem createElementPages_ok (h2 : 2 ≤ m) (h100 : m ≤ 100) (h : Created varsize m done idx)
    (hlevel : e.level ≤ HnswGetMaxLevel m)
    (hsize : HNSW_ELEMENT_TUPLE_SIZE (varsize e.value) ≤ HNSW_MAX_SIZE) :
    ∃ idx' loc, createElementPages varsize m idx e = .ok (idx', loc) ∧
      Created varsize m (done ++ [(e, loc)]) idx' := by
  have halloc : ¬ HNSW_TUPLE_ALLOC_SIZE < HNSW_ELEMENT_TUPLE_SIZE (varsize e.value) :=
    Nat.not_lt.mpr (Nat.le_trans hsize (by decide))
  have hn := neighborSize_le h2 h100 hlevel
  obtain ⟨hcr, p, hp, hroom, hroom2⟩ := elementPage_ok h hsize
  unfold createElementPages
  simp only [if_neg halloc]
  generalize elementPage idx _ _ = idx0 at hcr hp ⊢
  rw [currentMaxOffset_eq hp]
  unfold Index.currentBlock
  -- the location and what the first `PageAddItem` does, for either prediction
  generalize hloc : (if HNSW_ELEMENT_TUPLE_SIZE (varsize e.value) + HNSW_NEIGHBOR_TUPLE_SIZE e.level m +
      sizeofItemIdData ≤ HNSW_MAX_SIZE then
      Location.mk idx0.pages.length (p.page.PageGetMaxOffsetNumber + 1) idx0.pages.length
        (p.page.PageGetMaxOffsetNumber + 1 + 1)
    else Location.mk idx0.pages.length (p.page.PageGetMaxOffsetNumber + 1) (idx0.pages.length + 1) 1) = loc
  have htid : loc.tid = ⟨idx0.pages.length, p.page.PageGetMaxOffsetNumber + 1⟩ := by
    rw [← hloc]
    split <;> rfl
  have hoff : loc.offno = p.page.PageGetMaxOffsetNumber + 1 := congrArg ItemPointer.offno htid
  obtain ⟨idx1, q, h1, hs1, hq, hqmax, hqfree, hnone1, hslot1⟩ := addPredicted_ok hp
    (.element (tupleAt (e, loc))) (elementSize_pos _) (elementSize_aligned _) hroom
  have hc1 := hcr.chained.same hs1
  have hwhere := neighborPage_ok (neighborSize_pos e.level m) hq (hcr.chained.special hp) hqfree hroom2
  rw [← htid] at hnone1 hslot1
  rw [hoff, show HnswItem.element (HnswSetElementTuple e.level e.version e.heaptids e.value
    loc.neighbortid) = .element (tupleAt (e, loc)) from rfl, h1]
  -- the page of the blank
  obtain ⟨idx2, q2, hidx2, hc2, hm2, hslot2, hq2, hnt, hroom3⟩ : ∃ idx2 q2,
      (if idx1.currentFree < HNSW_NEIGHBOR_TUPLE_SIZE e.level m then HnswBuildAppendPage idx1 else idx1) =
        idx2 ∧ idx2.Chained ∧ idx2.metap = idx1.metap ∧ (∀ u, idx2.slot? u = idx1.slot? u) ∧
      idx2.page? idx2.pages.length = some q2 ∧
      loc.neighbortid = ⟨idx2.pages.length, q2.page.PageGetMaxOffsetNumber + 1⟩ ∧
      HNSW_NEIGHBOR_TUPLE_SIZE e.level m ≤ q2.page.PageGetFreeSpace := by
    by_cases hfit : HNSW_ELEMENT_TUPLE_SIZE (varsize e.value) + HNSW_NEIGHBOR_TUPLE_SIZE e.level m +
        sizeofItemIdData ≤ HNSW_MAX_SIZE
    · rw [if_pos hfit] at hloc
      rw [if_neg fun hlt => hwhere.mp hlt hfit]
      have hcur := fun hlt => hwhere.mp hlt hfit
      rw [currentFree_eq hq] at hcur
      refine ⟨idx1, q, rfl, hc1, rfl, fun _ => rfl, hq, ?_, Nat.not_lt.mp hcur⟩
      rw [← hloc, hs1.length, hqmax]
      rfl
    · rw [if_neg hfit] at hloc
      rw [if_pos (hwhere.mpr hfit)]
      obtain ⟨hc2, hm2, hlen2, hq2, hslot2⟩ := buildAppendPage_spec hc1
      refine ⟨_, HnswInitPage, rfl, hc2, hm2, hslot2, by rw [hlen2]; exact hq2, ?_, ?_⟩
      · rw [← hloc, hlen2, hs1.length]
        rfl
      · rw [free_initPage]
        exact hn
  obtain ⟨idx3, _, h3, hs3, _, _, _, hnone3, hslot3⟩ := addPredicted_ok hq2 .blank
    (neighborSize_pos e.level m) (neighborSize_aligned _ _) hroom3
  rw [← hnt] at hnone3 hslot3
  have hnoff : loc.neighborOffno = q2.page.PageGetMaxOffsetNumber + 1 := congrArg ItemPointer.offno hnt
  have hdiff : loc.tid ≠ loc.neighbortid := by
    intro heq
    rw [← heq, hslot2, hslot1, if_pos rfl] at hnone3
    cases hnone3
  refine ⟨idx3, loc, ?_, hcr.add (hc2.same hs3) (hs3.metap.trans (hm2.trans hs1.metap)) hdiff hnone1 ?_ ?_⟩
  · show Except.bind _ _ = _
    simp only [Except.bind, hidx2, hnoff, h3]
    rfl
  · rw [hslot2, hslot1, if_neg hdiff.symm] at hnone3
    exact hnone3
  · intro u
    rw [hslot3, hslot2, hslot1]

/-- A round that raises no error has put tuple and blank where it recorded them. -/
theorem createElementPages_created {loc : Location} (h : Created varsize m done idx)
    (hx : createElementPages varsize m idx e = .ok (idx', loc)) : Created varsize m (done ++ [(e, loc)]) idx' := by
  unfold createElementPages at hx
  simp only at hx
  split at hx
  · cases hx
  · generalize hcs : HNSW_ELEMENT_TUPLE_SIZE (varsize e.value) + HNSW_NEIGHBOR_TUPLE_SIZE e.level m +
      sizeofItemIdData = cs at hx
    have hcr : Created varsize m done (elementPage idx (HNSW_ELEMENT_TUPLE_SIZE (varsize e.value)) cs) := by
      unfold elementPage
      split
      · exact h.append
      · exact h
    generalize elementPage idx (HNSW_ELEMENT_TUPLE_SIZE (varsize e.value)) cs = idx0 at hcr hx
    unfold Index.currentBlock at hx
    generalize hloc : (if cs ≤ HNSW_MAX_SIZE then
        Location.mk idx0.pages.length (idx0.currentMaxOffset + 1) idx0.pages.length
          (idx0.currentMaxOffset + 1 + 1)
      else Location.mk idx0.pages.length (idx0.currentMaxOffset + 1) (idx0.pages.length + 1) 1) = l at hx
    have htid : l.tid = ⟨idx0.pages.length, l.offno⟩ := by
      rw [← hloc]
      split <;> rfl
    obtain ⟨idx1, h1, hx⟩ := Except.bind_eq_ok.mp hx
    obtain ⟨idx2, h2, hx⟩ := Except.bind_eq_ok.mp hx
    cases hx
    obtain ⟨hs1, hoff1, hmax1, hnone1, hslot1⟩ := addPredicted_slots h1
    have hc1 := hcr.chained.same hs1
    -- the page of the blank: the offset tells which prediction was made
    obtain ⟨i, hi, hci, hmi, hsloti, hnt⟩ : ∃ i, (if idx1.currentFree < HNSW_NEIGHBOR_TUPLE_SIZE e.level m
        then HnswBuildAppendPage idx1 else idx1) = i ∧ i.Chained ∧ i.metap = idx1.metap ∧
        (∀ u, i.slot? u = idx1.slot? u) ∧
        (loc.neighborOffno = i.currentMaxOffset + 1 → loc.neighbortid = ⟨i.pages.length, loc.neighborOffno⟩) := by
      split
      · obtain ⟨hc2, hm2, hlen2, hq2, hslot2⟩ := buildAppendPage_spec hc1
        refine ⟨_, rfl, hc2, hm2, hslot2, fun ho => ?_⟩
        have hzero : (HnswBuildAppendPage idx1).currentMaxOffset = 0 :=
          currentMaxOffset_eq (by rw [hlen2]; exact hq2)
        rw [hzero, ← hloc] at ho
        rw [hlen2, hs1.length, ← hloc]
        split at ho
        · exact absurd ho (Nat.succ_ne_succ_iff.mpr (Nat.succ_ne_zero _))
        · rename_i hbig
          rw [if_neg hbig]
          rfl
      · refine ⟨idx1, rfl, hc1, rfl, fun _ => rfl, fun ho => ?_⟩
        rw [hmax1, hoff1, ← hloc] at ho
        rw [hs1.length, ← hloc]
        split at ho
        · rename_i hfit
          rw [if_pos hfit]
          rfl
        · exact absurd ho (Nat.succ_ne_succ_iff.mpr (Ne.symm (Nat.succ_ne_zero _)))
    rw [hi] at h2
    obtain ⟨hs2, hoff2, _, hnone2, hslot2⟩ := addPredicted_slots h2
    rw [← htid] at hnone1 hslot1
    rw [← hnt hoff2] at hnone2 hslot2
    have hdiff : loc.tid ≠ loc.neighbortid := by
      intro heq
      rw [← heq, hsloti, hslot1, if_pos rfl] at hnone2
      cases hnone2
    refine hcr.add (hci.same hs2) (hs2.metap.trans (hmi.trans hs1.metap)) hdiff hnone1 ?_ ?_
    · rw [hsloti, hslot1, if_neg hdiff.symm] at hnone2
      exact hnone2
    · intro u
      rw [hslot2, hsloti, hslot1]
      rfl

theorem createPagesLoop_created : ∀ (es : List (MemElement V δ))
    (done : List (MemElement V δ × Location)) {idx idx' : Index V} {locs : List Location},
    Created varsize m done idx → createPagesLoop varsize m es idx = .ok (idx', locs) →
    locs.length = es.length ∧ Created varsize m (done ++ es.zip locs) idx'
  | [], done, idx, idx', locs, h, hx => by
      cases hx
      exact ⟨rfl, by simpa using h⟩
  | e :: es, done, idx, idx', locs, h, hx => by
      obtain ⟨⟨i1, loc⟩, h1, hx⟩ := Except.bind_eq_ok.mp hx
      obtain ⟨⟨i2, locs'⟩, h2, hx⟩ := Except.bind_eq_ok.mp hx
      cases hx
      obtain ⟨hlen, hcr⟩ := createPagesLoop_created es _ (createElementPages_created h h1) h2
      exact ⟨by simp [hlen], by simpa using hcr⟩

/-- **The loop of `CreateGraphPages`.** -/
theorem createPagesLoop_ok (h2 : 2 ≤ m) (h100 : m ≤ 100) : ∀ (es : List (MemElement V δ))
    (done : List (MemElement V δ × Location)) (idx : Index V), Created varsize m done idx →
    (∀ e ∈ es, e.level ≤ HnswGetMaxLevel m ∧ HNSW_ELEMENT_TUPLE_SIZE (varsize e.value) ≤ HNSW_MAX_SIZE) →
    ∃ idx' locs, createPagesLoop varsize m es idx = .ok (idx', locs) ∧ locs.length = es.length ∧
      Created varsize m (done ++ es.zip locs) idx'
  | [], done, idx, h, _ => ⟨idx, [], rfl, rfl, by simpa using h⟩
  | e :: es, done, idx, h, hes => by
      obtain ⟨hl, hs⟩ := hes e List.mem_cons_self
      obtain ⟨idx1, loc, h1, hcr⟩ := createElementPages_ok h2 h100 h hl hs
      obtain ⟨idx2, locs, h3, hlen, hcr2⟩ := createPagesLoop_ok h2 h100 es _ idx1 hcr
        fun x hx => hes x (List.mem_cons_of_mem _ hx)
      refine ⟨idx2, loc :: locs, ?_, by simp [hlen], by simpa using hcr2⟩
      simp only [createPagesLoop, h1]
      show Except.bind _ _ = _
      simp only [Except.bind, h3]
      rfl

/-- The first page is empty. -/
theorem created_first : Created (δ := δ) varsize m [] (prepareFirstPage (CreateMetaPage m)) where
  chained := by
    refine ⟨Nat.le_refl 1, fun {b p} hp => ?_, fun {b p} hp => ?_⟩
    all_goals
      obtain ⟨h1, h2⟩ := Index.page?_pos hp
      have hb : b = 1 := Nat.le_antisymm h2 h1
      subst hb
      cases hp
      rfl
  metap := rfl
  element x hx := absurd hx List.not_mem_nil
  blank x hx := absurd hx List.not_mem_nil
  only {u y} hu := by
    unfold Index.slot? at hu
    split at hu
    · cases hu
    · rename_i p hp
      obtain ⟨h1, h2⟩ := Index.page?_pos hp
      have hb : u.blkno = 1 := Nat.le_antisymm h2 h1
      rw [hb] at hp
      cases hp
      cases hoff : u.offno <;> rw [hoff] at hu <;> cases hu
  tids := List.nodup_nil
  ntids := List.nodup_nil

end Create

/-! ## 3. `WriteNeighborTuples` -/

/-- The neighbor tuple written for an element. -/
def neighborTupleAt (m : Nat) (locs : List Location) (e : MemElement V δ) : HnswNeighborTuple :=
  HnswSetNeighborTuple e.level e.version m (e.layerTids locs)

/-- **Every blank is overwritten by its neighbor tuple, and nothing else changes.** -/
theorem writeNeighborTuples_ok {m : Nat} (locs : List Location) : ∀ (l : List (MemElement V δ × Location))
    (idx : Index V), (l.map fun x => x.2.neighbortid).Nodup →
    (∀ x ∈ l, idx.slot? x.2.neighbortid = some ⟨.blank, HNSW_NEIGHBOR_TUPLE_SIZE x.1.level m⟩) →
    ∃ idx', l.foldlM (writeNeighborTuple m locs) idx = .ok idx' ∧ Same idx idx' ∧
      (∀ x ∈ l, idx'.slot? x.2.neighbortid =
        some ⟨.neighbor (neighborTupleAt m locs x.1), HNSW_NEIGHBOR_TUPLE_SIZE x.1.level m⟩) ∧
      ∀ u, (∀ x ∈ l, u ≠ x.2.neighbortid) → idx'.slot? u = idx.slot? u
  | [], idx, _, _ => ⟨idx, rfl, .refl idx, fun x hx => absurd hx List.not_mem_nil, fun _ _ => rfl⟩
  | x :: l, idx, hnd, hbl => by
      rw [List.map_cons, List.nodup_cons] at hnd
      have hother : ∀ y ∈ l, x.2.neighbortid ≠ y.2.neighbortid := fun y hy heq =>
        hnd.1 (heq ▸ List.mem_map_of_mem (f := fun x => x.2.neighbortid) hy)
      have hx := hbl x List.mem_cons_self
      obtain ⟨p, hp⟩ : ∃ p, idx.page? x.2.neighbortid.blkno = some p := by
        unfold Index.slot? at hx
        split at hx
        · cases hx
        · exact ⟨_, by assumption⟩
      obtain ⟨idx1, h1⟩ : ∃ idx1, idx.overwriteItem x.2.neighbortid
          (.neighbor (neighborTupleAt m locs x.1)) (HNSW_NEIGHBOR_TUPLE_SIZE x.1.level m) =
            .ok (some idx1) := Index.overwriteItem_isSome _ _ hp hx (Nat.le_add_right _ _)
      have hslot := Index.slot?_overwriteItem h1
      obtain ⟨idx2, h2, hs2, hnb, hrest⟩ := writeNeighborTuples_ok locs l idx1 hnd.2 (by
        intro y hy
        rw [hslot, if_neg (hother y hy).symm]
        exact hbl y (List.mem_cons_of_mem _ hy))
      refine ⟨idx2, ?_, (Index.same_overwriteItem h1).trans hs2, ?_, ?_⟩
      · rw [List.foldlM_cons]
        have hw : writeNeighborTuple m locs idx x = .ok idx1 := by
          have h1' : idx.overwriteItem x.2.neighbortid (.neighbor (HnswSetNeighborTuple x.1.level
              x.1.version m (x.1.layerTids locs))) (HNSW_NEIGHBOR_TUPLE_SIZE x.1.level m) =
                .ok (some idx1) := h1
          simp only [writeNeighborTuple, h1']
          rfl
        rw [hw]
        exact h2
      · intro y hy
        rcases List.mem_cons.mp hy with rfl | hy
        · rw [hrest _ hother, hslot, if_pos rfl]
        · exact hnb y hy
      · intro u hu
        rw [hrest u fun y hy => hu y (List.mem_cons_of_mem _ hy), hslot,
          if_neg (hu x List.mem_cons_self)]

/-! ## 4. `FlushPages` -/

/-- **What `FlushPages` leaves**: the two tuples of every element at the places recorded for it. -/
structure Flushed (varsize : V → Nat) (m : Nat) (g : HnswGraph V δ) (idx : Index V)
    (locs : List Location) : Prop where
  length : locs.length = g.elements.length
  chained : idx.Chained
  metap : idx.metap = ⟨m, g.entryLocation locs, some idx.pages.length⟩
  element : ∀ {i : Nat} {e : MemElement V δ} {l : Location}, g.elements[i]? = some e →
    locs[i]? = some l → idx.slot? l.tid =
      some ⟨.element (tupleAt (e, l)), HNSW_ELEMENT_TUPLE_SIZE (varsize e.value)⟩
  neighbor : ∀ {i : Nat} {e : MemElement V δ} {l : Location}, g.elements[i]? = some e →
    locs[i]? = some l → idx.slot? l.neighbortid =
      some ⟨.neighbor (neighborTupleAt m locs e), HNSW_NEIGHBOR_TUPLE_SIZE e.level m⟩
  only : ∀ {u : ItemPointer} {y : PageItem (HnswItem V)}, idx.slot? u = some y →
    ∃ (i : Nat) (l : Location), locs[i]? = some l ∧ (u = l.tid ∨ u = l.neighbortid)
  tids : (locs.map Location.tid).Nodup
  ntids : (locs.map Location.neighbortid).Nodup

section Flush

variable {varsize : V → Nat} {m : Nat} {g : HnswGraph V δ} {idx : Index V} {locs : List Location}

/-- Once the pages are created, writing the neighbor tuples raises no error. -/
theorem flush_of_created {idx1 : Index V} {locsR : List Location}
    (h1 : createPagesLoop varsize m g.elements.reverse (prepareFirstPage (CreateMetaPage m)) = .ok (idx1, locsR))
    (hlen : locsR.length = g.elements.reverse.length)
    (hcr : Created varsize m ([] ++ g.elements.reverse.zip locsR) idx1) :
    ∃ idx locs, FlushPages varsize m g = .ok (idx, locs) ∧ Flushed varsize m g idx locs := by
  rw [List.nil_append] at hcr
  rw [List.length_reverse] at hlen
  -- the pairs in the order of the elements
  have hzip : (g.elements.zip locsR.reverse).reverse = g.elements.reverse.zip locsR := by
    have h := List.reverse_zipWith (f := Prod.mk) (l := g.elements)
      (by rw [List.length_reverse, hlen])
    rw [List.reverse_reverse] at h
    exact h
  have hmem : ∀ {i : Nat} {e : MemElement V δ} {l : Location}, g.elements[i]? = some e →
      locsR.reverse[i]? = some l → (e, l) ∈ g.elements.reverse.zip locsR := by
    intro i e l he hl
    rw [← hzip, List.mem_reverse]
    refine List.mem_of_getElem? (i := i) ?_
    rw [List.getElem?_zip_eq_some]
    exact ⟨he, hl⟩
  have hsnd : ∀ f : Location → ItemPointer,
      ((g.elements.reverse.zip locsR).map fun x => f x.2) = locsR.map f := by
    intro f
    have hcomp : (fun x : MemElement V δ × Location => f x.2) = f ∘ Prod.snd := rfl
    rw [hcomp, ← List.map_map, List.map_snd_zip (by rw [List.length_reverse, hlen])]
  have hrev : ∀ f : Location → ItemPointer, (locsR.map f).Nodup → (locsR.reverse.map f).Nodup := by
    intro f hf
    rw [List.map_reverse]
    exact List.nodup_reverse.mpr hf
  generalize hidx : Index.mk (HnswUpdateMetaPageInfo idx1.metap .always (g.entryLocation locsR.reverse)
    (some idx1.currentBlock)) idx1.pages = idx1m
  have hpages : idx1m.pages = idx1.pages := by rw [← hidx]
  have hsl : ∀ u, idx1m.slot? u = idx1.slot? u := by
    intro u
    rw [← hidx]
    rfl
  obtain ⟨idx2, h3, hs, hnb, hrest⟩ := writeNeighborTuples_ok locsR.reverse
    (g.elements.reverse.zip locsR) idx1m hcr.ntids (fun x hx => (hsl _).trans (hcr.blank x hx))
  refine ⟨idx2, locsR.reverse, ?_, ?_⟩
  · unfold FlushPages CreateGraphPages WriteNeighborTuples
    rw [h1]
    show Except.bind (Except.bind _ _) _ = _
    simp only [Except.bind, pure, Except.pure]
    rw [hzip]
    simp only [hidx, h3]
    rfl
  · refine {
      length := by rw [List.length_reverse, hlen]
      chained := ?_
      metap := ?_
      element := fun {i e l} he hl => ?_
      neighbor := fun {i e l} he hl => hnb _ (hmem he hl)
      only := fun {u y} hu => ?_
      tids := hrev _ (by rw [← hsnd]; exact hcr.tids)
      ntids := hrev _ (by rw [← hsnd]; exact hcr.ntids) }
    · refine Index.Chained.same ?_ hs
      rw [← hidx]
      exact hcr.chained.metap _
    · rw [hs.metap, hs.length, hpages, ← hidx, hcr.metap]
      unfold HnswUpdateMetaPageInfo Index.currentBlock
      cases g.entryLocation locsR.reverse <;> simp
    · have hel := hcr.element _ (hmem he hl)
      rw [hrest, hsl, hel]
      intro x hx heq
      have hbl := hcr.blank x hx
      rw [← heq, hel] at hbl
      cases hbl
    · have hold : ∃ y', idx1.slot? u = some y' := by
        by_cases hnt : ∀ x ∈ g.elements.reverse.zip locsR, u ≠ x.2.neighbortid
        · rw [hrest u hnt, hsl] at hu
          exact ⟨y, hu⟩
        · simp only [not_forall, not_not] at hnt
          obtain ⟨x, hx, rfl⟩ := hnt
          exact ⟨_, hcr.blank x hx⟩
      obtain ⟨y', hy'⟩ := hold
      obtain ⟨x, hx, hux⟩ := hcr.only hy'
      rw [← hzip, List.mem_reverse] at hx
      obtain ⟨i, hi⟩ := List.getElem?_of_mem hx
      exact ⟨i, x.2, (List.getElem?_zip_eq_some.mp hi).2, hux⟩

/-- **`FlushPages` raises no error**, for every mix of levels and value sizes. -/
theorem flushPages_ok (h2 : 2 ≤ m) (h100 : m ≤ 100)
    (hlevel : ∀ e ∈ g.elements, e.level ≤ HnswGetMaxLevel m)
    (hsize : ∀ e ∈ g.elements, HNSW_ELEMENT_TUPLE_SIZE (varsize e.value) ≤ HNSW_MAX_SIZE) :
    ∃ idx locs, FlushPages varsize m g = .ok (idx, locs) ∧ Flushed varsize m g idx locs := by
  obtain ⟨idx1, locsR, h1, hlen, hcr⟩ := createPagesLoop_ok h2 h100
    g.elements.reverse [] _ created_first fun e he =>
      ⟨hlevel e (List.mem_reverse.mp he), hsize e (List.mem_reverse.mp he)⟩
  exact flush_of_created h1 hlen hcr

/-- A flush that raises no error, whatever the graph is. -/
theorem flushPages_flushed (h : FlushPages varsize m g = .ok (idx, locs)) : Flushed varsize m g idx locs := by
  have h' := h
  obtain ⟨⟨i1, locs1⟩, h1, _⟩ := Except.bind_eq_ok.mp h'
  obtain ⟨⟨i0, locs0⟩, h0, _⟩ := Except.bind_eq_ok.mp h1
  obtain ⟨hlen, hcr⟩ := createPagesLoop_created g.elements.reverse [] created_first h0
  obtain ⟨i, l, hx, hf⟩ := flush_of_created h0 hlen hcr
  rw [h] at hx
  cases hx
  exact hf

theorem Flushed.elem? (h : Flushed varsize m g idx locs) {i : Nat} {e : MemElement V δ} {l : Location}
    (he : g.elements[i]? = some e) (hl : locs[i]? = some l) : idx.elem? l.tid = some (tupleAt (e, l)) := by
  rw [Index.elem?_eq_some, Index.item?_eq_slot?, h.element he hl]
  rfl

theorem Flushed.neigh? (h : Flushed varsize m g idx locs) {i : Nat} {e : MemElement V δ} {l : Location}
    (he : g.elements[i]? = some e) (hl : locs[i]? = some l) :
    idx.neigh? l.neighbortid = some (neighborTupleAt m locs e) := by
  rw [Index.neigh?_eq_some, Index.item?_eq_slot?, h.neighbor he hl]
  rfl

/-- A location of an element is a valid TID. -/
theorem Flushed.tid_valid (h : Flushed varsize m g idx locs) {i : Nat} {e : MemElement V δ} {l : Location}
    (he : g.elements[i]? = some e) (hl : locs[i]? = some l) : l.tid.isValid = true := by
  have hs := h.element he hl
  unfold Index.slot? at hs
  split at hs
  · cases hs
  · have := (Page.slot?_isSome hs).1
    unfold ItemPointer.isValid
    simp only [bne_iff_ne, ne_eq]
    omega

/-- Every element has a location. -/
theorem Flushed.loc (h : Flushed varsize m g idx locs) {i : Nat} {e : MemElement V δ}
    (he : g.elements[i]? = some e) : ∃ l, locs[i]? = some l := by
  have hlt := (List.getElem?_eq_some_iff.mp he).1
  exact ⟨_, List.getElem?_eq_getElem (by rw [h.length]; exact hlt)⟩

/-- The neighbors of a layer that exists, and their TIDs. -/
theorem Flushed.layer (h : Flushed varsize m g idx locs) (hwf : g.Wf m) {i lc : Nat} {e : MemElement V δ}
    (he : g.elements[i]? = some e) (hlc : lc ≤ e.level) :
    ∃ ns, e.layer lc = some ns ∧
      (e.layerTids locs lc).map some = ns.map (fun j => (locs[j]?).map Location.tid) ∧
      (e.layerTids locs lc).length ≤ HnswGetLayerM m lc ∧
      ∀ t ∈ e.layerTids locs lc, t.isValid = true := by
  obtain ⟨a, ha⟩ : ∃ a, e.neighbors[lc]? = some a :=
    ⟨_, List.getElem?_eq_getElem (by rw [hwf.arrays he]; omega)⟩
  have hlayer : e.layer lc = some (a.items.map (·.element)) := by
    unfold MemElement.layer
    rw [ha]
    rfl
  have hloc : ∀ c ∈ a.items, ∃ l f, locs[c.element]? = some l ∧ g.elements[c.element]? = some f := by
    intro c hc
    obtain ⟨_, f, hf, _⟩ := hwf.link he ha c hc
    obtain ⟨l, hl⟩ := h.loc hf
    exact ⟨l, f, hl, hf⟩
  unfold MemElement.layerTids
  rw [hlayer]
  simp only [Option.getD_some, List.map_map, List.length_map]
  refine ⟨_, rfl, ?_, hwf.room he ha, ?_⟩
  · rw [List.map_map]
    refine List.map_congr_left fun c hc => ?_
    obtain ⟨l, _, hl, _⟩ := hloc c hc
    simp only [Function.comp_apply, hl, Option.map_some, Option.getD_some]
  · intro t ht
    obtain ⟨c, hc, rfl⟩ := List.mem_map.mp ht
    obtain ⟨l, f, hl, hf⟩ := hloc c hc
    simp only [Function.comp_apply, hl, Option.map_some, Option.getD_some]
    exact h.tid_valid hf hl

/-- **`FlushPages` and reading back.** Whatever the levels and value sizes are, no error is raised, the two
    tuples of each element stand at the places recorded for it, and reading them gives its level, its
    heap TIDs, its value and, layer by layer, the TIDs of its neighbors in their order. -/
theorem flush_round_trip (h2 : 2 ≤ m) (h100 : m ≤ 100) (hwf : g.Wf m)
    (hsize : ∀ e ∈ g.elements, HNSW_ELEMENT_TUPLE_SIZE (varsize e.value) ≤ HNSW_MAX_SIZE) :
    ∃ idx locs, FlushPages varsize m g = .ok (idx, locs) ∧ locs.length = g.elements.length ∧
      (locs.map Location.tid).Nodup ∧ (locs.map Location.neighbortid).Nodup ∧
      ∀ (i : Nat) (e : MemElement V δ) (l : Location), g.elements[i]? = some e → locs[i]? = some l →
        ∃ etup, idx.elem? l.tid = some etup ∧ etup.neighbortid = l.neighbortid ∧
          (idx.neigh? l.neighbortid).isSome = true ∧
          ∃ c, c = HnswLoadElementFromTuple (HnswInitElementFromBlock l.tid 0) etup true true ∧
            c.level = e.level ∧ c.heaptids = e.heaptids ∧ c.value = some e.value ∧
            ∀ lc ≤ e.level, ∃ ns tids, e.layer lc = some ns ∧
              readRun idx (HnswLoadNeighborTids c m (HnswGetLayerM m lc) lc) = some (some tids) ∧
              (validPrefix tids).map some = ns.map fun j => (locs[j]?).map Location.tid := by
  obtain ⟨idx, locs, hflush, h⟩ := flushPages_ok (g := g) h2 h100
    (fun e he => by
      obtain ⟨i, hi⟩ := List.getElem?_of_mem he
      exact hwf.level hi) hsize
  refine ⟨idx, locs, hflush, h.length, h.tids, h.ntids, fun i e l he hl => ?_⟩
  obtain ⟨_, hten, hvalid⟩ := hwf.heaptids he
  refine ⟨tupleAt (e, l), h.elem? he hl, rfl, by rw [h.neigh? he hl]; rfl, _, rfl, rfl,
    padTids_valid hten hvalid, rfl, fun lc hlc => ?_⟩
  obtain ⟨ns, hns, hmap, hlen, hval⟩ := h.layer hwf he hlc
  refine ⟨ns, padTids (HnswGetLayerM m lc) (e.layerTids locs lc), hns, ?_, ?_⟩
  · unfold HnswLoadNeighborTids
    rw [readRun_op _ _ rfl]
    have hn : idx.neigh? (HnswLoadElementFromTuple (HnswInitElementFromBlock l.tid 0) (tupleAt (e, l))
        true true).neighbortid = some (neighborTupleAt m locs e) := h.neigh? he hl
    simp only [execPage, hn]
    exact congrArg some (neighborTids_set m e.version (e.layerTids locs) hlc)
  · rw [show validPrefix (padTids (HnswGetLayerM m lc) (e.layerTids locs lc)) = e.layerTids locs lc from
      padTids_valid hlen hval]
    exact hmap

/-- The graph with two elements, written and read back. -/
theorem flush_round_trip_pair : ∃ idx locs, FlushPages (fun _ => 8) 2 pairGraph = .ok (idx, locs) ∧
    locs.length = 2 ∧ (locs.map Location.tid).Nodup ∧ (locs.map Location.neighbortid).Nodup ∧
    ∀ (i : Nat) (e : MemElement Nat Nat) (l : Location), pairGraph.elements[i]? = some e →
      locs[i]? = some l → ∃ etup, idx.elem? l.tid = some etup ∧ etup.neighbortid = l.neighbortid ∧
        (idx.neigh? l.neighbortid).isSome = true ∧
        ∃ c, c = HnswLoadElementFromTuple (HnswInitElementFromBlock l.tid 0) etup true true ∧
          c.level = e.level ∧ c.heaptids = e.heaptids ∧ c.value = some e.value ∧
          ∀ lc ≤ e.level, ∃ ns tids, e.layer lc = some ns ∧
            readRun idx (HnswLoadNeighborTids c 2 (HnswGetLayerM 2 lc) lc) = some (some tids) ∧
            (validPrefix tids).map some = ns.map fun j => (locs[j]?).map Location.tid :=
  flush_round_trip (by decide) (by decide) pairGraph_wf (by decide)

end Flush

end Pgvec.Hnsw
