/-
  File:      Pgvec/Hnsw/SearchAgree.lean
  Subject:   THE SEARCH IN MEMORY AND THE SEARCH ON THE FLUSHED PAGES.

  The two searches run in step: the heaps hold the same candidates (an element here, its copy from the
  page there), the visited tables the keys of the same elements. On disk an element that is not nearer
  than the furthest of `W` is not loaded; in memory it is looked at and dropped.

  * `unvisitedOf_rename` -- the two visited tables give the same unvisited elements;
  * `InStep` -- the relation between the local variables; `InStep.visit`, `searchLoop_inStep`;
  * **`memory_disk_search_agree`** -- both searches end, with the same elements in the same order and the
    same distances.
-/
import Pgvec.Hnsw.FlushFacts
import Pgvec.Hnsw.SearchFacts

namespace Pgvec.Hnsw

open PairingHeap

variable {V δ : Type} [LinearOrder δ]

/-! ## 1. Two visited tables -/

/-- **Two tables that hold the keys of the same elements give the same unvisited elements**, when both
    keys tell the elements apart. -/
theorem unvisitedOf_rename {ι K K' : Type} [DecidableEq K] [DecidableEq K'] (key : ι → K) (key' : ι → K') :
    ∀ (l vs : List ι),
    (∀ i ∈ l ++ vs, ∀ j ∈ l ++ vs, key i = key j ↔ key' i = key' j) →
    ∃ us vs' : List ι, unvisitedOf key l (vs.map key) = (us, vs'.map key) ∧
      unvisitedOf id (l.map key') (vs.map key') = (us.map key', vs'.map key') ∧
      (∀ u ∈ us, u ∈ l) ∧ ∀ u ∈ vs', u ∈ l ++ vs
  | [], vs, _ => ⟨[], vs, rfl, rfl, fun u hu => hu, fun u hu => hu⟩
  | i :: l, vs, hk => by
      have hi : key i ∈ vs.map key ↔ key' i ∈ vs.map key' := by
        rw [List.mem_map, List.mem_map]
        constructor
        · rintro ⟨j, hj, e⟩
          exact ⟨j, hj, (hk j (by simp [hj]) i (by simp)).mp e⟩
        · rintro ⟨j, hj, e⟩
          exact ⟨j, hj, (hk j (by simp [hj]) i (by simp)).mpr e⟩
      by_cases hin : key i ∈ vs.map key
      · obtain ⟨us, vs', h1, h2, h3, h4⟩ := unvisitedOf_rename key key' l vs fun a ha b hb =>
          hk a (List.mem_cons_of_mem _ ha) b (List.mem_cons_of_mem _ hb)
        refine ⟨us, vs', ?_, ?_, fun u hu => List.mem_cons_of_mem _ (h3 u hu),
          fun u hu => List.mem_cons_of_mem _ (h4 u hu)⟩
        · simp only [unvisitedOf, hashInsert, if_pos hin, h1]
        · simp only [List.map_cons, unvisitedOf, hashInsert, id_eq, if_pos (hi.mp hin), h2]
      · obtain ⟨us, vs', h1, h2, h3, h4⟩ := unvisitedOf_rename key key' l (i :: vs) fun a ha b hb =>
          hk a (by simp only [List.mem_append, List.mem_cons] at ha ⊢; tauto) b
            (by simp only [List.mem_append, List.mem_cons] at hb ⊢; tauto)
        rw [List.map_cons] at h1 h2
        refine ⟨i :: us, vs', ?_, ?_, ?_, ?_⟩
        · simp only [unvisitedOf, hashInsert, if_neg hin, h1]
        · simp only [List.map_cons, unvisitedOf, hashInsert, id_eq, if_neg (mt hi.mpr hin), h2]
        · intro u hu
          rcases List.mem_cons.mp hu with rfl | hu
          · exact List.mem_cons_self
          · exact List.mem_cons_of_mem _ (h3 u hu)
        · intro u hu
          have := h4 u hu
          simp only [List.mem_append, List.mem_cons] at this ⊢
          tauto

/-! ## 2. Elements and their copies -/

/-- The TID of an element by its number. -/
def locTid (locs : List Location) (i : Nat) : ItemPointer := ((locs[i]?).map Location.tid).getD .invalid

/-- The copy a search makes of the element tuple at a TID. -/
def diskCopy (idx : Index V) (ins : Bool) (t : ItemPointer) : HnswElement V :=
  match idx.elem? t with
  | none => HnswInitElementFromBlock t 0
  | some etup => HnswLoadElementFromTuple (HnswInitElementFromBlock t 0) etup true ins

/-- The candidate on disk for a candidate in memory. -/
def diskCandidate (idx : Index V) (locs : List Location) (ins : Bool) (c : HnswSearchCandidate Nat δ) :
    HnswSearchCandidate (HnswElement V) δ :=
  ⟨diskCopy idx ins (locTid locs c.element), c.distance⟩

section Copies

variable {varsize : V → Nat} {m : Nat} {g : HnswGraph V δ} {idx : Index V} {locs : List Location}
  {mem : MemSpace} {support : HnswSupport V δ} {q : V} {ins : Bool} {lc i : Nat} {e : MemElement V δ}

omit [LinearOrder δ] in
theorem Flushed.locTid (h : Flushed varsize m g idx locs) (he : g.elements[i]? = some e) :
    ∃ l, locs[i]? = some l ∧ Hnsw.locTid locs i = l.tid := by
  obtain ⟨l, hl⟩ := h.loc he
  refine ⟨l, hl, ?_⟩
  unfold Hnsw.locTid
  rw [hl]
  rfl

omit [LinearOrder δ] in
/-- The TIDs tell the elements apart. -/
theorem Flushed.locTid_inj (h : Flushed varsize m g idx locs) {j : Nat} (hi : i < g.elements.length)
    (hj : j < g.elements.length) (e : Hnsw.locTid locs i = Hnsw.locTid locs j) : i = j := by
  rw [← h.length] at hi hj
  unfold Hnsw.locTid at e
  rw [List.getElem?_eq_getElem hi, List.getElem?_eq_getElem hj] at e
  have hi' : i < (locs.map Location.tid).length := by rw [List.length_map]; exact hi
  have hj' : j < (locs.map Location.tid).length := by rw [List.length_map]; exact hj
  refine (@List.Nodup.getElem_inj_iff _ _ h.tids i hi' j hj').mp ?_
  rw [List.getElem_map, List.getElem_map]
  exact e

omit [LinearOrder δ] in
theorem Flushed.diskCopy (h : Flushed varsize m g idx locs) (he : g.elements[i]? = some e) :
    ∃ l, locs[i]? = some l ∧ Hnsw.diskCopy idx ins (Hnsw.locTid locs i) =
      HnswLoadElementFromTuple (HnswInitElementFromBlock l.tid 0) (tupleAt (e, l)) true ins := by
  obtain ⟨l, hl, ht⟩ := h.locTid he
  refine ⟨l, hl, ?_⟩
  unfold Hnsw.diskCopy
  rw [ht, h.elem? he hl]

omit [LinearOrder δ] in
/-- **Loading the neighbors on disk**: the TIDs of the neighbors in memory. -/
theorem Flushed.readNeighbors (h : Flushed varsize m g idx locs) (hwf : g.Wf m)
    (he : g.elements[i]? = some e) (hlc : lc ≤ e.level) :
    ∃ ns, e.layer lc = some ns ∧ (∀ j ∈ ns, j < g.elements.length) ∧
      Hnsw.readNeighbors idx m lc (Hnsw.diskCopy idx ins (Hnsw.locTid locs i)) =
        some (ns.map (Hnsw.locTid locs)) := by
  obtain ⟨ns, hns, hmap, hlen, hval⟩ := h.layer hwf he hlc
  have htids : e.layerTids locs lc = ns.map (Hnsw.locTid locs) := by
    unfold MemElement.layerTids
    rw [hns]
    rfl
  obtain ⟨l, hl, hcopy⟩ := h.diskCopy he
  refine ⟨ns, hns, ?_, ?_⟩
  · intro j hj
    have hmem : (locs[j]?).map Location.tid ∈ (e.layerTids locs lc).map some := by
      rw [hmap]
      exact List.mem_map_of_mem (f := fun j => (locs[j]?).map Location.tid) hj
    obtain ⟨t, _, ht⟩ := List.mem_map.mp hmem
    obtain ⟨l', hl', _⟩ := Option.map_eq_some_iff.mp ht.symm
    rw [← h.length]
    exact (List.getElem?_eq_some_iff.mp hl').1
  · unfold Hnsw.readNeighbors
    rw [hcopy]
    have hn : idx.neigh? (HnswLoadElementFromTuple (HnswInitElementFromBlock l.tid 0) (tupleAt (e, l))
        true ins).neighbortid = some (neighborTupleAt m locs e) := h.neigh? he hl
    rw [hn]
    have hset : neighborTids (neighborTupleAt m locs e) (HnswLoadElementFromTuple
        (HnswInitElementFromBlock l.tid 0) (tupleAt (e, l)) true ins).level (HnswLoadElementFromTuple
        (HnswInitElementFromBlock l.tid 0) (tupleAt (e, l)) true ins).version m (HnswGetLayerM m lc) lc =
        some (padTids (HnswGetLayerM m lc) (e.layerTids locs lc)) :=
      neighborTids_set m e.version (e.layerTids locs) hlc
    simp only [hset]
    rw [show validPrefix (padTids (HnswGetLayerM m lc) (e.layerTids locs lc)) = e.layerTids locs lc from
      padTids_valid hlen hval, htids]

end Copies

/-! ## 3. In step -/

/-- **The two searches are in step**: the same candidates in the heaps, all of them on the layer, and the
    keys of the same elements in the visited tables. -/
structure InStep (g : HnswGraph V δ) (mem : MemSpace) (idx : Index V) (locs : List Location) (ins : Bool)
    (lc : Nat) (vs : List Nat) (s : SearchState Nat Nat δ)
    (s' : SearchState (HnswElement V) ItemPointer δ) : Prop where
  C : s'.C = map (diskCandidate idx locs ins) s.C
  W : s'.W = map (diskCandidate idx locs ins) s.W
  wlen : s'.wlen = s.wlen
  v : s.v = vs.map mem.visitedKey
  v' : s'.v = vs.map (locTid locs)
  discarded : s.discarded = none
  discarded' : s'.discarded = none
  tuples : s'.tuples = s.tuples
  heapC : HeapedH CompareNearestCandidates s.C
  goodC : ∀ c ∈ toList s.C, g.OnLayer lc c.element
  goodV : ∀ i ∈ vs, i < g.elements.length

section Step

variable {varsize : V → Nat} {m : Nat} {g : HnswGraph V δ} {idx : Index V} {locs : List Location}
  {mem : MemSpace} {support : HnswSupport V δ} {q : V} {ins : Bool} {ef lc i : Nat} {vs : List Nat}
  {e : MemElement V δ} {s : SearchState Nat Nat δ} {s' : SearchState (HnswElement V) ItemPointer δ}

theorem InStep.first (h : InStep g mem idx locs ins lc vs s s') :
    PairingHeap.first s'.W = (PairingHeap.first s.W).map (diskCandidate idx locs ins) := by
  rw [h.W, map_first]

/-- **Adding an element to the heaps** keeps the searches in step. -/
theorem InStep.add (h : InStep g mem idx locs ins lc vs s s') (hi : g.OnLayer lc i) (d : δ) (n : Nat)
    (W : Heap (HnswSearchCandidate Nat δ)) :
    InStep g mem idx locs ins lc vs
      { s with C := PairingHeap.add CompareNearestCandidates s.C ⟨i, d⟩, W := W, wlen := n }
      { s' with
        C := PairingHeap.add CompareNearestCandidates s'.C (diskCandidate idx locs ins ⟨i, d⟩)
        W := map (diskCandidate idx locs ins) W, wlen := n } :=
  { h with
    C := by
      show PairingHeap.add CompareNearestCandidates s'.C _ = _
      rw [h.C]
      exact map_add (f := diskCandidate idx locs ins)
        (fun _ _ => rfl) _ _
    W := rfl
    wlen := rfl
    heapC := add_heaped nearest_preorder h.heapC _
    goodC := good_add hi h.goodC }

/-- **Visiting an element**: in memory it is loaded always, on disk only where it is used. -/
theorem InStep.visit (hf : Flushed varsize m g idx locs) (h : InStep g mem idx locs ins lc vs s s')
    (he : g.elements[i]? = some e) :
    ∃ r', (readEnv idx support (some q) ins false m lc).loadElement (locTid locs i) (maxDistance ef s') =
        some r' ∧
      InStep g mem idx locs ins lc vs
        (Hnsw.visit (memEnv g mem support q lc) ef lc s (some i) (support.distance q e.value))
        (Hnsw.visit (readEnv idx support (some q) ins false m lc) ef lc s' r'.1 r'.2) := by
  obtain ⟨l, hl, ht⟩ := hf.locTid he
  have helem : idx.elem? (locTid locs i) = some (tupleAt (e, l)) := by rw [ht]; exact hf.elem? he hl
  have hcopy : HnswLoadElementFromTuple (HnswInitElementFromBlock (locTid locs i) 0) (tupleAt (e, l))
      true ins = diskCopy idx ins (locTid locs i) := by
    unfold diskCopy
    rw [helem]
  have hlevel : (memEnv g mem support q lc).level i = e.level := by simp [memEnv, he]
  have hlevel' : (diskCopy idx ins (locTid locs i)).level = e.level := by rw [← hcopy]; rfl
  have hdist : HnswGetDistance support (some q) (tupleAt (e, l)).data = support.distance q e.value := rfl
  refine ⟨loadWithDistance support (some q) ins (maxDistance ef s') (locTid locs i) (tupleAt (e, l)),
    by simp only [readEnv, helem, Option.map_some], ?_⟩
  have hload : ∀ md : Option δ, loadWithDistance support (some q) ins md (locTid locs i) (tupleAt (e, l)) =
      md.elim (some (diskCopy idx ins (locTid locs i)), support.distance q e.value) fun x =>
        if support.distance q e.value < x
          then (some (diskCopy idx ins (locTid locs i)), support.distance q e.value)
          else (none, support.distance q e.value) := by
    intro md
    cases md <;> simp only [loadWithDistance, hcopy, hdist, Option.elim_none, Option.elim_some]
  rw [hload]
  generalize support.distance q e.value = d
  cases hw : PairingHeap.first s.W with
  | none =>
      have hw' := h.first
      rw [hw] at hw'
      have h1 : Hnsw.visit (memEnv g mem support q lc) ef lc s (some i) d = s := by
        unfold Hnsw.visit
        rw [hw]
      have h2 : ∀ eo dd, Hnsw.visit (readEnv idx support (some q) ins false m lc) ef lc s' eo dd = s' := by
        intro eo dd
        unfold Hnsw.visit
        rw [hw']
        cases eo <;> rfl
      rw [h1, h2]
      exact h
  | some f =>
      have hw' := h.first
      rw [hw, Option.map_some] at hw'
      have hmax : maxDistance ef s' = if s.wlen < ef then none else some f.distance := by
        unfold maxDistance
        rw [h.discarded', h.wlen, hw']
        simp [diskCandidate]
      by_cases hadd : d < f.distance ∨ s.wlen < ef
      · -- the element is loaded on both sides
        have hnear : ((maxDistance ef s').elim (some (diskCopy idx ins (locTid locs i)), d) fun x =>
            if d < x then (some (diskCopy idx ins (locTid locs i)), d) else (none, d)) =
            (some (diskCopy idx ins (locTid locs i)), d) := by
          rw [hmax]
          by_cases hlt : s.wlen < ef
          · rw [if_pos hlt, Option.elim_none]
          · rw [if_neg hlt, Option.elim_some]
            exact if_pos (hadd.resolve_right hlt)
        rw [hnear]
        unfold Hnsw.visit
        simp only [hw, hw', hlevel, h.wlen]
        rw [if_neg (not_not.mpr hadd), if_neg (not_not.mpr (show d < (diskCandidate idx locs ins f).distance
          ∨ s.wlen < ef from hadd))]
        by_cases hlc : e.level < lc
        · have hlc' : (readEnv idx support (some q) ins false m lc).level
              (diskCopy idx ins (locTid locs i)) < lc := by
            show (diskCopy idx ins (locTid locs i)).level < lc
            rw [hlevel']
            exact hlc
          rw [if_pos hlc, if_pos hlc']
          exact h
        · have hlc' : ¬ (readEnv idx support (some q) ins false m lc).level
              (diskCopy idx ins (locTid locs i)) < lc := by
            show ¬ (diskCopy idx ins (locTid locs i)).level < lc
            rw [hlevel']
            exact hlc
          have hon : g.OnLayer lc i := ⟨e, he, Nat.le_of_not_lt hlc⟩
          have haddW : PairingHeap.add CompareFurthestCandidates s'.W (diskCandidate idx locs ins ⟨i, d⟩) =
              map (diskCandidate idx locs ins) (PairingHeap.add CompareFurthestCandidates s.W ⟨i, d⟩) := by
            rw [h.W]
            exact map_add (f := diskCandidate idx locs ins)
              (fun _ _ => rfl) _ _
          rw [if_neg hlc, if_neg hlc']
          have hcount : (memEnv g mem support q lc).countElement i = true := rfl
          have hcount' : (readEnv idx support (some q) ins false m lc).countElement
              (diskCopy idx ins (locTid locs i)) = true := rfl
          rw [if_pos hcount, if_pos hcount']
          have hcand : (⟨diskCopy idx ins (locTid locs i), d⟩ :
              HnswSearchCandidate (HnswElement V) δ) = diskCandidate idx locs ins ⟨i, d⟩ := rfl
          rw [hcand, haddW]
          by_cases hev : ef < s.wlen + 1
          · rw [if_pos hev, if_pos hev]
            have hcmp : ∀ a b : HnswSearchCandidate Nat δ, CompareFurthestCandidates
                (diskCandidate idx locs ins a) (diskCandidate idx locs ins b) =
                  CompareFurthestCandidates a b := fun _ _ => rfl
            rw [map_removeFirst hcmp]
            cases removeFirst CompareFurthestCandidates
                (PairingHeap.add CompareFurthestCandidates s.W ⟨i, d⟩) with
            | none => exact h.add hon d _ _
            | some x =>
                have := h.add hon d (s.wlen + 1) x.2
                simp only [Option.map_some, h.discarded, h.discarded', Option.map_none]
                exact { this with discarded := rfl, discarded' := rfl }
          · rw [if_neg hev, if_neg hev]
            exact h.add hon d _ _
      · -- it is not used: in memory it is dropped, on disk not loaded
        rw [not_or] at hadd
        have hfar : ((maxDistance ef s').elim (some (diskCopy idx ins (locTid locs i)), d) fun x =>
            if d < x then (some (diskCopy idx ins (locTid locs i)), d) else (none, d)) = (none, d) := by
          rw [hmax, if_neg hadd.2, Option.elim_some]
          exact if_neg hadd.1
        rw [hfar, visit_none]
        unfold Hnsw.visit
        simp only [hw]
        rw [if_pos (by rw [not_or]; exact hadd), h.discarded]
        exact { h with discarded := rfl }

/-- **The inner loop**: the unvisited elements, one after the other. -/
theorem foldl_inStep (hf : Flushed varsize m g idx locs) : ∀ (us : List Nat) (s : SearchState Nat Nat δ)
    (s' : SearchState (HnswElement V) ItemPointer δ), InStep g mem idx locs ins lc vs s s' →
    (∀ u ∈ us, u < g.elements.length) →
    ∃ r r', us.foldlM (loadAndVisit (memEnv g mem support q lc) ef lc) s = some r ∧
      (us.map (locTid locs)).foldlM (loadAndVisit (readEnv idx support (some q) ins false m lc) ef lc) s' =
        some r' ∧
      InStep g mem idx locs ins lc vs r r' ∧ r.v = s.v ∧
      (toList r.C).length ≤ (toList s.C).length + us.length
  | [], s, s', h, _ => ⟨s, s', rfl, rfl, h, rfl, Nat.le_refl _⟩
  | u :: us, s, s', h, hus => by
      obtain ⟨e, he⟩ : ∃ e, g.elements[u]? = some e :=
        ⟨_, List.getElem?_eq_getElem (hus u List.mem_cons_self)⟩
      obtain ⟨r', hr', hstep⟩ := h.visit (q := q) hf he
      have hload : (memEnv g mem support q lc).loadElement u (maxDistance ef s) =
          some (some u, support.distance q e.value) := by simp only [memEnv, he, Option.map_some]
      obtain ⟨r1, r1', h1, h2, h3, h4, h5⟩ := foldl_inStep hf us _ _ hstep fun x hx => hus x (List.mem_cons_of_mem _ hx)
      have hsize : (Hnsw.visit (memEnv g mem support q lc) ef lc s (some u)
          (support.distance q e.value)).v = s.v ∧
          (toList (Hnsw.visit (memEnv g mem support q lc) ef lc s (some u)
            (support.distance q e.value)).C).length ≤ (toList s.C).length + 1 := by
        cases hw : PairingHeap.first s.W with
        | none =>
            have : Hnsw.visit (memEnv g mem support q lc) ef lc s (some u)
                (support.distance q e.value) = s := by
              unfold Hnsw.visit
              rw [hw]
            rw [this]
            exact ⟨rfl, Nat.le_succ _⟩
        | some f =>
            have hv := visit_cases (memEnv g mem support q lc) ef lc hw u (support.distance q e.value)
            exact ⟨hv.v_eq, hv.C_length⟩
      refine ⟨r1, r1', ?_, ?_, h3, h4.trans hsize.1, ?_⟩
      · rw [List.foldlM_cons]
        simp only [loadAndVisit, hload]
        exact h1
      · rw [List.map_cons, List.foldlM_cons]
        simp only [loadAndVisit, hr']
        exact h2
      · have := hsize.2
        simp only [List.length_cons]
        omega

/-- The keys of all elements. -/
def allKeys (g : HnswGraph V δ) (mem : MemSpace) : Finset Nat :=
  ((List.range g.elements.length).map mem.visitedKey).toFinset

/-- **The `while` loop**: both searches end, in step. -/
theorem searchLoop_inStep (hf : Flushed varsize m g idx locs) (hwf : g.Wf m) : ∀ (n : Nat)
    (vs : List Nat) (s : SearchState Nat Nat δ) (s' : SearchState (HnswElement V) ItemPointer δ),
    InStep g mem idx locs ins lc vs s s' → remaining (allKeys g mem) s < n →
    ∃ vs' r r', searchLoop (memEnv g mem support q lc) ef lc n s = some r ∧
      searchLoop (readEnv idx support (some q) ins false m lc) ef lc n s' = some r' ∧
      InStep g mem idx locs ins lc vs' r r'
  | 0, _, _, _, _, hn => absurd hn (Nat.not_lt_zero _)
  | n + 1, vs, s, s', h, hn => by
      have hcmp : ∀ a b : HnswSearchCandidate Nat δ, CompareNearestCandidates
          (diskCandidate idx locs ins a) (diskCandidate idx locs ins b) =
            CompareNearestCandidates a b := fun _ _ => rfl
      have hrem := map_removeFirst hcmp s.C
      rw [← h.C] at hrem
      have hfirst := h.first
      cases hC : removeFirst CompareNearestCandidates s.C with
      | none =>
          rw [hC] at hrem
          refine ⟨vs, s, s', ?_, ?_, h⟩
          · simp only [searchLoop, hC]
            rfl
          · simp only [searchLoop, hrem, Option.map_none]
            rfl
      | some x =>
          obtain ⟨c, C⟩ := x
          rw [hC, Option.map_some] at hrem
          cases hW : PairingHeap.first s.W with
          | none =>
              rw [hW] at hfirst
              refine ⟨vs, s, s', ?_, ?_, h⟩
              · simp only [searchLoop, hC, hW]
                rfl
              · simp only [searchLoop, hrem, hfirst, Option.map_none]
                rfl
          | some f =>
              rw [hW, Option.map_some] at hfirst
              have hp := removeFirst_perm _ hC
              have hpop : InStep g mem idx locs ins lc vs { s with C := C }
                  { s' with C := map (diskCandidate idx locs ins) C } :=
                { h with
                  C := rfl
                  heapC := removeFirst_heaped nearest_preorder h.heapC hC
                  goodC := fun y hy => h.goodC y (hp.mem_iff.mpr (List.mem_cons_of_mem _ hy)) }
              by_cases hd : f.distance < c.distance
              · refine ⟨vs, _, _, ?_, ?_, hpop⟩
                · simp only [searchLoop, hC, hW, if_pos hd]
                  rfl
                · simp only [searchLoop, hrem, hfirst]
                  rw [if_pos (show (diskCandidate idx locs ins f).distance <
                    (diskCandidate idx locs ins c).distance from hd)]
                  rfl
              · -- the neighbors of the nearest candidate
                obtain ⟨e, he, hlc⟩ := h.goodC c (hp.mem_iff.mpr List.mem_cons_self)
                obtain ⟨ns, hns, hin, hread⟩ := hf.readNeighbors hwf he hlc
                obtain ⟨us, vs', h1, h2, h3, h4⟩ := unvisitedOf_rename mem.visitedKey (locTid locs)
                  ns vs (by
                    intro i hi j hj
                    have hlt : ∀ x ∈ ns ++ vs, x < g.elements.length := by
                      intro x hx
                      rcases List.mem_append.mp hx with hx | hx
                      · exact hin x hx
                      · exact h.goodV x hx
                    constructor
                    · intro e
                      rw [mem.visitedKey_inj e]
                    · intro e
                      rw [hf.locTid_inj (hlt i hi) (hlt j hj) e])
                have hload : (memEnv g mem support q lc).loadUnvisited c.element s.v =
                    some (us, vs'.map mem.visitedKey) := by
                  simp only [memEnv, he, hns, Option.map_some, h.v, h1]
                have hload' : (readEnv idx support (some q) ins false m lc).loadUnvisited
                    (diskCandidate idx locs ins c).element s'.v =
                      some (us.map (locTid locs), vs'.map (locTid locs)) := by
                  have hread' : readNeighbors idx m lc (diskCandidate idx locs ins c).element =
                      some (ns.map (locTid locs)) := hread
                  simp only [readEnv, hread', Option.map_some, h.v', h2]
                have hstep : InStep g mem idx locs ins lc vs'
                    { s with C := C, v := vs'.map mem.visitedKey, tuples := s.tuples + us.length }
                    { s' with
                      C := map (diskCandidate idx locs ins) C, v := vs'.map (locTid locs)
                      tuples := s'.tuples + (us.map (locTid locs)).length } :=
                  { hpop with
                    v := rfl
                    v' := rfl
                    tuples := by simp only [List.length_map, h.tuples]
                    goodV := fun x hx => by
                      rcases List.mem_append.mp (h4 x hx) with hx | hx
                      · exact hin x hx
                      · exact h.goodV x hx }
                obtain ⟨r, r', h5, h6, h7, h8, h9⟩ := foldl_inStep (q := q)
                  hf us _ _ hstep fun u hu => hin u (h3 u hu)
                have hcard := card_unvisited mem.visitedKey (l := ns) (v := s.v)
                  (S := allKeys g mem) (fun u hu => by
                    unfold allKeys
                    rw [List.mem_toFinset]
                    exact List.mem_map_of_mem (List.mem_range.mpr (hin u hu)))
                rw [h.v, h1] at hcard
                have hlen := hp.length_eq
                rw [List.length_cons] at hlen
                have hμ : remaining (allKeys g mem) r < n := by
                  unfold remaining at hn ⊢
                  rw [h8]
                  rw [h.v] at hn
                  simp only at h9 hcard ⊢
                  omega
                obtain ⟨vs2, r2, r2', h10, h11, h12⟩ := searchLoop_inStep hf hwf n vs' r r' h7 hμ
                refine ⟨vs2, r2, r2', ?_, ?_, h12⟩
                · simp only [searchLoop, hC, hW, if_neg hd, hload]
                  exact (congrArg (Option.bind · _) h5).trans h10
                · simp only [searchLoop, hrem, hfirst]
                  rw [if_neg (show ¬ (diskCandidate idx locs ins f).distance <
                    (diskCandidate idx locs ins c).distance from hd)]
                  simp only [hload']
                  exact (congrArg (Option.bind · _) h6).trans h11

/-- One entry point. -/
theorem InStep.entry (hf : Flushed varsize m g idx locs) (h : InStep g mem idx locs ins lc vs s s')
    {c : HnswSearchCandidate Nat δ} (hc : g.OnLayer lc c.element) :
    ∃ vs', InStep g mem idx locs ins lc vs' (addEntry (memEnv g mem support q lc) true s c)
      (addEntry (readEnv idx support (some q) ins false m lc) true s' (diskCandidate idx locs ins c)) := by
  obtain ⟨e, he, hlc⟩ := hc
  have hlt := (List.getElem?_eq_some_iff.mp he).1
  obtain ⟨l, hl, hcopy⟩ := hf.diskCopy he
  have htid : (diskCandidate idx locs ins c).element.tid = locTid locs c.element := by
    obtain ⟨l', hl', ht⟩ := hf.locTid he
    rw [hl] at hl'
    cases hl'
    rw [ht]
    show (diskCopy idx ins (locTid locs c.element)).tid = l.tid
    rw [hcopy]
    rfl
  have hadd := h.add (d := c.distance) ⟨e, he, hlc⟩ (s.wlen + 1)
    (PairingHeap.add CompareFurthestCandidates s.W c)
  have hW : PairingHeap.add CompareFurthestCandidates s'.W (diskCandidate idx locs ins c) =
      map (diskCandidate idx locs ins) (PairingHeap.add CompareFurthestCandidates s.W c) := by
    rw [h.W]
    exact map_add (f := diskCandidate idx locs ins)
      (fun _ _ => rfl) _ _
  -- the table before and after
  have hkey : mem.visitedKey c.element ∈ s.v ↔ locTid locs c.element ∈ s'.v := by
    rw [h.v, h.v', List.mem_map, List.mem_map]
    constructor
    · rintro ⟨j, hj, e⟩
      exact ⟨j, hj, by rw [mem.visitedKey_inj e]⟩
    · rintro ⟨j, hj, e⟩
      exact ⟨j, hj, by rw [hf.locTid_inj (h.goodV j hj) hlt e]⟩
  have hv : ∃ vs' : List Nat, (hashInsert s.v (mem.visitedKey c.element)).1 = vs'.map mem.visitedKey ∧
      (hashInsert s'.v (locTid locs c.element)).1 = vs'.map (locTid locs) ∧
      ∀ i ∈ vs', i < g.elements.length := by
    unfold hashInsert
    by_cases hin : mem.visitedKey c.element ∈ s.v
    · rw [if_pos hin, if_pos (hkey.mp hin)]
      exact ⟨vs, h.v, h.v', h.goodV⟩
    · rw [if_neg hin, if_neg (mt hkey.mpr hin)]
      refine ⟨c.element :: vs, by rw [List.map_cons, ← h.v], by rw [List.map_cons, ← h.v'], ?_⟩
      intro i hi
      rcases List.mem_cons.mp hi with rfl | hi
      · exact hlt
      · exact h.goodV i hi
  obtain ⟨vs', hv1, hv2, hv3⟩ := hv
  refine ⟨vs', ?_⟩
  exact {
    C := hadd.C
    W := hW
    wlen := congrArg (· + 1) h.wlen
    v := hv1
    v' := by
      show (hashInsert s'.v (diskCandidate idx locs ins c).element.tid).1 = _
      rw [htid]
      exact hv2
    discarded := h.discarded
    discarded' := h.discarded'
    tuples := congrArg (· + 1) h.tuples
    heapC := hadd.heapC
    goodC := hadd.goodC
    goodV := hv3 }

/-- The searches start in step. -/
theorem searchStart_inStep (hf : Flushed varsize m g idx locs) {ep : List (HnswSearchCandidate Nat δ)}
    (hep : ∀ c ∈ ep, g.OnLayer lc c.element) :
    ∃ vs, InStep g mem idx locs ins lc vs (searchStart (memEnv g mem support q lc) ep [] none true 0)
      (searchStart (readEnv idx support (some q) ins false m lc) (ep.map (diskCandidate idx locs ins)) []
        none true 0) := by
  have hfold : ∀ (ep : List (HnswSearchCandidate Nat δ)) (vs : List Nat) (s : SearchState Nat Nat δ)
      (s' : SearchState (HnswElement V) ItemPointer δ), (∀ c ∈ ep, g.OnLayer lc c.element) →
      InStep g mem idx locs ins lc vs s s' →
      ∃ vs', InStep g mem idx locs ins lc vs' (ep.foldl (addEntry (memEnv g mem support q lc) true) s)
        ((ep.map (diskCandidate idx locs ins)).foldl
          (addEntry (readEnv idx support (some q) ins false m lc) true) s') := by
    intro ep
    induction ep with
    | nil => exact fun vs s s' _ h => ⟨vs, h⟩
    | cons c ep ih =>
        intro vs s s' hep h
        obtain ⟨vs1, h1⟩ := h.entry (q := q) hf (hep c List.mem_cons_self)
        exact ih vs1 _ _ (fun x hx => hep x (List.mem_cons_of_mem _ hx)) h1
  exact hfold ep [] _ _ hep {
    C := rfl
    W := rfl
    wlen := rfl
    v := rfl
    v' := rfl
    discarded := rfl
    discarded' := rfl
    tuples := rfl
    heapC := heapedH_none
    goodC := fun c hc => absurd hc List.not_mem_nil
    goodV := fun i hi => absurd hi List.not_mem_nil }

omit [LinearOrder δ] in
theorem drain_rename {cmp : HnswSearchCandidate Nat δ → HnswSearchCandidate Nat δ → Int}
    {cmp' : HnswSearchCandidate (HnswElement V) δ → HnswSearchCandidate (HnswElement V) δ → Int}
    (hc : ∀ a b, cmp' (diskCandidate idx locs ins a) (diskCandidate idx locs ins b) = cmp a b) :
    ∀ (n : Nat) (h : Heap (HnswSearchCandidate Nat δ)),
    drain cmp' n (map (diskCandidate idx locs ins) h) = (drain cmp n h).map (diskCandidate idx locs ins)
  | 0, _ => rfl
  | n + 1, h => by
      simp only [drain]
      rw [map_removeFirst hc]
      cases removeFirst cmp h with
      | none => rfl
      | some x => simp only [Option.map_some, List.map_cons, drain_rename hc n x.2]

/-- What the searches give back. -/
theorem InStep.result (h : InStep g mem idx locs ins lc vs s s') :
    (searchEnd s').w = (searchEnd s).w.map (diskCandidate idx locs ins) := by
  unfold searchEnd
  simp only
  rw [h.W, toList_map, List.length_map]
  exact drain_rename (fun _ _ => rfl) _ _

/-- **The search in memory and the search on the pages written from it agree**: for every query, every
    `ef`, every layer and all entry candidates on it, both end, and give the same elements in the same
    order with the same distances. -/
theorem memory_disk_search_agree (varsize : V → Nat) (h2 : 2 ≤ m) (h100 : m ≤ 100) (hwf : g.Wf m)
    (hsize : ∀ e ∈ g.elements, HNSW_ELEMENT_TUPLE_SIZE (varsize e.value) ≤ HNSW_MAX_SIZE) :
    ∃ idx locs, FlushPages varsize m g = .ok (idx, locs) ∧
      ∀ (mem : MemSpace) (support : HnswSupport V δ) (q : V) (ins : Bool) (ef lc : Nat)
        (ep : List (HnswSearchCandidate Nat δ)) (n : Nat), (∀ c ∈ ep, g.OnLayer lc c.element) →
        ep.length + g.elements.length < n →
        ∃ r r', HnswSearchLayer (memEnv g mem support q lc) ep ef lc [] none true 0 n = some r ∧
          readRun idx (HnswSearchLayer (diskEnv support (some q) ins false m lc)
            (ep.map (diskCandidate idx locs ins)) ef lc [] none true 0 n) = some r' ∧
          r'.w.map (fun c => (c.element.tid, c.distance)) =
            r.w.map (fun c => (locTid locs c.element, c.distance)) := by
  obtain ⟨idx, locs, hflush, hf⟩ := flushPages_ok (g := g) h2 h100
    (fun e he => by
      obtain ⟨i, hi⟩ := List.getElem?_of_mem he
      exact hwf.level hi) hsize
  refine ⟨idx, locs, hflush, fun mem support q ins ef lc ep n hep hn => ?_⟩
  obtain ⟨vs, h0⟩ := searchStart_inStep (q := q) hf hep
  have hμ : remaining (allKeys g mem) (searchStart (memEnv g mem support q lc) ep [] none true 0) < n := by
    have hC := (searchStart_perm (memEnv g mem support q lc) ep [] none true 0).1.length_eq
    have hcard := Finset.card_le_card (Finset.sdiff_subset (s := allKeys g mem)
      (t := (searchStart (memEnv g mem support q lc) ep [] none true 0).v.toFinset))
    have hkeys : (allKeys g mem).card ≤ g.elements.length := by
      have := List.toFinset_card_le ((List.range g.elements.length).map mem.visitedKey)
      rwa [List.length_map, List.length_range] at this
    unfold remaining
    omega
  obtain ⟨vs', s, s', h3, h4, h5⟩ := searchLoop_inStep hf hwf n vs _ _ h0 hμ
  refine ⟨searchEnd s, searchEnd s', ?_, ?_, ?_⟩
  · unfold HnswSearchLayer
    rw [h3]
    rfl
  · rw [readRun_searchLayer]
    unfold HnswSearchLayer
    rw [h4]
    rfl
  · rw [h5.result, List.map_map]
    refine List.map_congr_left fun c _ => ?_
    have htid : ∀ t, (diskCopy idx ins t).tid = t := by
      intro t
      unfold diskCopy
      split <;> rfl
    exact congrArg (·, c.distance) (htid _)

/-- The search of the graph with two elements, in memory by address and on its pages. -/
theorem memory_disk_search_agree_pair : ∃ idx locs, FlushPages (fun _ => 8) 2 pairGraph = .ok (idx, locs) ∧
    ∃ r r', HnswSearchLayer (memEnv pairGraph ⟨id, none, fun _ _ h => h, fun _ h => by cases h⟩
        numberSupport 12 0) [⟨0, 2⟩] 1 0 [] none true 0 4 = some r ∧
      readRun idx (HnswSearchLayer (diskEnv numberSupport (some 12) false false 2 0)
        ([⟨0, 2⟩].map (diskCandidate idx locs false)) 1 0 [] none true 0 4) = some r' ∧
      r'.w.map (fun c => (c.element.tid, c.distance)) =
        r.w.map (fun c => (locTid locs c.element, c.distance)) := by
  obtain ⟨idx, locs, hflush, hall⟩ := memory_disk_search_agree (fun _ => 8) (by decide)
    (by decide) pairGraph_wf (by decide)
  refine ⟨idx, locs, hflush, hall _ numberSupport 12 false 1 0 [⟨0, 2⟩] 4 ?_ (by decide)⟩
  intro c hc
  rw [List.mem_singleton.mp hc]
  exact ⟨_, rfl, Nat.zero_le _⟩

end Step

end Pgvec.Hnsw
