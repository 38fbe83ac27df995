/-
  File:      Pgvec/Hnsw/MemoryBuild.lean
  Subject:   THE GRAPH IN MEMORY THROUGH A WHOLE BUILD: every `InsertTupleInMemory` keeps the invariant of
             the links.

  * `HnswGraph.Arrays`, `HnswGraph.Linked` -- the invariant, without and with the entry point;
  * `searchLayer_mem`, `findNeighbors_mem` -- the search ends and finds elements of its layer;
  * `Rewired` -- one back link; `updateNeighbors_arrays` -- all of them;
  * **`insertTuple_linked`** -- one insert; **`insertAll_linked`** -- any number of them;
  * **`insertAll_wf`** -- the graphs of a build satisfy `HnswGraph.Wf`.
-/
import Pgvec.Hnsw.MemoryFacts
import Pgvec.Hnsw.SearchFacts
import Pgvec.Hnsw.Graph

namespace Pgvec.Hnsw

variable {V δ : Type}

/-! ## 1. The invariant -/

/-- **The arrays of a build**: every element but the first has a neighbor on the ground layer. -/
structure HnswGraph.Arrays (m : Nat) (g : HnswGraph V δ) : Prop extends g.Layers m where
  ground : ∀ {i : Nat} {e : MemElement V δ} {a : HnswNeighborArray Nat δ},
    g.elements[i]? = some e → e.neighbors[0]? = some a → i ≠ 0 → a.items ≠ []

/-- **The invariant of the links**: the arrays, and an entry point of the highest level. -/
structure HnswGraph.Linked (m : Nat) (g : HnswGraph V δ) : Prop extends g.Arrays m, g.Top

theorem linked_init (m : Nat) : (InitGraph : HnswGraph V δ).Linked m where
  level h := nomatch h
  arrays h := nomatch h
  room h := nomatch h
  link h := nomatch h
  nodup h := nomatch h
  ground h := nomatch h
  entry h := nomatch h
  noEntry _ := rfl

/-! ## 2. Searching -/

theorem HnswGraph.OnLayer.lower {g : HnswGraph V δ} {lc lc' i : Nat} (h : g.OnLayer lc i)
    (hl : lc' ≤ lc) : g.OnLayer lc' i := by
  obtain ⟨e, he, hle⟩ := h
  exact ⟨e, he, hl.trans hle⟩

/-- Candidates to start a layer with, or found on it. -/
structure HnswGraph.CandidatesOn (g : HnswGraph V δ) (lc : Nat) (w : List (HnswSearchCandidate Nat δ)) :
    Prop where
  ne : w ≠ []
  good : ∀ c ∈ w, g.OnLayer lc c.element
  nodup : (w.map (·.element)).Nodup

theorem HnswGraph.CandidatesOn.lower {g : HnswGraph V δ} {lc lc' : Nat}
    {w : List (HnswSearchCandidate Nat δ)} (h : g.CandidatesOn lc w) (hl : lc' ≤ lc) :
    g.CandidatesOn lc' w :=
  ⟨h.ne, fun c hc => (h.good c hc).lower hl, h.nodup⟩

section Search

variable [LinearOrder δ] {g : HnswGraph V δ} {m : Nat}

omit [LinearOrder δ] in
/-- The elements fit into the graph. -/
theorem HnswGraph.CandidatesOn.length_le {lc : Nat} {w : List (HnswSearchCandidate Nat δ)}
    (h : g.CandidatesOn lc w) : w.length ≤ g.elements.length := by
  have hsub : w.map (·.element) ⊆ List.range g.elements.length := by
    intro i hi
    obtain ⟨c, hc, rfl⟩ := List.mem_map.mp hi
    obtain ⟨e, he, _⟩ := h.good c hc
    exact List.mem_range.mpr (List.getElem?_eq_some_iff.mp he).1
  have := (List.subperm_of_subset h.nodup hsub).length_le
  rwa [List.length_map, List.length_range] at this

/-- **`HnswSearchLayer` in memory** ends, and finds distinct elements of the layer. -/
theorem searchLayer_mem (h : g.Arrays m) (mem : MemSpace) (support : HnswSupport V δ) (q : V) (ef : Nat)
    {lc : Nat} {ep : List (HnswSearchCandidate Nat δ)} (hep : g.CandidatesOn lc ep) {budget : Nat}
    (hb : 2 * g.elements.length < budget) :
    ∃ r, HnswSearchLayer (memEnv g mem support q lc) ep ef lc [] none true 0 budget = some r ∧
      g.CandidatesOn lc r.w := by
  have hnd : ∀ {w : List (HnswSearchCandidate Nat δ)},
      (w.map fun c => mem.visitedKey c.element).Nodup ↔ (w.map (·.element)).Nodup := by
    intro w
    have hinj : Function.Injective mem.visitedKey := fun _ _ => mem.visitedKey_inj
    rw [← List.nodup_map_iff hinj (l := w.map (·.element)), List.map_map]
    rfl
  let keys : Finset Nat := ((List.range g.elements.length).map mem.visitedKey).toFinset
  have hcard : keys.card ≤ g.elements.length := by
    refine (List.toFinset_card_le _).trans ?_
    rw [List.length_map, List.length_range]
  have hlen := hep.length_le
  obtain ⟨r, hr, h1, h2, h3⟩ := @searchLayer_total Nat Nat Nat δ _ _ (memEnv g mem support q lc)
    (fun c => g.OnLayer lc c.element) mem.visitedKey keys lc ef (fun u => u < g.elements.length)
    (fun u hu => List.mem_toFinset.mpr (List.mem_map_of_mem (List.mem_range.mpr hu)))
    (fun u md hu => by
      refine ⟨(some u, support.distance q g.elements[u].value),
        by simp only [memEnv, List.getElem?_eq_getElem hu, Option.map_some], ?_⟩
      intro e he
      cases he
      refine ⟨rfl, fun hl => ⟨_, List.getElem?_eq_getElem hu, ?_⟩⟩
      simpa only [memEnv, List.getElem?_eq_getElem hu, Option.map_some, Option.getD_some] using hl)
    (fun c v hc => by
      obtain ⟨e, he, hle⟩ := hc
      have hlt : lc < e.neighbors.length := by
        rw [h.arrays he]
        exact Nat.lt_succ_of_le hle
      have ha : e.neighbors[lc]? = some e.neighbors[lc] := List.getElem?_eq_getElem hlt
      refine ⟨e.neighbors[lc].items.map (·.element), ?_, ?_⟩
      · intro u hu
        obtain ⟨x, hx, rfl⟩ := List.mem_map.mp hu
        obtain ⟨_, f, hf, _⟩ := h.link he ha x hx
        exact (List.getElem?_eq_some_iff.mp hf).1
      · simp only [memEnv, he, MemElement.layer, ha, Option.map_some])
    ep hep.ne hep.good (hnd.mpr hep.nodup) budget (by omega)
  exact ⟨r, hr, h1, h2, hnd.mp h3⟩

/-- An array chosen for a layer of a new element. -/
structure HnswGraph.Chosen (g : HnswGraph V δ) (m lc : Nat) (a : HnswNeighborArray Nat δ) : Prop where
  room : a.items.length ≤ HnswGetLayerM m lc
  nodup : (a.items.map (·.element)).Nodup
  link : ∀ c ∈ a.items, g.OnLayer lc c.element

omit [LinearOrder δ] in
theorem chosen_init (g : HnswGraph V δ) (m lc : Nat) : g.Chosen m lc HnswInitNeighborArray :=
  ⟨Nat.zero_le _, List.nodup_nil, fun _ hc => absurd hc List.not_mem_nil⟩

/-- The neighbors selected from what a layer's search found. -/
theorem chosen_layerNeighbors (mem : MemSpace) (support : HnswSupport V δ) (q : V) {lc : Nat}
    {w : List (HnswSearchCandidate Nat δ)} (h : g.CandidatesOn lc w) :
    g.Chosen m lc (layerNeighbors (memFindEnv g mem support q m) lc w) where
  room := select_length _ _ _ _ _
  nodup := by
    refine select_nodup id ?_ _ _ _ _
    simp only [memFindEnv, id, List.map_map]
    exact h.nodup
  link c hc := by
    obtain ⟨y, hy, he⟩ := select_sub hc
    obtain ⟨sc, hsc, rfl⟩ := List.mem_map.mp hy
    rw [← he]
    exact h.good sc hsc

/-- The selection loop looks at everything, or has found enough. -/
theorem selectLoop_rest {E : Type} (pd : E → E → δ) (lm : Nat) (mc : Bool) (isNew : E → Bool) :
    ∀ (w : List (HnswCandidate E δ)) (s : SelectState E δ),
      (selectLoop pd lm mc isNew w s).2 = [] ∨ lm ≤ (selectLoop pd lm mc isNew w s).1.r.length
  | [], _ => Or.inl rfl
  | e :: w, s => by
      simp only [selectLoop]
      split
      · split
        · exact selectLoop_rest pd lm mc isNew w _
        · exact selectLoop_rest pd lm mc isNew w _
      · rename_i hge
        exact Or.inr (Nat.le_of_not_lt hge)

/-- Something is selected. -/
theorem select_ne {E : Type} {ptr : E → Nat} {pd : E → E → δ} {c : List (HnswCandidate E δ)} {lm : Nat}
    (hc : c ≠ []) (hlm : 0 < lm) (cs : Bool) (isNew : E → Bool) (sc : Bool) :
    (SelectNeighbors ptr pd c lm cs isNew sc).r ≠ [] := by
  unfold SelectNeighbors
  split
  · exact hc
  · rename_i hlen
    generalize hw : (if sc = true then c.insertionSort fun a b => sortsBefore ptr a b else c) = w
    have hwlen : w.length = c.length := by
      rw [← hw]
      split
      · exact (List.perm_insertionSort _ _).length_eq
      · rfl
    have hperm := (selectLoop_perm pd lm (!cs) isNew w.reverse ⟨[], [], [], false⟩
      (Nat.zero_le _)).1.length_eq
    have hrest := selectLoop_rest pd lm (!cs) isNew w.reverse ⟨[], [], [], false⟩
    generalize hs : selectLoop pd lm (!cs) isNew w.reverse ⟨[], [], [], false⟩ = out at hperm hrest
    obtain ⟨s, rest⟩ := out
    simp only [List.length_map, List.length_append, List.length_nil, List.length_reverse] at hperm hrest
    refine List.ne_nil_of_length_pos ?_
    simp only [hs, List.length_append, List.length_take]
    rcases hrest with rfl | hrest
    · simp only [List.length_nil] at hperm
      omega
    · omega

/-- What the second phase has chosen, one array for each layer; something is chosen on each. -/
structure HnswGraph.ChosenAll (g : HnswGraph V δ) (m level : Nat)
    (arrays : List (HnswNeighborArray Nat δ)) : Prop where
  length : arrays.length = level + 1
  layer : ∀ {lc a}, arrays[lc]? = some a → g.Chosen m lc a

section Find

variable {mem : MemSpace} {support : HnswSupport V δ} {q : V} {budget : Nat}

/-- The first phase of `HnswFindElementNeighbors`. -/
theorem greedyPhase_mem (h : g.Arrays m) (mem : MemSpace) (support : HnswSupport V δ) (q : V) (level : Nat)
    (hb : 2 * g.elements.length < budget) : ∀ (lc : Nat) {ep : List (HnswSearchCandidate Nat δ)},
    g.CandidatesOn lc ep → ∃ w, greedyPhase (memFindEnv g mem support q m) level budget lc ep = some w ∧
      g.CandidatesOn (min level lc) w
  | 0, ep, hep => ⟨ep, rfl, by rw [Nat.min_zero]; exact hep⟩
  | lc + 1, ep, hep => by
      unfold greedyPhase
      split
      · obtain ⟨r, hr, hc⟩ := searchLayer_mem h mem support q 1 hep hb
        obtain ⟨w, hw, hcw⟩ := greedyPhase_mem h mem support q level hb lc (hc.lower (Nat.le_succ lc))
        refine ⟨w, ?_, hcw.lower (by omega)⟩
        show (HnswSearchLayer (memEnv g mem support q (lc + 1)) ep 1 (lc + 1) [] none true 0 budget >>= _) =
          some w
        rw [hr]
        exact hw
      · exact ⟨ep, rfl, hep.lower (Nat.min_le_right _ _)⟩

/-- The second phase. -/
theorem connectPhase_mem (h : g.Arrays m) (hm : 0 < m) (mem : MemSpace) (support : HnswSupport V δ) (q : V)
    (ef : Nat) (hb : 2 * g.elements.length < budget) :
    ∀ (lc : Nat) {ep : List (HnswSearchCandidate Nat δ)}, g.CandidatesOn lc ep →
      ∃ arrays, connectPhase (memFindEnv g mem support q m) ef budget lc ep = some arrays ∧
        g.ChosenAll m lc arrays ∧ ∀ a, arrays[0]? = some a → a.items ≠ []
  | 0, ep, hep => by
      obtain ⟨r, hr, hc⟩ := searchLayer_mem h mem support q ef hep hb
      refine ⟨[layerNeighbors (memFindEnv g mem support q m) 0 r.w], ?_, ⟨rfl, ?_⟩, ?_⟩
      · show (HnswSearchLayer (memEnv g mem support q 0) ep ef 0 [] none true 0 budget >>= _) = _
        rw [hr]
        rfl
      · intro lc a ha
        cases lc with
        | zero =>
          cases ha
          exact chosen_layerNeighbors mem support q hc
        | succ lc => cases ha
      · intro a ha
        cases ha
        refine select_ne ?_ (show 0 < m * 2 by omega) _ _ _
        intro hn
        exact hc.ne (List.map_eq_nil_iff.mp hn)
  | lc + 1, ep, hep => by
      obtain ⟨r, hr, hc⟩ := searchLayer_mem h mem support q ef hep hb
      obtain ⟨lower, hlow, hall, hne⟩ := connectPhase_mem h hm mem support q ef hb lc
        (hc.lower (Nat.le_succ lc))
      refine ⟨lower ++ [layerNeighbors (memFindEnv g mem support q m) (lc + 1) r.w], ?_, ⟨?_, ?_⟩, ?_⟩
      · show (HnswSearchLayer (memEnv g mem support q (lc + 1)) ep ef (lc + 1) [] none true 0 budget >>= _) = _
        rw [hr]
        show (connectPhase (memFindEnv g mem support q m) ef budget lc r.w >>= _) = _
        rw [hlow]
        rfl
      · rw [List.length_append, hall.length]
        rfl
      · intro k a ha
        rcases Nat.lt_or_ge k (lc + 1) with hk | hk
        · rw [List.getElem?_append_left (by rw [hall.length]; exact hk)] at ha
          exact hall.layer ha
        · rw [List.getElem?_append_right (by rw [hall.length]; exact hk), hall.length] at ha
          cases hd : k - (lc + 1) with
          | zero =>
            rw [hd] at ha
            cases ha
            have hkl : k = lc + 1 := by omega
            subst hkl
            exact chosen_layerNeighbors mem support q hc
          | succ j =>
            rw [hd] at ha
            cases ha
      · intro a ha
        rw [List.getElem?_append_left (by rw [hall.length]; exact Nat.succ_pos lc)] at ha
        exact hne a ha

/-- **`HnswFindElementNeighbors` in memory.** -/
theorem findNeighbors_mem (h : g.Linked m) (hm : 0 < m) (mem : MemSpace) (support : HnswSupport V δ) (q : V)
    (level ef : Nat) (hb : 2 * g.elements.length < budget) :
    ∃ r, HnswFindElementNeighbors (memFindEnv g mem support q m) level
        (g.entryPoint.map (memEntryCandidate g support q)) ef false budget = some r ∧
      g.ChosenAll m level r.2 ∧ (g.elements ≠ [] → ∀ a, r.2[0]? = some a → a.items ≠ []) := by
  unfold HnswFindElementNeighbors
  cases hep : g.entryPoint with
  | none =>
    refine ⟨_, rfl, ⟨List.length_replicate, fun {lc a} ha => ?_⟩, fun hne => absurd (h.noEntry hep) hne⟩
    rw [(List.mem_replicate.mp (List.mem_of_getElem? ha)).2]
    exact chosen_init g m lc
  | some i =>
    obtain ⟨e, he, _⟩ := h.entry hep
    have hentry : memEntryCandidate g support q i = some ⟨i, support.distance q e.value⟩ := by
      rw [memEntryCandidate, he]
      rfl
    have hlevel : ((memFindEnv g mem support q m).layer 0).level i = e.level := by
      simp only [memFindEnv, memEnv, he, Option.map_some, Option.getD_some]
    obtain ⟨w, hw, hcw⟩ := greedyPhase_mem h.toArrays mem support q level hb e.level
      (⟨by simp, fun c hc => by rw [List.mem_singleton.mp hc]; exact ⟨e, he, Nat.le_refl _⟩, by simp⟩ :
        g.CandidatesOn e.level [⟨i, support.distance q e.value⟩])
    obtain ⟨arrays, harr, hall, hne⟩ := connectPhase_mem h.toArrays hm mem support q ef hb _ hcw
    refine ⟨(some i, arrays ++ List.replicate (level - e.level) HnswInitNeighborArray), ?_, ⟨?_, ?_⟩, ?_⟩
    · simp only [Option.map_some, hentry]
      show (greedyPhase (memFindEnv g mem support q m) level budget
        (((memFindEnv g mem support q m).layer 0).level i) [⟨i, support.distance q e.value⟩] >>= _) = _
      rw [hlevel, hw]
      show (connectPhase (memFindEnv g mem support q m) ef budget (min level e.level) w >>= _) = _
      rw [harr]
      rfl
    · simp only [List.length_append, List.length_replicate, hall.length]
      omega
    · intro lc a ha
      rcases Nat.lt_or_ge lc arrays.length with hl | hl
      · rw [List.getElem?_append_left hl] at ha
        exact hall.layer ha
      · rw [List.getElem?_append_right hl] at ha
        rw [(List.mem_replicate.mp (List.mem_of_getElem? ha)).2]
        exact chosen_init g m lc
    · intro _ a ha
      rw [List.getElem?_append_left (by rw [hall.length]; exact Nat.succ_pos _)] at ha
      exact hne a ha

end Find

end Search

/-! ## 3. Back links -/

/-- **One array has been rewritten**: that of element `i` on layer `lc`, by `u`. -/
structure Rewired (g g' : HnswGraph V δ) (i lc : Nat)
    (u : HnswNeighborArray Nat δ → HnswNeighborArray Nat δ) : Prop where
  entryPoint : g'.entryPoint = g.entryPoint
  length : g'.elements.length = g.elements.length
  old : ∀ {j : Nat} {e' : MemElement V δ}, g'.elements[j]? = some e' → ∃ e, g.elements[j]? = some e ∧
    e'.level = e.level ∧ e'.heaptids = e.heaptids ∧ e'.neighbors.length = e.neighbors.length ∧
    ∀ {lc' : Nat} {a' : HnswNeighborArray Nat δ}, e'.neighbors[lc']? = some a' →
      ∃ a, e.neighbors[lc']? = some a ∧ (j = i ∧ lc' = lc ∧ a' = u a ∨ ¬ (j = i ∧ lc' = lc) ∧ a' = a)

theorem rewired_modify (g : HnswGraph V δ) (i lc : Nat)
    (u : HnswNeighborArray Nat δ → HnswNeighborArray Nat δ) :
    Rewired g (g.modify i fun e => { e with neighbors := e.neighbors.modify lc u }) i lc u where
  entryPoint := rfl
  length := List.length_modify _ _ _
  old {j e'} h := by
    simp only [HnswGraph.modify, List.getElem?_modify, Option.map_eq_map, Option.map_eq_some_iff] at h
    obtain ⟨e, he, rfl⟩ := h
    refine ⟨e, he, ?_⟩
    by_cases hj : i = j
    · rw [if_pos hj]
      refine ⟨rfl, rfl, List.length_modify _ _ _, fun {lc' a'} ha => ?_⟩
      simp only [List.getElem?_modify, Option.map_eq_map, Option.map_eq_some_iff] at ha
      obtain ⟨a, ha, rfl⟩ := ha
      refine ⟨a, ha, ?_⟩
      by_cases hl : lc = lc'
      · rw [if_pos hl]
        exact Or.inl ⟨hj.symm, hl.symm, rfl⟩
      · rw [if_neg hl]
        exact Or.inr ⟨fun h => hl h.2.symm, rfl⟩
    · rw [if_neg hj]
      exact ⟨rfl, rfl, rfl, fun {lc' a'} ha => ⟨a', ha, Or.inr ⟨fun h => hj h.1.symm, rfl⟩⟩⟩

theorem Rewired.onLayer {g g' : HnswGraph V δ} {i lc : Nat}
    {u : HnswNeighborArray Nat δ → HnswNeighborArray Nat δ} (h : Rewired g g' i lc u) {lc' j : Nat}
    (hj : g.OnLayer lc' j) : g'.OnLayer lc' j := by
  obtain ⟨e, he, hle⟩ := hj
  have hlt : j < g'.elements.length := by
    rw [h.length]
    exact (List.getElem?_eq_some_iff.mp he).1
  have he' : g'.elements[j]? = some g'.elements[j] := List.getElem?_eq_getElem hlt
  obtain ⟨e0, he0, hl, _⟩ := h.old he'
  rw [he] at he0
  cases he0
  exact ⟨_, he', by rw [hl]; exact hle⟩

/-- The array of element `i` on layer `lc` does not name `n`. -/
def Unnamed (g : HnswGraph V δ) (n i lc : Nat) : Prop :=
  ∀ {e : MemElement V δ} {a : HnswNeighborArray Nat δ}, g.elements[i]? = some e → e.neighbors[lc]? = some a →
    ∀ x ∈ a.items, x.element ≠ n

section Links

variable [LinearOrder δ] {g g' : HnswGraph V δ} {m : Nat}

/-- **One back link keeps the invariant of the arrays.** -/
theorem HnswGraph.Arrays.rewired (h : g.Arrays m) {i lc n : Nat} {ptr : Nat → Nat} {pd : Nat → Nat → δ}
    {d : δ} (hr : Rewired g g' i lc fun a => (HnswUpdateConnection ptr pd a n d (HnswGetLayerM m lc)).1)
    (hne : n ≠ i) (hn : g.OnLayer lc n) (hfree : Unnamed g n i lc) : g'.Arrays m where
  level he' := by
    obtain ⟨e, he, hl, _⟩ := hr.old he'
    rw [hl]
    exact h.level he
  arrays he' := by
    obtain ⟨e, he, hl, _, hlen, _⟩ := hr.old he'
    rw [hl, hlen]
    exact h.arrays he
  room he' ha' := by
    obtain ⟨e, he, _, _, _, harr⟩ := hr.old he'
    obtain ⟨a, ha, ⟨rfl, rfl, rfl⟩ | ⟨_, rfl⟩⟩ := harr ha'
    · exact (updateConnection_length (h.room he ha)).2
    · exact h.room he ha
  link {j lc' e' a'} he' ha' c hc := by
    obtain ⟨e, he, _, _, _, harr⟩ := hr.old he'
    obtain ⟨a, ha, ⟨rfl, rfl, rfl⟩ | ⟨_, rfl⟩⟩ := harr ha'
    · rcases updateConnection_mem hc with hx | ⟨y, hy, hx⟩
      · rw [hx]
        exact ⟨hne, hr.onLayer hn⟩
      · rw [← hx]
        obtain ⟨h1, h2⟩ := h.link he ha y hy
        exact ⟨h1, hr.onLayer h2⟩
    · obtain ⟨h1, h2⟩ := h.link he ha c hc
      exact ⟨h1, hr.onLayer h2⟩
  nodup he' ha' := by
    obtain ⟨e, he, _, _, _, harr⟩ := hr.old he'
    obtain ⟨a, ha, ⟨rfl, rfl, rfl⟩ | ⟨_, rfl⟩⟩ := harr ha'
    · exact updateConnection_nodup (h.nodup he ha) (hfree he ha)
    · exact h.nodup he ha
  ground he' ha' h0 := by
    obtain ⟨e, he, _, _, _, harr⟩ := hr.old he'
    obtain ⟨a, ha, ⟨rfl, rfl, rfl⟩ | ⟨_, rfl⟩⟩ := harr ha'
    · have hpos := List.length_pos_iff.mpr (h.ground he ha h0)
      exact List.ne_nil_of_length_pos
        (Nat.lt_of_lt_of_le hpos (updateConnection_length (h.room he ha)).1)
    · exact h.ground he ha h0

omit [LinearOrder δ] in
theorem Unnamed.rewired {n i lc i' lc' : Nat} {u : HnswNeighborArray Nat δ → HnswNeighborArray Nat δ}
    (h : Unnamed g n i' lc') (hr : Rewired g g' i lc u) (hne : ¬ (i' = i ∧ lc' = lc)) :
    Unnamed g' n i' lc' := by
  intro e' a' he' ha' x hx
  obtain ⟨e, he, _, _, _, harr⟩ := hr.old he'
  obtain ⟨a, ha, ⟨h1, h2, _⟩ | ⟨_, rfl⟩⟩ := harr ha'
  · exact absurd ⟨h1, h2⟩ hne
  · exact h he ha x hx

/-- What the back links leave of the graph they started from. -/
structure Grown (g g' : HnswGraph V δ) : Prop where
  entryPoint : g'.entryPoint = g.entryPoint
  length : g'.elements.length = g.elements.length
  old : ∀ {j : Nat} {e' : MemElement V δ}, g'.elements[j]? = some e' → ∃ e, g.elements[j]? = some e ∧
    e'.level = e.level ∧ e'.heaptids = e.heaptids

omit [LinearOrder δ] in
theorem Grown.refl (g : HnswGraph V δ) : Grown g g :=
  ⟨rfl, rfl, fun {_ e'} he' => ⟨e', he', rfl, rfl⟩⟩

omit [LinearOrder δ] in
theorem Grown.trans {g'' : HnswGraph V δ} (h : Grown g g') (h' : Grown g' g'') : Grown g g'' := by
  refine ⟨h'.entryPoint.trans h.entryPoint, h'.length.trans h.length, fun {j e''} he'' => ?_⟩
  obtain ⟨e', he', h1, h2⟩ := h'.old he''
  obtain ⟨e, he, h3, h4⟩ := h.old he'
  exact ⟨e, he, h1.trans h3, h2.trans h4⟩

omit [LinearOrder δ] in
theorem Rewired.grown {i lc : Nat} {u : HnswNeighborArray Nat δ → HnswNeighborArray Nat δ}
    (h : Rewired g g' i lc u) : Grown g g' := by
  refine ⟨h.entryPoint, h.length, fun he' => ?_⟩
  obtain ⟨e, he, h1, h2, _⟩ := h.old he'
  exact ⟨e, he, h1, h2⟩

/-- **The back links one after another**: each array is rewritten once. -/
theorem links_arrays (mem : MemSpace) (support : HnswSupport V δ) (m n : Nat) :
    ∀ (links : List (Nat × HnswCandidate Nat δ)) (g : HnswGraph V δ), g.Arrays m →
      (links.map fun p => (p.2.element, p.1)).Nodup →
      (∀ p ∈ links, n ≠ p.2.element ∧ g.OnLayer p.1 n ∧ Unnamed g n p.2.element p.1) →
      (links.foldl (fun g p => updateConnectionInMemory mem support m n p.1 g p.2) g).Arrays m ∧
        Grown g (links.foldl (fun g p => updateConnectionInMemory mem support m n p.1 g p.2) g)
  | [], g, h, _, _ => ⟨h, Grown.refl g⟩
  | (lc, hc) :: links, g, h, hnd, hok => by
      obtain ⟨h1, h2, h3⟩ := hok (lc, hc) List.mem_cons_self
      have hr : Rewired g (updateConnectionInMemory mem support m n lc g hc) hc.element lc fun a =>
          (HnswUpdateConnection mem.addr (g.pairDistance support) a n hc.distance (HnswGetLayerM m lc)).1 :=
        rewired_modify g hc.element lc _
      obtain ⟨hnot, hnd'⟩ := List.nodup_cons.mp hnd
      obtain ⟨ih1, ih2⟩ := links_arrays mem support m n links _ (h.rewired hr h1 h2 h3) hnd' (by
        intro p hp
        obtain ⟨g1, g2, g3⟩ := hok p (List.mem_cons_of_mem _ hp)
        refine ⟨g1, hr.onLayer g2, g3.rewired hr ?_⟩
        rintro ⟨e1, e2⟩
        refine hnot (List.mem_map.mpr ⟨p, hp, ?_⟩)
        rw [e1, e2])
      exact ⟨ih1, hr.grown.trans ih2⟩

/-! ## 4. One insert -/

/-- The links of a new element, from its top layer down. -/
def MemElement.links (e : MemElement V δ) : List (Nat × HnswCandidate Nat δ) :=
  (List.range (e.level + 1)).reverse.flatMap fun lc =>
    (((e.neighbors[lc]?).map (·.items)).getD []).map fun hc => (lc, hc)

theorem updateNeighbors_links (mem : MemSpace) (support : HnswSupport V δ) (m n : Nat) (e : MemElement V δ)
    (g : HnswGraph V δ) : UpdateNeighborsInMemory mem support m n e g =
      e.links.foldl (fun g p => updateConnectionInMemory mem support m n p.1 g p.2) g := by
  unfold UpdateNeighborsInMemory MemElement.links
  rw [List.foldl_flatMap]
  simp only [List.foldl_map]

omit [LinearOrder δ] in
theorem mem_links {e : MemElement V δ} {p : Nat × HnswCandidate Nat δ} (h : p ∈ e.links) :
    p.1 ≤ e.level ∧ ∃ a, e.neighbors[p.1]? = some a ∧ p.2 ∈ a.items := by
  obtain ⟨lc, hlc, hp⟩ := List.mem_flatMap.mp h
  obtain ⟨hc, hm, rfl⟩ := List.mem_map.mp hp
  refine ⟨Nat.le_of_lt_succ (List.mem_range.mp (List.mem_reverse.mp hlc)), ?_⟩
  cases ha : e.neighbors[lc]? with
  | none =>
    rw [ha] at hm
    cases hm
  | some a =>
    rw [ha] at hm
    exact ⟨a, rfl, hm⟩

omit [LinearOrder δ] in
theorem links_nodup {e : MemElement V δ}
    (h : ∀ (lc : Nat) (a : HnswNeighborArray Nat δ), e.neighbors[lc]? = some a → (a.items.map (·.element)).Nodup) :
    (e.links.map fun p => (p.2.element, p.1)).Nodup := by
  unfold MemElement.links
  rw [List.map_flatMap]
  refine List.nodup_flatMap.mpr ⟨fun lc _ => ?_, ?_⟩
  · rw [List.map_map]
    cases ha : e.neighbors[lc]? with
    | none => exact List.nodup_nil
    | some a =>
      refine List.Nodup.of_map Prod.fst ?_
      rw [List.map_map]
      exact h lc a ha
  · refine (List.nodup_reverse.mpr List.nodup_range).imp fun {a b} hab => ?_
    intro x hx hy
    obtain ⟨p, hp, rfl⟩ := List.mem_map.mp hx
    obtain ⟨_, _, rfl⟩ := List.mem_map.mp hp
    obtain ⟨p, hp, he⟩ := List.mem_map.mp hy
    obtain ⟨_, _, rfl⟩ := List.mem_map.mp hp
    exact hab (congrArg Prod.snd he).symm

omit [LinearOrder δ] in
/-- The elements after one was added. -/
theorem getElem?_addElement {g : HnswGraph V δ} {e f : MemElement V δ} {i : Nat}
    (h : (AddElementInMemory g e).elements[i]? = some f) :
    g.elements[i]? = some f ∨ i = g.elements.length ∧ f = e := by
  rcases Nat.lt_or_ge i g.elements.length with hi | hi
  · rw [AddElementInMemory, List.getElem?_append_left hi] at h
    exact Or.inl h
  · rw [AddElementInMemory, List.getElem?_append_right hi] at h
    cases hd : i - g.elements.length with
    | zero =>
      rw [hd] at h
      cases h
      exact Or.inr ⟨by omega, rfl⟩
    | succ k =>
      rw [hd] at h
      cases h

omit [LinearOrder δ] in
theorem HnswGraph.OnLayer.addElement {g : HnswGraph V δ} {lc i : Nat} (h : g.OnLayer lc i)
    (e : MemElement V δ) : (AddElementInMemory g e).OnLayer lc i := by
  obtain ⟨f, hf, hl⟩ := h
  refine ⟨f, ?_, hl⟩
  rw [AddElementInMemory, List.getElem?_append_left (List.getElem?_eq_some_iff.mp hf).1]
  exact hf

omit [LinearOrder δ] in
theorem HnswGraph.OnLayer.lt {g : HnswGraph V δ} {lc i : Nat} (h : g.OnLayer lc i) :
    i < g.elements.length := by
  obtain ⟨f, hf, _⟩ := h
  exact (List.getElem?_eq_some_iff.mp hf).1

omit [LinearOrder δ] in
/-- A new element with chosen arrays. -/
theorem HnswGraph.Arrays.addElement (h : g.Arrays m) {e : MemElement V δ}
    (hl : e.level ≤ HnswGetMaxLevel m) (hall : g.ChosenAll m e.level e.neighbors)
    (hne : g.elements ≠ [] → ∀ a, e.neighbors[0]? = some a → a.items ≠ []) :
    (AddElementInMemory g e).Arrays m where
  level hf := by
    rcases getElem?_addElement hf with hf | ⟨_, rfl⟩
    · exact h.level hf
    · exact hl
  arrays hf := by
    rcases getElem?_addElement hf with hf | ⟨_, rfl⟩
    · exact h.arrays hf
    · exact hall.length
  room hf ha := by
    rcases getElem?_addElement hf with hf | ⟨_, rfl⟩
    · exact h.room hf ha
    · exact (hall.layer ha).room
  link {i lc f a} hf ha c hc := by
    rcases getElem?_addElement hf with hf | ⟨rfl, rfl⟩
    · obtain ⟨h1, h2⟩ := h.link hf ha c hc
      exact ⟨h1, HnswGraph.OnLayer.addElement h2 e⟩
    · have hon := (hall.layer ha).link c hc
      exact ⟨Nat.ne_of_lt hon.lt, hon.addElement f⟩
  nodup hf ha := by
    rcases getElem?_addElement hf with hf | ⟨_, rfl⟩
    · exact h.nodup hf ha
    · exact (hall.layer ha).nodup
  ground {i f a} hf ha h0 := by
    rcases getElem?_addElement hf with hf | ⟨rfl, rfl⟩
    · exact h.ground hf ha h0
    · exact hne (fun hn => h0 (by rw [hn]; rfl)) a ha

/-- **The new element and all its back links.** -/
theorem updateNeighbors_arrays (h : g.Arrays m) (mem : MemSpace) (support : HnswSupport V δ)
    {e : MemElement V δ} (hl : e.level ≤ HnswGetMaxLevel m) (hall : g.ChosenAll m e.level e.neighbors)
    (hne : g.elements ≠ [] → ∀ a, e.neighbors[0]? = some a → a.items ≠ []) :
    (UpdateNeighborsInMemory mem support m g.elements.length e (AddElementInMemory g e)).Arrays m ∧
      Grown (AddElementInMemory g e)
        (UpdateNeighborsInMemory mem support m g.elements.length e (AddElementInMemory g e)) := by
  rw [updateNeighbors_links]
  refine links_arrays mem support m _ e.links _ (h.addElement hl hall hne)
    (links_nodup fun lc a ha => (hall.layer ha).nodup) fun p hp => ?_
  obtain ⟨hle, a, ha, hmem⟩ := mem_links hp
  have hon := (hall.layer ha).link p.2 hmem
  refine ⟨Nat.ne_of_gt hon.lt, ⟨e, ?_, hle⟩, fun {f b} hf hb x hx => ?_⟩
  · rw [AddElementInMemory, List.getElem?_append_right (Nat.le_refl _), Nat.sub_self]
    rfl
  · rcases getElem?_addElement hf with hf | ⟨he, _⟩
    · exact Nat.ne_of_lt (HnswGraph.OnLayer.lt (h.link hf hb x hx).2)
    · exact absurd he (Nat.ne_of_lt hon.lt)

omit [LinearOrder δ] in
/-- The elements after a heap TID was added. -/
theorem getElem?_addDuplicate {g : HnswGraph V δ} {dup i : Nat} {heaptid : ItemPointer}
    {f : MemElement V δ} (h : (AddDuplicateInMemory g dup heaptid).elements[i]? = some f) :
    ∃ e, g.elements[i]? = some e ∧ f.level = e.level ∧ f.neighbors = e.neighbors ∧
      (f.heaptids = e.heaptids ∨ i = dup ∧ f.heaptids = e.heaptids ++ [heaptid]) := by
  simp only [AddDuplicateInMemory, HnswGraph.modify, List.getElem?_modify, Option.map_eq_map,
    Option.map_eq_some_iff] at h
  obtain ⟨e, he, rfl⟩ := h
  refine ⟨e, he, ?_⟩
  by_cases hd : dup = i
  · rw [if_pos hd]
    exact ⟨rfl, rfl, Or.inr ⟨hd.symm, rfl⟩⟩
  · rw [if_neg hd]
    exact ⟨rfl, rfl, Or.inl rfl⟩

omit [LinearOrder δ] in
theorem HnswGraph.OnLayer.addDuplicate {lc i : Nat} (h : g.OnLayer lc i) (dup : Nat) (heaptid : ItemPointer) :
    (AddDuplicateInMemory g dup heaptid).OnLayer lc i := by
  obtain ⟨e, he, hl⟩ := h
  refine ⟨if dup = i then { e with heaptids := e.heaptids ++ [heaptid] } else e, ?_, ?_⟩
  · simp only [AddDuplicateInMemory, HnswGraph.modify, List.getElem?_modify, he, Option.map_eq_map,
      Option.map_some]
  · split <;> exact hl

omit [LinearOrder δ] in
/-- A heap TID more changes no link. -/
theorem HnswGraph.Linked.addDuplicate (h : g.Linked m) (dup : Nat) (heaptid : ItemPointer) :
    (AddDuplicateInMemory g dup heaptid).Linked m where
  level hf := by
    obtain ⟨e, he, h1, _⟩ := getElem?_addDuplicate hf
    rw [h1]
    exact h.level he
  arrays hf := by
    obtain ⟨e, he, h1, h2, _⟩ := getElem?_addDuplicate hf
    rw [h1, h2]
    exact h.arrays he
  room hf ha := by
    obtain ⟨e, he, _, h2, _⟩ := getElem?_addDuplicate hf
    exact h.room he (h2 ▸ ha)
  link hf ha c hc := by
    obtain ⟨e, he, _, h2, _⟩ := getElem?_addDuplicate hf
    obtain ⟨h3, h4⟩ := h.link he (h2 ▸ ha) c hc
    exact ⟨h3, HnswGraph.OnLayer.addDuplicate h4 dup heaptid⟩
  nodup hf ha := by
    obtain ⟨e, he, _, h2, _⟩ := getElem?_addDuplicate hf
    exact h.nodup he (h2 ▸ ha)
  ground hf ha h0 := by
    obtain ⟨e, he, _, h2, _⟩ := getElem?_addDuplicate hf
    exact h.ground he (h2 ▸ ha) h0
  entry {i} hi := by
    obtain ⟨e, he, hmax⟩ := h.entry hi
    obtain ⟨f, hf, hle⟩ := HnswGraph.OnLayer.addDuplicate (⟨e, he, Nat.le_refl _⟩ : g.OnLayer e.level i) dup
      heaptid
    refine ⟨f, hf, fun {j f'} hf' => ?_⟩
    obtain ⟨e', he', h1, _⟩ := getElem?_addDuplicate hf'
    rw [h1]
    exact (hmax he').trans hle
  noEntry hn := by
    have := h.noEntry hn
    simp only [AddDuplicateInMemory, HnswGraph.modify, this, List.modify_nil]

omit [LinearOrder δ] in
/-- The entry point after an element was added. -/
theorem HnswGraph.Linked.grow {e : MemElement V δ} (h : g.Linked m) (ha : g'.Arrays m)
    (hg : Grown (AddElementInMemory g e) g') :
    (if g.above e.level then { g' with entryPoint := some g.elements.length } else g').Linked m := by
  have hback : ∀ {j : Nat} {f : MemElement V δ}, g'.elements[j]? = some f →
      (∃ e0, g.elements[j]? = some e0 ∧ f.level = e0.level) ∨ j = g.elements.length ∧ f.level = e.level := by
    intro j f hf
    obtain ⟨f0, hf0, hl, _⟩ := hg.old hf
    rcases getElem?_addElement hf0 with hf0 | ⟨rfl, rfl⟩
    · exact Or.inl ⟨f0, hf0, hl⟩
    · exact Or.inr ⟨rfl, hl⟩
  have hlen : g'.elements.length = g.elements.length + 1 := by
    rw [hg.length, AddElementInMemory, List.length_append]
    rfl
  have hthere : ∀ {j : Nat}, j < g.elements.length + 1 → ∃ f, g'.elements[j]? = some f := fun hj =>
    ⟨_, List.getElem?_eq_getElem (by rw [hlen]; exact hj)⟩
  split
  · rename_i habove
    have ha' : ({ g' with entryPoint := some g.elements.length } : HnswGraph V δ).Arrays m :=
      ⟨⟨ha.level, ha.arrays, ha.room, ha.link, ha.nodup⟩, ha.ground⟩
    refine { ha' with entry := ?_, noEntry := fun hn => nomatch hn }
    intro i hi
    cases hi
    obtain ⟨f, hf⟩ := hthere (Nat.lt_succ_self _)
    have hfl : f.level = e.level := by
      rcases hback hf with ⟨e0, he0, _⟩ | ⟨_, hl⟩
      · exact absurd (List.getElem?_eq_some_iff.mp he0).1 (Nat.lt_irrefl _)
      · exact hl
    refine ⟨f, hf, fun {j f'} hf' => ?_⟩
    rcases hback hf' with ⟨e0, he0, hl⟩ | ⟨_, hl⟩
    · cases hep : g.entryPoint with
      | none =>
        rw [h.noEntry hep] at he0
        cases he0
      | some k =>
        obtain ⟨ep, hk, hmax⟩ := h.entry hep
        have hlt : ep.level < e.level := by
          simpa only [HnswGraph.above, hep, Option.bind_some, hk, Option.all_some, decide_eq_true_eq]
            using habove
        rw [hl, hfl]
        exact Nat.le_of_lt (Nat.lt_of_le_of_lt (hmax he0) hlt)
    · rw [hl, hfl]
  · rename_i habove
    have hentry : g'.entryPoint = g.entryPoint := hg.entryPoint
    refine { ha with entry := ?_, noEntry := ?_ }
    · intro i hi
      rw [hentry] at hi
      obtain ⟨ep, hk, hmax⟩ := h.entry hi
      have hle : e.level ≤ ep.level := by
        simpa only [HnswGraph.above, hi, Option.bind_some, hk, Option.all_some, decide_eq_true_eq,
          not_lt] using habove
      have hilt := (List.getElem?_eq_some_iff.mp hk).1
      obtain ⟨f, hf⟩ := hthere (Nat.lt_succ_of_lt hilt)
      have hfl : f.level = ep.level := by
        rcases hback hf with ⟨e0, he0, hl⟩ | ⟨he, _⟩
        · rw [hk] at he0
          cases he0
          exact hl
        · exact absurd he (Nat.ne_of_lt hilt)
      refine ⟨f, hf, fun {j f'} hf' => ?_⟩
      rw [hfl]
      rcases hback hf' with ⟨e0, he0, hl⟩ | ⟨_, hl⟩
      · rw [hl]
        exact hmax he0
      · rw [hl]
        exact hle
    · intro hn
      rw [hentry] at hn
      simp only [HnswGraph.above, hn, Option.bind_none, Option.all_none, not_true_eq_false] at habove

/-! ## 5. Heap TIDs -/

omit [LinearOrder δ] in
theorem HnswGraph.HeapTids.grown (h : g.HeapTids) (hg : Grown g g') : g'.HeapTids where
  heaptids hf := by
    obtain ⟨e, he, _, ht⟩ := hg.old hf
    rw [ht]
    exact h.heaptids he

omit [LinearOrder δ] in
theorem HnswGraph.HeapTids.addElement (h : g.HeapTids) {e : MemElement V δ} {heaptid : ItemPointer}
    (he : e.heaptids = [heaptid]) (hv : heaptid.isValid = true) : (AddElementInMemory g e).HeapTids where
  heaptids hf := by
    rcases getElem?_addElement hf with hf | ⟨_, rfl⟩
    · exact h.heaptids hf
    · rw [he]
      refine ⟨List.cons_ne_nil _ _, show 1 ≤ HNSW_HEAPTIDS by decide, fun t ht => ?_⟩
      rw [List.mem_singleton.mp ht]
      exact hv

omit [LinearOrder δ] in
/-- A heap TID more, on an element with room. -/
theorem HnswGraph.HeapTids.addDuplicate (h : g.HeapTids) {dup : Nat} {e : MemElement V δ}
    (he : g.elements[dup]? = some e) (hroom : e.heaptids.length ≠ HNSW_HEAPTIDS) {heaptid : ItemPointer}
    (hv : heaptid.isValid = true) : (AddDuplicateInMemory g dup heaptid).HeapTids where
  heaptids hf := by
    obtain ⟨e', he', _, _, ht | ⟨rfl, ht⟩⟩ := getElem?_addDuplicate hf
    · rw [ht]
      exact h.heaptids he'
    · obtain rfl : e = e' := Option.some.inj (he.symm.trans he')
      obtain ⟨_, hlen, hall⟩ := h.heaptids he
      rw [ht]
      refine ⟨List.append_ne_nil_of_right_ne_nil _ (List.cons_ne_nil _ _), ?_, fun t ht => ?_⟩
      · rw [List.length_append, List.length_singleton]
        exact Nat.lt_of_le_of_ne hlen hroom
      · rcases List.mem_append.mp ht with ht | ht
        · exact hall t ht
        · rw [List.mem_singleton.mp ht]
          exact hv

variable [DecidableEq V]

omit [LinearOrder δ] in
/-- The duplicate found has room. -/
theorem findDuplicate_room (g : HnswGraph V δ) (value : V) {dup : Nat} : ∀ {l : List Nat},
    FindDuplicateInMemory g value l = some dup →
      ∃ e, g.elements[dup]? = some e ∧ e.heaptids.length ≠ HNSW_HEAPTIDS
  | [], h => nomatch h
  | i :: rest, h => by
      rw [FindDuplicateInMemory] at h
      cases he : g.elements[i]? with
      | none =>
          rw [he] at h
          cases h
      | some e =>
          rw [he] at h
          simp only at h
          split at h
          · cases h
          · split at h
            · exact findDuplicate_room g value h
            · rename_i hroom
              cases h
              exact ⟨e, he, hroom⟩

/-! ## 6. Whole inserts -/

/-- **`UpdateGraphInMemory`.** -/
theorem updateGraph_linked (h : g.Linked m) (mem : MemSpace) (support : HnswSupport V δ)
    {e : MemElement V δ} (heaptid : ItemPointer) (he : e.heaptids = [heaptid]) (hl : e.level ≤ HnswGetMaxLevel m)
    (hall : g.ChosenAll m e.level e.neighbors)
    (hne : g.elements ≠ [] → ∀ a, e.neighbors[0]? = some a → a.items ≠ []) :
    (UpdateGraphInMemory mem support m g e heaptid).Linked m ∧
      (UpdateGraphInMemory mem support m g e heaptid).elements.length ≤ g.elements.length + 1 ∧
      (heaptid.isValid = true → g.HeapTids → (UpdateGraphInMemory mem support m g e heaptid).HeapTids) := by
  unfold UpdateGraphInMemory
  split
  · rename_i dup hdup
    refine ⟨h.addDuplicate dup heaptid, ?_, fun hv ht => ?_⟩
    · simp only [AddDuplicateInMemory, HnswGraph.modify, List.length_modify]
      exact Nat.le_succ _
    · obtain ⟨f, hf, hroom⟩ := findDuplicate_room g e.value hdup
      exact ht.addDuplicate hf hroom hv
  · obtain ⟨harr, hg⟩ := updateNeighbors_arrays h.toArrays mem support hl hall hne
    refine ⟨h.grow harr hg, ?_, fun hv ht => ?_⟩
    · have hlen : (UpdateNeighborsInMemory mem support m g.elements.length e
          (AddElementInMemory g e)).elements.length = g.elements.length + 1 := by
        rw [hg.length, AddElementInMemory, List.length_append]
        rfl
      simp only
      split <;> exact Nat.le_of_eq hlen
    · have ht' := (ht.addElement he hv).grown hg
      simp only
      split
      · exact ⟨ht'.heaptids⟩
      · exact ht'

/-- **`InsertTupleInMemory` returns and keeps the invariant.** -/
theorem insertTuple_linked (h : g.Linked m) (hm : 0 < m) (mem : MemSpace) (rel : HnswRel V δ) (value : V)
    (heaptid : ItemPointer) (rnd : Nat) {budget : Nat} (hb : 2 * g.elements.length < budget) :
    ∃ g', InsertTupleInMemory mem rel m g value heaptid rnd budget = some g' ∧ g'.Linked m ∧
      g'.elements.length ≤ g.elements.length + 1 ∧ (heaptid.isValid = true → g.HeapTids → g'.HeapTids) := by
  obtain ⟨⟨ep, neighbors⟩, hr, hall, hne⟩ := findNeighbors_mem h hm mem rel.support value
    (min rnd (HnswGetMaxLevel m)) rel.efConstruction hb
  refine ⟨UpdateGraphInMemory mem rel.support m g
    ⟨[heaptid], min rnd (HnswGetMaxLevel m), 1, value, neighbors⟩ heaptid, ?_, ?_⟩
  · unfold InsertTupleInMemory
    simp only
    rw [hr]
    rfl
  · exact updateGraph_linked h mem rel.support heaptid rfl (Nat.min_le_right _ _) hall hne

/-- A call of `InsertTupleInMemory`: the value, its heap TID and the level drawn. -/
structure MemCall (V : Type) where
  value : V
  heaptid : ItemPointer
  rnd : Nat

/-- Several inserts one after another. -/
def insertAll (mem : MemSpace) (rel : HnswRel V δ) (m budget : Nat) (calls : List (MemCall V))
    (g : HnswGraph V δ) : Option (HnswGraph V δ) :=
  calls.foldlM (fun g c => InsertTupleInMemory mem rel m g c.value c.heaptid c.rnd budget) g

/-- **A whole build keeps the invariant of the links**, and that of the heap TIDs if it is given valid ones. -/
theorem insertAll_linked (mem : MemSpace) (rel : HnswRel V δ) {m : Nat} (hm : 0 < m) {budget : Nat} :
    ∀ (calls : List (MemCall V)) {g : HnswGraph V δ}, g.Linked m →
      2 * (g.elements.length + calls.length) < budget →
      ∃ g', insertAll mem rel m budget calls g = some g' ∧ g'.Linked m ∧
        ((∀ c ∈ calls, c.heaptid.isValid = true) → g.HeapTids → g'.HeapTids)
  | [], g, h, _ => ⟨g, rfl, h, fun _ ht => ht⟩
  | c :: calls, g, h, hb => by
      rw [List.length_cons] at hb
      obtain ⟨g1, hg1, h1, hlen, ht1⟩ := insertTuple_linked h hm mem rel c.value c.heaptid c.rnd
        (show 2 * g.elements.length < budget by omega)
      obtain ⟨g2, hg2, h2, ht2⟩ := insertAll_linked mem rel hm calls h1
        (show 2 * (g1.elements.length + calls.length) < budget by omega)
      refine ⟨g2, ?_, h2, fun hv ht => ht2 (fun c hc => hv c (List.mem_cons_of_mem _ hc))
        (ht1 (hv c List.mem_cons_self) ht)⟩
      unfold insertAll at hg2 ⊢
      rw [List.foldlM_cons, hg1]
      exact hg2

/-- **The graph after any sequence of `InsertTupleInMemory` calls**: every array has room, names other
    elements of its layer once each, every element but the first has a neighbor on the ground layer, and
    the entry point is of the highest level. -/
theorem build_linked (mem : MemSpace) (rel : HnswRel V δ) (m : Nat) (hm : 0 < m) (calls : List (MemCall V))
    (budget : Nat) (hb : 2 * calls.length < budget) :
    ∃ g, insertAll mem rel m budget calls InitGraph = some g ∧ g.Linked m := by
  obtain ⟨g, hg, h, _⟩ := insertAll_linked mem rel hm calls (linked_init m)
    (show 2 * (0 + calls.length) < budget by omega)
  exact ⟨g, hg, h⟩

/-- **The graphs of a build are well formed**: what a flush writes, and a search reads. -/
theorem insertAll_wf (mem : MemSpace) (rel : HnswRel V δ) (m : Nat) (hm : 0 < m) (calls : List (MemCall V))
    (hvalid : ∀ c ∈ calls, c.heaptid.isValid = true) (budget : Nat) (hb : 2 * calls.length < budget) :
    ∃ g, insertAll mem rel m budget calls InitGraph = some g ∧ g.Wf m := by
  obtain ⟨g, hg, h, ht⟩ := insertAll_linked mem rel hm calls (linked_init m)
    (show 2 * (0 + calls.length) < budget by omega)
  exact ⟨g, hg, { h.toLayers, h.toTop, ht hvalid ⟨fun h => nomatch h⟩ with }⟩

end Links

/-- Elements next to each other, in local memory. -/
def localMemory : MemSpace where
  addr i := i
  base := none
  addr_inj _ _ h := h
  base_le _ h := nomatch h

/-- Three values, one of them twice, on two levels. -/
theorem build_linked_numbers :
    ∃ g, insertAll localMemory ⟨numberSupport, 64, none, id, fun _ _ _ n => n⟩ 2 20
        [⟨10, ⟨7, 1⟩, 0⟩, ⟨20, ⟨7, 2⟩, 1⟩, ⟨10, ⟨7, 3⟩, 0⟩, ⟨15, ⟨7, 4⟩, 0⟩] InitGraph = some g ∧
      g.Linked 2 :=
  build_linked localMemory ⟨numberSupport, 64, none, id, fun _ _ _ n => n⟩ 2 (by decide) _ 20 (by decide)

end Pgvec.Hnsw
