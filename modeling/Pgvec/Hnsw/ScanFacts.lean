/-
  File:      Pgvec/Hnsw/ScanFacts.lean
  Subject:   THE SEARCHES OF A SCAN on an index that does not change.

  * `Faithful` -- a candidate is a copy of the element tuple at its TID, with its distance;
  * `upperLayers_total` -- the layers above the ground give faithful candidates;
  * `GroundInv` -- the invariant of a ground-layer search with a discarded heap: every visited element is
    in `W`, in the heap, still to be visited or was returned before, exactly once; an element of `W` is
    still to be expanded or all it links to is visited;
  * **`ground_search`** -- such a search ends, and then everything `W` links to is visited.
-/
import Pgvec.Hnsw.Graph
import Pgvec.Hnsw.SearchFacts
import Pgvec.Hnsw.Scan

namespace Pgvec.Hnsw

open PairingHeap Conc

variable {V δ : Type}

/-! ## 1. Copies of element tuples -/

/-- The copy a scan makes of an element tuple. -/
def scanCopy (t : ItemPointer) (etup : HnswElementTuple V) : HnswElement V :=
  HnswLoadElementFromTuple (HnswInitElementFromBlock t 0) etup true false

/-- The candidate is a copy of the element tuple at its TID, with its distance from the query. -/
def Faithful (idx : Index V) (support : HnswSupport V δ) (q : Option V)
    (c : HnswSearchCandidate (HnswElement V) δ) : Prop :=
  ∃ etup, idx.elem? c.element.tid = some etup ∧ c.element = scanCopy c.element.tid etup ∧
    c.distance = HnswGetDistance support q etup.data

section Copies

variable {idx : Index V} {support : HnswSupport V δ} {q : Option V}

theorem faithful_scanCopy {t : ItemPointer} {etup : HnswElementTuple V} (h : idx.elem? t = some etup) :
    Faithful idx support q ⟨scanCopy t etup, HnswGetDistance support q etup.data⟩ :=
  ⟨etup, h, rfl, rfl⟩

theorem Faithful.heaptids {c : HnswSearchCandidate (HnswElement V) δ}
    (h : Faithful idx support q c) : c.element.heaptids = idx.heapTids c.element.tid := by
  obtain ⟨etup, he, hc, _⟩ := h
  unfold Index.heapTids
  rw [he, hc]
  rfl

theorem Faithful.mem_tids {c : HnswSearchCandidate (HnswElement V) δ}
    (h : Faithful idx support q c) : c.element.tid ∈ idx.tids := by
  obtain ⟨etup, he, _⟩ := h
  exact Index.elem?_mem_tids he

/-- What a search reads of the neighbors of a faithful copy is what its layer links to. -/
theorem Faithful.readNeighbors (hL : idx.Linked) (hS : idx.Shaped) {lc : Nat}
    {c : HnswSearchCandidate (HnswElement V) δ} (h : Faithful idx support q c)
    (hl : lc ≤ c.element.level) :
    Hnsw.readNeighbors idx idx.metap.m lc c.element = some (idx.layerLinks lc c.element.tid) := by
  obtain ⟨etup, he, hc, _⟩ := h
  obtain ⟨n, hn⟩ := hL.ntup he
  have hnt : c.element.neighbortid = etup.neighbortid := by rw [hc]; rfl
  have hlev : c.element.level = etup.level := by rw [hc]; rfl
  have hver : c.element.version = etup.version := by rw [hc]; rfl
  have hcount := hS.count he hn
  unfold Hnsw.readNeighbors Index.layerLinks
  rw [hnt, hn, he, hlev, hver]
  simp only [hn]
  unfold neighborTids
  rw [if_neg (by rw [hS.version he hn, hcount]; simp)]
  exact congrArg some (hS.packed he hn (hlev ▸ hl)).validPrefix_eq

variable [LinearOrder δ]

theorem readEnv_loadUnvisited (hL : idx.Linked) (hS : idx.Shaped) {lc : Nat}
    {c : HnswSearchCandidate (HnswElement V) δ} (h : Faithful idx support q c)
    (hl : lc ≤ c.element.level) (v : List ItemPointer) :
    (readEnv idx support q false false idx.metap.m lc).loadUnvisited c.element v =
      some (unvisitedOf id (idx.layerLinks lc c.element.tid) v) := by
  simp only [readEnv, h.readNeighbors hL hS hl, Option.map_some]

theorem readEnv_loadElement {lc : Nat} {t : ItemPointer} {etup : HnswElementTuple V}
    (h : idx.elem? t = some etup) (md : Option δ) :
    (readEnv idx support q false false idx.metap.m lc).loadElement t md =
      some (loadWithDistance support q false md t etup) := by
  simp only [readEnv, h, Option.map_some]

end Copies

/-! ## 2. The layers above the ground -/

section Upper

variable [LinearOrder δ] {idx : Index V} {support : HnswSupport V δ} {q : Option V}

theorem readRun_upperLayers (m budget : Nat) : ∀ (lc : Nat)
    (ep : List (HnswSearchCandidate (HnswElement V) δ)),
    readRun idx (upperLayers (diskEnv support q false false m) budget lc ep) =
      upperLayers (readEnv idx support q false false m) budget lc ep
  | 0, _ => rfl
  | lc + 1, ep => by
      simp only [upperLayers]
      rw [readRun_bind, readRun_searchLayer]
      exact congrArg (Option.bind _) (funext fun r => readRun_upperLayers m budget lc r.w)

omit [LinearOrder δ] in
theorem keys_length_le {l : List (HnswSearchCandidate (HnswElement V) δ)}
    (hf : ∀ c ∈ l, Faithful idx support q c) (hnd : (l.map fun c => c.element.tid).Nodup) :
    l.length ≤ idx.tids.length := by
  have hsub : (l.map fun c => c.element.tid) ⊆ idx.tids := by
    intro t ht
    obtain ⟨c, hc, rfl⟩ := List.mem_map.mp ht
    exact (hf c hc).mem_tids
  have := (hnd.subperm hsub).length_le
  rwa [List.length_map] at this

/-- **The greedy search above the ground ends**, with distinct faithful candidates. -/
theorem upperLayers_total (hL : idx.Linked) (hS : idx.Shaped) {budget : Nat}
    (hb : 2 * idx.tids.length < budget) : ∀ (lc : Nat)
    (ep : List (HnswSearchCandidate (HnswElement V) δ)), ep ≠ [] →
    (∀ c ∈ ep, Faithful idx support q c ∧ lc ≤ c.element.level) →
    (ep.map fun c => c.element.tid).Nodup →
    ∃ ep', upperLayers (readEnv idx support q false false idx.metap.m) budget lc ep = some ep' ∧
      ep' ≠ [] ∧ (∀ c ∈ ep', Faithful idx support q c) ∧ (ep'.map fun c => c.element.tid).Nodup
  | 0, ep, hne, hf, hnd => ⟨ep, rfl, hne, fun c hc => (hf c hc).1, hnd⟩
  | lc + 1, ep, hne, hf, hnd => by
      have hlen := keys_length_le (fun c hc => (hf c hc).1) hnd
      have hcard := List.toFinset_card_le idx.tids
      obtain ⟨r, hr, h1, h2, h3⟩ := searchLayer_total 1
        (P := fun c => Faithful idx support q c ∧ lc + 1 ≤ c.element.level)
        (S := idx.tids.toFinset)
        (fun u ⟨f, hu⟩ => List.mem_toFinset.mpr (Index.elem?_mem_tids hu))
        (fun u md ⟨f, hu⟩ => by
          refine ⟨_, readEnv_loadElement hu md, fun e he => ?_⟩
          obtain ⟨hdist, hcopy⟩ := loadWithDistance_spec support q false md u f
          have hcopy : e = scanCopy u f := hcopy e he
          subst hcopy
          rw [hdist]
          exact ⟨rfl, fun hl => ⟨faithful_scanCopy hu, hl⟩⟩)
        (fun c v ⟨hc, hl⟩ => ⟨idx.layerLinks (lc + 1) c.element.tid,
          fun u hu => Index.layerLinks_elem hL hu, readEnv_loadUnvisited hL hS hc hl v⟩)
        hne hf hnd (n := budget) (by omega)
      obtain ⟨ep', h4, h5⟩ := upperLayers_total hL hS hb lc r.w h1
        (fun c hc => ⟨(h2 c hc).1, Nat.le_of_succ_le (h2 c hc).2⟩) h3
      refine ⟨ep', ?_, h5⟩
      simp only [upperLayers, hr]
      exact h4

end Upper

/-! ## 3. The ground layer -/

/-- The candidates of the discarded heap. -/
def SearchState.discards {E K : Type} (s : SearchState E K δ) : List (HnswSearchCandidate E δ) :=
  toList (s.discarded.getD none)

/-- **The invariant of a ground-layer search with a discarded heap**; `R` are the elements returned
    before, `us` the ones still to visit, `Q` what is known of every visited element. -/
structure GroundInv [LinearOrder δ] (idx : Index V) (support : HnswSupport V δ) (q : Option V)
    (Q : ItemPointer → Prop) (R us : List ItemPointer)
    (s : SearchState (HnswElement V) ItemPointer δ) : Prop where
  W_ne : s.W ≠ none
  heapC : HeapedH CompareNearestCandidates s.C
  heapW : HeapedH CompareFurthestCandidates s.W
  isSome : s.discarded.isSome = true
  goodC : ∀ c ∈ toList s.C, Faithful idx support q c ∧ Q c.element.tid
  good : ∀ c ∈ toList s.W ++ s.discards, Faithful idx support q c
  keys : ((toList s.W ++ s.discards).map (fun c => c.element.tid) ++ us ++ R).Perm s.v
  nodup : s.v.Nodup
  reach : ∀ t ∈ s.v, Q t
  expanded : ∀ c ∈ toList s.W, c ∈ toList s.C ∨ ∀ u ∈ idx.layerLinks 0 c.element.tid, u ∈ s.v

section Ground

variable [LinearOrder δ] {idx : Index V} {support : HnswSupport V δ} {q : Option V}
  {Q : ItemPointer → Prop} {R us : List ItemPointer} {ef : Nat}
  {s : SearchState (HnswElement V) ItemPointer δ}

theorem discards_add (h : s.discarded.isSome = true) (c : HnswSearchCandidate (HnswElement V) δ) :
    (toList ((s.discarded.map fun d => add CompareNearestDiscardedCandidates d c).getD none)).Perm
      (c :: s.discards) := by
  obtain ⟨d, hd⟩ := Option.isSome_iff_exists.mp h
  unfold SearchState.discards
  rw [hd]
  exact add_perm _ _ _

omit [LinearOrder δ] in
/-- A search that fills a discarded heap loads every element. -/
theorem maxDistance_none (h : s.discarded.isSome = true) : maxDistance ef s = none := by
  unfold maxDistance
  rw [if_pos (Or.inr h)]

/-- **Visiting an element keeps the invariant**: it goes to `W` or to the discarded heap, and what `W`
    loses goes there too. -/
theorem GroundInv.visit {u : ItemPointer} {f : HnswElementTuple V}
    (h : GroundInv idx support q Q R (u :: us) s) (hu : idx.elem? u = some f) :
    GroundInv idx support q Q R us (Hnsw.visit (readEnv idx support q false false idx.metap.m 0) ef 0 s
      (some (scanCopy u f)) (HnswGetDistance support q f.data)) := by
  obtain ⟨x, hx⟩ := Option.ne_none_iff_exists'.mp fun hn => h.W_ne (first_eq_none.mp hn)
  have hv := visit_cases (readEnv idx support q false false idx.metap.m 0) ef 0 hx (scanCopy u f)
    (HnswGetDistance support q f.data)
  have hWne := hv.W_ne_none h.W_ne
  have hfaith : Faithful idx support q ⟨scanCopy u f, HnswGetDistance support q f.data⟩ :=
    faithful_scanCopy hu
  have hQ : Q u := h.reach u (h.keys.mem_iff.mp (by simp))
  have hkeys := h.keys
  rw [List.perm_iff_count] at hkeys
  generalize Hnsw.visit (readEnv idx support q false false idx.metap.m 0) ef 0 s
    (some (scanCopy u f)) (HnswGetDistance support q f.data) = s' at hv hWne
  have htid : (scanCopy u f).tid = u := rfl
  cases hv with
  | discarded =>
      have hd := discards_add h.isSome ⟨scanCopy u f, HnswGetDistance support q f.data⟩
      exact { h with
        isSome := by simpa using h.isSome
        good := by
          intro c hc
          rcases List.mem_append.mp hc with hc | hc
          · exact h.good c (List.mem_append_left _ hc)
          · rcases List.mem_cons.mp (hd.mem_iff.mp hc) with rfl | hc
            · exact hfaith
            · exact h.good c (List.mem_append_right _ hc)
        keys := by
          rw [List.perm_iff_count]
          intro a
          have h1 := hkeys a
          have h2 := (hd.map fun c => c.element.tid).count_eq a
          simp only [SearchState.discards, List.map_append, List.map_cons, List.count_append,
            List.count_cons, htid] at h1 h2 ⊢
          omega }
  | ignored hl => exact absurd hl (Nat.not_lt_zero _)
  | added hl =>
      have hw := add_perm CompareFurthestCandidates s.W
        ⟨scanCopy u f, HnswGetDistance support q f.data⟩
      exact {
        W_ne := hWne
        heapC := add_heaped nearest_preorder h.heapC _
        heapW := add_heaped furthest_preorder h.heapW _
        isSome := h.isSome
        goodC := good_add ⟨hfaith, hQ⟩ h.goodC
        good := by
          intro c hc
          rcases List.mem_append.mp hc with hc | hc
          · exact good_add hfaith (fun c hc => h.good c (List.mem_append_left _ hc)) c hc
          · exact h.good c (List.mem_append_right _ hc)
        keys := by
          rw [List.perm_iff_count]
          intro a
          have h1 := hkeys a
          have h2 := (hw.map fun c => c.element.tid).count_eq a
          simp only [SearchState.discards, List.map_append, List.map_cons, List.count_append,
            List.count_cons, htid] at h1 h2 ⊢
          omega
        nodup := h.nodup
        reach := h.reach
        expanded := by
          intro c hc
          have hmem := fun x => (add_perm CompareNearestCandidates s.C
            ⟨scanCopy u f, HnswGetDistance support q f.data⟩).mem_iff (a := x)
          rcases List.mem_cons.mp (hw.mem_iff.mp hc) with rfl | hc
          · exact Or.inl ((hmem _).mpr List.mem_cons_self)
          · exact (h.expanded c hc).imp_left fun hc => (hmem c).mpr (List.mem_cons_of_mem _ hc) }
  | evicted hl hd y W hy =>
      have hw := add_perm CompareFurthestCandidates s.W
        ⟨scanCopy u f, HnswGetDistance support q f.data⟩
      have hr := removeFirst_perm _ hy
      have hds := discards_add h.isSome y
      have hold : ∀ c ∈ toList (add CompareFurthestCandidates s.W
          ⟨scanCopy u f, HnswGetDistance support q f.data⟩), Faithful idx support q c :=
        good_add hfaith fun c hc => h.good c (List.mem_append_left _ hc)
      exact {
        W_ne := hWne
        heapC := add_heaped nearest_preorder h.heapC _
        heapW := removeFirst_heaped furthest_preorder
          (add_heaped furthest_preorder h.heapW _) hy
        isSome := by simpa using h.isSome
        goodC := good_add ⟨hfaith, hQ⟩ h.goodC
        good := by
          intro c hc
          rcases List.mem_append.mp hc with hc | hc
          · exact hold c (hr.mem_iff.mpr (List.mem_cons_of_mem _ hc))
          · rcases List.mem_cons.mp (hds.mem_iff.mp hc) with rfl | hc
            · exact hold _ (hr.mem_iff.mpr List.mem_cons_self)
            · exact h.good c (List.mem_append_right _ hc)
        keys := by
          rw [List.perm_iff_count]
          intro a
          have h1 := hkeys a
          have h2 := (hw.map fun c => c.element.tid).count_eq a
          have h3 := (hr.map fun c => c.element.tid).count_eq a
          have h4 := (hds.map fun c => c.element.tid).count_eq a
          simp only [SearchState.discards, List.map_append, List.map_cons, List.count_append,
            List.count_cons, htid] at h1 h2 h3 h4 ⊢
          omega
        nodup := h.nodup
        reach := h.reach
        expanded := by
          intro c hc
          have hmem := fun x => (add_perm CompareNearestCandidates s.C
            ⟨scanCopy u f, HnswGetDistance support q f.data⟩).mem_iff (a := x)
          rcases List.mem_cons.mp (hw.mem_iff.mp (hr.mem_iff.mpr (List.mem_cons_of_mem _ hc)))
            with rfl | hc
          · exact Or.inl ((hmem _).mpr List.mem_cons_self)
          · exact (h.expanded c hc).imp_left fun hc => (hmem c).mpr (List.mem_cons_of_mem _ hc) }

/-- **Expanding the nearest candidate keeps the invariant.** -/
theorem GroundInv.expand {c : HnswSearchCandidate (HnswElement V) δ}
    {C : Heap (HnswSearchCandidate (HnswElement V) δ)} (tuples : Nat)
    (hQ : ∀ t u, Q t → u ∈ idx.layerLinks 0 t → Q u) (h : GroundInv idx support q Q R [] s)
    (hC : removeFirst CompareNearestCandidates s.C = some (c, C)) :
    GroundInv idx support q Q R (unvisitedOf id (idx.layerLinks 0 c.element.tid) s.v).1
      { s with
        C := C, v := (unvisitedOf id (idx.layerLinks 0 c.element.tid) s.v).2, tuples := tuples } := by
  obtain ⟨h1, h2, h3, h4, h5⟩ := unvisitedOf_spec id (idx.layerLinks 0 c.element.tid) s.v
  generalize unvisitedOf id (idx.layerLinks 0 c.element.tid) s.v = r at h1 h2 h3 h4 h5
  obtain ⟨us, v'⟩ := r
  simp only [List.map_id, id_eq] at h1 h2 h3 h4 h5
  have hp := removeFirst_perm _ hC
  have hsub : ∀ t ∈ s.v, t ∈ v' := fun t ht => by rw [h1]; exact List.mem_append_right _ ht
  have hcQ : Q c.element.tid := (h.goodC c (hp.mem_iff.mpr List.mem_cons_self)).2
  exact { h with
    heapC := removeFirst_heaped nearest_preorder h.heapC hC
    goodC := fun x hx => h.goodC x (hp.mem_iff.mpr (List.mem_cons_of_mem _ hx))
    keys := by
      have hk := h.keys
      rw [List.perm_iff_count] at hk ⊢
      intro a
      have := hk a
      show _ = List.count a v'
      rw [h1]
      simp only [SearchState.discards, List.count_append, List.count_nil, List.count_reverse] at this ⊢
      omega
    nodup := by
      show v'.Nodup
      rw [h1]
      refine List.nodup_append.mpr ⟨List.nodup_reverse.mpr h2, h.nodup, ?_⟩
      rintro a ha b hb rfl
      exact h3 a (List.mem_reverse.mp ha) hb
    reach := by
      intro t (ht : t ∈ v')
      rw [h1] at ht
      rcases List.mem_append.mp ht with ht | ht
      · exact hQ _ t hcQ (h4 t (List.mem_reverse.mp ht))
      · exact h.reach t ht
    expanded := by
      intro w hw
      rcases h.expanded w hw with hc | hv
      · rcases List.mem_cons.mp (hp.mem_iff.mp hc) with rfl | hc
        · exact Or.inr h5
        · exact Or.inl hc
      · exact Or.inr fun u hu => hsub u (hv u hu) }

/-- A candidate beyond the furthest of `W` may be dropped from `C`. -/
theorem GroundInv.drop {c x : HnswSearchCandidate (HnswElement V) δ}
    {C : Heap (HnswSearchCandidate (HnswElement V) δ)} (h : GroundInv idx support q Q R [] s)
    (hC : removeFirst CompareNearestCandidates s.C = some (c, C)) (hx : first s.W = some x)
    (hd : x.distance < c.distance) : GroundInv idx support q Q R [] { s with C := C } := by
  have hp := removeFirst_perm _ hC
  exact { h with
    heapC := removeFirst_heaped nearest_preorder h.heapC hC
    goodC := fun y hy => h.goodC y (hp.mem_iff.mpr (List.mem_cons_of_mem _ hy))
    expanded := by
      intro w hw
      refine (h.expanded w hw).imp_left fun hc => ?_
      rcases List.mem_cons.mp (hp.mem_iff.mp hc) with rfl | hc
      · have hle := ge_furthest.mp (first_ge furthest_preorder h.heapW hx w hw)
        exact absurd hd (not_lt.mpr hle)
      · exact hc }

/-- **A ground-layer search ends**, with every element of `W` expanded. -/
theorem ground_search (hL : idx.Linked) (hS : idx.Shaped)
    (hQ : ∀ t u, Q t → u ∈ idx.layerLinks 0 t → Q u) (h : GroundInv idx support q Q R [] s) {n : Nat}
    (hn : remaining idx.tids.toFinset s < n) :
    ∃ s', searchLoop (readEnv idx support q false false idx.metap.m 0) ef 0 n s = some s' ∧
      GroundInv idx support q Q R [] s' ∧ (∀ t ∈ s.v, t ∈ s'.v) ∧
      ∀ c ∈ toList s'.W, ∀ u ∈ idx.layerLinks 0 c.element.tid, u ∈ s'.v := by
  obtain ⟨s', h1, ⟨h2, h3⟩, h4⟩ := searchLoop_rule
    (I := fun s' => GroundInv idx support q Q R [] s' ∧ ∀ t ∈ s.v, t ∈ s'.v)
    (μ := remaining idx.tids.toFinset) (fun s h => h.1.heapC)
    (fun s c C x h hC hx hd => ⟨h.1.drop hC hx hd, h.2⟩)
    (fun s1 c C x ⟨h, hsub⟩ hC hx hd => by
      have hp := removeFirst_perm _ hC
      have hc := (h.goodC c (hp.mem_iff.mpr List.mem_cons_self)).1
      refine ⟨_, readEnv_loadUnvisited hL hS hc (Nat.zero_le _) s1.v, ?_⟩
      have hlen := hp.length_eq
      have helem : ∀ u ∈ idx.layerLinks 0 c.element.tid, ∃ f, idx.elem? u = some f :=
        fun u hu => Index.layerLinks_elem hL hu
      have hcard := card_unvisited id (v := s1.v) (S := idx.tids.toFinset) (fun u hu => by
        obtain ⟨f, hf⟩ := helem u hu
        exact List.mem_toFinset.mpr (Index.elem?_mem_tids hf))
      obtain ⟨hspec, _, _, hin, _⟩ := unvisitedOf_spec id (idx.layerLinks 0 c.element.tid) s1.v
      obtain ⟨s', hs', hI, hv', hlen', _⟩ := foldl_visit_rule
        (readEnv idx support q false false idx.metap.m 0)
        (I := fun us s' => GroundInv idx support q Q R us s' ∧
          s'.v = (unvisitedOf id (idx.layerLinks 0 c.element.tid) s1.v).2 ∧
          (toList s'.C).length + us.length ≤
            (toList C).length + (unvisitedOf id (idx.layerLinks 0 c.element.tid) s1.v).1.length ∧
          ∀ u ∈ us, ∃ f, idx.elem? u = some f)
        (fun u us s2 ⟨h1, h2, h3, h4⟩ => by
          obtain ⟨f, hf⟩ := h4 u List.mem_cons_self
          rw [maxDistance_none h1.isSome]
          refine ⟨_, readEnv_loadElement hf none, ?_⟩
          obtain ⟨y, hy⟩ := Option.ne_none_iff_exists'.mp fun hn => h1.W_ne (first_eq_none.mp hn)
          have hv := visit_cases (readEnv idx support q false false idx.metap.m 0) ef 0 hy
            (scanCopy u f) (HnswGetDistance support q f.data)
          have hCl := hv.C_length
          simp only [List.length_cons] at h3
          exact ⟨h1.visit hf, hv.v_eq.trans h2,
            Nat.le_trans (Nat.add_le_add_right hCl us.length) (by omega),
            fun x hx => h4 x (List.mem_cons_of_mem _ hx)⟩)
        (unvisitedOf id (idx.layerLinks 0 c.element.tid) s1.v).1 _
        ⟨h.expand (s1.tuples + (unvisitedOf id (idx.layerLinks 0 c.element.tid) s1.v).1.length) hQ hC,
          rfl, Nat.le_refl _, fun u hu => helem u (hin u hu)⟩
      refine ⟨s', hs', ⟨hI, fun t ht => ?_⟩, ?_⟩
      · rw [hv', hspec]
        exact List.mem_append_right _ (hsub t ht)
      · unfold remaining
        rw [hv']
        simp only [List.length_cons, List.length_nil, Nat.add_zero] at hlen hlen'
        omega) n s ⟨h, fun _ ht => ht⟩ hn
  refine ⟨s', h1, h2, h3, fun c hc => ?_⟩
  refine (h2.expanded c hc).resolve_left fun hcC => ?_
  obtain ⟨x, hx⟩ := Option.ne_none_iff_exists'.mp fun hn => h2.W_ne (first_eq_none.mp hn)
  have hle := ge_furthest.mp (first_ge furthest_preorder h2.heapW hx c hc)
  exact absurd (h4 x hx c hcC) (not_lt.mpr hle)

end Ground

end Pgvec.Hnsw
