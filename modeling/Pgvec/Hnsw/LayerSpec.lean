/-
  File:      Pgvec/Hnsw/LayerSpec.lean
  Subject:   WHAT ONE LAYER SEARCH FINDS: the `ef` best of everything it has visited, with nothing of
             the answer left unexpanded.

  `Layer` says what the branches of a search read: each entry `u` of an unvisited list stands for the
  element `node u` at the distance `dist u`, and `nbrs` are the neighbors on the layer. `SearchInv` is the
  invariant of the two loops, with the entries visited so far (`vis`) and the entries that stand in `W`
  (`ws`) as ghosts: the level guard keeps an element out of `ws`, the test against the furthest of `W` and
  the eviction keep `ws` the best of `vis`, and an element of `ws` is in `C` or has been expanded.

  * `visit_counted` -- what one visited element does when every element counts;
  * `SearchInv.visit`, `SearchInv.expand` -- the two steps;
  * **`searchLayer_spec`** -- the search of any layer; **`layer_search_spec`** -- of the graph in memory and
    of the graph on disk.
-/
import Pgvec.Hnsw.SearchFacts
import Pgvec.Hnsw.Graph
import Pgvec.Hnsw.Memory

namespace Pgvec.Hnsw

open PairingHeap

/-! ## 1. Taking `W` off in order -/

section Drain

variable {E δ : Type}

theorem drain_pairwise {cmp : HnswSearchCandidate E δ → HnswSearchCandidate E δ → Int}
    (hc : IsTotalPreorder cmp) : ∀ (n : Nat) {h : Heap (HnswSearchCandidate E δ)}, HeapedH cmp h →
      (toList h).length ≤ n → (drain cmp n h).Pairwise (Ge cmp)
  | 0, _, _, _ => List.Pairwise.nil
  | n + 1, h, hh, hn => by
      unfold drain
      split
      · exact List.Pairwise.nil
      · rename_i x h' hr
        have hp := removeFirst_perm cmp hr
        have hl := hp.length_eq
        rw [List.length_cons] at hl
        refine List.pairwise_cons.mpr ⟨fun y hy => ?_, drain_pairwise hc n (removeFirst_heaped hc hh hr) (by omega)⟩
        have hy' := (drain_perm cmp n h' (by omega)).mem_iff.mp hy
        exact first_ge hc hh (removeFirst_first cmp hr) y (hp.mem_iff.mpr (List.mem_cons_of_mem _ hy'))

end Drain

/-! ## 2. What a search reads -/

section Spec

variable {E U K δ : Type} [LinearOrder δ] [DecidableEq K]

/-- A layer as a search reads it: entries, what they stand for, and the neighbors of an element. -/
structure Layer (E U K δ : Type) where
  node : U → E
  dist : U → δ
  ukey : U → K
  nbrs : U → List U
  /-- The entries that stand for an element. -/
  good : U → Prop
  /-- The keys of all elements. -/
  keys : Finset K

/-- The candidate made of an entry. -/
def Layer.cand (L : Layer E U K δ) (u : U) : HnswSearchCandidate E δ := ⟨L.node u, L.dist u⟩

/-- **The branches of the search read the layer `L`**, and every element counts (no `skipElement`). -/
structure ReadsLayer (env : SearchEnv Option E U K δ) (lc : Nat) (L : Layer E U K δ) : Prop where
  keys : ∀ u, L.good u → L.ukey u ∈ L.keys
  inj : ∀ u u', L.good u → L.good u' → L.ukey u = L.ukey u' → u = u'
  visitedKey : ∀ u, L.good u → env.visitedKey (L.node u) = L.ukey u
  load : ∀ u md, L.good u → ∃ eo, env.loadElement u md = some (eo, L.dist u) ∧
    (eo = some (L.node u) ∨ ∃ d, md = some d ∧ d ≤ L.dist u ∧ eo = none)
  unvisited : ∀ u v, L.good u → lc ≤ env.level (L.node u) →
    env.loadUnvisited (L.node u) v = some (unvisitedOf L.ukey (L.nbrs u) v)
  nbrs : ∀ u, L.good u → lc ≤ env.level (L.node u) → ∀ x ∈ L.nbrs u, L.good x
  counts : ∀ e, env.countElement e = true

/-- **What a layer search is for**: with `vis` the entries it visited, the answer `w` is duplicate-free, in
    order of non-increasing distance, as long as `ef` or the visited elements of the layer allow; nothing
    visited that is nearer is missing; and the neighbors of the answer have been visited. -/
def Layer.Answer (L : Layer E U K δ) (level : E → Nat) (lc ef : Nat) (vis w : List U) : Prop :=
  vis.Nodup ∧ w.Nodup ∧ w.Pairwise (fun a b => L.dist b ≤ L.dist a) ∧
  w.length = min ef (vis.filter fun u => lc ≤ level (L.node u)).length ∧
  (∀ u ∈ w, u ∈ vis ∧ lc ≤ level (L.node u)) ∧
  (∀ u ∈ vis, lc ≤ level (L.node u) → u ∉ w → ∀ x ∈ w, L.dist x ≤ L.dist u) ∧
  ∀ u ∈ w, ∀ x ∈ L.nbrs u, x ∈ vis

/-! ## 3. The invariant -/

/-- **The invariant of the search**: `us` are the entries of the inner loop still to visit. -/
structure SearchInv (L : Layer E U K δ) (level : E → Nat) (ef lc : Nat) (us : List U)
    (vis ws : List U) (s : SearchState E K δ) : Prop where
  nodup : vis.Nodup
  good : ∀ u ∈ vis, L.good u
  visited : ∀ k, k ∈ s.v ↔ k ∈ vis.map L.ukey
  todo : us.Nodup
  todo_vis : ∀ u ∈ us, u ∈ vis
  W : (toList s.W).Perm (ws.map L.cand)
  ws_nodup : ws.Nodup
  ws_vis : ∀ u ∈ ws, u ∈ vis ∧ u ∉ us ∧ lc ≤ level (L.node u)
  C : ∀ c ∈ toList s.C, ∃ u ∈ vis, c = L.cand u ∧ lc ≤ level (L.node u)
  heapC : HeapedH CompareNearestCandidates s.C
  heapW : HeapedH CompareFurthestCandidates s.W
  W_ne : s.W ≠ none
  wlen : ws.length = min ef s.wlen
  few : s.wlen < ef → ∀ u ∈ vis, u ∉ us → lc ≤ level (L.node u) → u ∈ ws
  far : ∀ u ∈ vis, u ∉ us → lc ≤ level (L.node u) → u ∉ ws → ∀ x ∈ ws, L.dist x ≤ L.dist u
  expanded : ∀ u ∈ ws, L.cand u ∈ toList s.C ∨ ∀ x ∈ L.nbrs u, x ∈ vis

variable {L : Layer E U K δ} {env : SearchEnv Option E U K δ} {ef lc : Nat} {us vis ws : List U}
  {s : SearchState E K δ}

omit [DecidableEq K] in
/-- The furthest of `W` is at least as far as every entry of `ws`. -/
theorem SearchInv.furthest {f : HnswSearchCandidate E δ} (h : SearchInv L env.level ef lc us vis ws s)
    (hf : first s.W = some f) : (∃ u ∈ ws, f = L.cand u) ∧ ∀ x ∈ ws, L.dist x ≤ f.distance := by
  constructor
  · obtain ⟨u, hu, he⟩ := List.mem_map.mp (h.W.mem_iff.mp (first_mem hf))
    exact ⟨u, hu, he.symm⟩
  · intro x hx
    have hm : L.cand x ∈ toList s.W := h.W.mem_iff.mpr (List.mem_map_of_mem hx)
    exact ge_furthest.mp (first_ge furthest_preorder h.heapW hf _ hm)

omit [DecidableEq K] in
/-- What a visited element does when every element counts: it is no better than a full `W`, it is not on
    the layer, there is room, or it takes the place of the furthest. -/
theorem visit_counted (hcount : ∀ e, env.countElement e = true) {f : HnswSearchCandidate E δ}
    (hf : first s.W = some f) (e : E) (d : δ) :
    (f.distance ≤ d ∧ ef ≤ s.wlen ∧ ∃ dis, visit env ef lc s (some e) d = { s with discarded := dis }) ∨
    (env.level e < lc ∧ visit env ef lc s (some e) d = s) ∨
    (lc ≤ env.level e ∧ s.wlen < ef ∧ visit env ef lc s (some e) d =
      { s with C := add CompareNearestCandidates s.C ⟨e, d⟩, W := add CompareFurthestCandidates s.W ⟨e, d⟩,
               wlen := s.wlen + 1 }) ∨
    (lc ≤ env.level e ∧ ef ≤ s.wlen ∧ d < f.distance ∧ ∃ x W dis,
      removeFirst CompareFurthestCandidates (add CompareFurthestCandidates s.W ⟨e, d⟩) = some (x, W) ∧
      visit env ef lc s (some e) d =
        { s with C := add CompareNearestCandidates s.C ⟨e, d⟩, W := W, wlen := s.wlen + 1, discarded := dis }) := by
  unfold visit
  simp only [hf, hcount, if_true]
  by_cases hadd : d < f.distance ∨ s.wlen < ef
  · rw [if_neg (not_not.mpr hadd)]
    refine Or.inr ?_
    by_cases hl : env.level e < lc
    · rw [if_pos hl]
      exact Or.inl ⟨hl, rfl⟩
    · rw [if_neg hl]
      refine Or.inr ?_
      by_cases hw : ef < s.wlen + 1
      · rw [if_pos hw]
        refine Or.inr ⟨Nat.le_of_not_lt hl, by omega, hadd.resolve_right (by omega), ?_⟩
        cases hx : removeFirst CompareFurthestCandidates (add CompareFurthestCandidates s.W ⟨e, d⟩) with
        | none => exact absurd ((removeFirst_eq_none _).mp hx) add_ne_none
        | some r => exact ⟨r.1, r.2, _, rfl, rfl⟩
      · rw [if_neg hw]
        exact Or.inl ⟨Nat.le_of_not_lt hl, by omega, rfl⟩
  · rw [if_pos hadd]
    exact Or.inl ⟨not_lt.mp fun h => hadd (Or.inl h), Nat.le_of_not_lt fun h => hadd (Or.inr h), _, rfl⟩

omit [DecidableEq K] in
/-- An entry that does not come into `W`: it is not on the layer, or `W` is full and it is no nearer. -/
theorem SearchInv.pass {u : U} (h : SearchInv L env.level ef lc (u :: us) vis ws s)
    (hpass : lc ≤ env.level (L.node u) → ef ≤ s.wlen ∧ ∀ x ∈ ws, L.dist x ≤ L.dist u) :
    SearchInv L env.level ef lc us vis ws s where
  nodup := h.nodup
  good := h.good
  visited := h.visited
  todo := (List.nodup_cons.mp h.todo).2
  todo_vis x hx := h.todo_vis x (List.mem_cons_of_mem _ hx)
  W := h.W
  ws_nodup := h.ws_nodup
  ws_vis x hx := ⟨(h.ws_vis x hx).1, fun k => (h.ws_vis x hx).2.1 (List.mem_cons_of_mem _ k),
    (h.ws_vis x hx).2.2⟩
  C := h.C
  heapC := h.heapC
  heapW := h.heapW
  W_ne := h.W_ne
  wlen := h.wlen
  few hw x hx hxu hxl := by
    by_cases hxe : x = u
    · have := (hpass (hxe ▸ hxl)).1
      omega
    · exact h.few hw x hx (fun k => (List.mem_cons.mp k).elim hxe hxu) hxl
  far x hx hxu hxl hxw := by
    by_cases hxe : x = u
    · exact hxe ▸ (hpass (hxe ▸ hxl)).2
    · exact h.far x hx (fun k => (List.mem_cons.mp k).elim hxe hxu) hxl hxw
  expanded := h.expanded

omit [DecidableEq K] in
/-- **Visiting keeps the invariant.** -/
theorem SearchInv.visit {u : U} (hcount : ∀ e, env.countElement e = true)
    (h : SearchInv L env.level ef lc (u :: us) vis ws s) :
    ∃ ws', SearchInv L env.level ef lc us vis ws' (Hnsw.visit env ef lc s (some (L.node u)) (L.dist u)) := by
  obtain ⟨f, hf⟩ := Option.ne_none_iff_exists'.mp fun hn => h.W_ne (first_eq_none.mp hn)
  obtain ⟨⟨y, hy, hfy⟩, hmax⟩ := h.furthest hf
  have hu : u ∈ vis := h.todo_vis u List.mem_cons_self
  obtain ⟨huus, hus⟩ := List.nodup_cons.mp h.todo
  have huws : u ∉ ws := fun k => (h.ws_vis u k).2.1 List.mem_cons_self
  have hpermW := add_perm CompareFurthestCandidates s.W (L.cand u)
  have hpermC := add_perm CompareNearestCandidates s.C (L.cand u)
  have hout : ∀ {x}, x ∉ us → x ≠ u → x ∉ u :: us := fun hx hxu k => (List.mem_cons.mp k).elim hxu hx
  have htodo : ∀ x ∈ us, x ∈ vis := fun x hx => h.todo_vis x (List.mem_cons_of_mem _ hx)
  have hC : lc ≤ env.level (L.node u) → ∀ c ∈ toList (add CompareNearestCandidates s.C (L.cand u)),
      ∃ x ∈ vis, c = L.cand x ∧ lc ≤ env.level (L.node x) := by
    intro hl c hc
    rcases List.mem_cons.mp (hpermC.mem_iff.mp hc) with rfl | hc
    · exact ⟨u, hu, rfl, hl⟩
    · exact h.C c hc
  have hexp : ∀ x ∈ u :: ws, L.cand x ∈ toList (add CompareNearestCandidates s.C (L.cand u)) ∨
      ∀ z ∈ L.nbrs x, z ∈ vis := by
    intro x hx
    rcases List.mem_cons.mp hx with rfl | hx
    · exact Or.inl (hpermC.mem_iff.mpr List.mem_cons_self)
    · exact (h.expanded x hx).imp_left fun k => hpermC.mem_iff.mpr (List.mem_cons_of_mem _ k)
  rcases visit_counted hcount hf (L.node u) (L.dist u) with
    ⟨hd, hw, dis, he⟩ | ⟨hl, he⟩ | ⟨hl, hw, he⟩ | ⟨hl, hw, hd, x, W, dis, hx, he⟩
  · rw [he]
    exact ⟨ws, { h.pass fun _ => ⟨hw, fun x hx => (hmax x hx).trans hd⟩ with }⟩
  · rw [he]
    exact ⟨ws, h.pass fun hl' => absurd hl (Nat.not_lt.mpr hl')⟩
  · -- there is room: everything visited on the layer is in `W`
    rw [he]
    have hlen := h.wlen
    refine ⟨u :: ws, h.nodup, h.good, h.visited, hus, htodo, ?_, List.nodup_cons.mpr ⟨huws, h.ws_nodup⟩, ?_,
      hC hl, add_heaped nearest_preorder h.heapC _, add_heaped furthest_preorder h.heapW _, add_ne_none, ?_, ?_,
      ?_, hexp⟩
    · exact hpermW.trans (h.W.cons _)
    · intro x hx
      rcases List.mem_cons.mp hx with rfl | hx
      · exact ⟨hu, huus, hl⟩
      · exact ⟨(h.ws_vis x hx).1, fun k => (h.ws_vis x hx).2.1 (List.mem_cons_of_mem _ k), (h.ws_vis x hx).2.2⟩
    · rw [List.length_cons]
      simp only
      omega
    · intro _ x hx hxu hxl
      by_cases hxe : x = u
      · exact hxe ▸ List.mem_cons_self
      · exact List.mem_cons_of_mem _ (h.few hw x hx (hout hxu hxe) hxl)
    · intro x hx hxu hxl hxw
      have hxe : x ≠ u := fun e => hxw (e ▸ List.mem_cons_self)
      exact absurd (List.mem_cons_of_mem _ (h.few hw x hx (hout hxu hxe) hxl)) hxw
  · -- it takes the place of the furthest
    rw [he]
    have hlen := h.wlen
    have hremW := removeFirst_perm _ hx
    have hxmem : x ∈ toList (add CompareFurthestCandidates s.W (L.cand u)) :=
      hremW.mem_iff.mpr List.mem_cons_self
    have hall : (toList (add CompareFurthestCandidates s.W (L.cand u))).Perm ((u :: ws).map L.cand) :=
      hpermW.trans (h.W.cons _)
    obtain ⟨z, hz, hzx⟩ := List.mem_map.mp (hall.mem_iff.mp hxmem)
    subst hzx
    have hxmax : ∀ y ∈ u :: ws, L.dist y ≤ L.dist z := by
      intro y hy
      have hm := hall.mem_iff.mpr (List.mem_map_of_mem (f := L.cand) hy)
      exact ge_furthest.mp (first_ge furthest_preorder (add_heaped furthest_preorder h.heapW _)
        (removeFirst_first _ hx) _ hm)
    have hnd : (u :: ws).Nodup := List.nodup_cons.mpr ⟨huws, h.ws_nodup⟩
    obtain ⟨l₁, l₂, hsplit⟩ := List.append_of_mem hz
    have hperm : (u :: ws).Perm (z :: (l₁ ++ l₂)) := hsplit ▸ List.perm_middle
    have hnd' := hperm.nodup_iff.mp hnd
    have hmem : ∀ y, y ∈ l₁ ++ l₂ → y ∈ u :: ws := fun y hy => hperm.mem_iff.mpr (List.mem_cons_of_mem _ hy)
    refine ⟨l₁ ++ l₂, h.nodup, h.good, h.visited, hus, htodo, ?_, (List.nodup_cons.mp hnd').2, ?_, hC hl,
      add_heaped nearest_preorder h.heapC _, removeFirst_heaped furthest_preorder
        (add_heaped furthest_preorder h.heapW _) hx, ?_, ?_, ?_, ?_, fun y hy => hexp y (hmem y hy)⟩
    · exact (List.perm_cons _).mp ((hremW.symm.trans hall).trans (hperm.map L.cand))
    · intro y hy
      rcases List.mem_cons.mp (hmem y hy) with rfl | hy
      · exact ⟨hu, huus, hl⟩
      · exact ⟨(h.ws_vis y hy).1, fun k => (h.ws_vis y hy).2.1 (List.mem_cons_of_mem _ k), (h.ws_vis y hy).2.2⟩
    · have h1 : (toList W).length + 1 = (toList s.W).length + 1 := hremW.length_eq.symm.trans hpermW.length_eq
      have h2 := W_ne_none_iff.mp h.W_ne
      exact W_ne_none_iff.mpr (show 0 < (toList W).length by omega)
    · have := hperm.length_eq
      simp only [List.length_cons] at this
      show (l₁ ++ l₂).length = min ef (s.wlen + 1)
      omega
    · intro hw'
      simp only at hw'
      omega
    · intro y hy hyu hyl hyw v hv
      by_cases hyz : y = z
      · exact hyz ▸ hxmax v (hmem v hv)
      have hyuw : y ∉ u :: ws := fun k => (List.mem_cons.mp (hperm.mem_iff.mp k)).elim hyz hyw
      have hyne : y ≠ u := fun e => hyuw (e ▸ List.mem_cons_self)
      have hold := h.far y hy (hout hyu hyne) hyl fun k => hyuw (List.mem_cons_of_mem _ k)
      rcases List.mem_cons.mp (hmem v hv) with rfl | hv'
      · exact hd.le.trans (hfy ▸ hold _ ‹_›)
      · exact hold v hv'

/-- **Expanding a candidate keeps the invariant**: its unvisited neighbors become the entries to visit. -/
theorem SearchInv.expand {C : Heap (HnswSearchCandidate E δ)} {c : HnswSearchCandidate E δ}
    (hL : ReadsLayer env lc L) (h : SearchInv L env.level ef lc [] vis ws s)
    (hC : removeFirst CompareNearestCandidates s.C = some (c, C)) :
    ∃ u, L.good u ∧ c = L.cand u ∧ lc ≤ env.level (L.node u) ∧
      ∃ vis', ∀ tuples, SearchInv L env.level ef lc (unvisitedOf L.ukey (L.nbrs u) s.v).1 vis' ws
        { s with C := C, v := (unvisitedOf L.ukey (L.nbrs u) s.v).2, tuples := tuples } := by
  have hpC := removeFirst_perm _ hC
  obtain ⟨u, hu, rfl, hl⟩ := h.C c (hpC.mem_iff.mpr List.mem_cons_self)
  have hgu := h.good u hu
  obtain ⟨h1, h2, h3, h4, h5⟩ := unvisitedOf_spec L.ukey (L.nbrs u) s.v
  refine ⟨u, hgu, rfl, hl, (unvisitedOf L.ukey (L.nbrs u) s.v).1 ++ vis, fun tuples => ?_⟩
  generalize unvisitedOf L.ukey (L.nbrs u) s.v = r at h1 h2 h3 h4 h5
  have hgr : ∀ x ∈ r.1, L.good x := fun x hx => hL.nbrs u hgu hl x (h4 x hx)
  have hnew : ∀ x ∈ r.1, x ∉ vis := fun x hx hxv => h3 x hx ((h.visited _).mpr (List.mem_map_of_mem hxv))
  have hgood : ∀ x ∈ r.1 ++ vis, L.good x := fun x hx =>
    (List.mem_append.mp hx).elim (hgr x) (h.good x)
  have hvis : ∀ k, k ∈ r.2 ↔ k ∈ (r.1 ++ vis).map L.ukey := by
    intro k
    rw [h1, List.map_append, List.mem_append, List.mem_append, List.mem_reverse, h.visited]
  have hback : ∀ x ∈ r.1 ++ vis, x ∉ r.1 → x ∈ vis := fun x hx hxr => (List.mem_append.mp hx).resolve_left hxr
  exact {
    nodup := List.nodup_append.mpr ⟨List.Nodup.of_map _ h2, h.nodup, fun x hx y hy e => hnew x hx (e ▸ hy)⟩
    good := hgood
    visited := hvis
    todo := List.Nodup.of_map _ h2
    todo_vis := fun x hx => List.mem_append_left _ hx
    W := h.W
    ws_nodup := h.ws_nodup
    ws_vis := fun x hx => ⟨List.mem_append_right _ (h.ws_vis x hx).1,
      fun k => hnew x k (h.ws_vis x hx).1, (h.ws_vis x hx).2.2⟩
    C := fun c hc => by
      obtain ⟨x, hx, he⟩ := h.C c (hpC.mem_iff.mpr (List.mem_cons_of_mem _ hc))
      exact ⟨x, List.mem_append_right _ hx, he⟩
    heapC := removeFirst_heaped nearest_preorder h.heapC hC
    heapW := h.heapW
    W_ne := h.W_ne
    wlen := h.wlen
    few := fun hw x hx hxr => h.few hw x (hback x hx hxr) List.not_mem_nil
    far := fun x hx hxr => h.far x (hback x hx hxr) List.not_mem_nil
    expanded := fun x hx => by
      rcases h.expanded x hx with hk | hk
      · rcases List.mem_cons.mp (hpC.mem_iff.mp hk) with he | hk
        · -- this is the candidate that is expanded now
          have hxu : x = u := by
            have hgx := h.good x (h.ws_vis x hx).1
            refine hL.inj x u hgx hgu ?_
            rw [← hL.visitedKey x hgx, ← hL.visitedKey u hgu]
            exact congrArg (fun c => env.visitedKey c.element) he
          refine Or.inr fun z hz => ?_
          rw [hxu] at hz
          obtain ⟨y, hy, hyk⟩ := List.mem_map.mp ((hvis _).mp (h5 z hz))
          exact hL.inj y z (hgood y hy) (hL.nbrs u hgu hl z hz) hyk ▸ hy
        · exact Or.inl hk
      · exact Or.inr fun z hz => List.mem_append_right _ (hk z hz) }

/-- The search starts in the invariant: the entry points are visited, and stand in `C` and `W`. -/
theorem searchInv_start (hL : ReadsLayer env lc L) {eps : List U} (hne : eps ≠ []) (hgood : ∀ u ∈ eps, L.good u)
    (hlevel : ∀ u ∈ eps, lc ≤ env.level (L.node u)) (hnd : eps.Nodup) (hef : eps.length ≤ ef) (v : List K)
    (d : Option (Heap (HnswSearchCandidate E δ))) (tuples : Nat) :
    SearchInv L env.level ef lc [] eps eps (searchStart env (eps.map L.cand) v d true tuples) := by
  obtain ⟨h1, h2⟩ := searchStart_perm env (eps.map L.cand) v d true tuples
  have hwlen : (searchStart env (eps.map L.cand) v d true tuples).wlen = eps.length := by
    have hfold : ∀ (l : List U) (s : SearchState E K δ),
        ((l.map L.cand).foldl (addEntry env true) s).wlen = s.wlen + l.length := by
      intro l
      induction l with
      | nil => exact fun s => rfl
      | cons u l ih =>
          intro s
          rw [List.map_cons, List.foldl_cons, ih, List.length_cons]
          simp only [addEntry, hL.counts, if_true]
          omega
    exact (hfold eps _).trans (Nat.zero_add _)
  exact {
    nodup := hnd
    good := hgood
    visited := fun k => by
      rw [mem_searchStart, List.mem_map]
      constructor
      · rintro ⟨c, hc, rfl⟩
        obtain ⟨u, hu, rfl⟩ := List.mem_map.mp hc
        exact ⟨u, hu, (hL.visitedKey u (hgood u hu)).symm⟩
      · rintro ⟨u, hu, rfl⟩
        exact ⟨L.cand u, List.mem_map_of_mem hu, hL.visitedKey u (hgood u hu)⟩
    todo := List.nodup_nil
    todo_vis := fun _ h => absurd h List.not_mem_nil
    W := h2
    ws_nodup := hnd
    ws_vis := fun u hu => ⟨hu, List.not_mem_nil, hlevel u hu⟩
    C := fun c hc => by
      obtain ⟨u, hu, rfl⟩ := List.mem_map.mp (h1.mem_iff.mp hc)
      exact ⟨u, hu, rfl, hlevel u hu⟩
    heapC := searchStart_heaped.1
    heapW := searchStart_heaped.2
    W_ne := searchStart_W_ne (by simpa using hne)
    wlen := by rw [hwlen, Nat.min_eq_right hef]
    few := fun _ u hu _ _ => hu
    far := fun u hu _ _ hn => absurd hu hn
    expanded := fun u hu => Or.inl (h1.mem_iff.mpr (List.mem_map_of_mem hu)) }

omit [DecidableEq K] in
/-- **Where the loop stops, the answer is right.** -/
theorem SearchInv.answer (h : SearchInv L env.level ef lc [] vis ws s) (hfin : Finished s) :
    ∃ w, (searchEnd s).w = w.map L.cand ∧ L.Answer env.level lc ef vis w := by
  obtain ⟨w, he, hw⟩ : ∃ w : List U, (searchEnd s).w = w.map L.cand ∧ w.Perm ws :=
    (congrFun (congrFun (List.eq_map_comp_perm L.cand) _) _).mpr ((searchEnd_perm s).trans h.W)
  have hsub : ws ⊆ vis.filter fun u => lc ≤ env.level (L.node u) := fun u hu =>
    List.mem_filter.mpr ⟨(h.ws_vis u hu).1, by simpa using (h.ws_vis u hu).2.2⟩
  have hlen : ws.length = min ef (vis.filter fun u => lc ≤ env.level (L.node u)).length := by
    have hle := (List.subperm_of_subset h.ws_nodup hsub).length_le
    have hwl := h.wlen
    by_cases hfew : s.wlen < ef
    · have hback : (vis.filter fun u => lc ≤ env.level (L.node u)) ⊆ ws := fun u hu =>
        h.few hfew u (List.mem_filter.mp hu).1 List.not_mem_nil (by simpa using (List.mem_filter.mp hu).2)
      have hge := (List.subperm_of_subset (h.nodup.filter _) hback).length_le
      omega
    · omega
  refine ⟨w, he, h.nodup, hw.nodup_iff.mpr h.ws_nodup, ?_, hw.length_eq.trans hlen, fun u hu => ?_, ?_, ?_⟩
  · have hp := drain_pairwise furthest_preorder (toList s.W).length h.heapW (Nat.le_refl _)
    rw [show drain CompareFurthestCandidates (toList s.W).length s.W = w.map L.cand from he, List.pairwise_map] at hp
    exact hp.imp fun hab => ge_furthest.mp hab
  · exact ⟨(h.ws_vis u (hw.mem_iff.mp hu)).1, (h.ws_vis u (hw.mem_iff.mp hu)).2.2⟩
  · intro u hu hl hnot x hx
    exact h.far u hu List.not_mem_nil hl (fun k => hnot (hw.mem_iff.mpr k)) x (hw.mem_iff.mp hx)
  · intro u hu
    -- what is left in `C` lies beyond `W`
    obtain ⟨f, hf⟩ := Option.ne_none_iff_exists'.mp fun hn => h.W_ne (first_eq_none.mp hn)
    refine (h.expanded u (hw.mem_iff.mp hu)).resolve_left fun hk => ?_
    exact absurd ((h.furthest hf).2 u (hw.mem_iff.mp hu)) (not_le.mpr (hfin f hf _ hk))

/-- **The search of a layer** ends and gives the answer, from any distinct entry points of the layer. -/
theorem searchLayer_spec (hL : ReadsLayer env lc L) {eps : List U} (hgood : ∀ u ∈ eps, L.good u)
    (hlevel : ∀ u ∈ eps, lc ≤ env.level (L.node u)) (hnd : eps.Nodup) (hef : eps.length ≤ ef) (v : List K)
    (d : Option (Heap (HnswSearchCandidate E δ))) (tuples n : Nat) (hn : eps.length + L.keys.card < n) :
    ∃ r vis w, HnswSearchLayer env (eps.map L.cand) ef lc v d true tuples n = some r ∧
      (∀ k, k ∈ r.v ↔ k ∈ vis.map L.ukey) ∧ r.w = w.map L.cand ∧ L.Answer env.level lc ef vis w := by
  by_cases hne : eps = []
  · -- nothing to start from
    subst hne
    obtain ⟨n, rfl⟩ := Nat.exists_eq_succ_of_ne_zero (by omega : n ≠ 0)
    refine ⟨⟨[], [], d.map fun _ => none, tuples⟩, [], [], ?_, by simp, rfl, List.nodup_nil, List.nodup_nil,
      List.Pairwise.nil, by simp, by simp, by simp, by simp⟩
    simp [HnswSearchLayer, searchLoop, searchStart, searchEnd, drain, removeFirst, toList]
  have h0 := searchInv_start hL hne hgood hlevel hnd hef v d tuples
  have hμ : remaining L.keys (searchStart env (eps.map L.cand) v d true tuples) < n := by
    have hC := (searchStart_perm env (eps.map L.cand) v d true tuples).1.length_eq
    have hcard := Finset.card_le_card (Finset.sdiff_subset (s := L.keys)
      (t := (searchStart env (eps.map L.cand) v d true tuples).v.toFinset))
    rw [List.length_map] at hC
    unfold remaining
    omega
  obtain ⟨s', hs', ⟨vis, ws, hI⟩, hfin⟩ := searchLoop_rule
    (I := fun s => ∃ vis ws, SearchInv L env.level ef lc [] vis ws s) (μ := remaining L.keys)
    (fun s hs => by
      obtain ⟨_, _, h⟩ := hs
      exact h.heapC)
    (fun s c C f hs hC hf hd => by
      obtain ⟨vis, ws, h⟩ := hs
      -- the candidate dropped at the break lies beyond `W`
      refine ⟨vis, ws, { h with
        heapC := removeFirst_heaped nearest_preorder h.heapC hC
        C := fun x hx => h.C x ((removeFirst_perm _ hC).mem_iff.mpr (List.mem_cons_of_mem _ hx))
        expanded := fun u hu => (h.expanded u hu).imp_left fun hk => ?_ }⟩
      rcases List.mem_cons.mp ((removeFirst_perm _ hC).mem_iff.mp hk) with he | hk
      · have := (h.furthest hf).2 u hu
        rw [← he] at hd
        exact absurd this (not_le.mpr hd)
      · exact hk)
    (fun s c C f hs hC _ _ => by
      obtain ⟨vis, ws, h⟩ := hs
      obtain ⟨u, hgu, rfl, hl, vis', hI⟩ := h.expand hL hC
      refine ⟨_, hL.unvisited u s.v hgu hl, ?_⟩
      have hlen := (removeFirst_perm _ hC).length_eq
      have hcard := card_unvisited L.ukey (v := s.v) fun x hx => hL.keys x (hL.nbrs u hgu hl x hx)
      obtain ⟨s', hs', ⟨ws', hI'⟩, hv', hlen'⟩ := foldl_visit_rule env
        (I := fun us s' => (∃ ws', SearchInv L env.level ef lc us vis' ws' s') ∧
          s'.v = (unvisitedOf L.ukey (L.nbrs u) s.v).2 ∧
          (toList s'.C).length + us.length ≤ (toList C).length + (unvisitedOf L.ukey (L.nbrs u) s.v).1.length)
        (fun x us s1 hs1 => by
          obtain ⟨⟨ws1, h1⟩, h2, h3⟩ := hs1
          obtain ⟨eo, hload, heo⟩ := hL.load x (maxDistance ef s1) (h1.good x (h1.todo_vis x List.mem_cons_self))
          refine ⟨_, hload, ?_⟩
          rw [List.length_cons] at h3
          obtain ⟨f, hf⟩ := Option.ne_none_iff_exists'.mp fun hn => h1.W_ne (first_eq_none.mp hn)
          rcases heo with rfl | ⟨d', hmd, hd', rfl⟩
          · have hv := visit_cases env ef lc hf (L.node x) (L.dist x)
            have := hv.C_length
            exact ⟨h1.visit hL.counts, hv.v_eq.trans h2, by simp only; omega⟩
          · -- it was not loaded, being no nearer than the furthest of a full `W`
            rw [visit_none]
            refine ⟨⟨ws1, h1.pass fun _ => ?_⟩, h2, by omega⟩
            unfold maxDistance at hmd
            split at hmd
            · cases hmd
            · rename_i hcond
              rw [hf, Option.map_some, Option.some.injEq] at hmd
              refine ⟨by omega, fun y hy => ((h1.furthest hf).2 y hy).trans (hmd ▸ hd')⟩)
        (unvisitedOf L.ukey (L.nbrs u) s.v).1 _ ⟨⟨ws, hI _⟩, rfl, Nat.le_refl _⟩
      refine ⟨s', hs', ⟨vis', ws', hI'⟩, ?_⟩
      unfold remaining
      rw [hv']
      simp only [List.length_cons, List.length_nil, Nat.add_zero] at hlen hlen'
      omega) n _ ⟨eps, eps, h0⟩ hμ
  obtain ⟨w, hw, hans⟩ := hI.answer hfin
  refine ⟨searchEnd s', vis, w, ?_, hI.visited, hw, hans⟩
  unfold HnswSearchLayer
  rw [hs']
  rfl

end Spec

/-! ## 4. The graph in memory and the graph on disk -/

section Graphs

variable {V δ : Type} [LinearOrder δ]

/-- A layer of the graph in memory. -/
def memLayer (g : HnswGraph V δ) (mem : MemSpace) (support : HnswSupport V δ) (q : V) (lc : Nat) :
    Layer Nat Nat Nat δ where
  node := id
  dist i := ((g.elements[i]?).map fun e => support.distance q e.value).getD support.zeroDistance
  ukey := mem.visitedKey
  nbrs i := ((g.elements[i]?).bind fun e => e.layer lc).getD []
  good i := i < g.elements.length
  keys := (Finset.range g.elements.length).image mem.visitedKey

/-- The elements of the layer have a neighbor array for it, with links to elements of the graph. -/
def HnswGraph.LayerLinked (g : HnswGraph V δ) (lc : Nat) : Prop :=
  ∀ (i : Nat) (e : MemElement V δ), g.elements[i]? = some e → lc ≤ e.level →
    ∃ nb, e.layer lc = some nb ∧ ∀ j ∈ nb, j < g.elements.length

theorem readsLayer_mem [DecidableEq V] {g : HnswGraph V δ} (mem : MemSpace) (support : HnswSupport V δ) (q : V)
    {lc : Nat} (h : g.LayerLinked lc) :
    ReadsLayer (memEnv g mem support q lc) lc (memLayer g mem support q lc) where
  keys i hi := Finset.mem_image_of_mem _ (Finset.mem_range.mpr hi)
  inj i j _ _ hij := mem.visitedKey_inj hij
  visitedKey _ _ := rfl
  load i md hi := by
    refine ⟨some i, ?_, Or.inl rfl⟩
    simp [memEnv, memLayer, List.getElem?_eq_getElem hi]
  unvisited i v hi hl := by
    have hget := List.getElem?_eq_getElem hi
    simp only [memEnv, memLayer, id, hget, Option.map_some, Option.getD_some] at hl
    obtain ⟨nb, hnb, _⟩ := h i _ hget hl
    simp only [memEnv, memLayer, id, hget, hnb, Option.map_some, Option.bind_some, Option.getD_some]
  nbrs i hi hl j hj := by
    have hget := List.getElem?_eq_getElem hi
    simp only [memEnv, memLayer, id, hget, Option.map_some, Option.getD_some] at hl
    obtain ⟨nb, hnb, hlinks⟩ := h i _ hget hl
    simp only [memLayer, hget, hnb, Option.bind_some, Option.getD_some] at hj
    exact hlinks j hj
  counts _ := rfl

/-- A layer of the graph on disk: an entry is the TID of an element tuple. -/
def diskLayer (idx : Index V) (support : HnswSupport V δ) (q : Option V) (inserting : Bool) (m lc : Nat) :
    Layer (HnswElement V) ItemPointer ItemPointer δ where
  node t := match idx.elem? t with
    | some etup => HnswLoadElementFromTuple (HnswInitElementFromBlock t 0) etup true inserting
    | none => HnswInitElementFromBlock t 0
  dist t := ((idx.elem? t).map fun etup => HnswGetDistance support q etup.data).getD support.zeroDistance
  ukey := id
  nbrs t := ((idx.elem? t).bind fun etup => readNeighbors idx m lc
    (HnswLoadElementFromTuple (HnswInitElementFromBlock t 0) etup true inserting)).getD []
  good t := (idx.elem? t).isSome
  keys := idx.tids.toFinset

/-- The elements of the layer have a neighbor tuple, with links to element tuples. -/
def Index.LayerLinked (idx : Index V) (inserting : Bool) (m lc : Nat) : Prop :=
  ∀ t etup, idx.elem? t = some etup → lc ≤ etup.level → ∃ tids, readNeighbors idx m lc
    (HnswLoadElementFromTuple (HnswInitElementFromBlock t 0) etup true inserting) = some tids ∧
      ∀ x ∈ tids, (idx.elem? x).isSome

theorem readsLayer_disk {idx : Index V} (support : HnswSupport V δ) (q : Option V) {inserting : Bool} {m lc : Nat}
    (h : idx.LayerLinked inserting m lc) :
    ReadsLayer (readEnv idx support q inserting false m lc) lc (diskLayer idx support q inserting m lc) where
  keys t ht := by
    obtain ⟨etup, he⟩ := Option.isSome_iff_exists.mp ht
    exact List.mem_toFinset.mpr (Index.elem?_mem_tids he)
  inj _ _ _ _ h := h
  visitedKey t ht := by
    obtain ⟨etup, he⟩ := Option.isSome_iff_exists.mp ht
    simp only [diskLayer, he]
    rfl
  load t md ht := by
    obtain ⟨etup, he⟩ := Option.isSome_iff_exists.mp ht
    simp only [readEnv, diskLayer, he, Option.map_some, Option.getD_some, loadWithDistance]
    cases md with
    | none => exact ⟨_, rfl, Or.inl rfl⟩
    | some d =>
        by_cases hd : HnswGetDistance support q etup.data < d
        · exact ⟨_, by simp only [if_pos hd], Or.inl rfl⟩
        · exact ⟨none, by simp only [if_neg hd], Or.inr ⟨d, rfl, not_lt.mp hd, rfl⟩⟩
  unvisited t v ht hl := by
    obtain ⟨etup, he⟩ := Option.isSome_iff_exists.mp ht
    simp only [diskLayer, he] at hl
    obtain ⟨tids, hr, _⟩ := h t etup he hl
    simp only [readEnv, diskLayer, he, hr, Option.map_some, Option.bind_some, Option.getD_some]
  nbrs t ht hl x hx := by
    obtain ⟨etup, he⟩ := Option.isSome_iff_exists.mp ht
    simp only [diskLayer, he] at hl
    obtain ⟨tids, hr, hlinks⟩ := h t etup he hl
    simp only [diskLayer, he, hr, Option.bind_some, Option.getD_some] at hx
    exact hlinks x hx
  counts _ := rfl

/-- **`HnswSearchLayer` without `skipElement` and with a fresh visited table**, in memory and on disk. -/
theorem layer_search_spec [DecidableEq V] (support : HnswSupport V δ) (ef lc : Nat) :
    (∀ (g : HnswGraph V δ) (mem : MemSpace) (q : V) (eps v : List Nat)
        (d : Option (Heap (HnswSearchCandidate Nat δ))) (tuples n : Nat),
      g.LayerLinked lc → eps.Nodup → eps.length ≤ ef →
      (∀ i ∈ eps, ∃ e, g.elements[i]? = some e ∧ lc ≤ e.level) → eps.length + g.elements.length < n →
      ∃ r vis w, HnswSearchLayer (memEnv g mem support q lc) (eps.map (memLayer g mem support q lc).cand) ef lc
          v d true tuples n = some r ∧
        (∀ k, k ∈ r.v ↔ k ∈ vis.map mem.visitedKey) ∧ r.w = w.map (memLayer g mem support q lc).cand ∧
        (memLayer g mem support q lc).Answer (memEnv g mem support q lc).level lc ef vis w) ∧
    ∀ (idx : Index V) (q : Option V) (inserting : Bool) (m : Nat) (eps v : List ItemPointer)
        (d : Option (Heap (HnswSearchCandidate (HnswElement V) δ))) (tuples n : Nat),
      idx.LayerLinked inserting m lc → eps.Nodup → eps.length ≤ ef →
      (∀ t ∈ eps, ∃ etup, idx.elem? t = some etup ∧ lc ≤ etup.level) → eps.length + idx.tids.length < n →
      ∃ r vis w, readRun idx (HnswSearchLayer (diskEnv support q inserting false m lc)
          (eps.map (diskLayer idx support q inserting m lc).cand) ef lc v d true tuples n) = some r ∧
        (∀ t, t ∈ r.v ↔ t ∈ vis) ∧ r.w = w.map (diskLayer idx support q inserting m lc).cand ∧
        (diskLayer idx support q inserting m lc).Answer HnswElement.level lc ef vis w := by
  constructor
  · intro g mem q eps v d tuples n hg hnd hef heps hn
    refine searchLayer_spec (readsLayer_mem mem support q hg) (fun i hi => ?_) (fun i hi => ?_) hnd hef v d tuples n
      (Nat.lt_of_le_of_lt (Nat.add_le_add_left (Finset.card_image_le.trans ?_) _) hn)
    · obtain ⟨e, he, _⟩ := heps i hi
      exact (List.getElem?_eq_some_iff.mp he).1
    · obtain ⟨e, he, hl⟩ := heps i hi
      simpa [memEnv, memLayer, he] using hl
    · rw [Finset.card_range]
  · intro idx q inserting m eps v d tuples n hidx hnd hef heps hn
    obtain ⟨r, vis, w, h1, h2, h3, h4⟩ := searchLayer_spec (readsLayer_disk support q hidx)
      (fun t ht => (heps t ht).elim fun etup he => Option.isSome_iff_exists.mpr ⟨etup, he.1⟩)
      (fun t ht => by
        obtain ⟨etup, he, hl⟩ := heps t ht
        simp only [diskLayer, he]
        exact hl) hnd hef v d tuples n
      (Nat.lt_of_le_of_lt (Nat.add_le_add_left (List.toFinset_card_le _) _) hn)
    refine ⟨r, vis, w, ?_, fun t => ?_, h3, h4⟩
    · rw [readRun_searchLayer]
      exact h1
    · rw [h2 t]
      simp [diskLayer]

end Graphs

/-- Both elements of the small index, from its entry point. -/
theorem layer_search_spec_pair : ∃ r vis w,
    readRun pairIndex (HnswSearchLayer (diskEnv numberSupport (some 12) false false 2 0)
      ([⟨1, 1⟩].map (diskLayer pairIndex numberSupport (some 12) false 2 0).cand) 2 0 [] none true 0 10) = some r ∧
    (∀ t, t ∈ r.v ↔ t ∈ vis) ∧ r.w = w.map (diskLayer pairIndex numberSupport (some 12) false 2 0).cand ∧
    (diskLayer pairIndex numberSupport (some 12) false 2 0).Answer HnswElement.level 0 2 vis w := by
  refine (layer_search_spec numberSupport 2 0).2 pairIndex (some 12) false 2 [⟨1, 1⟩] [] none 0 10 ?_ (by decide)
    (by decide) (fun t ht => ?_) (by decide)
  · intro t etup h _
    rcases pairIndex_elem h with ⟨rfl, rfl⟩ | ⟨rfl, rfl⟩
    · exact ⟨[⟨1, 3⟩], rfl, by decide⟩
    · exact ⟨[⟨1, 1⟩], rfl, by decide⟩
  · rw [List.mem_singleton.mp ht]
    exact ⟨_, rfl, Nat.zero_le _⟩

end Pgvec.Hnsw
