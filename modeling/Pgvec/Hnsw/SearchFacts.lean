/-
  File:      Pgvec/Hnsw/SearchFacts.lean
  Subject:   WHAT ONE STEP OF THE LAYER SEARCH DOES, and the induction over its loops.

  * the three comparators are total preorders, so the heaps give the nearest and the furthest;
  * `unvisitedOf_spec` -- the unvisited part of a neighbor list, and the visited table after it;
  * `visit_cases` -- everything visiting one loaded element can do;
  * `drain_perm` -- the list given back is the heap;
  * `foldl_visit_rule`, `searchLoop_rule` -- an invariant of one visit is one of the inner loop, and an
    invariant of one round, with a number that falls, is one of the `while` loop, which then ends;
  * `LayerInv` -- the candidates of `C` and `W` are good, those of `W` distinct and visited;
    **`searchLayer_total`** -- a search that can load what it meets ends, with good, distinct
    candidates.
-/
import Mathlib.Data.Finset.Card
import Pgvec.Hnsw.Search

namespace Pgvec.Hnsw

open PairingHeap

/-! ## 1. The comparators -/

section Order

variable {E δ : Type} [LinearOrder δ]

theorem ge_nearest {a b : HnswSearchCandidate E δ} :
    Ge CompareNearestCandidates a b ↔ a.distance ≤ b.distance := by
  unfold Ge CompareNearestCandidates
  rcases lt_trichotomy a.distance b.distance with h | h | h
  · simp [h, h.le]
  · simp [h]
  · simp [h, not_lt.mpr h.le]

theorem ge_furthest {a b : HnswSearchCandidate E δ} :
    Ge CompareFurthestCandidates a b ↔ b.distance ≤ a.distance := by
  unfold Ge CompareFurthestCandidates
  rcases lt_trichotomy a.distance b.distance with h | h | h
  · simp [h]
  · simp [h]
  · simp [h.le, not_lt.mpr h.le]
    split <;> simp

theorem nearest_preorder : IsTotalPreorder (CompareNearestCandidates (E := E) (δ := δ)) where
  total a b := by
    rw [ge_nearest, ge_nearest]
    exact le_total _ _
  trans a b c := by
    rw [ge_nearest, ge_nearest, ge_nearest]
    exact le_trans

theorem furthest_preorder : IsTotalPreorder (CompareFurthestCandidates (E := E) (δ := δ)) where
  total a b := by
    rw [ge_furthest, ge_furthest]
    exact le_total _ _
  trans a b c := by
    rw [ge_furthest, ge_furthest, ge_furthest]
    exact fun h h' => h'.trans h

end Order

/-! ## 2. The visited table -/

section Visited

variable {K U : Type} [DecidableEq K]

/-- **The unvisited entries of a list**: none of them was in the table, no two have one key, and
    the table afterwards holds exactly their keys more. -/
theorem unvisitedOf_spec (key : U → K) : ∀ (l : List U) (v : List K),
    (unvisitedOf key l v).2 = ((unvisitedOf key l v).1.map key).reverse ++ v ∧
    ((unvisitedOf key l v).1.map key).Nodup ∧
    (∀ u ∈ (unvisitedOf key l v).1, key u ∉ v) ∧
    (∀ u ∈ (unvisitedOf key l v).1, u ∈ l) ∧
    (∀ u ∈ l, key u ∈ (unvisitedOf key l v).2)
  | [], v => by simp [unvisitedOf]
  | u :: l, v => by
      by_cases h : key u ∈ v
      · obtain ⟨h1, h2, h3, h4, h5⟩ := unvisitedOf_spec key l v
        have e : unvisitedOf key (u :: l) v = unvisitedOf key l v := by
          simp only [unvisitedOf, hashInsert, if_pos h]
        rw [e]
        refine ⟨h1, h2, h3, fun x hx => List.mem_cons_of_mem _ (h4 x hx), fun x hx => ?_⟩
        rcases List.mem_cons.mp hx with rfl | hx
        · rw [h1]
          exact List.mem_append_right _ h
        · exact h5 x hx
      · obtain ⟨h1, h2, h3, h4, h5⟩ := unvisitedOf_spec key l (key u :: v)
        have e : unvisitedOf key (u :: l) v =
            (u :: (unvisitedOf key l (key u :: v)).1, (unvisitedOf key l (key u :: v)).2) := by
          simp only [unvisitedOf, hashInsert, if_neg h]
        rw [e]
        have hu : key u ∈ (unvisitedOf key l (key u :: v)).2 := by
          rw [h1]
          exact List.mem_append_right _ List.mem_cons_self
        refine ⟨?_, ?_, ?_, ?_, ?_⟩
        · simp only [List.map_cons, List.reverse_cons, List.append_assoc, List.singleton_append]
          exact h1
        · simp only [List.map_cons, List.nodup_cons]
          refine ⟨fun hm => ?_, h2⟩
          obtain ⟨x, hx, ex⟩ := List.mem_map.mp hm
          exact h3 x hx (ex ▸ List.mem_cons_self)
        · intro x hx
          rcases List.mem_cons.mp hx with rfl | hx
          · exact h
          · exact fun hm => h3 x hx (List.mem_cons_of_mem _ hm)
        · intro x hx
          rcases List.mem_cons.mp hx with rfl | hx
          · exact List.mem_cons_self
          · exact List.mem_cons_of_mem _ (h4 x hx)
        · intro x hx
          rcases List.mem_cons.mp hx with rfl | hx
          · exact hu
          · exact h5 x hx

/-- What is left to visit of a finite set of keys falls by the number of unvisited entries in it. -/
theorem card_unvisited_filter (key : U → K) (l : List U) (v : List K) (S : Finset K) :
    (S \ (unvisitedOf key l v).2.toFinset).card +
      ((unvisitedOf key l v).1.filter fun u => decide (key u ∈ S)).length = (S \ v.toFinset).card := by
  obtain ⟨h1, h2, h3, _, _⟩ := unvisitedOf_spec key l v
  generalize unvisitedOf key l v = r at h1 h2 h3
  obtain ⟨us, v'⟩ := r
  simp only at h1 h2 h3 ⊢
  have hnd : ((us.filter fun u => decide (key u ∈ S)).map key).Nodup :=
    h2.sublist (List.filter_sublist.map key)
  have hlen : (us.filter fun u => decide (key u ∈ S)).length =
      ((us.filter fun u => decide (key u ∈ S)).map key).toFinset.card := by
    rw [List.toFinset_card_of_nodup hnd, List.length_map]
  have hmem : ∀ k, k ∈ (us.filter fun u => decide (key u ∈ S)).map key ↔ k ∈ us.map key ∧ k ∈ S := by
    intro k
    simp only [List.mem_map, List.mem_filter, decide_eq_true_eq]
    constructor
    · rintro ⟨u, ⟨hu, hS⟩, rfl⟩
      exact ⟨⟨u, hu, rfl⟩, hS⟩
    · rintro ⟨⟨u, hu, rfl⟩, hS⟩
      exact ⟨u, ⟨hu, hS⟩, rfl⟩
  have hsub : ((us.filter fun u => decide (key u ∈ S)).map key).toFinset ⊆ S \ v.toFinset := by
    intro k hk
    obtain ⟨hk, hS⟩ := (hmem k).mp (List.mem_toFinset.mp hk)
    obtain ⟨u, hu, rfl⟩ := List.mem_map.mp hk
    rw [Finset.mem_sdiff, List.mem_toFinset]
    exact ⟨hS, h3 u hu⟩
  have hset : S \ v'.toFinset = (S \ v.toFinset) \
      ((us.filter fun u => decide (key u ∈ S)).map key).toFinset := by
    rw [h1]
    ext k
    simp only [Finset.mem_sdiff, List.mem_toFinset, List.mem_append, List.mem_reverse, hmem]
    tauto
  rw [hset, hlen, Finset.card_sdiff_add_card_eq_card hsub]

/-- The same where every entry is in the set. -/
theorem card_unvisited (key : U → K) {l : List U} {v : List K} {S : Finset K}
    (hS : ∀ u ∈ l, key u ∈ S) :
    (S \ (unvisitedOf key l v).2.toFinset).card + (unvisitedOf key l v).1.length =
      (S \ v.toFinset).card := by
  have h := card_unvisited_filter key l v S
  rwa [List.filter_eq_self.mpr fun u hu =>
    decide_eq_true (hS u ((unvisitedOf_spec key l v).2.2.2.1 u hu))] at h

end Visited

/-! ## 3. Visiting one element -/

section Visit

variable {M : Type → Type} {E U K δ : Type} [LinearOrder δ]

/-- What visiting an element can do to the local variables: discard it, ignore it because it is not
    on the layer, or add it, with or without evicting the furthest of `W`. -/
inductive Visited (env : SearchEnv M E U K δ) (ef lc : Nat) (s : SearchState E K δ)
    (c f : HnswSearchCandidate E δ) : SearchState E K δ → Prop where
  | discarded (hd : f.distance ≤ c.distance) (hw : ef ≤ s.wlen) :
      Visited env ef lc s c f
        { s with discarded := s.discarded.map fun d => add CompareNearestDiscardedCandidates d c }
  | ignored (hl : env.level c.element < lc) : Visited env ef lc s c f s
  | added (hl : lc ≤ env.level c.element) (wlen : Nat) :
      Visited env ef lc s c f
        { s with
          C := add CompareNearestCandidates s.C c
          W := add CompareFurthestCandidates s.W c
          wlen := wlen }
  | evicted (hl : lc ≤ env.level c.element) (hd : c.distance < f.distance)
      (x : HnswSearchCandidate E δ) (W : Heap (HnswSearchCandidate E δ))
      (hx : removeFirst CompareFurthestCandidates (add CompareFurthestCandidates s.W c) =
        some (x, W)) :
      Visited env ef lc s c f
        { s with
          C := add CompareNearestCandidates s.C c
          W := W
          wlen := s.wlen + 1
          discarded := s.discarded.map fun d => add CompareNearestDiscardedCandidates d x }

theorem add_ne_none {α : Type} {cmp : α → α → Int} {h : Heap α} {x : α} : add cmp h x ≠ none := by
  cases h <;> simp [add]

/-- **Visiting a loaded element does one of these.** -/
theorem visit_cases (env : SearchEnv M E U K δ) (ef lc : Nat) {s : SearchState E K δ}
    {f : HnswSearchCandidate E δ} (hf : first s.W = some f) (e : E) (d : δ) :
    Visited env ef lc s ⟨e, d⟩ f (visit env ef lc s (some e) d) := by
  unfold visit
  simp only [hf]
  by_cases hadd : d < f.distance ∨ s.wlen < ef
  · rw [if_neg (not_not.mpr hadd)]
    by_cases hl : env.level e < lc
    · rw [if_pos hl]
      exact .ignored hl
    · rw [if_neg hl]
      have hl' : lc ≤ env.level e := Nat.le_of_not_lt hl
      by_cases hc : env.countElement e
      · rw [if_pos hc]
        by_cases hw : ef < s.wlen + 1
        · rw [if_pos hw]
          have hd : d < f.distance := hadd.resolve_right (by omega)
          cases hx : removeFirst CompareFurthestCandidates
              (add CompareFurthestCandidates s.W ⟨e, d⟩) with
          | none => exact absurd ((removeFirst_eq_none _).mp hx) add_ne_none
          | some r => exact .evicted (c := ⟨e, d⟩) hl' hd r.1 r.2 hx
        · rw [if_neg hw]
          exact .added (c := ⟨e, d⟩) hl' _
      · rw [if_neg hc]
        exact .added (c := ⟨e, d⟩) hl' s.wlen
  · rw [if_pos hadd]
    exact .discarded (c := ⟨e, d⟩) (not_lt.mp fun h => hadd (Or.inl h))
      (Nat.le_of_not_lt fun h => hadd (Or.inr h))

@[simp] theorem visit_none (env : SearchEnv M E U K δ) (ef lc : Nat) (s : SearchState E K δ) (d : δ) :
    visit env ef lc s none d = s := by
  unfold visit
  cases first s.W <;> rfl

/-- Visiting does one of these or nothing. -/
theorem visit_or (env : SearchEnv M E U K δ) (ef lc : Nat) (st : SearchState E K δ) (eo : Option E) (d : δ) :
    visit env ef lc st eo d = st ∨
      ∃ e f, eo = some e ∧ Visited env ef lc st ⟨e, d⟩ f (visit env ef lc st eo d) := by
  cases eo with
  | none => exact Or.inl (visit_none env ef lc st d)
  | some e =>
      cases hf : first st.W with
      | none => exact Or.inl (by simp only [visit, hf])
      | some f => exact Or.inr ⟨e, f, rfl, visit_cases env ef lc hf e d⟩

/-- Visiting does not touch the visited table. -/
theorem Visited.v_eq {env : SearchEnv M E U K δ} {ef lc : Nat} {s s' : SearchState E K δ}
    {c f : HnswSearchCandidate E δ} (h : Visited env ef lc s c f s') : s'.v = s.v := by
  cases h <;> rfl

/-- `W` only ever gets larger. -/
theorem Visited.W_length {env : SearchEnv M E U K δ} {ef lc : Nat} {s s' : SearchState E K δ}
    {c f : HnswSearchCandidate E δ} (h : Visited env ef lc s c f s') :
    (toList s.W).length ≤ (toList s'.W).length := by
  cases h with
  | discarded => exact Nat.le_refl _
  | ignored => exact Nat.le_refl _
  | added =>
      have := (add_perm CompareFurthestCandidates s.W c).length_eq
      simp only [List.length_cons] at this
      simp only [this]
      omega
  | evicted _ _ x W hx =>
      have h1 := (add_perm CompareFurthestCandidates s.W c).length_eq
      have h2 := (removeFirst_perm _ hx).length_eq
      simp only [List.length_cons] at h1 h2
      simp only
      omega

/-- `C` grows by one entry at most. -/
theorem Visited.C_length {env : SearchEnv M E U K δ} {ef lc : Nat} {s s' : SearchState E K δ}
    {c f : HnswSearchCandidate E δ} (h : Visited env ef lc s c f s') :
    (toList s'.C).length ≤ (toList s.C).length + 1 := by
  have := (add_perm CompareNearestCandidates s.C c).length_eq
  simp only [List.length_cons] at this
  cases h with
  | discarded => exact Nat.le_succ _
  | ignored => exact Nat.le_succ _
  | added => exact this.le
  | evicted => exact this.le

omit [LinearOrder δ] in
theorem W_ne_none_iff {s : SearchState E K δ} : s.W ≠ none ↔ 0 < (toList s.W).length := by
  rw [Nat.pos_iff_ne_zero, ne_eq, ne_eq, List.length_eq_zero_iff, toList_eq_nil]

theorem Visited.W_ne_none {env : SearchEnv M E U K δ} {ef lc : Nat} {s s' : SearchState E K δ}
    {c f : HnswSearchCandidate E δ} (h : Visited env ef lc s c f s') (hw : s.W ≠ none) :
    s'.W ≠ none := by
  rw [W_ne_none_iff] at hw ⊢
  exact Nat.lt_of_lt_of_le hw h.W_length

end Visit

/-! ## 4. Emptying `W` -/

section Drain

variable {E δ : Type}

theorem drain_perm (cmp : HnswSearchCandidate E δ → HnswSearchCandidate E δ → Int) : ∀ (n : Nat)
    (h : Heap (HnswSearchCandidate E δ)), (toList h).length ≤ n → (drain cmp n h).Perm (toList h)
  | 0, h, hn => by
      have : toList h = [] := List.length_eq_zero_iff.mp (by omega)
      rw [this]
      exact .refl _
  | n + 1, h, hn => by
      unfold drain
      split
      · rename_i hr
        rw [(removeFirst_eq_none _).mp hr]
        exact .refl _
      · rename_i x h' hr
        have hp := removeFirst_perm cmp hr
        have hl := hp.length_eq
        simp only [List.length_cons] at hl
        exact ((drain_perm cmp n h' (by omega)).cons x).trans hp.symm

theorem searchEnd_perm {K : Type} [LinearOrder δ] (s : SearchState E K δ) :
    (searchEnd s).w.Perm (toList s.W) := drain_perm _ _ _ (Nat.le_refl _)

end Drain

/-! ## 5. The loops, where every load is answered at once -/

section Rules

variable {E U K δ : Type} [LinearOrder δ] {env : SearchEnv Option E U K δ}
  {ef lc : Nat}

/-- **The inner loop**: `I us s` says what holds with the entries `us` still to visit. -/
theorem foldl_visit_rule (env : SearchEnv Option E U K δ) {I : List U → SearchState E K δ → Prop}
    (step : ∀ u us s, I (u :: us) s →
      ∃ r, env.loadElement u (maxDistance ef s) = some r ∧ I us (visit env ef lc s r.1 r.2)) :
    ∀ (us : List U) (s : SearchState E K δ), I us s →
      ∃ s', us.foldlM (loadAndVisit env ef lc) s = some s' ∧ I [] s'
  | [], s, h => ⟨s, rfl, h⟩
  | u :: us, s, h => by
      obtain ⟨r, hr, hI⟩ := step u us s h
      obtain ⟨s', hs', hI'⟩ := foldl_visit_rule env step us _ hI
      refine ⟨s', ?_, hI'⟩
      rw [List.foldlM_cons]
      simp only [loadAndVisit, hr]
      exact hs'

/-- Where the `while` loop stops: nothing to expand, or only candidates beyond the furthest of `W`. -/
def Finished (s : SearchState E K δ) : Prop :=
  ∀ f, first s.W = some f → ∀ c ∈ toList s.C, f.distance < c.distance

/-- **The `while` loop**: one round keeps `I` and lowers `μ`; a popped candidate beyond the furthest of
    `W` may be dropped. -/
theorem searchLoop_rule {I : SearchState E K δ → Prop} {μ : SearchState E K δ → Nat}
    (hC : ∀ s, I s → HeapedH CompareNearestCandidates s.C)
    (hdrop : ∀ s c C f, I s → removeFirst CompareNearestCandidates s.C = some (c, C) →
      first s.W = some f → f.distance < c.distance → I { s with C := C })
    (step : ∀ s c C f, I s → removeFirst CompareNearestCandidates s.C = some (c, C) →
      first s.W = some f → c.distance ≤ f.distance →
      ∃ r, env.loadUnvisited c.element s.v = some r ∧
        ∃ s', r.1.foldlM (loadAndVisit env ef lc)
            { s with C := C, v := r.2, tuples := s.tuples + r.1.length } = some s' ∧
          I s' ∧ μ s' < μ s) :
    ∀ (n : Nat) (s : SearchState E K δ), I s → μ s < n →
      ∃ s', searchLoop env ef lc n s = some s' ∧ I s' ∧ Finished s'
  | 0, _, _, hn => absurd hn (Nat.not_lt_zero _)
  | n + 1, s, hI, hn => by
      cases hr : removeFirst CompareNearestCandidates s.C with
      | none =>
          refine ⟨s, ?_, hI, ?_⟩
          · simp only [searchLoop, hr]
            rfl
          · intro f _ c hc
            rw [(removeFirst_eq_none _).mp hr] at hc
            exact absurd hc List.not_mem_nil
      | some x =>
          obtain ⟨c, C⟩ := x
          cases hf : first s.W with
          | none =>
              refine ⟨s, ?_, hI, ?_⟩
              · simp only [searchLoop, hr, hf]
                rfl
              · intro f hf'
                rw [hf] at hf'
                cases hf'
          | some f =>
              by_cases hd : f.distance < c.distance
              · refine ⟨{ s with C := C }, ?_, hdrop s c C f hI hr hf hd, ?_⟩
                · simp only [searchLoop, hr, hf, if_pos hd]
                  rfl
                · intro f' hf' c' hc'
                  have e : f' = f := by
                    rw [hf] at hf'
                    exact (Option.some.inj hf').symm
                  subst e
                  have hmem : c' ∈ toList s.C :=
                    (removeFirst_perm _ hr).mem_iff.mpr (List.mem_cons_of_mem _ hc')
                  have hge := first_ge nearest_preorder (hC s hI) (removeFirst_first _ hr) c' hmem
                  exact lt_of_lt_of_le hd (ge_nearest.mp hge)
              · obtain ⟨r, hr1, s1, hs1, hI1, hμ⟩ := step s c C f hI hr hf (not_lt.mp hd)
                obtain ⟨s', hs', hI', hfin⟩ := searchLoop_rule hC hdrop step n s1 hI1 (by omega)
                refine ⟨s', ?_, hI', hfin⟩
                simp only [searchLoop, hr, hf, if_neg hd, hr1]
                exact (congrArg (Option.bind · (searchLoop env ef lc n)) hs1).trans hs'

end Rules

/-! ## 6. Good candidates -/

section Inv

variable {M : Type → Type} {E U K δ : Type} [LinearOrder δ]

/-- The candidates at hand are good (`P`), those of `W` are distinct by their keys, distinct from the
    entries `us` still to visit, and all of these are in the visited table. -/
structure LayerInv (P : HnswSearchCandidate E δ → Prop) (key : E → K) (ukey : U → K) (us : List U)
    (s : SearchState E K δ) : Prop where
  W_ne : s.W ≠ none
  heapC : HeapedH CompareNearestCandidates s.C
  goodC : ∀ c ∈ toList s.C, P c
  goodW : ∀ c ∈ toList s.W, P c
  nodup : ((toList s.W).map (fun c => key c.element) ++ us.map ukey).Nodup
  visited : ∀ k ∈ (toList s.W).map (fun c => key c.element) ++ us.map ukey, k ∈ s.v

variable {P P' : HnswSearchCandidate E δ → Prop} {key : E → K} {ukey : U → K} {us : List U}
  {s : SearchState E K δ}

theorem LayerInv.mono (h : LayerInv P key ukey us s) (hP : ∀ c, P c → P' c) :
    LayerInv P' key ukey us s :=
  { h with goodC := fun c hc => hP c (h.goodC c hc), goodW := fun c hc => hP c (h.goodW c hc) }

/-- An entry that was not loaded is forgotten. -/
theorem LayerInv.forget {u : U} (h : LayerInv P key ukey (u :: us) s) : LayerInv P key ukey us s := by
  have hsub : ((toList s.W).map (fun c => key c.element) ++ us.map ukey).Sublist
      ((toList s.W).map (fun c => key c.element) ++ (u :: us).map ukey) :=
    List.Sublist.append_left (List.sublist_cons_self _ _) _
  exact { h with nodup := h.nodup.sublist hsub, visited := fun k hk => h.visited k (hsub.subset hk) }

omit [LinearOrder δ] in
/-- The candidates of a heap grown by one good candidate are good. -/
theorem good_add {cmp : HnswSearchCandidate E δ → HnswSearchCandidate E δ → Int}
    {h : Heap (HnswSearchCandidate E δ)} {x : HnswSearchCandidate E δ} (hx : P x)
    (hh : ∀ c ∈ toList h, P c) : ∀ c ∈ toList (add cmp h x), P c := by
  intro c hc
  rcases List.mem_cons.mp ((add_perm cmp h x).mem_iff.mp hc) with rfl | hc
  · exact hx
  · exact hh c hc

/-- **Visiting keeps the invariant**, when the loaded element is good wherever it is on the layer. -/
theorem LayerInv.visit {env : SearchEnv M E U K δ} {ef lc : Nat} {u : U} {e : E} {d : δ}
    (h : LayerInv P key ukey (u :: us) s) (hk : key e = ukey u)
    (hP : lc ≤ env.level e → P ⟨e, d⟩) :
    LayerInv P key ukey us (Hnsw.visit env ef lc s (some e) d) := by
  obtain ⟨f, hf⟩ := Option.ne_none_iff_exists'.mp fun hn => h.W_ne (first_eq_none.mp hn)
  have hv := visit_cases env ef lc hf e d
  have hWne := hv.W_ne_none h.W_ne
  have hforget := h.forget
  generalize Hnsw.visit env ef lc s (some e) d = s' at hv hWne
  have hperm := add_perm CompareFurthestCandidates s.W ⟨e, d⟩
  -- the keys of `W` with the new candidate are those of `W` with its entry
  have hkeys : ((toList (add CompareFurthestCandidates s.W ⟨e, d⟩)).map (fun c => key c.element) ++
      us.map ukey).Perm ((toList s.W).map (fun c => key c.element) ++ (u :: us).map ukey) := by
    refine ((hperm.map _).append_right _).trans ?_
    simp only [List.map_cons, hk]
    exact List.perm_middle.symm
  cases hv with
  | discarded => exact { hforget with W_ne := h.W_ne }
  | ignored => exact hforget
  | added hl =>
      exact {
        W_ne := hWne
        heapC := add_heaped nearest_preorder h.heapC _
        goodC := good_add (hP hl) h.goodC
        goodW := good_add (hP hl) h.goodW
        nodup := hkeys.nodup_iff.mpr h.nodup
        visited := fun k hk => h.visited k (hkeys.mem_iff.mp hk) }
  | evicted hl hd x W hx =>
      have hrem := removeFirst_perm _ hx
      have hsub : ((toList W).map (fun c => key c.element) ++ us.map ukey).Subperm
          ((toList s.W).map (fun c => key c.element) ++ (u :: us).map ukey) := by
        refine List.Subperm.trans ?_ hkeys.subperm
        refine List.Subperm.trans ?_ ((hrem.map _).append_right _).symm.subperm
        simp only [List.map_cons, List.cons_append]
        exact (List.sublist_cons_self _ _).subperm
      exact {
        W_ne := hWne
        heapC := add_heaped nearest_preorder h.heapC _
        goodC := good_add (hP hl) h.goodC
        goodW := fun c hc => good_add (hP hl) h.goodW c
          (hrem.mem_iff.mpr (List.mem_cons_of_mem _ hc))
        nodup := by
          obtain ⟨l, hp, hl⟩ := hsub
          exact hp.nodup_iff.mp (h.nodup.sublist hl)
        visited := fun k hk => h.visited k (hsub.subset hk) }

/-- **Expanding a candidate keeps the invariant**: its unvisited neighbors become the entries to
    visit. -/
theorem LayerInv.expand [DecidableEq K] {l : List U} {C : Heap (HnswSearchCandidate E δ)}
    {c : HnswSearchCandidate E δ} (tuples : Nat) (h : LayerInv P key ukey ([] : List U) s)
    (hC : removeFirst CompareNearestCandidates s.C = some (c, C)) :
    LayerInv P key ukey (unvisitedOf ukey l s.v).1
      { s with C := C, v := (unvisitedOf ukey l s.v).2, tuples := tuples } := by
  obtain ⟨h1, h2, h3, _, _⟩ := unvisitedOf_spec ukey l s.v
  have hW : ∀ k ∈ (toList s.W).map fun c => key c.element, k ∈ s.v := fun k hk =>
    h.visited k (by simpa using hk)
  exact {
    W_ne := h.W_ne
    heapC := removeFirst_heaped nearest_preorder h.heapC hC
    goodC := fun x hx => h.goodC x ((removeFirst_perm _ hC).mem_iff.mpr (List.mem_cons_of_mem _ hx))
    goodW := h.goodW
    nodup := by
      have hn : ((toList s.W).map fun c => key c.element).Nodup := by simpa using h.nodup
      refine List.nodup_append.mpr ⟨hn, h2, ?_⟩
      rintro a ha b hb rfl
      obtain ⟨u, hu, rfl⟩ := List.mem_map.mp hb
      exact h3 u hu (hW _ ha)
    visited := by
      intro k hk
      show k ∈ (unvisitedOf ukey l s.v).2
      rw [h1]
      rcases List.mem_append.mp hk with hk | hk
      · exact List.mem_append_right _ (hW k hk)
      · exact List.mem_append_left _ (List.mem_reverse.mpr hk) }

variable [DecidableEq K] {env : SearchEnv M E U K δ}

/-- What the entry points `ep` leave in the local variables. -/
structure Started (env : SearchEnv M E U K δ) (iv : Bool) (ep : List (HnswSearchCandidate E δ))
    (s s' : SearchState E K δ) : Prop where
  C : (toList s'.C).Perm (ep ++ toList s.C)
  W : (toList s'.W).Perm (ep ++ toList s.W)
  heapC : HeapedH CompareNearestCandidates s.C → HeapedH CompareNearestCandidates s'.C
  heapW : HeapedH CompareFurthestCandidates s.W → HeapedH CompareFurthestCandidates s'.W
  discarded : s'.discarded = s.discarded
  kept : iv = false → s'.v = s.v
  visited : iv = true → ∀ k, k ∈ s'.v ↔ k ∈ s.v ∨ ∃ c ∈ ep, env.visitedKey c.element = k
  nodup : s.v.Nodup → s'.v.Nodup

theorem mem_hashInsert {v : List K} {k x : K} : x ∈ (hashInsert v k).1 ↔ x ∈ v ∨ k = x := by
  unfold hashInsert
  split
  · rename_i hin
    exact ⟨Or.inl, fun h => h.elim id fun e => e ▸ hin⟩
  · rw [List.mem_cons, or_comm, eq_comm]

theorem hashInsert_nodup {v : List K} {k : K} (h : v.Nodup) : (hashInsert v k).1.Nodup := by
  unfold hashInsert
  split
  · exact h
  · rename_i hnot
    exact List.nodup_cons.mpr ⟨hnot, h⟩

/-- One more entry point in front. -/
theorem Started.cons {iv : Bool} {c : HnswSearchCandidate E δ} {ep : List (HnswSearchCandidate E δ)}
    {s s' : SearchState E K δ} (h : Started env iv ep (addEntry env iv s c) s') :
    Started env iv (c :: ep) s s' where
  C := (h.C.trans ((add_perm _ _ _).append_left ep)).trans List.perm_middle
  W := (h.W.trans ((add_perm _ _ _).append_left ep)).trans List.perm_middle
  heapC hs := h.heapC (add_heaped nearest_preorder hs _)
  heapW hs := h.heapW (add_heaped furthest_preorder hs _)
  discarded := h.discarded
  kept e := by
    rw [h.kept e]
    subst e
    rfl
  visited e k := by
    rw [h.visited e k]
    subst e
    show k ∈ (hashInsert s.v (env.visitedKey c.element)).1 ∨ _ ↔ _
    rw [mem_hashInsert]
    simp only [List.mem_cons, exists_eq_or_imp]
    tauto
  nodup hs := by
    refine h.nodup ?_
    simp only [addEntry]
    split
    · exact hashInsert_nodup hs
    · exact hs

theorem started_foldl (iv : Bool) : ∀ (ep : List (HnswSearchCandidate E δ)) (s : SearchState E K δ),
    Started env iv ep s (ep.foldl (addEntry env iv) s)
  | [], _ => ⟨.refl _, .refl _, id, id, rfl, fun _ => rfl, fun _ => by simp, id⟩
  | c :: ep, s => (started_foldl iv ep (addEntry env iv s c)).cons

section Start

variable {ep : List (HnswSearchCandidate E δ)} {d : Option (Heap (HnswSearchCandidate E δ))}
  {v : List K} {iv : Bool} {tuples : Nat}

/-- `C` and `W` hold the entry points. -/
theorem searchStart_perm (env : SearchEnv M E U K δ) (ep : List (HnswSearchCandidate E δ)) (v : List K)
    (d : Option (Heap (HnswSearchCandidate E δ))) (iv : Bool) (tuples : Nat) :
    (toList (searchStart env ep v d iv tuples).C).Perm ep ∧
    (toList (searchStart env ep v d iv tuples).W).Perm ep := by
  have h := @started_foldl M E U K δ _ _ env iv ep
    { C := none, W := none, wlen := 0, v := if iv then [] else v
      discarded := if iv then d.map fun _ => none else d, tuples := tuples }
  have hC := h.C
  have hW := h.W
  rw [toList_none, List.append_nil] at hC hW
  exact ⟨hC, hW⟩

theorem searchStart_heaped : HeapedH CompareNearestCandidates (searchStart env ep v d iv tuples).C ∧
    HeapedH CompareFurthestCandidates (searchStart env ep v d iv tuples).W :=
  have h := started_foldl iv ep
    { C := none, W := none, wlen := 0, v := if iv then [] else v
      discarded := if iv then d.map fun _ => none else d, tuples := tuples }
  ⟨h.heapC heapedH_none, h.heapW heapedH_none⟩

theorem searchStart_discarded : (searchStart env ep v d iv tuples).discarded =
    if iv then d.map fun _ => none else d :=
  (started_foldl iv ep _).discarded

/-- A resumed search keeps the visited table. -/
theorem searchStart_kept : (searchStart env ep v d false tuples).v = v :=
  (started_foldl false ep _).kept rfl

/-- A new search has visited its entry points. -/
theorem mem_searchStart {k : K} : k ∈ (searchStart env ep v d true tuples).v ↔
    ∃ c ∈ ep, env.visitedKey c.element = k := by
  refine ((started_foldl true ep _).visited rfl k).trans ?_
  simp

theorem searchStart_nodup : (searchStart env ep v d true tuples).v.Nodup :=
  (started_foldl true ep _).nodup List.nodup_nil

theorem searchStart_W_ne (hne : ep ≠ []) : (searchStart env ep v d iv tuples).W ≠ none := by
  intro hn
  have h := (searchStart_perm env ep v d iv tuples).2
  rw [hn] at h
  exact hne (List.nil_perm.mp h)

end Start

/-- The search starts in the invariant. -/
theorem layerInv_start {ep : List (HnswSearchCandidate E δ)}
    {d : Option (Heap (HnswSearchCandidate E δ))} {v : List K} {tuples : Nat} (hne : ep ≠ [])
    (hP : ∀ c ∈ ep, P c) (hnd : (ep.map fun c => env.visitedKey c.element).Nodup) :
    LayerInv P env.visitedKey ukey ([] : List U) (searchStart env ep v d true tuples) := by
  obtain ⟨h1, h2⟩ := searchStart_perm env ep v d true tuples
  exact {
    W_ne := searchStart_W_ne hne
    heapC := searchStart_heaped.1
    goodC := fun c hc => hP c (h1.mem_iff.mp hc)
    goodW := fun c hc => hP c (h2.mem_iff.mp hc)
    nodup := by
      rw [List.map_nil, List.append_nil]
      exact (h2.map _).nodup_iff.mpr hnd
    visited := by
      intro k hk
      rw [List.map_nil, List.append_nil] at hk
      obtain ⟨c, hc, rfl⟩ := List.mem_map.mp hk
      exact mem_searchStart.mpr ⟨c, h2.mem_iff.mp hc, rfl⟩ }

omit [DecidableEq K] in
/-- The list given back: good, distinct, not empty. -/
theorem LayerInv.result (h : LayerInv P key ukey ([] : List U) s) :
    (searchEnd s).w ≠ [] ∧ (∀ c ∈ (searchEnd s).w, P c) ∧
      ((searchEnd s).w.map fun c => key c.element).Nodup := by
  have hp := searchEnd_perm s
  refine ⟨fun hn => ?_, fun c hc => h.goodW c (hp.mem_iff.mp hc), ?_⟩
  · rw [hn] at hp
    exact h.W_ne (toList_eq_nil.mp (List.nil_perm.mp hp))
  · have hn : ((toList s.W).map fun c => key c.element).Nodup := by simpa using h.nodup
    exact (hp.map _).nodup_iff.mpr hn

end Inv

section Total

variable {E U K δ : Type} [LinearOrder δ] [DecidableEq K] {env : SearchEnv Option E U K δ}
  {P : HnswSearchCandidate E δ → Prop} {ukey : U → K} {S : Finset K} {ef lc : Nat}

/-- What a search may still do: candidates to expand, and keys to visit. -/
def remaining (S : Finset K) (s : SearchState E K δ) : Nat :=
  (toList s.C).length + (S \ s.v.toFinset).card

/-- **A search that can load what it meets ends**, and gives good candidates with distinct keys. -/
theorem searchLayer_total (ef : Nat) {good : U → Prop} (hS : ∀ u, good u → ukey u ∈ S)
    (hload : ∀ u md, good u → ∃ r, env.loadElement u md = some r ∧
      ∀ e, r.1 = some e → env.visitedKey e = ukey u ∧ (lc ≤ env.level e → P ⟨e, r.2⟩))
    (hunv : ∀ c v, P c → ∃ l, (∀ u ∈ l, good u) ∧
      env.loadUnvisited c.element v = some (unvisitedOf ukey l v))
    {ep : List (HnswSearchCandidate E δ)} (hne : ep ≠ []) (hP : ∀ c ∈ ep, P c)
    (hnd : (ep.map fun c => env.visitedKey c.element).Nodup) {n : Nat}
    (hn : ep.length + S.card < n) :
    ∃ r, HnswSearchLayer env ep ef lc [] none true 0 n = some r ∧ r.w ≠ [] ∧ (∀ c ∈ r.w, P c) ∧
      (r.w.map fun c => env.visitedKey c.element).Nodup := by
  have h0 : LayerInv P env.visitedKey ukey ([] : List U) (searchStart env ep [] none true 0) :=
    layerInv_start hne hP hnd
  have hμ : remaining S (searchStart env ep [] none true 0) < n := by
    have hC := (searchStart_perm env ep [] none true 0).1.length_eq
    have hcard := Finset.card_le_card (Finset.sdiff_subset (s := S)
      (t := (searchStart env ep [] none true 0).v.toFinset))
    unfold remaining
    omega
  obtain ⟨s', hs', hI, _⟩ := searchLoop_rule
    (I := LayerInv P env.visitedKey ukey ([] : List U)) (μ := remaining S)
    (fun s h => h.heapC)
    (fun s c C f h hC _ _ => by
      exact { h with
        heapC := removeFirst_heaped nearest_preorder h.heapC hC
        goodC := fun x hx => h.goodC x
          ((removeFirst_perm _ hC).mem_iff.mpr (List.mem_cons_of_mem _ hx)) })
    (fun s c C f h hC _ _ => by
      have hc : c ∈ toList s.C := (removeFirst_perm _ hC).mem_iff.mpr List.mem_cons_self
      obtain ⟨l, hl, hr⟩ := hunv c s.v (h.goodC c hc)
      refine ⟨_, hr, ?_⟩
      have hlen := (removeFirst_perm _ hC).length_eq
      have hcard := card_unvisited ukey (v := s.v) (fun u hu => hS u (hl u hu))
      have hgood := (unvisitedOf_spec ukey l s.v).2.2.2.1
      -- each visited entry adds at most one candidate
      obtain ⟨s', hs', hI', hv', hlen', _⟩ := foldl_visit_rule env
        (I := fun us s' => LayerInv P env.visitedKey ukey us s' ∧ s'.v = (unvisitedOf ukey l s.v).2 ∧
          (toList s'.C).length + us.length ≤ (toList C).length + (unvisitedOf ukey l s.v).1.length ∧
          ∀ u ∈ us, good u)
        (fun u us s1 ⟨h1, h2, h3, h4⟩ => by
          obtain ⟨r, hr1, hr2⟩ := hload u (maxDistance ef s1) (h4 u List.mem_cons_self)
          refine ⟨r, hr1, ?_⟩
          have h4' : ∀ x ∈ us, good x := fun x hx => h4 x (List.mem_cons_of_mem _ hx)
          simp only [List.length_cons] at h3
          obtain ⟨eo, d⟩ := r
          cases eo with
          | none =>
              rw [visit_none]
              exact ⟨h1.forget, h2, by omega, h4'⟩
          | some e =>
              obtain ⟨hk, hPe⟩ := hr2 e rfl
              obtain ⟨f', hf'⟩ := Option.ne_none_iff_exists'.mp
                fun hn => h1.W_ne (first_eq_none.mp hn)
              have hv := visit_cases env ef lc hf' e d
              have := hv.C_length
              exact ⟨h1.visit hk hPe, hv.v_eq.trans h2, by simp only; omega, h4'⟩)
        (unvisitedOf ukey l s.v).1 _
        ⟨h.expand (s.tuples + (unvisitedOf ukey l s.v).1.length) hC, rfl, Nat.le_refl _,
          fun u hu => hl u (hgood u hu)⟩
      refine ⟨s', hs', hI', ?_⟩
      unfold remaining
      rw [hv']
      simp only [List.length_cons, List.length_nil, Nat.add_zero] at hlen hlen'
      omega) n _ h0 hμ
  refine ⟨searchEnd s', ?_, hI.result⟩
  unfold HnswSearchLayer
  rw [hs']
  rfl

end Total

end Pgvec.Hnsw
