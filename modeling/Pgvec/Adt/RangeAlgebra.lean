/-
  File:      Pgvec/Adt/RangeAlgebra.lean
  Subject:   THE OPERATORS ON TWO RANGES of a dense order without ends, as operations and relations on sets.

  * `points_ordConnected` -- the values of a range leave no value out between two of them;
  * **`range_tests`** -- what the comparison operators test for;
  * **`range_operators`** -- what the set operators return, and when they raise an error.
-/
import Pgvec.Adt.RangeOpsFacts

namespace Pgvec.RangeOps

open Cuts

variable {α : Type} [LinearOrder α] {tc : TypeCacheEntry α} {r s t : RangeType α} {x : α}

/-! ## 1. The sets of ranges -/

theorem points_ordConnected : r.points.OrdConnected := by
  refine ⟨fun x hx y hy z hz => ?_⟩
  obtain ⟨hx1, _⟩ := mem_points.mp hx
  obtain ⟨_, hy2⟩ := mem_points.mp hy
  exact mem_points.mpr ⟨hx1.trans (below_le_below.mpr hz.1), (below_le_below.mpr hz.2).trans_lt hy2⟩

theorem points_of_isEmpty (h : r.isEmpty = true) : r.points = ∅ := by
  ext x
  rw [mem_points]
  exact iff_of_false (fun hx => isEmpty_iff_not_lt.mp h (hx.1.trans_lt hx.2)) (Set.notMem_empty x)

/-- A range with the cuts of another set of values has them. -/
theorem points_eq {A : Set α} (h : ∀ x, (t.lo ≤ below x ∧ below x < t.hi) ↔ x ∈ A) : t.points = A := by
  ext x
  rw [mem_points, h]

/-- What is left of a range has the values that are not in the other one. -/
theorem Rest.points (h : Rest r s t) : t.points = r.points \ s.points := by
  refine points_eq fun x => ?_
  rw [Set.mem_sdiff, mem_points, mem_points]
  cases h with
  | apart h ht =>
      subst ht
      refine ⟨fun hx => ⟨hx, fun hxs => ?_⟩, And.left⟩
      rcases h with h | h
      · exact absurd hx.2 (not_lt.mpr (h.trans hxs.1))
      · exact absurd hxs.2 (not_lt.mpr (h.trans hx.1))
  | nothing h h' ht =>
      refine iff_of_false (fun hx => isEmpty_iff_not_lt.mp ht (hx.1.trans_lt hx.2)) fun hx => ?_
      exact hx.2 ⟨h.trans hx.1.1, hx.1.2.trans_le h'⟩
  | left h hm h' ht lo hi =>
      rw [lo, hi]
      exact ⟨fun hx => ⟨⟨hx.1, hx.2.trans hm⟩, fun hxs => absurd hx.2 (not_lt.mpr hxs.1)⟩,
        fun hx => ⟨hx.1.1, not_le.mp fun hle => hx.2 ⟨hle, hx.1.2.trans_le h'⟩⟩⟩
  | right h hm h' ht lo hi =>
      rw [lo, hi]
      exact ⟨fun hx => ⟨⟨hm.le.trans hx.1, hx.2⟩, fun hxs => absurd hxs.2 (not_lt.mpr hx.1)⟩,
        fun hx => ⟨not_lt.mp fun hlt => hx.2 ⟨h.trans hx.1.1, hlt⟩, hx.1.2⟩⟩

variable [Nonempty α] [DenselyOrdered α] [NoMinOrder α] [NoMaxOrder α]

theorem nonempty_points_iff : r.points.Nonempty ↔ r.isEmpty = false := by
  constructor
  · intro h
    rw [← Bool.not_eq_true]
    intro he
    rw [points_of_isEmpty he] at h
    exact absurd h Set.not_nonempty_empty
  · intro h
    obtain ⟨x, hx⟩ := exists_below (lo_lt_hi h)
    exact ⟨x, mem_points.mpr hx⟩

/-- Inclusion, by the cuts. -/
theorem subset_iff (hs : s.isEmpty = false) :
    s.points ⊆ r.points ↔ r.lo ≤ s.lo ∧ s.hi ≤ r.hi := by
  constructor
  · intro h
    constructor
    · by_contra hlt
      obtain ⟨x, h1, h2⟩ := exists_below (lt_min (lo_lt_hi hs) (not_le.mp hlt))
      obtain ⟨h2, h3⟩ := lt_min_iff.mp h2
      exact absurd (mem_points.mp (h (mem_points.mpr ⟨h1, h2⟩))).1 (not_le.mpr h3)
    · by_contra hlt
      obtain ⟨x, h1, h2⟩ := exists_below (max_lt (lo_lt_hi hs) (not_le.mp hlt))
      obtain ⟨h1, h3⟩ := max_le_iff.mp h1
      exact absurd (mem_points.mp (h (mem_points.mpr ⟨h1, h2⟩))).2 (not_lt.mpr h3)
  · intro ⟨h1, h2⟩ x hx
    obtain ⟨h3, h4⟩ := mem_points.mp hx
    exact mem_points.mpr ⟨h1.trans h3, h4.trans_le h2⟩

/-- A common value, by the cuts. -/
theorem inter_nonempty_iff (hr : r.isEmpty = false) (hs : s.isEmpty = false) :
    (r.points ∩ s.points).Nonempty ↔ r.lo < s.hi ∧ s.lo < r.hi := by
  constructor
  · rintro ⟨x, hx, hy⟩
    obtain ⟨h1, h2⟩ := mem_points.mp hx
    obtain ⟨h3, h4⟩ := mem_points.mp hy
    exact ⟨h1.trans_lt h4, h3.trans_lt h2⟩
  · intro ⟨h1, h2⟩
    obtain ⟨x, hx1, hx2⟩ := exists_below (max_lt (lt_min (lo_lt_hi hr) h1) (lt_min h2 (lo_lt_hi hs)))
    obtain ⟨hx1, hx3⟩ := max_le_iff.mp hx1
    obtain ⟨hx2, hx4⟩ := lt_min_iff.mp hx2
    exact ⟨x, mem_points.mpr ⟨hx1, hx2⟩, mem_points.mpr ⟨hx3, hx4⟩⟩

/-- Where the values of a range begin and end. -/
theorem points_ends (hr : r.isEmpty = false) : Ends r.points r.lo r.hi := by
  refine ⟨fun x hx => mem_points.mp hx, fun c hc => ?_, fun c hc => ?_⟩
  · obtain ⟨x, h1, h2⟩ := exists_below (lt_min (lo_lt_hi hr) hc)
    obtain ⟨h2, h3⟩ := lt_min_iff.mp h2
    exact ⟨x, mem_points.mpr ⟨h1, h2⟩, h3⟩
  · obtain ⟨x, h1, h2⟩ := exists_below (max_lt (lo_lt_hi hr) hc)
    obtain ⟨h1, h3⟩ := max_le_iff.mp h1
    exact ⟨x, mem_points.mpr ⟨h1, h2⟩, h3⟩

/-- Behind a gap there is no way on inside the union. -/
theorem not_ordConnected_of_gap {A : Set α} (hr : r.isEmpty = false) (hs : s.isEmpty = false) (hrA : r.points ⊆ A)
    (hsA : s.points ⊆ A) {c d : Cut α} (hc : r.hi ≤ c) (hcd : c < d) (hd : d ≤ s.lo)
    (hout : ∀ z, c ≤ below z → below z < d → z ∉ A) : ¬ A.OrdConnected := by
  intro h
  obtain ⟨x, hx⟩ := nonempty_points_iff.mpr hr
  obtain ⟨y, hy⟩ := nonempty_points_iff.mpr hs
  obtain ⟨z, h1, h2⟩ := exists_below hcd
  refine hout z h1 h2 (h.out (hrA hx) (hsA hy) ⟨?_, ?_⟩)
  · exact (below_lt_below.mp ((mem_points.mp hx).2.trans_le (hc.trans h1))).le
  · exact (below_lt_below.mp ((h2.trans_le hd).trans_le (mem_points.mp hy).1)).le

/-- The union of two ranges leaves nothing out when they overlap or touch. -/
theorem union_ordConnected_iff (hr : r.isEmpty = false) (hs : s.isEmpty = false) :
    (r.points ∪ s.points).OrdConnected ↔ r.lo ≤ s.hi ∧ s.lo ≤ r.hi := by
  constructor
  · intro h
    constructor
    · by_contra hlt
      refine not_ordConnected_of_gap hs hr Set.subset_union_right Set.subset_union_left le_rfl (not_le.mp hlt) le_rfl
        (fun z h1 h2 hz => ?_) h
      rcases hz with hz | hz
      · exact absurd (mem_points.mp hz).1 (not_le.mpr h2)
      · exact absurd (mem_points.mp hz).2 (not_lt.mpr h1)
    · by_contra hlt
      refine not_ordConnected_of_gap hr hs Set.subset_union_left Set.subset_union_right le_rfl (not_le.mp hlt) le_rfl
        (fun z h1 h2 hz => ?_) h
      rcases hz with hz | hz
      · exact absurd (mem_points.mp hz).2 (not_lt.mpr h1)
      · exact absurd (mem_points.mp hz).1 (not_le.mpr h2)
  · intro ⟨h1, h2⟩
    refine ⟨fun x hx y hy z hz => ?_⟩
    have hxz := below_le_below.mpr hz.1
    have hzy := below_le_below.mpr hz.2
    simp only [Set.mem_union, mem_points] at hx hy ⊢
    rcases hx with hx | hx
    · rcases hy with hy | hy
      · exact .inl ⟨hx.1.trans hxz, hzy.trans_lt hy.2⟩
      · rcases lt_or_ge (below z) r.hi with h | h
        · exact .inl ⟨hx.1.trans hxz, h⟩
        · exact .inr ⟨h2.trans h, hzy.trans_lt hy.2⟩
    · rcases hy with hy | hy
      · rcases lt_or_ge (below z) s.hi with h | h
        · exact .inr ⟨hx.1.trans hxz, h⟩
        · exact .inl ⟨h1.trans h, hzy.trans_lt hy.2⟩
      · exact .inr ⟨hx.1.trans hxz, hzy.trans_lt hy.2⟩

/-! ## 2. Comparison operators -/

theorem eq_iff (tc : TypeCacheEntry α) : range_eq_internal tc r s = true ↔ r.points = s.points := by
  cases hr : r.isEmpty with
  | true =>
      have hre : r = .empty := eq_empty hr
      subst hre
      rw [points_of_isEmpty hr]
      cases s with
      | empty => simp [range_eq_internal, RangeType.points]
      | bounds lower upper st =>
          have hne := nonempty_points_iff.mpr (show (RangeType.bounds lower upper st).isEmpty = false from rfl)
          exact iff_of_false (by simp [range_eq_internal]) hne.ne_empty.symm
  | false =>
      cases hs : s.isEmpty with
      | true =>
          have hse : s = .empty := eq_empty hs
          subst hse
          obtain ⟨l1, u1, h1, rfl⟩ := exists_bounds hr
          have hne := nonempty_points_iff.mpr hr
          exact iff_of_false (by simp [range_eq_internal]) (by rw [points_of_isEmpty hs]; exact hne.ne_empty)
      | false =>
          rw [Set.Subset.antisymm_iff, subset_iff hr, subset_iff hs]
          obtain ⟨l1, u1, h1, rfl⟩ := exists_bounds hr
          obtain ⟨l2, u2, h2, rfl⟩ := exists_bounds hs
          have e1 := cmp_same_zero tc (h1.lower_side.trans h2.lower_side.symm)
          have e2 := cmp_same_zero tc (h1.upper_side.trans h2.upper_side.symm)
          simp only [range_eq_internal, ne_eq, e1, e2, lo_bounds, hi_bounds]
          by_cases hl : l1.cut = l2.cut
          · by_cases hu : u1.cut = u2.cut
            · simp [hl, hu]
            · rw [if_neg (not_not.mpr hl), if_pos hu]
              exact iff_of_false (by simp) fun h => hu (le_antisymm h.1.2 h.2.2)
          · rw [if_pos hl]
            exact iff_of_false (by simp) fun h => hl (le_antisymm h.2.1 h.1.1)

theorem contains_iff (tc : TypeCacheEntry α) : range_contains_internal tc r s = true ↔ s.points ⊆ r.points := by
  cases hs : s.isEmpty with
  | true =>
      have hse : s = .empty := eq_empty hs
      subst hse
      exact iff_of_true (by cases r <;> rfl) (by simp [points_of_isEmpty hs])
  | false =>
      cases hr : r.isEmpty with
      | true =>
          have hre : r = .empty := eq_empty hr
          subst hre
          obtain ⟨l2, u2, h2, rfl⟩ := exists_bounds hs
          have hne := nonempty_points_iff.mpr hs
          refine iff_of_false (by simp [range_contains_internal]) fun h => ?_
          rw [points_of_isEmpty hr, Set.subset_empty_iff] at h
          exact hne.ne_empty h
      | false =>
          rw [subset_iff hs]
          obtain ⟨l1, u1, h1, rfl⟩ := exists_bounds hr
          obtain ⟨l2, u2, h2, rfl⟩ := exists_bounds hs
          have e1 := cmp_same_pos tc (h1.lower_side.trans h2.lower_side.symm)
          have e2 := cmp_same_neg tc (h1.upper_side.trans h2.upper_side.symm)
          simp only [range_contains_internal, e1, e2, lo_bounds, hi_bounds]
          by_cases hl : l2.cut < l1.cut
          · rw [if_pos hl]
            exact iff_of_false (by simp) fun h => absurd hl (not_lt.mpr h.1)
          · rw [if_neg hl]
            by_cases hu : u1.cut < u2.cut
            · rw [if_pos hu]
              exact iff_of_false (by simp) fun h => absurd hu (not_lt.mpr h.2)
            · rw [if_neg hu]
              exact iff_of_true rfl ⟨not_lt.mp hl, not_lt.mp hu⟩

/-- What a test that fails on empty ranges, and tells of others how their cuts stand, tells of their values. -/
theorem test_iff {p : Prop} (test : RangeType α → RangeType α → Bool) (hl : ∀ s, test .empty s = false)
    (hr : ∀ r, test r .empty = false)
    (h : r.isEmpty = false → s.isEmpty = false → (test r s = true ↔ p)) :
    test r s = true ↔ r.points.Nonempty ∧ s.points.Nonempty ∧ p := by
  rw [nonempty_points_iff, nonempty_points_iff]
  cases he : r.isEmpty with
  | true =>
      have hre : r = .empty := eq_empty he
      subst hre
      simp [hl]
  | false =>
      cases hf : s.isEmpty with
      | true =>
          have hse : s = .empty := eq_empty hf
          subst hse
          simp [hr]
      | false => simp [h he hf]

/-- **The comparison operators** on two ranges: `=`, `@>`, `&&`, `<<`, `>>`, `&<`, `&>` and `-|-`. -/
theorem range_tests (tc : TypeCacheEntry α) (r s : RangeType α) :
    (range_eq_internal tc r s = true ↔ r.points = s.points) ∧
    (range_contains_internal tc r s = true ↔ s.points ⊆ r.points) ∧
    (range_overlaps_internal tc r s = true ↔ (r.points ∩ s.points).Nonempty) ∧
    (range_before_internal tc r s = true ↔
      r.points.Nonempty ∧ s.points.Nonempty ∧ ∀ x ∈ r.points, ∀ y ∈ s.points, x < y) ∧
    (range_after_internal tc r s = true ↔
      r.points.Nonempty ∧ s.points.Nonempty ∧ ∀ x ∈ r.points, ∀ y ∈ s.points, y < x) ∧
    (range_overleft_internal tc r s = true ↔
      r.points.Nonempty ∧ s.points.Nonempty ∧ ∀ x ∈ r.points, ∃ y ∈ s.points, x ≤ y) ∧
    (range_overright_internal tc r s = true ↔
      r.points.Nonempty ∧ s.points.Nonempty ∧ ∀ x ∈ r.points, ∃ y ∈ s.points, y ≤ x) ∧
    (range_adjacent_internal tc r s = true ↔ r.points.Nonempty ∧ s.points.Nonempty ∧
      Disjoint r.points s.points ∧ (r.points ∪ s.points).OrdConnected) := by
  refine ⟨eq_iff tc, contains_iff tc, ?_, ?_, ?_, ?_, ?_, ?_⟩
  · have h := test_iff (r := r) (s := s) (range_overlaps_internal tc) (fun _ => rfl)
      (fun r => by cases r <;> rfl) fun hr hs => (overlaps_iff tc hr hs).trans (inter_nonempty_iff hr hs).symm
    exact h.trans ⟨fun h => h.2.2, fun h => ⟨h.left, h.right, h⟩⟩
  · exact test_iff _ (fun _ => rfl) (fun r => by cases r <;> rfl) fun hr hs =>
      (before_iff tc hr hs).trans ((points_ends hr).before_iff (points_ends hs))
  · refine test_iff _ (fun _ => rfl) (fun r => by cases r <;> rfl) fun hr hs => ?_
    refine (after_iff tc hr hs).trans (((points_ends hs).before_iff (points_ends hr)).trans ?_)
    exact ⟨fun h x hx y hy => h y hy x hx, fun h x hx y hy => h y hy x hx⟩
  · exact test_iff _ (fun _ => rfl) (fun r => by cases r <;> rfl) fun hr hs =>
      (overleft_iff tc hr hs).trans ((points_ends hr).overleft_iff (points_ends hs))
  · exact test_iff _ (fun _ => rfl) (fun r => by cases r <;> rfl) fun hr hs =>
      (overright_iff tc hr hs).trans ((points_ends hr).overright_iff (points_ends hs))
  · refine test_iff _ (fun _ => rfl) (fun r => by cases r <;> rfl) fun hr hs => ?_
    rw [adjacent_iff tc hr hs, union_ordConnected_iff hr hs, Set.disjoint_iff_inter_eq_empty,
      ← Set.not_nonempty_iff_eq_empty, inter_nonempty_iff hr hs]
    have h1 := lo_lt_hi hr
    have h2 := lo_lt_hi hs
    constructor
    · intro h
      rcases h with h | h
      · exact ⟨fun hov => absurd hov.2 (not_lt.mpr h.le), h1.le.trans (h.le.trans h2.le), h.ge⟩
      · exact ⟨fun hov => absurd hov.1 (not_lt.mpr h.le), h.ge, h2.le.trans (h.le.trans h1.le)⟩
    · intro h
      obtain ⟨hno, h3, h4⟩ := h
      rcases lt_or_ge r.lo s.hi with h5 | h5
      · exact .inl (le_antisymm (not_lt.mp fun h6 => hno ⟨h5, h6⟩) h4)
      · exact .inr (le_antisymm h5 h3)

/-- `[1, 3)` and `[3, )` are adjacent. -/
theorem range_tests_numrange : range_adjacent_internal numrange
    (.bounds ⟨some 1, true, true⟩ ⟨some 3, false, false⟩ ⟨rfl, rfl, by simp, by simp, by simp⟩)
    (.bounds ⟨some 3, true, true⟩ ⟨none, false, false⟩ ⟨rfl, rfl, by simp, by simp, by simp⟩) = true := by
  obtain ⟨_, _, _, _, _, _, _, hadjacent⟩ := range_tests numrange
    (.bounds ⟨some 1, true, true⟩ ⟨some 3, false, false⟩ ⟨rfl, rfl, by simp, by simp, by simp⟩)
    (.bounds ⟨some 3, true, true⟩ ⟨none, false, false⟩ ⟨rfl, rfl, by simp, by simp, by simp⟩)
  refine hadjacent.mpr ⟨⟨1, ?_⟩, ⟨3, ?_⟩, ?_, ?_⟩
  · simp [RangeType.points, RangeBound.Admits]
  · simp [RangeType.points, RangeBound.Admits]
  · rw [Set.disjoint_left]
    intro x h1 h2
    simp [RangeType.points, RangeBound.Admits] at h1 h2
    grind
  · refine ⟨fun x hx y hy z hz => ?_⟩
    simp [RangeType.points, RangeBound.Admits] at hx hy hz ⊢
    grind

/-! ## 3. Set operators -/

/-- With a range taken from the middle there are values left on both sides of it. -/
theorem sdiff_not_ordConnected (hs : s.isEmpty = false) (h1 : r.lo < s.lo) (h2 : s.hi < r.hi) :
    ¬ (r.points \ s.points).OrdConnected := by
  intro h
  have hlt := lo_lt_hi hs
  obtain ⟨x, hx1, hx2⟩ := exists_below h1
  obtain ⟨y, hy1, hy2⟩ := exists_below h2
  obtain ⟨z, hz1, hz2⟩ := exists_below hlt
  have hx : x ∈ r.points \ s.points :=
    ⟨mem_points.mpr ⟨hx1, hx2.trans (hlt.trans h2)⟩, fun hxs => absurd (mem_points.mp hxs).1 (not_le.mpr hx2)⟩
  have hy : y ∈ r.points \ s.points :=
    ⟨mem_points.mpr ⟨(h1.trans hlt).le.trans hy1, hy2⟩, fun hys => absurd (mem_points.mp hys).2 (not_lt.mpr hy1)⟩
  have hxz : x ≤ z := (below_lt_below.mp (hx2.trans_le hz1)).le
  have hzy : z ≤ y := (below_lt_below.mp (hz2.trans_le hy1)).le
  exact (h.out hx hy ⟨hxz, hzy⟩).2 (mem_points.mpr ⟨hz1, hz2⟩)

/-- `range_minus` on ranges that need not hold any value. -/
theorem minus_iff (tc : TypeCacheEntry α) (r s : RangeType α) :
    ((r.points \ s.points).OrdConnected ∧ ∃ t, range_minus_internal tc r s = .ok t ∧
      t.points = r.points \ s.points) ∨
    (¬ (r.points \ s.points).OrdConnected ∧ range_minus_internal tc r s =
      .error (.error "result of range difference would not be contiguous")) := by
  cases hr : r.isEmpty with
  | true =>
      have hre : r = .empty := eq_empty hr
      subst hre
      have hset : (RangeType.empty : RangeType α).points \ s.points = (RangeType.empty : RangeType α).points := by
        simp [RangeType.points]
      exact .inl ⟨by rw [hset]; exact points_ordConnected, _, rfl, hset.symm⟩
  | false =>
      cases hs : s.isEmpty with
      | true =>
          have hse : s = .empty := eq_empty hs
          subst hse
          have hset : r.points \ (RangeType.empty : RangeType α).points = r.points := by simp [RangeType.points]
          exact .inl ⟨by rw [hset]; exact points_ordConnected, r, by cases r <;> rfl, hset.symm⟩
      | false =>
          rcases minus_spec tc hr hs with ⟨h1, h2, hrun⟩ | ⟨_, t, hrun, hrest⟩
          · exact .inr ⟨sdiff_not_ordConnected hs h1 h2, hrun⟩
          · exact .inl ⟨hrest.points ▸ points_ordConnected, t, hrun, hrest.points⟩

/-- The range from the lower of the beginnings to the higher of the ends is the least one over both. -/
theorem merged_least (hr : r.isEmpty = false) (hs : s.isEmpty = false) (hlo : t.lo = min r.lo s.lo)
    (hhi : t.hi = max r.hi s.hi) : r.points ⊆ t.points ∧ s.points ⊆ t.points ∧
      ∀ A : Set α, A.OrdConnected → r.points ⊆ A → s.points ⊆ A → t.points ⊆ A := by
  refine ⟨fun x hx => ?_, fun x hx => ?_, fun A hA hrA hsA x hx => ?_⟩
  · obtain ⟨h1, h2⟩ := mem_points.mp hx
    exact mem_points.mpr ⟨hlo ▸ (min_le_left _ _).trans h1, hhi ▸ h2.trans_le (le_max_left _ _)⟩
  · obtain ⟨h1, h2⟩ := mem_points.mp hx
    exact mem_points.mpr ⟨hlo ▸ (min_le_right _ _).trans h1, hhi ▸ h2.trans_le (le_max_right _ _)⟩
  · -- a value that is in neither range lies between two that are
    obtain ⟨h1, h2⟩ := mem_points.mp hx
    rw [hlo] at h1
    rw [hhi] at h2
    by_cases hxr : x ∈ r.points
    · exact hrA hxr
    by_cases hxs : x ∈ s.points
    · exact hsA hxs
    rw [mem_points, not_and_or, not_le, not_lt] at hxr hxs
    obtain ⟨y, hy⟩ := nonempty_points_iff.mpr hr
    obtain ⟨z, hz⟩ := nonempty_points_iff.mpr hs
    obtain ⟨hy1, hy2⟩ := mem_points.mp hy
    obtain ⟨hz1, hz2⟩ := mem_points.mp hz
    rcases hxr with hxr | hxr
    · rcases hxs with hxs | hxs
      · exact absurd h1 (not_le.mpr (lt_min hxr hxs))
      · have hzx := (below_lt_below.mp (hz2.trans_le hxs)).le
        exact hA.out (hsA hz) (hrA hy) ⟨hzx, (below_lt_below.mp (hxr.trans_le hy1)).le⟩
    · rcases hxs with hxs | hxs
      · have hyx := (below_lt_below.mp (hy2.trans_le hxr)).le
        exact hA.out (hrA hy) (hsA hz) ⟨hyx, (below_lt_below.mp (hxs.trans_le hz1)).le⟩
      · exact absurd h2 (not_lt.mpr (max_le hxr hxs))

/-- `range_union` on ranges that need not hold any value. -/
theorem union_iff (tc : TypeCacheEntry α) (r s : RangeType α) :
    ((r.points ∪ s.points).OrdConnected ∧ ∃ t, range_union tc r s = .ok t ∧ t.points = r.points ∪ s.points) ∨
    (¬ (r.points ∪ s.points).OrdConnected ∧ range_union tc r s =
      .error (.error "result of range union would not be contiguous")) := by
  cases hr : r.isEmpty with
  | true =>
      have hre : r = .empty := eq_empty hr
      subst hre
      have hset : (RangeType.empty : RangeType α).points ∪ s.points = s.points := by simp [RangeType.points]
      exact .inl ⟨by rw [hset]; exact points_ordConnected, s, rfl, hset.symm⟩
  | false =>
      cases hs : s.isEmpty with
      | true =>
          have hse : s = .empty := eq_empty hs
          subst hse
          have hset : r.points ∪ (RangeType.empty : RangeType α).points = r.points := by simp [RangeType.points]
          exact .inl ⟨by rw [hset]; exact points_ordConnected, r, by cases r <;> rfl, hset.symm⟩
      | false =>
          have hconn := union_ordConnected_iff hr hs
          by_cases h : r.lo ≤ s.hi ∧ s.lo ≤ r.hi
          · have hmeet : (r.lo < s.hi ∧ s.lo < r.hi) ∨ r.hi = s.lo ∨ s.hi = r.lo := by
              rcases lt_or_eq_of_le h.1 with h1 | h1
              · rcases lt_or_eq_of_le h.2 with h2 | h2
                · exact .inl ⟨h1, h2⟩
                · exact .inr (.inl h2.symm)
              · exact .inr (.inr h1.symm)
            obtain ⟨t, hrun, _, hlo, hhi⟩ := union_spec tc hr hs true fun _ => hmeet
            obtain ⟨h1, h2, h3⟩ := merged_least hr hs hlo hhi
            refine .inl ⟨hconn.mpr h, t, hrun, Set.Subset.antisymm ?_ (Set.union_subset h1 h2)⟩
            exact h3 _ (hconn.mpr h) Set.subset_union_left Set.subset_union_right
          · refine .inr ⟨fun hc => h (hconn.mp hc), ?_⟩
            have hov : range_overlaps_internal tc r s = false := by
              rw [Bool.eq_false_iff, Ne, overlaps_iff tc hr hs]
              exact fun ho => h ⟨ho.1.le, ho.2.le⟩
            have had : range_adjacent_internal tc r s = false := by
              rw [Bool.eq_false_iff, Ne, adjacent_iff tc hr hs]
              intro ha
              rcases ha with ha | ha
              · exact h ⟨(lo_lt_hi hr).le.trans (ha.le.trans (lo_lt_hi hs).le), ha.ge⟩
              · exact h ⟨ha.ge, (lo_lt_hi hs).le.trans (ha.le.trans (lo_lt_hi hr).le)⟩
            obtain ⟨l1, u1, h1, rfl⟩ := exists_bounds hr
            obtain ⟨l2, u2, h2, rfl⟩ := exists_bounds hs
            rw [range_union, range_union_internal, hov, had]
            rfl

/-- **The set operators** on two ranges, `-`, `+` and `*`, and `range_merge`: an error tells that the result would
    leave out a value between two of its own, and nothing else goes wrong. -/
theorem range_operators (tc : TypeCacheEntry α) (r s : RangeType α) :
    (((r.points \ s.points).OrdConnected ∧ ∃ t, range_minus_internal tc r s = .ok t ∧
        t.points = r.points \ s.points) ∨
      (¬ (r.points \ s.points).OrdConnected ∧ range_minus_internal tc r s =
        .error (.error "result of range difference would not be contiguous"))) ∧
    (((r.points ∪ s.points).OrdConnected ∧ ∃ t, range_union tc r s = .ok t ∧ t.points = r.points ∪ s.points) ∨
      (¬ (r.points ∪ s.points).OrdConnected ∧ range_union tc r s =
        .error (.error "result of range union would not be contiguous"))) ∧
    (∃ t, range_intersect_internal tc r s = .ok t ∧ t.points = r.points ∩ s.points) ∧
    ∃ t, range_merge tc r s = .ok t ∧ r.points ⊆ t.points ∧ s.points ⊆ t.points ∧
      ∀ A : Set α, A.OrdConnected → r.points ⊆ A → s.points ⊆ A → t.points ⊆ A := by
  refine ⟨minus_iff tc r s, union_iff tc r s, ?_, ?_⟩
  · cases hr : r.isEmpty with
    | true =>
        have hre : r = .empty := eq_empty hr
        subst hre
        exact ⟨.empty, rfl, by simp [RangeType.points]⟩
    | false =>
        cases hs : s.isEmpty with
        | true =>
            have hse : s = .empty := eq_empty hs
            subst hse
            exact ⟨.empty, by cases r <;> rfl, by simp [RangeType.points]⟩
        | false =>
            by_cases h : r.lo < s.hi ∧ s.lo < r.hi
            · obtain ⟨t, hrun, _, hlo, hhi⟩ := intersect_spec tc hr hs h
              refine ⟨t, hrun, points_eq fun x => ?_⟩
              rw [hlo, hhi, max_le_iff, lt_min_iff, Set.mem_inter_iff, mem_points, mem_points]
              exact and_and_and_comm
            · have hov : range_overlaps_internal tc r s = false := by
                rw [Bool.eq_false_iff, Ne, overlaps_iff tc hr hs]
                exact h
              have hset : r.points ∩ s.points = ∅ := by
                rw [← Set.not_nonempty_iff_eq_empty, inter_nonempty_iff hr hs]
                exact h
              refine ⟨.empty, ?_, hset.symm⟩
              obtain ⟨l1, u1, h1, rfl⟩ := exists_bounds hr
              obtain ⟨l2, u2, h2, rfl⟩ := exists_bounds hs
              rw [range_intersect_internal, hov]
              rfl
  · cases hr : r.isEmpty with
    | true =>
        have hre : r = .empty := eq_empty hr
        subst hre
        exact ⟨s, rfl, by simp [RangeType.points], le_refl _, fun A _ _ h => h⟩
    | false =>
        cases hs : s.isEmpty with
        | true =>
            have hse : s = .empty := eq_empty hs
            subst hse
            exact ⟨r, by cases r <;> rfl, le_refl _, by simp [RangeType.points], fun A _ h _ => h⟩
        | false =>
            obtain ⟨t, hrun, _, hlo, hhi⟩ := union_spec tc hr hs false (by simp)
            exact ⟨t, hrun, merged_least hr hs hlo hhi⟩

/-- Taking `[2, 3)` from `[1, )` raises the error. -/
theorem range_operators_numrange : range_minus_internal numrange
    (.bounds ⟨some 1, true, true⟩ ⟨none, false, false⟩ ⟨rfl, rfl, by simp, by simp, by simp⟩)
    (.bounds ⟨some 2, true, true⟩ ⟨some 3, false, false⟩ ⟨rfl, rfl, by simp, by simp, by norm_num⟩) =
      .error (.error "result of range difference would not be contiguous") := by
  obtain ⟨hminus, _⟩ := range_operators numrange
    (.bounds ⟨some 1, true, true⟩ ⟨none, false, false⟩ ⟨rfl, rfl, by simp, by simp, by simp⟩)
    (.bounds ⟨some 2, true, true⟩ ⟨some 3, false, false⟩ ⟨rfl, rfl, by simp, by simp, by norm_num⟩)
  rcases hminus with ⟨hconn, _⟩ | ⟨_, hrun⟩
  · have hout := hconn.out (x := 1) (y := 3) ?_ ?_ (show (2 : ℚ) ∈ Set.Icc 1 3 by norm_num)
    · norm_num [RangeType.points, RangeBound.Admits] at hout
    · simp [RangeType.points, RangeBound.Admits]
    · norm_num [RangeType.points, RangeBound.Admits]
      intro v hv
      cases hv
  · exact hrun

end Pgvec.RangeOps
