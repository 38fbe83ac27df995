/-
  File:      Pgvec/Adt/MultirangeAlgebra.lean
  Subject:   THE ALGEBRA OF MULTIRANGES over a dense order without ends: the operations compute on sets.

  * `Canonical` -- sorted, not empty, neither overlapping nor adjacent; `Gaps.canonical`;
  * `bsearch_spec` -- what a binary search over the ranges finds;
  * `eq_spec` -- equality of multiranges is equality of their sets;
  * **`multirange_algebra`** -- union, difference, intersection, equality and the three searches.
-/
import Pgvec.Adt.MultirangeOpsFacts

namespace Pgvec.MultirangeOps

open Pgvec.RangeOps Cuts

variable {α : Type} [LinearOrder α] {tc : TypeCacheEntry α} {r s : RangeType α} {l m : List (RangeType α)} {x : α}

/-! ## 1. Multiranges and their sets -/

/-- `MultirangeType`: what `make_multirange` builds of some list of ranges. -/
structure MultirangeType (tc : TypeCacheEntry α) where
  ranges : List (RangeType α)
  built : ∃ l, make_multirange tc l = .ok ranges

/-- The values of a list of ranges. -/
def points (l : List (RangeType α)) : Set α := {x | ∃ r ∈ l, x ∈ r.points}

theorem mem_points_iff : x ∈ points l ↔ below x ∈ covered l := by
  rw [mem_covered]
  exact exists_congr fun r => and_congr_right fun _ => mem_points

/-- Lists that cover what set operations make of the covers have the values the set operations make. -/
theorem points_congr {A : Set α} (h : ∀ x, below x ∈ covered l ↔ x ∈ A) : points l = A := by
  ext x
  rw [mem_points_iff, h]

theorem MultirangeType.gaps (mr : MultirangeType tc) : Gaps mr.ranges := by
  obtain ⟨l, hl⟩ := mr.built
  obtain ⟨m, hm, hg, _⟩ := canonicalize_spec tc l
  rw [hl] at hm
  cases hm
  exact hg

/-- From no ranges comes the empty multirange. -/
theorem make_multirange_nil (tc : TypeCacheEntry α) : make_multirange tc [] = .ok [] := by
  simp [make_multirange, multirange_canonicalize, qsort_arg, mergeLoop]

/-- A list of ranges in canonical form. -/
structure Canonical (tc : TypeCacheEntry α) (l : List (RangeType α)) : Prop where
  nonempty : ∀ r ∈ l, r.points.Nonempty
  apart : l.Pairwise fun r s => range_compare tc r s < 0 ∧ range_overlaps_internal tc r s = false ∧
    range_adjacent_internal tc r s = false
  gap : l.Pairwise fun r s => ∃ z, (∀ x ∈ r.points, x < z) ∧ ∀ y ∈ s.points, z < y

/-! ## 2. Searches -/

/-- A test of the bounds of a range that is not empty. -/
def onBounds (found : RangeBound α → RangeBound α → Bool) : RangeType α → Bool
  | .empty => false
  | .bounds lower upper _ => found lower upper

/-- What a comparison function of the search tells about the range at hand, for a key between two cuts. -/
structure Compares (cmp_func : RangeBound α → RangeBound α → Bool → Int × Bool) (kl ku : Cut α)
    (found : RangeType α → Bool) : Prop where
  before : ∀ lower upper st matched, (cmp_func lower upper matched).1 < 0 ↔ ku ≤ (RangeType.bounds lower upper st).lo
  after : ∀ lower upper st matched, (cmp_func lower upper matched).1 > 0 ↔ (RangeType.bounds lower upper st).hi ≤ kl
  result : ∀ lower upper st matched, (cmp_func lower upper matched).1 = 0 →
    (cmp_func lower upper matched).2 = found (.bounds lower upper st)

/-- **The loop of the search**: the range it stops at overlaps the key, or no range does. -/
theorem bsearchLoop_spec {cmp_func : RangeBound α → RangeBound α → Bool → Int × Bool} {kl ku : Cut α}
    {found : RangeType α → Bool} (hc : Compares cmp_func kl ku found) (hg : Gaps l) (lo hi : Nat) (matched : Bool)
    (hhi : hi ≤ l.length) (hleft : ∀ i r, l[i]? = some r → i < lo → r.hi ≤ kl)
    (hright : ∀ i r, l[i]? = some r → hi ≤ i → ku ≤ r.lo) :
    ∃ b, bsearchLoop l cmp_func lo hi matched = .ok b ∧
      ((∃ r ∈ l, r.lo < ku ∧ kl < r.hi ∧ b = found r) ∨
        (b = false ∧ ∀ r ∈ l, ¬ (r.lo < ku ∧ kl < r.hi))) := by
  induction hn : hi - lo using Nat.strong_induction_on generalizing lo hi matched with
  | _ n ih =>
  subst hn
  rw [bsearchLoop]
  by_cases hlt : lo < hi
  · rw [dif_pos hlt]
    have hmid : (lo + hi) / 2 < l.length := by omega
    obtain ⟨lower, upper, st, hr⟩ := exists_bounds (hg.nonempty (List.getElem_mem hmid))
    have hget : l[(lo + hi) / 2]? = some (.bounds lower upper st) := by
      rw [List.getElem?_eq_getElem hmid, hr]
    have hmem : RangeType.bounds lower upper st ∈ l := hr ▸ List.getElem_mem hmid
    -- all ranges on one side of the middle are on that side of the key
    have hpair := List.pairwise_iff_getElem.mp (List.pairwise_map.mp hg.gap)
    have hne : ∀ i (r : RangeType α), l[i]? = some r → r.lo < r.hi := fun i r hi =>
      lo_lt_hi (hg.nonempty (List.mem_of_getElem? hi))
    have hord : ∀ i j (r s : RangeType α), l[i]? = some r → l[j]? = some s → i < j → r.hi < s.lo := fun i j r s hi hj hij => by
      obtain ⟨hil, rfl⟩ := List.getElem?_eq_some_iff.mp hi
      obtain ⟨hjl, rfl⟩ := List.getElem?_eq_some_iff.mp hj
      exact hpair i j hil hjl hij
    have hrun : multirange_get_bounds l ((lo + hi) / 2) = .ok (lower, upper) := by
      rw [multirange_get_bounds, hget]
    rw [hrun]
    show ∃ b, (if (cmp_func lower upper matched).1 < 0 then _ else if (cmp_func lower upper matched).1 > 0 then _
      else _) = _ ∧ _
    have hbef := hc.before lower upper st matched
    have haft := hc.after lower upper st matched
    by_cases h1 : (cmp_func lower upper matched).1 < 0
    · rw [if_pos h1]
      refine ih _ (by omega) lo _ _ (by omega) hleft (fun i r hi hle => ?_) rfl
      rcases Nat.lt_or_eq_of_le hle with h | h
      · exact (hbef.mp h1).trans ((hne _ _ hget).le.trans (hord _ _ _ _ hget hi h).le)
      · subst h
        rw [hget] at hi
        cases hi
        exact hbef.mp h1
    · rw [if_neg h1]
      by_cases h2 : (cmp_func lower upper matched).1 > 0
      · rw [if_pos h2]
        refine ih _ (by omega) _ hi _ hhi (fun i r hi hle => ?_) hright rfl
        rcases Nat.lt_or_eq_of_le (Nat.le_of_lt_succ hle) with h | h
        · exact (hord _ _ _ _ hi hget h).le.trans ((hne _ _ hget).le.trans (haft.mp h2))
        · subst h
          rw [hget] at hi
          cases hi
          exact haft.mp h2
      · rw [if_neg h2]
        refine ⟨_, rfl, .inl ⟨_, hmem, not_le.mp fun h => h1 (hbef.mpr h), not_le.mp fun h => h2 (haft.mpr h), ?_⟩⟩
        exact hc.result lower upper st matched (by omega)
  · rw [dif_neg hlt]
    refine ⟨false, rfl, .inr ⟨rfl, fun r hr hov => ?_⟩⟩
    obtain ⟨i, hi⟩ := List.mem_iff_getElem?.mp hr
    rcases Nat.lt_or_ge i lo with h | h
    · exact absurd (hleft i r hi h) (not_le.mpr hov.2)
    · exact absurd (hright i r hi (by omega)) (not_le.mpr hov.1)

/-- **The search**. -/
theorem bsearch_spec {cmp_func : RangeBound α → RangeBound α → Bool → Int × Bool} {kl ku : Cut α}
    {found : RangeType α → Bool} (hc : Compares cmp_func kl ku found) (hg : Gaps l) :
    ∃ b, multirange_bsearch_match l cmp_func = .ok b ∧
      ((∃ r ∈ l, r.lo < ku ∧ kl < r.hi ∧ b = found r) ∨
        (b = false ∧ ∀ r ∈ l, ¬ (r.lo < ku ∧ kl < r.hi))) := by
  refine bsearchLoop_spec hc hg 0 l.length false (le_refl _) (fun i r _ h => absurd h (Nat.not_lt_zero i)) ?_
  intro i r hi h
  rw [List.getElem?_eq_none h] at hi
  cases hi

theorem elem_compares (tc : TypeCacheEntry α) (x : α) :
    Compares (multirange_elem_bsearch_comparison tc x) (below x) (above x) fun _ => true := by
  have hlower : ∀ lower upper (st : Stored lower upper), aboveLower tc lower x = true ↔ lower.cut ≤ below x :=
    fun lower upper st => (aboveLower_iff tc st.lower_side).trans (admits_lower st.lower_side)
  have hupper : ∀ lower upper (st : Stored lower upper), belowUpper tc upper x = true ↔ below x < upper.cut :=
    fun lower upper st => (belowUpper_iff tc st.upper_side).trans (admits_upper st.upper_side)
  refine ⟨fun lower upper st matched => ?_, fun lower upper st matched => ?_, fun lower upper st matched => ?_⟩
  · have h1 := hlower lower upper st
    rw [lo_bounds, ← below_lt_iff, ← not_le (a := lower.cut), ← h1, multirange_elem_bsearch_comparison]
    cases aboveLower tc lower x <;> cases belowUpper tc upper x <;> simp
  · have h1 := hlower lower upper st
    have h2 := hupper lower upper st
    have hlt := st.cut_lt
    rw [hi_bounds, ← not_lt, ← h2, multirange_elem_bsearch_comparison]
    cases ha : aboveLower tc lower x with
    | true => cases belowUpper tc upper x <;> simp
    | false =>
        have hlo : below x < lower.cut := not_le.mp fun h => by
          rw [h1.mpr h] at ha
          cases ha
        simp [h2.mpr (hlo.trans hlt)]
  · rw [multirange_elem_bsearch_comparison]
    cases aboveLower tc lower x <;> cases belowUpper tc upper x <;> simp

section Key

variable {keyLower keyUpper : RangeBound α}

/-- The comparison of a key range with a range at hand, whatever is stored when they overlap. -/
theorem key_compares (tc : TypeCacheEntry α) (hk : Stored keyLower keyUpper) (found : RangeBound α → RangeBound α → Bool) :
    Compares (fun lower upper matched =>
      if range_cmp_bounds tc keyUpper lower < 0 then (-1, matched)
      else if range_cmp_bounds tc keyLower upper > 0 then (1, matched)
      else (0, found lower upper)) keyLower.cut keyUpper.cut (onBounds found) := by
  refine ⟨fun lower upper st matched => ?_, fun lower upper st matched => ?_, fun lower upper st matched => ?_⟩
  · have h1 := cmp_upper_lower tc hk.upper_side st.lower_side
    rw [lo_bounds, ← h1]
    split_ifs with h3 h4
    · simp [h3]
    · simp [h3]
    · simp [h3]
  · have h1 := cmp_upper_lower tc hk.upper_side st.lower_side
    have h2 := cmp_lower_upper_pos tc hk.lower_side st.upper_side
    have hlt := st.cut_lt
    have hlt' := hk.cut_lt
    rw [hi_bounds, ← h2]
    split_ifs with h3 h4
    · have hn : ¬ range_cmp_bounds tc keyLower upper > 0 := fun h =>
        absurd (hlt'.trans_le ((h1.mp h3).trans hlt.le)) (not_lt.mpr (h2.mp h))
      simp [hn]
    · simp [h4]
    · simp [h4]
  · split_ifs <;> simp [onBounds]

end Key

/-- `multirange_contains_elem_internal` tests for the values of the multirange. -/
theorem contains_elem_spec (tc : TypeCacheEntry α) (hg : Gaps l) (x : α) :
    ∃ b, multirange_contains_elem_internal tc l x = .ok b ∧ (b = true ↔ x ∈ points l) := by
  have hin : ∀ r : RangeType α, (r.lo < above x ∧ below x < r.hi) ↔ (r.lo ≤ below x ∧ below x < r.hi) := fun r => by
    rw [← not_le (b := r.lo), ← below_lt_iff, not_lt]
  rw [multirange_contains_elem_internal]
  by_cases he : l.isEmpty = true
  · rw [if_pos he]
    have hnil : l = [] := List.isEmpty_iff.mp he
    exact ⟨false, rfl, by simp [hnil, points]⟩
  · rw [if_neg he]
    obtain ⟨b, hrun, hb⟩ := bsearch_spec (elem_compares tc x) hg
    refine ⟨b, hrun, ?_⟩
    rw [mem_points_iff, mem_covered]
    rcases hb with ⟨r, hr, h1, h2, rfl⟩ | ⟨rfl, hno⟩
    · exact iff_of_true rfl ⟨r, hr, (hin r).mp ⟨h1, h2⟩⟩
    · refine iff_of_false (by simp) fun ⟨r, hr, h⟩ => hno r hr ((hin r).mpr h)

/-- The loop of `multirange_eq_internal` compares the spans. -/
theorem eqLoop_spec (tc : TypeCacheEntry α) (hl : Gaps l) (hm : Gaps m) (hlen : l.length = m.length) :
    ∀ n i, n + i = l.length → ∃ b, eqLoop tc l m n i = .ok b ∧ (b = true ↔ (spans l).drop i = (spans m).drop i)
  | 0, i, h => by
      refine ⟨true, rfl, ?_⟩
      rw [List.drop_of_length_le (by simp [spans]; omega), List.drop_of_length_le (by simp [spans]; omega)]
      exact iff_of_true rfl rfl
  | n + 1, i, h => by
      have hil : i < l.length := by omega
      have him : i < m.length := by omega
      obtain ⟨l1, u1, h1, hr⟩ := exists_bounds (hl.nonempty (List.getElem_mem hil))
      obtain ⟨l2, u2, h2, hs⟩ := exists_bounds (hm.nonempty (List.getElem_mem him))
      have hget1 : multirange_get_bounds l i = .ok (l1, u1) := by
        rw [multirange_get_bounds, List.getElem?_eq_getElem hil, hr]
      have hget2 : multirange_get_bounds m i = .ok (l2, u2) := by
        rw [multirange_get_bounds, List.getElem?_eq_getElem him, hs]
      have hdrop : ((spans l).drop i = (spans m).drop i) ↔
          (l1.cut = l2.cut ∧ u1.cut = u2.cut) ∧ (spans l).drop (i + 1) = (spans m).drop (i + 1) := by
        have hil' : i < (spans l).length := by simpa [spans] using hil
        have him' : i < (spans m).length := by simpa [spans] using him
        rw [List.drop_eq_getElem_cons hil', List.drop_eq_getElem_cons him', List.cons.injEq]
        refine and_congr_left fun _ => ?_
        simp [spans, hr, hs, RangeType.span]
      rw [eqLoop, hget1, hget2]
      show ∃ b, (if range_cmp_bounds tc l1 l2 ≠ 0 ∨ range_cmp_bounds tc u1 u2 ≠ 0 then _ else _) = _ ∧ _
      have e1 := cmp_same_zero tc (h1.lower_side.trans h2.lower_side.symm)
      have e2 := cmp_same_zero tc (h1.upper_side.trans h2.upper_side.symm)
      by_cases hne : range_cmp_bounds tc l1 l2 ≠ 0 ∨ range_cmp_bounds tc u1 u2 ≠ 0
      · rw [if_pos hne]
        refine ⟨false, rfl, ?_⟩
        rw [hdrop, ← e1, ← e2]
        refine iff_of_false (by simp) fun h => ?_
        rcases hne with hne | hne
        · exact hne h.1.1
        · exact hne h.1.2
      · rw [if_neg hne]
        obtain ⟨b, hrun, hb⟩ := eqLoop_spec tc hl hm hlen n (i + 1) (by omega)
        refine ⟨b, hrun, ?_⟩
        rw [hdrop, ← e1, ← e2, hb]
        rw [not_or, not_not, not_not] at hne
        exact (and_iff_right hne).symm

variable [Nonempty α] [DenselyOrdered α] [NoMinOrder α] [NoMaxOrder α]

/-- The cuts below the values have one in every span. -/
theorem meets_below : Meets (Set.range (below : α → Cut α)) := fun a b hab => by
  obtain ⟨x, h1, h2⟩ := exists_below hab
  exact ⟨below x, ⟨x, rfl⟩, h1, h2⟩

theorem points_nonempty (h : r.isEmpty = false) : r.points.Nonempty := by
  obtain ⟨x, hx⟩ := exists_below (lo_lt_hi h)
  exact ⟨x, mem_points.mpr hx⟩

/-- A range lies in a multirange when it lies in one of its ranges. -/
theorem subset_points_iff (hg : Gaps l) (hr : r.isEmpty = false) :
    r.points ⊆ points l ↔ ∃ s ∈ l, s.lo ≤ r.lo ∧ r.hi ≤ s.hi := by
  constructor
  · intro hsub
    obtain ⟨k, hk, h1, h2⟩ := hg.within (k := r.span) meets_below (lo_lt_hi hr) fun c ⟨x, hx⟩ h1 h2 => by
      subst hx
      exact mem_points_iff.mp (hsub (mem_points.mpr ⟨h1, h2⟩))
    obtain ⟨s, hs, rfl⟩ := List.mem_map.mp hk
    exact ⟨s, hs, h1, h2⟩
  · rintro ⟨s, hs, h1, h2⟩ x hx
    obtain ⟨h3, h4⟩ := mem_points.mp hx
    exact ⟨s, hs, mem_points.mpr ⟨h1.trans h3, h4.trans_le h2⟩⟩

/-- Two ranges have a value in common when they overlap. -/
theorem inter_points_iff (hr : r.isEmpty = false) (hs : s.isEmpty = false) :
    (r.points ∩ s.points).Nonempty ↔ r.lo < s.hi ∧ s.lo < r.hi := by
  constructor
  · rintro ⟨x, hx, hy⟩
    obtain ⟨h1, h2⟩ := mem_points.mp hx
    obtain ⟨h3, h4⟩ := mem_points.mp hy
    exact ⟨h1.trans_lt h4, h3.trans_lt h2⟩
  · rintro ⟨h1, h2⟩
    obtain ⟨x, hx1, hx2⟩ := exists_below (l := max r.lo s.lo) (u := min r.hi s.hi)
      (max_lt (lt_min (lo_lt_hi hr) h1) (lt_min h2 (lo_lt_hi hs)))
    rw [max_le_iff] at hx1
    rw [lt_min_iff] at hx2
    exact ⟨x, mem_points.mpr ⟨hx1.1, hx2.1⟩, mem_points.mpr ⟨hx1.2, hx2.2⟩⟩

/-- `multirange_contains_range_internal` tests for inclusion. -/
theorem contains_range_spec (tc : TypeCacheEntry α) (hg : Gaps l) (r : RangeType α) :
    ∃ b, multirange_contains_range_internal tc l r = .ok b ∧ (b = true ↔ r.points ⊆ points l) := by
  cases r with
  | empty => exact ⟨true, rfl, by simp [RangeType.points]⟩
  | bounds lower upper st =>
      rw [subset_points_iff hg rfl, multirange_contains_range_internal]
      by_cases he : l.isEmpty = true
      · rw [if_pos he]
        have hnil : l = [] := List.isEmpty_iff.mp he
        exact ⟨false, rfl, by simp [hnil]⟩
      rw [if_neg he]
      have hfound : ∀ s : RangeType α, s.isEmpty = false →
          (onBounds (fun lo hi => range_bounds_contains tc lo hi lower upper) s = true ↔
            s.lo ≤ lower.cut ∧ upper.cut ≤ s.hi) := fun s hs => by
        obtain ⟨lo, hi, hst, rfl⟩ := exists_bounds hs
        have h1 := cmp_same_nonpos tc (hst.lower_side.trans st.lower_side.symm)
        have h2 := cmp_same_nonneg tc (hst.upper_side.trans st.upper_side.symm)
        simp only [onBounds, range_bounds_contains, Bool.and_eq_true, decide_eq_true_eq, h1, h2, lo_bounds, hi_bounds]
      obtain ⟨b, hrun, hb⟩ := bsearch_spec (key_compares tc st
        (fun lo hi => range_bounds_contains tc lo hi lower upper)) hg
      refine ⟨b, hrun, ?_⟩
      have hlt := st.cut_lt
      rcases hb with ⟨s, hs, h1, h2, rfl⟩ | ⟨rfl, hno⟩
      · rw [hfound s (hg.nonempty hs)]
        refine ⟨fun h => ⟨s, hs, h⟩, fun h => ?_⟩
        obtain ⟨t, ht, h3, h4⟩ := h
        -- no other range overlaps a key that lies in one
        have hst : t.span = s.span := hg.eq_of_meet (List.mem_map_of_mem ht) (List.mem_map_of_mem hs)
          (h3.trans_lt h2) (h1.trans_le h4)
        have hlo : t.lo = s.lo := congrArg Span.lo hst
        have hhi : t.hi = s.hi := congrArg Span.hi hst
        exact ⟨hlo ▸ h3, hhi ▸ h4⟩
      · refine iff_of_false (by simp) fun h => ?_
        obtain ⟨t, ht, h3, h4⟩ := h
        exact hno t ht ⟨h3.trans_lt hlt, hlt.trans_le h4⟩

/-- `range_overlaps_multirange_internal` tests for a common value. -/
theorem overlaps_spec (tc : TypeCacheEntry α) (hg : Gaps l) (r : RangeType α) :
    ∃ b, range_overlaps_multirange_internal tc r l = .ok b ∧ (b = true ↔ (r.points ∩ points l).Nonempty) := by
  cases r with
  | empty => exact ⟨false, rfl, by simp [RangeType.points]⟩
  | bounds lower upper st =>
      have hiff : ((RangeType.bounds lower upper st).points ∩ points l).Nonempty ↔
          ∃ s ∈ l, s.lo < upper.cut ∧ lower.cut < s.hi := by
        constructor
        · rintro ⟨x, hx, s, hs, hxs⟩
          have h := (inter_points_iff (r := .bounds lower upper st) rfl (hg.nonempty hs)).mp ⟨x, hx, hxs⟩
          exact ⟨s, hs, h.2, h.1⟩
        · rintro ⟨s, hs, h1, h2⟩
          obtain ⟨x, hx, hxs⟩ := (inter_points_iff (r := .bounds lower upper st) rfl (hg.nonempty hs)).mpr ⟨h2, h1⟩
          exact ⟨x, hx, s, hs, hxs⟩
      rw [hiff, range_overlaps_multirange_internal]
      by_cases he : l.isEmpty = true
      · rw [if_pos he]
        have hnil : l = [] := List.isEmpty_iff.mp he
        exact ⟨false, rfl, by simp [hnil]⟩
      rw [if_neg he]
      obtain ⟨b, hrun, hb⟩ := bsearch_spec (key_compares tc st (fun _ _ => true)) hg
      refine ⟨b, hrun, ?_⟩
      rcases hb with ⟨s, hs, h1, h2, rfl⟩ | ⟨rfl, hno⟩
      · obtain ⟨lo, hi, hst, rfl⟩ := exists_bounds (hg.nonempty hs)
        exact iff_of_true rfl ⟨_, hs, h1, h2⟩
      · refine iff_of_false (by simp) fun h => ?_
        obtain ⟨t, ht, h⟩ := h
        exact hno t ht h

/-! ## 3. Canonical form and equality -/

/-- Ranges with gaps between them are in canonical form. -/
theorem Gaps.canonical (tc : TypeCacheEntry α) (hg : Gaps l) : Canonical tc l := by
  have hpair : l.Pairwise fun r s => r.isEmpty = false ∧ s.isEmpty = false ∧ r.hi < s.lo :=
    (List.pairwise_map.mp hg.gap).imp_of_mem fun hr hs h => ⟨hg.nonempty hr, hg.nonempty hs, h⟩
  refine ⟨fun r hr => points_nonempty (hg.nonempty hr), hpair.imp ?_, hpair.imp ?_⟩
  · intro r s ⟨hr, hs, h⟩
    have hlr := lo_lt_hi hr
    have hls := lo_lt_hi hs
    refine ⟨?_, ?_, ?_⟩
    · obtain ⟨l1, u1, h1, rfl⟩ := exists_bounds hr
      obtain ⟨l2, u2, h2, rfl⟩ := exists_bounds hs
      rw [compare_neg, RangeType.key, RangeType.key, WithBot.coe_lt_coe, Prod.Lex.toLex_lt_toLex]
      exact .inl (hlr.trans h)
    · rw [Bool.eq_false_iff, Ne, overlaps_iff tc hr hs]
      exact fun hov => absurd hov.2 (not_lt.mpr h.le)
    · rw [Bool.eq_false_iff, Ne, adjacent_iff tc hr hs]
      rintro (he | he)
      · exact absurd h (by rw [he]; exact lt_irrefl _)
      · exact absurd (hls.trans (he ▸ hlr)) (not_lt.mpr h.le)
  · intro r s ⟨_, _, h⟩
    obtain ⟨z, hz1, hz2⟩ := exists_below h
    refine ⟨z, fun x hx => ?_, fun y hy => ?_⟩
    · exact below_lt_below.mp ((mem_points.mp hx).2.trans_le hz1)
    · exact below_lt_below.mp (hz2.trans_le (mem_points.mp hy).1)

/-- **`multirange_eq_internal`** tells whether the sets are equal. -/
theorem eq_spec (tc : TypeCacheEntry α) (hl : Gaps l) (hm : Gaps m) :
    ∃ b, multirange_eq_internal tc l m = .ok b ∧ (b = true ↔ points l = points m) := by
  have hext : points l = points m ↔ spans l = spans m := by
    constructor
    · intro h
      refine Gapped.ext meets_below hl hm fun c ⟨x, hx⟩ => ?_
      subst hx
      exact (mem_points_iff.symm.trans (Set.ext_iff.mp h x)).trans mem_points_iff
    · intro h
      ext x
      rw [mem_points_iff, mem_points_iff, covered, covered, h]
  rw [hext, multirange_eq_internal]
  by_cases hlen : l.length ≠ m.length
  · rw [if_pos hlen]
    refine ⟨false, rfl, iff_of_false (by simp) fun h => hlen ?_⟩
    simpa [spans] using congrArg List.length h
  · rw [if_neg hlen]
    obtain ⟨b, hrun, hb⟩ := eqLoop_spec tc hl hm (not_not.mp hlen) l.length 0 (by omega)
    exact ⟨b, hrun, hb⟩

/-! ## 4. The algebra -/

/-- **The algebra of multiranges** over a dense order without ends. -/
theorem multirange_algebra (tc : TypeCacheEntry α) :
    (∀ l : List (RangeType α), ∃ mr : MultirangeType tc,
      make_multirange tc l = .ok mr.ranges ∧ points mr.ranges = points l) ∧
    (∀ mr : MultirangeType tc, Canonical tc mr.ranges) ∧
    (∀ mr1 mr2 : MultirangeType tc,
      (∃ mr : MultirangeType tc, multirange_union tc mr1.ranges mr2.ranges = .ok mr.ranges ∧
        points mr.ranges = points mr1.ranges ∪ points mr2.ranges) ∧
      (∃ mr : MultirangeType tc, multirange_minus tc mr1.ranges mr2.ranges = .ok mr.ranges ∧
        points mr.ranges = points mr1.ranges \ points mr2.ranges ∧
        (mr2.ranges ≠ [] → multirange_minus_internal tc mr1.ranges mr2.ranges = .ok mr.ranges)) ∧
      (∃ mr : MultirangeType tc, multirange_intersect tc mr1.ranges mr2.ranges = .ok mr.ranges ∧
        points mr.ranges = points mr1.ranges ∩ points mr2.ranges ∧
        multirange_intersect_internal tc mr1.ranges mr2.ranges = .ok mr.ranges) ∧
      ∃ b, multirange_eq_internal tc mr1.ranges mr2.ranges = .ok b ∧
        (b = true ↔ points mr1.ranges = points mr2.ranges)) ∧
    ∀ mr : MultirangeType tc,
      (∀ x, ∃ b, multirange_contains_elem_internal tc mr.ranges x = .ok b ∧ (b = true ↔ x ∈ points mr.ranges)) ∧
      (∀ r, ∃ b, multirange_contains_range_internal tc mr.ranges r = .ok b ∧
        (b = true ↔ r.points ⊆ points mr.ranges)) ∧
      ∀ r, ∃ b, range_overlaps_multirange_internal tc r mr.ranges = .ok b ∧
        (b = true ↔ (r.points ∩ points mr.ranges).Nonempty) := by
  refine ⟨fun l => ?_, fun mr => mr.gaps.canonical tc, fun mr1 mr2 => ⟨?_, ?_, ?_, eq_spec tc mr1.gaps mr2.gaps⟩,
    fun mr => ⟨contains_elem_spec tc mr.gaps, contains_range_spec tc mr.gaps, overlaps_spec tc mr.gaps⟩⟩
  · obtain ⟨mr, hrun, _, hcov⟩ := canonicalize_spec tc l
    exact ⟨⟨mr, l, hrun⟩, hrun, points_congr fun x => (hcov _).trans mem_points_iff.symm⟩
  · rw [multirange_union]
    by_cases h1 : mr1.ranges.isEmpty = true
    · rw [if_pos h1]
      refine ⟨mr2, rfl, ?_⟩
      have hnil : mr1.ranges = [] := List.isEmpty_iff.mp h1
      simp [hnil, points]
    rw [if_neg h1]
    by_cases h2 : mr2.ranges.isEmpty = true
    · rw [if_pos h2]
      refine ⟨mr1, rfl, ?_⟩
      have hnil : mr2.ranges = [] := List.isEmpty_iff.mp h2
      simp [hnil, points]
    rw [if_neg h2]
    obtain ⟨mr, hrun, _, hcov⟩ := canonicalize_spec tc (mr1.ranges ++ mr2.ranges)
    refine ⟨⟨mr, _, hrun⟩, hrun, points_congr fun x => ?_⟩
    rw [hcov, mem_covered_append, Set.mem_union, mem_points_iff, mem_points_iff]
  · rw [multirange_minus]
    by_cases h : (mr1.ranges.isEmpty || mr2.ranges.isEmpty) = true
    · rw [if_pos h]
      refine ⟨mr1, rfl, ?_, fun hne => ?_⟩
      · rw [Bool.or_eq_true, List.isEmpty_iff, List.isEmpty_iff] at h
        rcases h with h | h <;> simp [h, points]
      · have hnil : mr1.ranges = [] := by simpa [hne] using h
        rw [multirange_minus_internal, if_neg (by simpa using hne), hnil]
        exact make_multirange_nil tc
    · rw [if_neg h]
      rw [Bool.or_eq_true, not_or, List.isEmpty_iff, List.isEmpty_iff] at h
      obtain ⟨mr, hrun, hbuilt, hcov⟩ := minus_internal_spec tc mr1.gaps mr2.gaps h.2
      refine ⟨⟨mr, hbuilt⟩, hrun, points_congr fun x => ?_, fun _ => hrun⟩
      rw [hcov, Set.mem_sdiff, mem_points_iff, mem_points_iff]
  · obtain ⟨mr, hrun, hbuilt, hcov⟩ := intersect_internal_spec tc mr1.gaps mr2.gaps
    refine ⟨⟨mr, hbuilt⟩, ?_, points_congr fun x => ?_, hrun⟩
    · rw [multirange_intersect]
      by_cases h : (mr1.ranges.isEmpty || mr2.ranges.isEmpty) = true
      · rw [if_pos h]
        rw [multirange_intersect_internal, if_pos h] at hrun
        exact hrun
      · rw [if_neg h]
        exact hrun
    · rw [hcov, Set.mem_inter_iff, mem_points_iff, mem_points_iff]

/-- `[1, 3)`, the empty range and `[2, )` make the numbers from one on. -/
theorem multirange_algebra_numrange : ∃ mr : MultirangeType numrange,
    make_multirange numrange
      [.bounds ⟨some 1, true, true⟩ ⟨some 3, false, false⟩ ⟨rfl, rfl, by simp, by simp, by simp⟩, .empty,
        .bounds ⟨some 2, true, true⟩ ⟨none, false, false⟩ ⟨rfl, rfl, by simp, by simp, by simp⟩] = .ok mr.ranges ∧
    points mr.ranges = {x | 1 ≤ x} ∧ Canonical numrange mr.ranges := by
  obtain ⟨hmake, hcanonical, _⟩ := multirange_algebra numrange
  obtain ⟨mr, hrun, hpoints⟩ := hmake
    [.bounds ⟨some 1, true, true⟩ ⟨some 3, false, false⟩ ⟨rfl, rfl, by simp, by simp, by simp⟩, .empty,
      .bounds ⟨some 2, true, true⟩ ⟨none, false, false⟩ ⟨rfl, rfl, by simp, by simp, by simp⟩]
  refine ⟨mr, hrun, hpoints.trans ?_, hcanonical mr⟩
  ext x
  have hsplit : (1 ≤ x ∧ x < 3) ∨ 2 ≤ x ↔ 1 ≤ x := by grind
  simp [points, RangeType.points, RangeBound.Admits, ← le_iff_lt_or_eq, hsplit]

end Pgvec.MultirangeOps
