/-
  File:      Pgvec/Adt/MultirangeTestsFacts.lean
  Subject:   WHAT THE TESTS ON MULTIRANGES TELL about their sets of values, in a dense order without ends.

  * `discardBefore_spec`, `overlapsLoop_spec`, `containsLoop_spec` -- the walks in tandem miss nothing;
  * `Outer` -- the outermost bounds of a multirange are where its values begin and end;
  * **`multirange_tests`** -- every test is the relation of the two sets that its operator stands for.
-/
import Pgvec.Adt.MultirangeTests
import Pgvec.Adt.MultirangeAlgebra
import Pgvec.Adt.RangeAlgebra

namespace Pgvec.MultirangeOps

open Pgvec.RangeOps Cuts

variable {α : Type} [LinearOrder α] {tc : TypeCacheEntry α} {r s : RangeType α} {l m : List (RangeType α)}

/-! ## 1. Reading bounds -/

theorem get_bounds_spec (hg : Gaps l) {i : Nat} (hi : i < l.length) : ∃ lower upper, ∃ st : Stored lower upper,
    l[i] = .bounds lower upper st ∧ multirange_get_bounds l i = .ok (lower, upper) := by
  obtain ⟨lower, upper, st, hr⟩ := exists_bounds (hg.nonempty (List.getElem_mem hi))
  refine ⟨lower, upper, st, hr, ?_⟩
  rw [multirange_get_bounds, List.getElem?_eq_getElem hi, hr]

theorem get_head_spec (hg : Gaps (r :: l)) : ∃ lower upper, ∃ st : Stored lower upper,
    r = .bounds lower upper st ∧ multirange_get_bounds (r :: l) 0 = .ok (lower, upper) :=
  get_bounds_spec hg (Nat.succ_pos l.length)

theorem range_bounds_overlaps_iff {lower1 upper1 lower2 upper2 : RangeBound α} (h1 : Stored lower1 upper1)
    (h2 : Stored lower2 upper2) : range_bounds_overlaps tc lower1 upper1 lower2 upper2 = true ↔
      lower1.cut < upper2.cut ∧ lower2.cut < upper1.cut :=
  overlaps_iff tc (r := .bounds lower1 upper1 h1) (s := .bounds lower2 upper2 h2) rfl rfl

theorem range_bounds_contains_iff {lower1 upper1 lower2 upper2 : RangeBound α} (h1 : Stored lower1 upper1)
    (h2 : Stored lower2 upper2) : range_bounds_contains tc lower1 upper1 lower2 upper2 = true ↔
      lower1.cut ≤ lower2.cut ∧ upper2.cut ≤ upper1.cut := by
  rw [range_bounds_contains, Bool.and_eq_true, decide_eq_true_iff, decide_eq_true_iff,
    cmp_same_nonpos tc (h1.lower_side.trans h2.lower_side.symm),
    cmp_same_nonneg tc (h1.upper_side.trans h2.upper_side.symm)]

/-! ## 2. The walks in tandem -/

/-- What is discarded ends before the bound; what is kept begins with a range that does not. -/
theorem discardBefore_spec (tc : TypeCacheEntry α) {lower2 : RangeBound α} (h2 : lower2.lower = true) (hg : Gaps l) :
    ∃ kept, discardBefore tc lower2 l = .ok kept ∧ Gaps kept ∧ (∀ r ∈ kept, r ∈ l) ∧
      (∀ r ∈ l, r ∈ kept ∨ r.hi ≤ lower2.cut) ∧ ∀ r ∈ kept.head?, lower2.cut < r.hi := by
  induction l with
  | nil => exact ⟨[], rfl, gaps_nil, by simp, by simp, by simp⟩
  | cons r l ih =>
      obtain ⟨_, _, hl⟩ := gaps_cons.mp hg
      obtain ⟨lower1, upper1, st, hr, hget⟩ := get_head_spec hg
      have hcmp := cmp_upper_lower tc st.upper_side h2
      have hhi : r.hi = upper1.cut := by rw [hr, hi_bounds]
      have hrun : discardBefore tc lower2 (r :: l) =
          if range_cmp_bounds tc upper1 lower2 < 0 then discardBefore tc lower2 l else .ok (r :: l) := by
        rw [discardBefore, hget]
        rfl
      rw [hrun]
      by_cases h : range_cmp_bounds tc upper1 lower2 < 0
      · rw [if_pos h]
        obtain ⟨kept, hkept, hgk, hsub, hleft, hhead⟩ := ih hl
        refine ⟨kept, hkept, hgk, fun s hs => List.mem_cons_of_mem r (hsub s hs), fun s hs => ?_, hhead⟩
        rcases List.mem_cons.mp hs with hs | hs
        · subst hs
          exact .inr (hhi ▸ hcmp.mp h)
        · exact hleft s hs
      · rw [if_neg h]
        refine ⟨r :: l, rfl, hg, fun s hs => hs, fun s hs => .inl hs, fun s hs => ?_⟩
        have hs : r = s := by simpa using hs
        rw [← hs, hhi, ← not_le, ← hcmp]
        exact h

/-- **The walk that looks for an overlap** finds one when some two ranges overlap. -/
theorem overlapsLoop_spec : ∀ (m : List (RangeType α)) {l : List (RangeType α)}, Gaps l → Gaps m →
    ∃ b, overlapsLoop tc l m = .ok b ∧ (b = true ↔ ∃ r ∈ l, ∃ s ∈ m, r.lo < s.hi ∧ s.lo < r.hi)
  | [], l, _, _ => ⟨false, rfl, by simp⟩
  | s :: m, l, hl, hm => by
      obtain ⟨hs, hafter, hm'⟩ := gaps_cons.mp hm
      obtain ⟨lower2, upper2, st2, hs2, hget⟩ := get_head_spec hm
      have hlo : s.lo = lower2.cut := by rw [hs2, lo_bounds]
      have hhi : s.hi = upper2.cut := by rw [hs2, hi_bounds]
      obtain ⟨kept, hrun, hg, hsub, hleft, hhead⟩ := discardBefore_spec tc st2.lower_side hl
      -- a discarded range ends before `s` and all the ranges after it begin
      have hgone : ∀ r ∈ l, r ∉ kept → ∀ s' ∈ s :: m, ¬ (r.lo < s'.hi ∧ s'.lo < r.hi) := by
        intro r hr hk s' hs' hov
        have h1 := (hleft r hr).resolve_left hk
        rcases List.mem_cons.mp hs' with hs' | hs'
        · subst hs'
          exact absurd hov.2 (not_lt.mpr (hlo ▸ h1))
        · have h2 := (lo_lt_hi hs).trans (hafter s' hs')
          exact absurd hov.2 (not_lt.mpr (h1.trans (hlo ▸ h2.le)))
      rw [overlapsLoop, hget]
      simp only [Except.bind, bind, hrun]
      cases kept with
      | nil =>
          refine ⟨false, rfl, iff_of_false (by simp) ?_⟩
          intro h
          obtain ⟨r, hr, s', hs', hov⟩ := h
          exact hgone r hr List.not_mem_nil s' hs' hov
      | cons r kept =>
          obtain ⟨_, hnext, _⟩ := gaps_cons.mp hg
          obtain ⟨lower1, upper1, st1, hr1, hget1⟩ := get_head_spec hg
          have hcut : s.lo < r.hi := hlo ▸ hhead r rfl
          have hov : range_bounds_overlaps tc lower1 upper1 lower2 upper2 = true ↔ r.lo < s.hi ∧ s.lo < r.hi := by
            rw [range_bounds_overlaps_iff st1 st2, hr1, hs2]
            rfl
          simp only [List.isEmpty_cons, Bool.false_eq_true, if_false, hget1]
          by_cases h : range_bounds_overlaps tc lower1 upper1 lower2 upper2 = true
          · rw [if_pos h]
            exact ⟨true, rfl, iff_of_true rfl ⟨r, hsub r List.mem_cons_self, s, List.mem_cons_self, hov.mp h⟩⟩
          · rw [if_neg h]
            obtain ⟨b, hb, hiff⟩ := overlapsLoop_spec m hg hm'
            refine ⟨b, hb, hiff.trans ⟨fun h => ?_, fun h => ?_⟩⟩
            · obtain ⟨r', hr', s', hs', hov'⟩ := h
              exact ⟨r', hsub r' hr', s', List.mem_cons_of_mem s hs', hov'⟩
            · obtain ⟨r', hr', s', hs', hov'⟩ := h
              have hk : r' ∈ r :: kept := not_not.mp fun hk => hgone r' hr' hk s' hs' hov'
              rcases List.mem_cons.mp hs' with hs' | hs'
              · -- `s` ends before `r` begins, and so before all that is kept
                subst hs'
                have hend : s'.hi ≤ r.lo := not_lt.mp fun hlt => h (hov.mpr ⟨hlt, hcut⟩)
                rcases List.mem_cons.mp hk with hk | hk
                · subst hk
                  exact absurd hov'.1 (not_lt.mpr hend)
                · have hr := lo_lt_hi (hg.nonempty List.mem_cons_self)
                  exact absurd hov'.1 (not_lt.mpr (hend.trans (hr.trans (hnext r' hk)).le))
              · exact ⟨r', hk, s', hs', hov'⟩

/-- **The walk that looks for containment**: each range of the second list lies in one of the first. -/
theorem containsLoop_spec : ∀ (m : List (RangeType α)) {l : List (RangeType α)}, Gaps l → Gaps m →
    ∃ b, containsLoop tc l m = .ok b ∧ (b = true ↔ ∀ s ∈ m, ∃ r ∈ l, r.lo ≤ s.lo ∧ s.hi ≤ r.hi)
  | [], l, _, _ => ⟨true, rfl, by simp⟩
  | s :: m, l, hl, hm => by
      obtain ⟨hs, hafter, hm'⟩ := gaps_cons.mp hm
      have hslt := lo_lt_hi hs
      obtain ⟨lower2, upper2, st2, hs2, hget⟩ := get_head_spec hm
      have hlo : s.lo = lower2.cut := by rw [hs2, lo_bounds]
      obtain ⟨kept, hrun, hg, hsub, hleft, hhead⟩ := discardBefore_spec tc st2.lower_side hl
      -- a discarded range contains neither `s` nor a range after it
      have hgone : ∀ r ∈ l, r ∉ kept → ∀ s' ∈ s :: m, ¬ s'.hi ≤ r.hi := by
        intro r hr hk s' hs' hle
        have h1 : r.hi ≤ s.lo := hlo ▸ (hleft r hr).resolve_left hk
        rcases List.mem_cons.mp hs' with hs' | hs'
        · subst hs'
          exact absurd (hslt.trans_le hle) (not_lt.mpr h1)
        · have h2 := lo_lt_hi (hm.nonempty (List.mem_cons_of_mem s hs'))
          exact absurd (((hslt.trans (hafter s' hs')).trans h2).trans_le hle) (not_lt.mpr h1)
      rw [containsLoop, hget]
      simp only [Except.bind, bind, hrun]
      cases kept with
      | nil =>
          refine ⟨false, rfl, iff_of_false (by simp) fun h => ?_⟩
          obtain ⟨r, hr, _, hle⟩ := h s List.mem_cons_self
          exact hgone r hr List.not_mem_nil s List.mem_cons_self hle
      | cons r kept =>
          obtain ⟨_, hnext, _⟩ := gaps_cons.mp hg
          obtain ⟨lower1, upper1, st1, hr1, hget1⟩ := get_head_spec hg
          have hcut : s.lo < r.hi := hlo ▸ hhead r rfl
          have hin : range_bounds_contains tc lower1 upper1 lower2 upper2 = true ↔ r.lo ≤ s.lo ∧ s.hi ≤ r.hi := by
            rw [range_bounds_contains_iff st1 st2, hr1, hs2]
            rfl
          simp only [List.isEmpty_cons, Bool.false_eq_true, if_false, hget1]
          cases h : range_bounds_contains tc lower1 upper1 lower2 upper2 with
          | false =>
              refine ⟨false, rfl, iff_of_false (by simp) fun hall => ?_⟩
              obtain ⟨r', hr', h1, h2⟩ := hall s List.mem_cons_self
              have hk : r' ∈ r :: kept := not_not.mp fun hk => hgone r' hr' hk s List.mem_cons_self h2
              rcases List.mem_cons.mp hk with hk | hk
              · subst hk
                rw [hin.mpr ⟨h1, h2⟩] at h
                cases h
              · -- a later range begins after `r` ends, and `s` begins before
                exact absurd h1 (not_le.mpr (hcut.trans (hnext r' hk)))
          | true =>
              obtain ⟨b, hb, hiff⟩ := containsLoop_spec m hg hm'
              refine ⟨b, hb, hiff.trans ⟨fun h' s' hs' => ?_, fun h' s' hs' => ?_⟩⟩
              · rcases List.mem_cons.mp hs' with hs' | hs'
                · subst hs'
                  exact ⟨r, hsub r List.mem_cons_self, hin.mp h⟩
                · obtain ⟨r', hr', h2⟩ := h' s' hs'
                  exact ⟨r', hsub r' hr', h2⟩
              · obtain ⟨r', hr', h2⟩ := h' s' (List.mem_cons_of_mem s hs')
                have hk : r' ∈ r :: kept :=
                  not_not.mp fun hk => hgone r' hr' hk s' (List.mem_cons_of_mem s hs') h2.2
                exact ⟨r', hk, h2⟩

/-! ## 3. The relations the operators stand for -/

/-- Strictly left of. -/
def Before (A B : Set α) : Prop := A.Nonempty ∧ B.Nonempty ∧ ∀ x ∈ A, ∀ y ∈ B, x < y

/-- Does not extend to the right of. -/
def Overleft (A B : Set α) : Prop := A.Nonempty ∧ B.Nonempty ∧ ∀ x ∈ A, ∃ y ∈ B, x ≤ y

/-- Does not extend to the left of. -/
def Overright (A B : Set α) : Prop := A.Nonempty ∧ B.Nonempty ∧ ∀ x ∈ A, ∃ y ∈ B, y ≤ x

/-- The one lies strictly left of the other, with no value between. -/
def Adjacent (A B : Set α) : Prop :=
  (Before A B ∧ ∀ z, ¬ ((∀ x ∈ A, x < z) ∧ ∀ y ∈ B, z < y)) ∨
    (Before B A ∧ ∀ z, ¬ ((∀ y ∈ B, y < z) ∧ ∀ x ∈ A, z < x))

/-- A test returns, and tells whether something holds. -/
def Decides (run : M Bool) (p : Prop) : Prop := ∃ b, run = .ok b ∧ (b = true ↔ p)

theorem Decides.no {p : Prop} (h : ¬ p) : Decides (.ok false) p := ⟨false, rfl, iff_of_false (by simp) h⟩

theorem Decides.of {b : Bool} {p : Prop} (h : b = true ↔ p) : Decides (.ok b) p := ⟨b, rfl, h⟩

theorem mem_points_of_mem (hr : r ∈ l) {x : α} (hx : x ∈ r.points) : x ∈ points l := ⟨r, hr, hx⟩

theorem points_nil : points ([] : List (RangeType α)) = ∅ := by
  simp [points]

theorem points_empty : (RangeType.empty : RangeType α).points = ∅ := rfl

variable {A B : Set α} {lo hi lo' hi' : Cut α}

/-- The relations hold between sets that have values only, by where these begin and end. -/
theorem before_ends (hA : Ends A lo hi) (hB : Ends B lo' hi') (ha : A.Nonempty) (hb : B.Nonempty) :
    hi ≤ lo' ↔ Before A B := by
  rw [hA.before_iff hB, Before]
  exact ⟨fun h => ⟨ha, hb, h⟩, fun h => h.2.2⟩

theorem overleft_ends (hA : Ends A lo hi) (hB : Ends B lo' hi') (ha : A.Nonempty) (hb : B.Nonempty) :
    hi ≤ hi' ↔ Overleft A B := by
  rw [hA.overleft_iff hB, Overleft]
  exact ⟨fun h => ⟨ha, hb, h⟩, fun h => h.2.2⟩

theorem overright_ends (hA : Ends A lo hi) (hB : Ends B lo' hi') (ha : A.Nonempty) (hb : B.Nonempty) :
    lo' ≤ lo ↔ Overright A B := by
  rw [hA.overright_iff hB, Overright]
  exact ⟨fun h => ⟨ha, hb, h⟩, fun h => h.2.2⟩

/-! ## 4. The outermost bounds -/

/-- The bounds of a multirange of one range are read once. -/
theorem same_of_single {b b' : RangeBound α × RangeBound α} (h : ¬ l.length > 1)
    (hfirst : multirange_get_bounds l 0 = .ok b) (hlast : multirange_get_bounds l (l.length - 1) = .ok b') : b = b' := by
  rw [show l.length - 1 = 0 by omega, hfirst] at hlast
  cases hlast
  rfl

section Dense

variable [Nonempty α] [DenselyOrdered α] [NoMinOrder α] [NoMaxOrder α]

/-- The lower bound of the first range and the upper bound of the last one. -/
structure Outer (l : List (RangeType α)) (lower upper : RangeBound α) : Prop where
  isEmpty : l.isEmpty = false
  get_first : ∃ b, multirange_get_bounds l 0 = .ok (lower, b)
  get_last : ∃ b, multirange_get_bounds l (l.length - 1) = .ok (b, upper)
  lower_side : lower.lower = true
  upper_side : upper.lower = false
  ends : Ends (points l) lower.cut upper.cut
  nonempty : (points l).Nonempty

/-- Every multirange that is not empty has outermost bounds. -/
theorem Gaps.outer (hg : Gaps l) (hne : l ≠ []) : ∃ lower upper, Outer l lower upper := by
  have hlen : 0 < l.length := List.length_pos_of_ne_nil hne
  obtain ⟨lower, b, st, hfirst, hget⟩ := get_bounds_spec hg hlen
  obtain ⟨b', upper, st', hlast, hget'⟩ := get_bounds_spec hg (i := l.length - 1) (by omega)
  have hpair := List.pairwise_iff_getElem.mp (List.pairwise_map.mp hg.gap)
  have hf : l[0] ∈ l := List.getElem_mem hlen
  have ht : l[l.length - 1] ∈ l := List.getElem_mem (by omega)
  have hlo : lower.cut = l[0].lo := by rw [hfirst, lo_bounds]
  have hhi : upper.cut = l[l.length - 1].hi := by rw [hlast, hi_bounds]
  refine ⟨lower, upper, by simpa using hne, ⟨b, hget⟩, ⟨b', hget'⟩, st.lower_side, st'.upper_side, ?_, ?_⟩
  · rw [hlo, hhi]
    refine ⟨fun x hx => ?_, fun c hc => ?_, fun c hc => ?_⟩
    · obtain ⟨r, hr, hx⟩ := hx
      obtain ⟨h1, h2⟩ := mem_points.mp hx
      obtain ⟨i, hi, rfl⟩ := List.getElem_of_mem hr
      constructor
      · rcases Nat.eq_zero_or_pos i with h | h
        · subst h
          exact h1
        · exact ((lo_lt_hi (hg.nonempty hf)).trans (hpair 0 i hlen hi h)).le.trans h1
      · rcases Nat.lt_or_ge i (l.length - 1) with h | h
        · exact h2.trans ((hpair i (l.length - 1) hi (by omega) h).trans (lo_lt_hi (hg.nonempty ht)))
        · have hi : i = l.length - 1 := by omega
          subst hi
          exact h2
    · obtain ⟨x, hx, h⟩ := (points_ends (hg.nonempty hf)).first c hc
      exact ⟨x, mem_points_of_mem hf hx, h⟩
    · obtain ⟨x, hx, h⟩ := (points_ends (hg.nonempty ht)).last c hc
      exact ⟨x, mem_points_of_mem ht hx, h⟩
  · obtain ⟨x, hx⟩ := points_nonempty (hg.nonempty hf)
    exact ⟨x, mem_points_of_mem hf hx⟩

theorem adjacent_ends (hA : Ends A lo hi) (hB : Ends B lo' hi') (ha : A.Nonempty) (hb : B.Nonempty) :
    hi = lo' ∨ hi' = lo ↔ Adjacent A B := by
  rw [hA.meet_iff hB, hB.meet_iff hA, Adjacent, Before, Before]
  simp [ha, hb]

/-! ## 5. The tests -/

/-- A test of two multiranges that tells nothing of empty ones. -/
theorem decides_both {test : M Bool} {p : Prop} (hl : Gaps l) (hm : Gaps m) (h0 : l = [] ∨ m = [] → test = .ok false)
    (hp : p → (points l).Nonempty ∧ (points m).Nonempty)
    (h : ∀ lower1 upper1 lower2 upper2, Outer l lower1 upper1 → Outer m lower2 upper2 → Decides test p) :
    Decides test p := by
  by_cases hll : l = []
  · rw [h0 (.inl hll)]
    refine .no fun hh => absurd (hp hh).1 ?_
    rw [hll, points_nil]
    exact Set.not_nonempty_empty
  by_cases hmm : m = []
  · rw [h0 (.inr hmm)]
    refine .no fun hh => absurd (hp hh).2 ?_
    rw [hmm, points_nil]
    exact Set.not_nonempty_empty
  obtain ⟨lower1, upper1, ho1⟩ := hl.outer hll
  obtain ⟨lower2, upper2, ho2⟩ := hm.outer hmm
  exact h lower1 upper1 lower2 upper2 ho1 ho2

/-- A test of a range and a multirange that tells nothing of empty ones. -/
theorem decides_range (test : RangeType α → M Bool) {p : Prop} (hl : Gaps l) (r : RangeType α)
    (h0 : test .empty = .ok false) (h1 : l = [] → ∀ r, test r = .ok false)
    (hp : p → r.points.Nonempty ∧ (points l).Nonempty)
    (h : ∀ lower1 upper1 st, r = .bounds lower1 upper1 st → ∀ lower2 upper2, Outer l lower2 upper2 →
      Ends r.points lower1.cut upper1.cut → r.points.Nonempty → Decides (test r) p) : Decides (test r) p := by
  cases hr : r.isEmpty with
  | true =>
      have hre : r = .empty := eq_empty hr
      subst hre
      rw [h0]
      exact .no fun hh => absurd (hp hh).1 Set.not_nonempty_empty
  | false =>
      by_cases hll : l = []
      · rw [h1 hll r]
        refine .no fun hh => absurd (hp hh).2 ?_
        rw [hll, points_nil]
        exact Set.not_nonempty_empty
      obtain ⟨lower2, upper2, ho⟩ := hl.outer hll
      obtain ⟨lower1, upper1, st, hb⟩ := exists_bounds hr
      have hends := points_ends hr
      have hne := points_nonempty hr
      refine h lower1 upper1 st hb lower2 upper2 ho ?_ hne
      rw [hb] at hends ⊢
      exact hends

variable (tc : TypeCacheEntry α)

theorem overlaps_multirange_spec (hl : Gaps l) (hm : Gaps m) :
    Decides (multirange_overlaps_multirange_internal tc l m) (points l ∩ points m).Nonempty := by
  have hiff : (points l ∩ points m).Nonempty ↔ ∃ r ∈ l, ∃ s ∈ m, r.lo < s.hi ∧ s.lo < r.hi := by
    constructor
    · intro h
      obtain ⟨x, ⟨r, hr, hx⟩, ⟨s, hs, hy⟩⟩ := h
      exact ⟨r, hr, s, hs, (inter_points_iff (hl.nonempty hr) (hm.nonempty hs)).mp ⟨x, hx, hy⟩⟩
    · intro h
      obtain ⟨r, hr, s, hs, h⟩ := h
      obtain ⟨x, hx, hy⟩ := (inter_points_iff (hl.nonempty hr) (hm.nonempty hs)).mpr h
      exact ⟨x, ⟨r, hr, hx⟩, s, hs, hy⟩
  rw [hiff, multirange_overlaps_multirange_internal]
  by_cases h : (l.isEmpty || m.isEmpty) = true
  · rw [if_pos h]
    rw [Bool.or_eq_true, List.isEmpty_iff, List.isEmpty_iff] at h
    refine .no ?_
    rcases h with h | h <;> simp [h]
  · rw [if_neg h]
    exact overlapsLoop_spec m hl hm

theorem contains_multirange_spec (hl : Gaps l) (hm : Gaps m) :
    Decides (multirange_contains_multirange_internal tc l m) (points m ⊆ points l) := by
  have hiff : points m ⊆ points l ↔ ∀ s ∈ m, ∃ r ∈ l, r.lo ≤ s.lo ∧ s.hi ≤ r.hi := by
    constructor
    · intro h s hs
      exact (subset_points_iff hl (hm.nonempty hs)).mp fun x hx => h ⟨s, hs, hx⟩
    · intro h x hx
      obtain ⟨s, hs, hx⟩ := hx
      exact (subset_points_iff hl (hm.nonempty hs)).mpr (h s hs) hx
  rw [hiff, multirange_contains_multirange_internal]
  by_cases h2 : m.length = 0
  · rw [if_pos h2]
    exact .of (iff_of_true rfl (by simp [List.length_eq_zero_iff.mp h2]))
  rw [if_neg h2]
  by_cases h1 : l.length = 0
  · rw [if_pos h1]
    obtain ⟨s, hs⟩ := List.exists_mem_of_length_pos (Nat.pos_of_ne_zero h2)
    refine .no fun h => ?_
    obtain ⟨r, hr, _⟩ := h s hs
    rw [List.length_eq_zero_iff.mp h1] at hr
    exact absurd hr List.not_mem_nil
  · rw [if_neg h1]
    exact containsLoop_spec m hl hm

/-- A range contains a multirange when it contains its outermost bounds. -/
theorem range_contains_spec (hl : Gaps l) (r : RangeType α) :
    Decides (range_contains_multirange_internal tc r l) (points l ⊆ r.points) := by
  by_cases hll : l = []
  · subst hll
    exact .of (iff_of_true rfl (by simp [points_nil]))
  obtain ⟨lower2, upper2, ho⟩ := hl.outer hll
  obtain ⟨u, hfirst⟩ := ho.get_first
  obtain ⟨v, hlast⟩ := ho.get_last
  cases r with
  | empty =>
      simp only [range_contains_multirange_internal, ho.isEmpty, Bool.false_eq_true, if_false]
      refine .no fun h => ?_
      obtain ⟨x, hx⟩ := ho.nonempty
      exact absurd (h hx) (Set.notMem_empty x)
  | bounds lower1 upper1 st =>
      have hends := points_ends (r := .bounds lower1 upper1 st) rfl
      simp only [range_contains_multirange_internal, ho.isEmpty, hfirst, hlast, Except.bind, bind, Bool.false_eq_true,
        if_false]
      refine .of ?_
      rw [range_bounds_contains, Bool.and_eq_true, decide_eq_true_iff, decide_eq_true_iff,
        cmp_same_nonpos tc (st.lower_side.trans ho.lower_side.symm),
        cmp_same_nonneg tc (st.upper_side.trans ho.upper_side.symm)]
      constructor
      · intro h x hx
        obtain ⟨h1, h2⟩ := ho.ends.inside x hx
        exact mem_points.mpr ⟨h.1.trans h1, h2.trans_le h.2⟩
      · intro h
        constructor
        · exact (ho.ends.overright_iff hends).mpr fun x hx => ⟨x, h hx, le_rfl⟩
        · exact (ho.ends.overleft_iff hends).mpr fun x hx => ⟨x, h hx, le_rfl⟩

theorem before_spec (hl : Gaps l) (hm : Gaps m) :
    Decides (multirange_before_multirange_internal tc l m) (Before (points l) (points m)) := by
  refine decides_both hl hm (fun h => ?_) (fun h => ⟨h.1, h.2.1⟩) fun lower1 upper1 lower2 upper2 h1 h2 => ?_
  · rcases h with h | h <;> simp [multirange_before_multirange_internal, h]
  obtain ⟨u, hlast⟩ := h1.get_last
  obtain ⟨v, hfirst⟩ := h2.get_first
  simp only [multirange_before_multirange_internal, h1.isEmpty, h2.isEmpty, hlast, hfirst, Except.bind, bind,
    Bool.or_self, Bool.false_eq_true, if_false]
  refine .of ?_
  rw [decide_eq_true_iff, cmp_upper_lower tc h1.upper_side h2.lower_side]
  exact before_ends h1.ends h2.ends h1.nonempty h2.nonempty

theorem range_before_spec (hl : Gaps l) (r : RangeType α) :
    Decides (range_before_multirange_internal tc r l) (Before r.points (points l)) := by
  refine decides_range (range_before_multirange_internal tc · l) hl r rfl (fun h r => ?_)
    (fun h => ⟨h.1, h.2.1⟩) fun lower1 upper1 st hr lower2 upper2 h2 hends hne => ?_
  · cases r <;> simp [range_before_multirange_internal, h]
  obtain ⟨v, hfirst⟩ := h2.get_first
  simp only [hr, range_before_multirange_internal, h2.isEmpty, hfirst, Except.bind, bind, Bool.false_eq_true, if_false]
  rw [hr] at hends hne
  refine .of ?_
  rw [decide_eq_true_iff, cmp_upper_lower tc st.upper_side h2.lower_side]
  exact before_ends hends h2.ends hne h2.nonempty

theorem range_after_spec (hl : Gaps l) (r : RangeType α) :
    Decides (range_after_multirange_internal tc r l) (Before (points l) r.points) := by
  refine decides_range (range_after_multirange_internal tc · l) hl r rfl (fun h r => ?_)
    (fun h => ⟨h.2.1, h.1⟩) fun lower1 upper1 st hr lower2 upper2 h2 hends hne => ?_
  · cases r <;> simp [range_after_multirange_internal, h]
  obtain ⟨v, hlast⟩ := h2.get_last
  simp only [hr, range_after_multirange_internal, h2.isEmpty, hlast, Except.bind, bind, Bool.false_eq_true, if_false]
  rw [hr] at hends hne
  refine .of ?_
  rw [decide_eq_true_iff, cmp_lower_upper_pos tc st.lower_side h2.upper_side]
  exact before_ends h2.ends hends h2.nonempty hne

theorem overleft_spec (hl : Gaps l) (hm : Gaps m) :
    Decides (multirange_overleft_multirange tc l m) (Overleft (points l) (points m)) := by
  refine decides_both hl hm (fun h => ?_) (fun h => ⟨h.1, h.2.1⟩) fun lower1 upper1 lower2 upper2 h1 h2 => ?_
  · rcases h with h | h <;> simp [multirange_overleft_multirange, h]
  obtain ⟨u, hlast1⟩ := h1.get_last
  obtain ⟨v, hlast2⟩ := h2.get_last
  simp only [multirange_overleft_multirange, h1.isEmpty, h2.isEmpty, hlast1, hlast2, Except.bind, bind,
    Bool.or_self, Bool.false_eq_true, if_false]
  refine .of ?_
  rw [decide_eq_true_iff, cmp_same_nonpos tc (h1.upper_side.trans h2.upper_side.symm)]
  exact overleft_ends h1.ends h2.ends h1.nonempty h2.nonempty

theorem range_overleft_spec (hl : Gaps l) (r : RangeType α) :
    Decides (range_overleft_multirange_internal tc r l) (Overleft r.points (points l)) := by
  refine decides_range (range_overleft_multirange_internal tc · l) hl r rfl (fun h r => ?_)
    (fun h => ⟨h.1, h.2.1⟩) fun lower1 upper1 st hr lower2 upper2 h2 hends hne => ?_
  · cases r <;> simp [range_overleft_multirange_internal, h]
  obtain ⟨v, hlast⟩ := h2.get_last
  simp only [hr, range_overleft_multirange_internal, h2.isEmpty, hlast, Except.bind, bind, Bool.false_eq_true, if_false]
  rw [hr] at hends hne
  refine .of ?_
  rw [decide_eq_true_iff, cmp_same_nonpos tc (st.upper_side.trans h2.upper_side.symm)]
  exact overleft_ends hends h2.ends hne h2.nonempty

theorem overleft_range_spec (hl : Gaps l) (r : RangeType α) :
    Decides (multirange_overleft_range tc l r) (Overleft (points l) r.points) := by
  refine decides_range (multirange_overleft_range tc l) hl r ?_ (fun h r => ?_)
    (fun h => ⟨h.2.1, h.1⟩) fun lower1 upper1 st hr lower2 upper2 h2 hends hne => ?_
  · simp [multirange_overleft_range]
  · simp [multirange_overleft_range, h]
  obtain ⟨v, hlast⟩ := h2.get_last
  simp only [hr, multirange_overleft_range, h2.isEmpty, hlast, Except.bind, bind, Bool.false_eq_true, if_false]
  rw [hr] at hends hne
  refine .of ?_
  rw [decide_eq_true_iff, cmp_same_nonpos tc (h2.upper_side.trans st.upper_side.symm)]
  exact overleft_ends h2.ends hends h2.nonempty hne

theorem overright_spec (hl : Gaps l) (hm : Gaps m) :
    Decides (multirange_overright_multirange tc l m) (Overright (points l) (points m)) := by
  refine decides_both hl hm (fun h => ?_) (fun h => ⟨h.1, h.2.1⟩) fun lower1 upper1 lower2 upper2 h1 h2 => ?_
  · rcases h with h | h <;> simp [multirange_overright_multirange, h]
  obtain ⟨u, hfirst1⟩ := h1.get_first
  obtain ⟨v, hfirst2⟩ := h2.get_first
  simp only [multirange_overright_multirange, h1.isEmpty, h2.isEmpty, hfirst1, hfirst2, Except.bind, bind,
    Bool.or_self, Bool.false_eq_true, if_false]
  refine .of ?_
  rw [decide_eq_true_iff, cmp_same_nonneg tc (h1.lower_side.trans h2.lower_side.symm)]
  exact overright_ends h1.ends h2.ends h1.nonempty h2.nonempty

theorem range_overright_spec (hl : Gaps l) (r : RangeType α) :
    Decides (range_overright_multirange_internal tc r l) (Overright r.points (points l)) := by
  refine decides_range (range_overright_multirange_internal tc · l) hl r rfl (fun h r => ?_)
    (fun h => ⟨h.1, h.2.1⟩) fun lower1 upper1 st hr lower2 upper2 h2 hends hne => ?_
  · cases r <;> simp [range_overright_multirange_internal, h]
  obtain ⟨v, hfirst⟩ := h2.get_first
  simp only [hr, range_overright_multirange_internal, h2.isEmpty, hfirst, Except.bind, bind, Bool.false_eq_true,
    if_false]
  rw [hr] at hends hne
  refine .of ?_
  rw [decide_eq_true_iff, cmp_same_nonneg tc (st.lower_side.trans h2.lower_side.symm)]
  exact overright_ends hends h2.ends hne h2.nonempty

theorem overright_range_spec (hl : Gaps l) (r : RangeType α) :
    Decides (multirange_overright_range tc l r) (Overright (points l) r.points) := by
  refine decides_range (multirange_overright_range tc l) hl r ?_ (fun h r => ?_)
    (fun h => ⟨h.2.1, h.1⟩) fun lower1 upper1 st hr lower2 upper2 h2 hends hne => ?_
  · simp [multirange_overright_range]
  · simp [multirange_overright_range, h]
  obtain ⟨v, hfirst⟩ := h2.get_first
  simp only [hr, multirange_overright_range, h2.isEmpty, hfirst, Except.bind, bind, Bool.false_eq_true, if_false]
  rw [hr] at hends hne
  refine .of ?_
  rw [decide_eq_true_iff, cmp_same_nonneg tc (h2.lower_side.trans st.lower_side.symm)]
  exact overright_ends h2.ends hends h2.nonempty hne

theorem adjacent_spec (hl : Gaps l) (hm : Gaps m) :
    Decides (multirange_adjacent_multirange tc l m) (Adjacent (points l) (points m)) := by
  refine decides_both hl hm (fun h => ?_) (fun h => ?_) fun lower1 upper1 lower2 upper2 h1 h2 => ?_
  · rcases h with h | h <;> simp [multirange_adjacent_multirange, h]
  · rcases h with h | h
    · exact ⟨h.1.1, h.1.2.1⟩
    · exact ⟨h.1.2.1, h.1.1⟩
  obtain ⟨u1, hfirst1⟩ := h1.get_first
  obtain ⟨v1, hlast1⟩ := h1.get_last
  obtain ⟨u2, hfirst2⟩ := h2.get_first
  obtain ⟨v2, hlast2⟩ := h2.get_last
  have hiff := adjacent_ends h1.ends h2.ends h1.nonempty h2.nonempty
  rw [← bounds_adjacent_iff tc h1.upper_side h2.lower_side,
    ← bounds_adjacent_iff tc h2.upper_side h1.lower_side] at hiff
  simp only [multirange_adjacent_multirange, h1.isEmpty, h2.isEmpty, hlast1, hfirst2, Except.bind, bind,
    Bool.or_self, Bool.false_eq_true, if_false]
  by_cases hadj : bounds_adjacent tc upper1 lower2 = true
  · rw [if_pos hadj]
    exact .of (iff_of_true rfl (hiff.mp (.inl hadj)))
  · rw [if_neg hadj]
    have hlast : bounds_adjacent tc upper2 lower1 = true ↔ Adjacent (points l) (points m) := by
      rw [← hiff]
      simp [hadj]
    by_cases hll : l.length > 1
    · rw [if_pos hll]
      simp only [hfirst1]
      by_cases hmm : m.length > 1
      · simpa only [if_pos hmm, hlast2] using .of hlast
      · cases same_of_single hmm hfirst2 hlast2
        simpa only [if_neg hmm] using .of hlast
    · cases same_of_single hll hfirst1 hlast1
      rw [if_neg hll]
      by_cases hmm : m.length > 1
      · simpa only [if_pos hmm, hlast2] using .of hlast
      · cases same_of_single hmm hfirst2 hlast2
        simpa only [if_neg hmm] using .of hlast

theorem range_adjacent_spec (hl : Gaps l) (r : RangeType α) :
    Decides (range_adjacent_multirange_internal tc r l) (Adjacent r.points (points l)) := by
  refine decides_range (range_adjacent_multirange_internal tc · l) hl r rfl (fun h r => ?_) (fun h => ?_)
    fun lower1 upper1 st hr lower2 upper2 h2 hends hne => ?_
  · cases r <;> simp [range_adjacent_multirange_internal, h]
  · rcases h with h | h
    · exact ⟨h.1.1, h.1.2.1⟩
    · exact ⟨h.1.2.1, h.1.1⟩
  obtain ⟨u2, hfirst2⟩ := h2.get_first
  obtain ⟨v2, hlast2⟩ := h2.get_last
  have hiff := adjacent_ends hends h2.ends hne h2.nonempty
  rw [← bounds_adjacent_iff tc st.upper_side h2.lower_side,
    ← bounds_adjacent_iff tc h2.upper_side st.lower_side] at hiff
  rw [hr] at hiff
  simp only [hr, range_adjacent_multirange_internal, h2.isEmpty, hfirst2, Except.bind, bind, Bool.false_eq_true, if_false]
  by_cases hadj : bounds_adjacent tc upper1 lower2 = true
  · rw [if_pos hadj]
    exact .of (iff_of_true rfl (hiff.mp (.inl hadj)))
  · rw [if_neg hadj]
    have hlast : bounds_adjacent tc upper2 lower1 = true ↔
        Adjacent (RangeType.bounds lower1 upper1 st).points (points l) := by
      rw [← hiff]
      simp [hadj]
    by_cases hll : l.length > 1
    · simpa only [if_pos hll, hlast2] using .of hlast
    · cases same_of_single hll hfirst2 hlast2
      simpa only [if_neg hll] using .of hlast

/-- **The tests on multiranges** over a dense order without ends, against each other and against a range. -/
theorem multirange_tests (tc : TypeCacheEntry α) (mr1 mr2 : MultirangeType tc) (r : RangeType α) :
    (Decides (multirange_overlaps_multirange_internal tc mr1.ranges mr2.ranges)
        (points mr1.ranges ∩ points mr2.ranges).Nonempty ∧
      Decides (multirange_contains_multirange_internal tc mr1.ranges mr2.ranges)
        (points mr2.ranges ⊆ points mr1.ranges) ∧
      Decides (range_contains_multirange_internal tc r mr1.ranges) (points mr1.ranges ⊆ r.points)) ∧
    (Decides (multirange_before_multirange_internal tc mr1.ranges mr2.ranges)
        (Before (points mr1.ranges) (points mr2.ranges)) ∧
      Decides (range_before_multirange_internal tc r mr1.ranges) (Before r.points (points mr1.ranges)) ∧
      Decides (range_after_multirange_internal tc r mr1.ranges) (Before (points mr1.ranges) r.points)) ∧
    (Decides (multirange_overleft_multirange tc mr1.ranges mr2.ranges)
        (Overleft (points mr1.ranges) (points mr2.ranges)) ∧
      Decides (range_overleft_multirange_internal tc r mr1.ranges) (Overleft r.points (points mr1.ranges)) ∧
      Decides (multirange_overleft_range tc mr1.ranges r) (Overleft (points mr1.ranges) r.points)) ∧
    (Decides (multirange_overright_multirange tc mr1.ranges mr2.ranges)
        (Overright (points mr1.ranges) (points mr2.ranges)) ∧
      Decides (range_overright_multirange_internal tc r mr1.ranges) (Overright r.points (points mr1.ranges)) ∧
      Decides (multirange_overright_range tc mr1.ranges r) (Overright (points mr1.ranges) r.points)) ∧
    Decides (multirange_adjacent_multirange tc mr1.ranges mr2.ranges)
      (Adjacent (points mr1.ranges) (points mr2.ranges)) ∧
    Decides (range_adjacent_multirange_internal tc r mr1.ranges) (Adjacent r.points (points mr1.ranges)) := by
  have h1 := mr1.gaps
  have h2 := mr2.gaps
  refine ⟨⟨?_, ?_, range_contains_spec tc h1 r⟩,
    ⟨before_spec tc h1 h2, range_before_spec tc h1 r, range_after_spec tc h1 r⟩,
    ⟨overleft_spec tc h1 h2, range_overleft_spec tc h1 r, overleft_range_spec tc h1 r⟩,
    ⟨overright_spec tc h1 h2, range_overright_spec tc h1 r, overright_range_spec tc h1 r⟩,
    adjacent_spec tc h1 h2, range_adjacent_spec tc h1 r⟩
  · exact overlaps_multirange_spec tc h1 h2
  · exact contains_multirange_spec tc h1 h2

/-- The numbers from one on overlap themselves. -/
theorem multirange_tests_numrange : ∃ mr : MultirangeType numrange, points mr.ranges = {x | 1 ≤ x} ∧
    multirange_overlaps_multirange_internal numrange mr.ranges mr.ranges = .ok true := by
  obtain ⟨ranges, hrun, _, hcov⟩ := canonicalize_spec numrange
    [.bounds ⟨some 1, true, true⟩ ⟨none, false, false⟩ ⟨rfl, rfl, by simp, by simp, by simp⟩]
  have hpoints : points ranges = {x | 1 ≤ x} := by
    refine points_congr fun x => ?_
    rw [hcov, ← mem_points_iff]
    simp [points, RangeType.points, RangeBound.Admits, le_iff_lt_or_eq]
  obtain ⟨⟨⟨b, hb, hiff⟩, _⟩, _⟩ := multirange_tests numrange ⟨ranges, _, hrun⟩ ⟨ranges, _, hrun⟩ .empty
  refine ⟨⟨ranges, _, hrun⟩, hpoints, ?_⟩
  rw [hb, hiff.mpr ⟨1, by simp [hpoints]⟩]

end Dense

end Pgvec.MultirangeOps
