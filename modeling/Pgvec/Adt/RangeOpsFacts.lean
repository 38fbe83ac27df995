/-
  File:      Pgvec/Adt/RangeOpsFacts.lean
  Subject:   RANGES AS SPANS BETWEEN CUTS: what the comparisons and the operations of `rangetypes.c` mean for the
             two cuts of a range, and the values that lie in it.

  A lower bound is the cut just below the values it admits, an upper bound the one just above them. So
  `range_cmp_bounds` compares the cuts of bounds on the same side, and of bounds on different sides it tells
  whether the lower one stands strictly before the upper one.

  * `cmp_same_neg`, `cmp_same_zero`, `cmp_lower_upper`, `cmp_upper_lower` -- the four comparisons;
  * `make_range_spec` -- the range between two bounds in order;
  * `before_iff`, `adjacent_iff`, `overlaps_iff`, `overleft_iff` -- the tests;
  * `minus_spec`, `union_spec`, `intersect_spec`, `split_spec` -- the operations;
  * **`mem_points`** -- the values of a range are those between its cuts.
-/
import Pgvec.Adt.RangeOps
import Pgvec.Lib.Cuts

namespace Pgvec.RangeOps

open Cuts

variable {α : Type}

/-! ## 1. The cut of a bound -/

/-- The cut at a bound: all that a lower bound admits is above it, all that an upper bound admits is below it. -/
def RangeBound.cut (b : RangeBound α) : Cut α :=
  match b.val with
  | none => if b.lower then ⊥ else ⊤
  | some v => if b.lower = b.inclusive then below v else above v

/-- A finite bound flipped to the other side has the same cut. -/
theorem RangeBound.cut_flip {b : RangeBound α} (side : Bool) (h : b.val ≠ none) (hs : b.lower = !side) :
    (b.flip side).cut = b.cut := by
  obtain ⟨bv, bi, bl⟩ := b
  have hs : bl = !side := hs
  subst hs
  cases bv with
  | none => exact absurd rfl h
  | some v => cases side <;> cases bi <;> simp [RangeBound.cut, RangeBound.flip]

theorem RangeBound.cut_emit {a : RangeBound α} {side : Bool} (h : a.lower = side) : (a.emit side).cut = a.cut := by
  obtain ⟨v, i, l⟩ := a
  have h : l = side := h
  subst h
  cases v <;> simp [RangeBound.emit, RangeBound.cut, RangeBound.infinite]

variable [LinearOrder α] (tc : TypeCacheEntry α) {a b : RangeBound α} {r s t : RangeType α} {x : α}

theorem TypeCacheEntry.cmp_pos {v w : α} : 0 < tc.rng_cmp_proc v w ↔ w < v := by
  have h1 := tc.cmp_neg v w
  have h2 := tc.cmp_zero v w
  constructor
  · intro h
    have hne : v ≠ w := fun he => by rw [h2.mpr he] at h; exact lt_irrefl _ h
    have hnlt : ¬ v < w := fun hl => absurd (h1.mpr hl) (by omega)
    exact lt_of_le_of_ne (not_lt.mp hnlt) hne.symm
  · intro h
    have hn : ¬ tc.rng_cmp_proc v w < 0 := fun hl => absurd (h1.mp hl) (not_lt.mpr h.le)
    have hz : tc.rng_cmp_proc v w ≠ 0 := fun hz => absurd (h2.mp hz) h.ne'
    omega

/-- The three outcomes of the comparison function. -/
theorem TypeCacheEntry.cmp_cases (v w : α) :
    (tc.rng_cmp_proc v w < 0 ∧ v < w) ∨ (tc.rng_cmp_proc v w = 0 ∧ v = w) ∨ (0 < tc.rng_cmp_proc v w ∧ w < v) := by
  rcases lt_trichotomy v w with h | h | h
  · exact .inl ⟨(tc.cmp_neg v w).mpr h, h⟩
  · exact .inr (.inl ⟨(tc.cmp_zero v w).mpr h, h⟩)
  · exact .inr (.inr ⟨tc.cmp_pos.mpr h, h⟩)

section Finite

variable {v w : α} (i l i' l' : Bool)

theorem cmp_finite_lt (h : v < w) : range_cmp_bounds tc ⟨some v, i, l⟩ ⟨some w, i', l'⟩ < 0 := by
  have hc := (tc.cmp_neg v w).mpr h
  have hne : tc.rng_cmp_proc v w ≠ 0 := by omega
  simpa [range_cmp_bounds, hne] using hc

theorem cmp_finite_gt (h : w < v) : 0 < range_cmp_bounds tc ⟨some v, i, l⟩ ⟨some w, i', l'⟩ := by
  have hc := tc.cmp_pos.mpr h
  have hne : tc.rng_cmp_proc v w ≠ 0 := by omega
  simpa [range_cmp_bounds, hne] using hc

theorem cmp_finite_eq : range_cmp_bounds tc ⟨some v, i, l⟩ ⟨some v, i', l'⟩ =
    cmpInclusive (⟨some v, i, l⟩ : RangeBound α) ⟨some v, i', l'⟩ := by
  simp [range_cmp_bounds, (tc.cmp_zero v v).mpr rfl]

end Finite

/-! ## 2. Comparing bounds -/

/-- **Bounds on the same side** compare as their cuts do. -/
theorem cmp_same (h : a.lower = b.lower) :
    (range_cmp_bounds tc a b < 0 ↔ a.cut < b.cut) ∧ (0 < range_cmp_bounds tc a b ↔ b.cut < a.cut) := by
  obtain ⟨av, ai, al⟩ := a
  obtain ⟨bv, bi, bl⟩ := b
  have h : al = bl := h
  subst h
  cases av with
  | none =>
      cases bv with
      | none => cases al <;> simp [range_cmp_bounds, RangeBound.cut]
      | some w => cases al <;> cases bi <;> simp [range_cmp_bounds, RangeBound.cut]
  | some v =>
      cases bv with
      | none => cases al <;> cases ai <;> simp [range_cmp_bounds, RangeBound.cut]
      | some w =>
          rcases lt_trichotomy v w with hv | rfl | hv
          · have hc := cmp_finite_lt tc ai al bi al hv
            have hn : ¬ 0 < range_cmp_bounds tc ⟨some v, ai, al⟩ ⟨some w, bi, al⟩ := by omega
            simp only [hc, hn, true_iff, false_iff]
            cases al <;> cases ai <;> cases bi <;> simp [RangeBound.cut, hv, hv.le]
          · rw [cmp_finite_eq]
            cases al <;> cases ai <;> cases bi <;> simp [cmpInclusive, RangeBound.cut]
          · have hc := cmp_finite_gt tc ai al bi al hv
            have hn : ¬ range_cmp_bounds tc ⟨some v, ai, al⟩ ⟨some w, bi, al⟩ < 0 := by omega
            simp only [hc, hn, true_iff, false_iff]
            cases al <;> cases ai <;> cases bi <;> simp [RangeBound.cut, hv, hv.le]

theorem cmp_same_neg (h : a.lower = b.lower) : range_cmp_bounds tc a b < 0 ↔ a.cut < b.cut := (cmp_same tc h).1

theorem cmp_same_pos (h : a.lower = b.lower) : range_cmp_bounds tc a b > 0 ↔ b.cut < a.cut := (cmp_same tc h).2

theorem cmp_same_nonneg (h : a.lower = b.lower) : range_cmp_bounds tc a b ≥ 0 ↔ b.cut ≤ a.cut := by
  rw [← not_lt, ← cmp_same_neg tc h]
  omega

theorem cmp_same_nonpos (h : a.lower = b.lower) : range_cmp_bounds tc a b ≤ 0 ↔ a.cut ≤ b.cut := by
  have hpos := cmp_same_pos tc h
  constructor
  · intro hle
    exact not_lt.mp fun hlt => absurd (hpos.mpr hlt) (by omega)
  · intro hle
    exact Int.not_lt.mp fun hlt => absurd (hpos.mp hlt) (not_lt.mpr hle)

theorem cmp_same_zero (h : a.lower = b.lower) : range_cmp_bounds tc a b = 0 ↔ a.cut = b.cut := by
  have h1 := cmp_same_nonpos tc h
  have h2 := cmp_same_nonneg tc h
  rw [le_antisymm_iff (a := a.cut), ← h1, ← h2]
  omega

/-- **A lower bound against an upper one**: whether the cuts are in order. -/
theorem cmp_lower_upper (ha : a.lower = true) (hb : b.lower = false) :
    range_cmp_bounds tc a b ≤ 0 ↔ a.cut < b.cut := by
  obtain ⟨av, ai, al⟩ := a
  obtain ⟨bv, bi, bl⟩ := b
  have ha : al = true := ha
  have hb : bl = false := hb
  subst ha hb
  cases av with
  | none =>
      cases bv with
      | none => simp [range_cmp_bounds, RangeBound.cut]
      | some w => cases bi <;> simp [range_cmp_bounds, RangeBound.cut]
  | some v =>
      cases bv with
      | none => cases ai <;> simp [range_cmp_bounds, RangeBound.cut]
      | some w =>
          rcases lt_trichotomy v w with hv | rfl | hv
          · have hc := cmp_finite_lt tc ai true bi false hv
            simp only [hc.le, true_iff]
            cases ai <;> cases bi <;> simp [RangeBound.cut, hv, hv.le]
          · rw [cmp_finite_eq]
            cases ai <;> cases bi <;> simp [cmpInclusive, RangeBound.cut]
          · have hc := cmp_finite_gt tc ai true bi false hv
            have hn : ¬ range_cmp_bounds tc ⟨some v, ai, true⟩ ⟨some w, bi, false⟩ ≤ 0 := by omega
            simp only [hn, false_iff]
            cases ai <;> cases bi <;> simp [RangeBound.cut, hv, hv.le]

/-- Comparing two bounds the other way round. -/
theorem cmp_swap (a b : RangeBound α) : range_cmp_bounds tc b a < 0 ↔ range_cmp_bounds tc a b > 0 := by
  obtain ⟨av, ai, al⟩ := a
  obtain ⟨bv, bi, bl⟩ := b
  cases av with
  | none =>
      cases bv with
      | none => cases al <;> cases bl <;> simp [range_cmp_bounds]
      | some w => cases al <;> simp [range_cmp_bounds]
  | some v =>
      cases bv with
      | none => cases bl <;> simp [range_cmp_bounds]
      | some w =>
          rcases lt_trichotomy v w with hv | rfl | hv
          · have h1 := cmp_finite_lt tc ai al bi bl hv
            have h2 := cmp_finite_gt tc bi bl ai al hv
            omega
          · rw [cmp_finite_eq, cmp_finite_eq]
            cases al <;> cases bl <;> cases ai <;> cases bi <;> simp [cmpInclusive]
          · have h1 := cmp_finite_gt tc ai al bi bl hv
            have h2 := cmp_finite_lt tc bi bl ai al hv
            omega

/-- **An upper bound against a lower one**. -/
theorem cmp_upper_lower (ha : a.lower = false) (hb : b.lower = true) :
    range_cmp_bounds tc a b < 0 ↔ a.cut ≤ b.cut := by
  rw [cmp_swap, ← not_lt, ← cmp_lower_upper tc hb ha]
  omega

theorem cmp_lower_upper_pos (ha : a.lower = true) (hb : b.lower = false) :
    range_cmp_bounds tc a b > 0 ↔ b.cut ≤ a.cut := by
  rw [← not_lt, ← cmp_lower_upper tc ha hb]
  omega

theorem cmp_upper_lower_nonneg (ha : a.lower = false) (hb : b.lower = true) :
    range_cmp_bounds tc a b ≥ 0 ↔ b.cut < a.cut := by
  rw [← not_le, ← cmp_upper_lower tc ha hb]
  omega

/-- The values of a lower and an upper bound in order compare as `range_serialize` wants them. -/
theorem values_of_cut_lt (ha : a.lower = true) (hb : b.lower = false) (h : a.cut < b.cut) :
    range_cmp_bound_values tc a b < 0 ∨
      range_cmp_bound_values tc a b = 0 ∧ a.inclusive = true ∧ b.inclusive = true := by
  obtain ⟨av, ai, al⟩ := a
  obtain ⟨bv, bi, bl⟩ := b
  have ha : al = true := ha
  have hb : bl = false := hb
  subst ha hb
  cases av with
  | none => cases bv <;> simp [range_cmp_bound_values]
  | some v =>
      cases bv with
      | none => simp [range_cmp_bound_values]
      | some w =>
          rcases tc.cmp_cases v w with ⟨hc, hv⟩ | ⟨hc, rfl⟩ | ⟨hc, hv⟩
          · exact .inl hc
          · refine .inr ⟨hc, ?_⟩
            revert h
            cases ai <;> cases bi <;> simp [RangeBound.cut]
          · revert h
            cases ai <;> cases bi <;> simp [RangeBound.cut, hv, hv.le]

/-- An upper and a lower bound meet at one value that exactly one of them admits, or do not touch. -/
theorem bounds_adjacent_iff (ha : a.lower = false) (hb : b.lower = true) :
    bounds_adjacent tc a b = true ↔ a.cut = b.cut := by
  obtain ⟨av, ai, al⟩ := a
  obtain ⟨bv, bi, bl⟩ := b
  have ha : al = false := ha
  have hb : bl = true := hb
  subst ha hb
  cases av with
  | none => cases bv <;> cases bi <;> simp [bounds_adjacent, range_cmp_bound_values, RangeBound.cut, below, above]
  | some v =>
      cases bv with
      | none => cases ai <;> simp [bounds_adjacent, range_cmp_bound_values, RangeBound.cut, below, above]
      | some w =>
          rcases tc.cmp_cases v w with ⟨hc, hv⟩ | ⟨hc, rfl⟩ | ⟨hc, hv⟩
          · cases ai <;> cases bi <;> simp [bounds_adjacent, range_cmp_bound_values, RangeBound.cut, hc, hv.ne]
          · cases ai <;> cases bi <;> simp [bounds_adjacent, range_cmp_bound_values, RangeBound.cut, hc]
          · have hn : ¬ tc.rng_cmp_proc v w < 0 := by omega
            have hz : tc.rng_cmp_proc v w ≠ 0 := by omega
            cases ai <;> cases bi <;>
              simp [bounds_adjacent, range_cmp_bound_values, RangeBound.cut, hn, hz, hv.ne']

theorem val_ne_none_of_bot_lt (hb : b.lower = true) (h : a.cut < b.cut) : b.val ≠ none := by
  intro hn
  rw [show b.cut = ⊥ by simp [RangeBound.cut, hn, hb]] at h
  exact absurd h not_lt_bot

theorem val_ne_none_of_lt_top (hb : b.lower = false) (h : b.cut < a.cut) : b.val ≠ none := by
  intro hn
  rw [show b.cut = ⊤ by simp [RangeBound.cut, hn, hb]] at h
  exact absurd h not_top_lt

/-! ## 3. The span of a range -/

/-- The cut where a range begins. -/
def RangeType.lo : RangeType α → Cut α
  | .empty => ⊤
  | .bounds lower _ _ => lower.cut

/-- The cut where a range ends. -/
def RangeType.hi : RangeType α → Cut α
  | .empty => ⊥
  | .bounds _ upper _ => upper.cut

/-- A range as a span; the empty one covers nothing. -/
def RangeType.span (r : RangeType α) : Span (Cut α) := ⟨r.lo, r.hi⟩

@[simp] theorem lo_bounds {h : Stored a b} : (RangeType.bounds a b h).lo = a.cut := rfl

@[simp] theorem hi_bounds {h : Stored a b} : (RangeType.bounds a b h).hi = b.cut := rfl

@[simp] theorem lo_empty : (RangeType.empty : RangeType α).lo = ⊤ := rfl

@[simp] theorem hi_empty : (RangeType.empty : RangeType α).hi = ⊥ := rfl

theorem eq_empty (h : r.isEmpty = true) : r = .empty := by
  cases r with
  | empty => rfl
  | bounds lower upper st => exact absurd h (by simp [RangeType.isEmpty])

/-- The bounds of a range that is not empty. -/
theorem exists_bounds (h : r.isEmpty = false) : ∃ lower upper st, r = .bounds lower upper st := by
  cases r with
  | empty => exact absurd h (by simp [RangeType.isEmpty])
  | bounds lower upper st => exact ⟨lower, upper, st, rfl⟩

@[simp] theorem span_lo : r.span.lo = r.lo := rfl

@[simp] theorem span_hi : r.span.hi = r.hi := rfl

theorem Stored.cut_lt (h : Stored a b) : a.cut < b.cut := by
  obtain ⟨av, ai, al⟩ := a
  obtain ⟨bv, bi, bl⟩ := b
  obtain ⟨ha, hb, hai, hbi, hord⟩ := h
  have ha : al = true := ha
  have hb : bl = false := hb
  subst ha hb
  cases av with
  | none => cases bv <;> cases bi <;> simp [RangeBound.cut]
  | some v =>
      cases bv with
      | none => cases ai <;> simp [RangeBound.cut]
      | some w =>
          rcases hord v rfl w rfl with hv | ⟨rfl, hai, hbi⟩
          · cases ai <;> cases bi <;> simp [RangeBound.cut, hv, hv.le]
          · have hai : ai = true := hai
            have hbi : bi = true := hbi
            simp [RangeBound.cut, hai, hbi]

/-- A range that is not empty begins before it ends. -/
theorem lo_lt_hi (h : r.isEmpty = false) : r.lo < r.hi := by
  obtain ⟨lower, upper, hst, rfl⟩ := exists_bounds h
  exact hst.cut_lt

theorem isEmpty_iff_not_lt : r.isEmpty = true ↔ ¬ r.lo < r.hi := by
  cases r with
  | empty => simp [RangeType.isEmpty, RangeType.lo, RangeType.hi]
  | bounds lower upper hst => simp [RangeType.isEmpty, RangeType.lo, RangeType.hi, hst.cut_lt]

/-- **Two bounds in order** make the range between their cuts. -/
theorem make_range_spec (ha : a.lower = true) (hb : b.lower = false) (h : a.cut < b.cut) :
    ∃ r, make_range tc a b false = .ok r ∧ r.isEmpty = false ∧ r.lo = a.cut ∧ r.hi = b.cut := by
  have hcmp := values_of_cut_lt tc ha hb h
  have h1 : ¬ range_cmp_bound_values tc a b > 0 := by omega
  have h2 : ¬ (range_cmp_bound_values tc a b = 0 ∧ ¬ (a.inclusive ∧ b.inclusive)) := by
    intro ⟨hz, hn⟩
    rcases hcmp with hlt | ⟨_, hinc⟩
    · omega
    · exact hn hinc
  refine ⟨.bounds (a.emit true) (b.emit false) (stored_of_cmp tc h1 h2), ?_, rfl, RangeBound.cut_emit ha, RangeBound.cut_emit hb⟩
  unfold make_range range_serialize
  rw [if_neg (by simp [ha, hb]), if_neg (by simp), dif_neg h1, dif_neg h2]

/-! ## 4. Tests on two ranges -/

theorem before_iff (hr : r.isEmpty = false) (hs : s.isEmpty = false) :
    range_before_internal tc r s = true ↔ r.hi ≤ s.lo := by
  obtain ⟨l1, u1, h1, rfl⟩ := exists_bounds hr
  obtain ⟨l2, u2, h2, rfl⟩ := exists_bounds hs
  simpa [range_before_internal] using cmp_upper_lower tc h1.upper_side h2.lower_side

theorem adjacent_iff (hr : r.isEmpty = false) (hs : s.isEmpty = false) :
    range_adjacent_internal tc r s = true ↔ r.hi = s.lo ∨ s.hi = r.lo := by
  obtain ⟨l1, u1, h1, rfl⟩ := exists_bounds hr
  obtain ⟨l2, u2, h2, rfl⟩ := exists_bounds hs
  rw [range_adjacent_internal, Bool.or_eq_true, bounds_adjacent_iff tc h1.upper_side h2.lower_side,
    bounds_adjacent_iff tc h2.upper_side h1.lower_side]
  rfl

theorem overlaps_iff (hr : r.isEmpty = false) (hs : s.isEmpty = false) :
    range_overlaps_internal tc r s = true ↔ r.lo < s.hi ∧ s.lo < r.hi := by
  obtain ⟨l1, u1, h1, rfl⟩ := exists_bounds hr
  obtain ⟨l2, u2, h2, rfl⟩ := exists_bounds hs
  have hll : l1.lower = l2.lower := h1.lower_side.trans h2.lower_side.symm
  have e1 := cmp_same_nonneg tc hll
  have e2 := cmp_same_nonneg tc hll.symm
  have e3 := cmp_lower_upper tc h1.lower_side h2.upper_side
  have e4 := cmp_lower_upper tc h2.lower_side h1.upper_side
  have hlt1 := h1.cut_lt
  have hlt2 := h2.cut_lt
  simp only [range_overlaps_internal, Bool.and_eq_true, decide_eq_true_eq, e1, e2, e3, e4, RangeType.lo,
    RangeType.hi, Bool.if_false_right, Bool.and_true, Bool.if_true_left, Bool.or_eq_true]
  constructor
  · rintro (⟨h1, h2⟩ | ⟨h1, h2⟩)
    · exact ⟨h2, lt_of_le_of_lt h1 hlt1⟩
    · exact ⟨lt_of_le_of_lt h1 hlt2, h2⟩
  · rintro ⟨h1, h2⟩
    rcases le_total l2.cut l1.cut with hle | hle
    · exact .inl ⟨hle, h1⟩
    · exact .inr ⟨hle, h2⟩

theorem after_iff (hr : r.isEmpty = false) (hs : s.isEmpty = false) :
    range_after_internal tc r s = true ↔ s.hi ≤ r.lo := by
  obtain ⟨l1, u1, h1, rfl⟩ := exists_bounds hr
  obtain ⟨l2, u2, h2, rfl⟩ := exists_bounds hs
  simpa [range_after_internal] using cmp_lower_upper_pos tc h1.lower_side h2.upper_side

theorem overright_iff (hr : r.isEmpty = false) (hs : s.isEmpty = false) :
    range_overright_internal tc r s = true ↔ s.lo ≤ r.lo := by
  obtain ⟨l1, u1, h1, rfl⟩ := exists_bounds hr
  obtain ⟨l2, u2, h2, rfl⟩ := exists_bounds hs
  simpa [range_overright_internal] using cmp_same_nonneg tc (h1.lower_side.trans h2.lower_side.symm)

theorem overleft_iff (hr : r.isEmpty = false) (hs : s.isEmpty = false) :
    range_overleft_internal tc r s = true ↔ r.hi ≤ s.hi := by
  obtain ⟨l1, u1, h1, rfl⟩ := exists_bounds hr
  obtain ⟨l2, u2, h2, rfl⟩ := exists_bounds hs
  simpa [range_overleft_internal] using cmp_same_nonpos tc (h1.upper_side.trans h2.upper_side.symm)

/-! ## 5. Ranges from two ranges -/

/-- **Splitting**: two outputs exactly when the second range lies strictly inside the first one. -/
theorem split_spec (hr : r.isEmpty = false) (hs : s.isEmpty = false) :
    (r.lo < s.lo ∧ s.hi < r.hi ∧ ∃ o1 o2, range_split_internal tc r s = .ok (some (o1, o2)) ∧ o1.isEmpty = false ∧
      o1.lo = r.lo ∧ o1.hi = s.lo ∧ o2.isEmpty = false ∧ o2.lo = s.hi ∧ o2.hi = r.hi) ∨
    (¬ (r.lo < s.lo ∧ s.hi < r.hi) ∧ range_split_internal tc r s = .ok none) := by
  obtain ⟨l1, u1, h1, rfl⟩ := exists_bounds hr
  obtain ⟨l2, u2, h2, rfl⟩ := exists_bounds hs
  have e1 := cmp_same_neg tc (h1.lower_side.trans h2.lower_side.symm)
  have e2 := cmp_same_pos tc (h1.upper_side.trans h2.upper_side.symm)
  by_cases hin : l1.cut < l2.cut ∧ u2.cut < u1.cut
  · refine .inl ⟨hin.1, hin.2, ?_⟩
    have hl := RangeBound.cut_flip false (val_ne_none_of_bot_lt h2.lower_side hin.1) h2.lower_side
    have hu := RangeBound.cut_flip true (val_ne_none_of_lt_top h2.upper_side hin.2) h2.upper_side
    obtain ⟨o1, ho1, hn1, hlo1, hhi1⟩ := make_range_spec tc h1.lower_side (b := l2.flip false) rfl (hl ▸ hin.1)
    obtain ⟨o2, ho2, hn2, hlo2, hhi2⟩ := make_range_spec tc (a := u2.flip true) rfl h1.upper_side (hu ▸ hin.2)
    refine ⟨o1, o2, ?_, hn1, hlo1, hhi1.trans hl, hn2, hlo2.trans hu, hhi2⟩
    have hc : (decide (range_cmp_bounds tc l1 l2 < 0) && decide (range_cmp_bounds tc u1 u2 > 0)) = true := by
      simp [e1.mpr hin.1, e2.mpr hin.2]
    rw [range_split_internal, if_pos hc, ho1, ho2]
    rfl
  · refine .inr ⟨hin, ?_⟩
    have hc : ¬ (decide (range_cmp_bounds tc l1 l2 < 0) && decide (range_cmp_bounds tc u1 u2 > 0)) = true := by
      rw [Bool.and_eq_true, decide_eq_true_eq, decide_eq_true_eq, e1, e2]
      exact hin
    rw [range_split_internal, if_neg hc]

/-- What is left of a range after another one is taken from it. -/
inductive Rest (r s t : RangeType α) : Prop where
  | apart (h : r.hi ≤ s.lo ∨ s.hi ≤ r.lo) (ht : t = r)
  | nothing (h : s.lo ≤ r.lo) (h' : r.hi ≤ s.hi) (ht : t.isEmpty = true)
  | left (h : r.lo < s.lo) (hm : s.lo < r.hi) (h' : r.hi ≤ s.hi) (ht : t.isEmpty = false) (lo : t.lo = r.lo)
      (hi : t.hi = s.lo)
  | right (h : s.lo ≤ r.lo) (hm : r.lo < s.hi) (h' : s.hi < r.hi) (ht : t.isEmpty = false) (lo : t.lo = s.hi)
      (hi : t.hi = r.hi)

/-- **Difference**: an error exactly when the second range lies strictly inside the first one. -/
theorem minus_spec (hr : r.isEmpty = false) (hs : s.isEmpty = false) :
    (r.lo < s.lo ∧ s.hi < r.hi ∧ range_minus_internal tc r s =
      .error (.error "result of range difference would not be contiguous")) ∨
    (¬ (r.lo < s.lo ∧ s.hi < r.hi) ∧ ∃ t, range_minus_internal tc r s = .ok t ∧ Rest r s t) := by
  obtain ⟨l1, u1, h1, rfl⟩ := exists_bounds hr
  obtain ⟨l2, u2, h2, rfl⟩ := exists_bounds hs
  have hll : l1.lower = l2.lower := h1.lower_side.trans h2.lower_side.symm
  have huu : u1.lower = u2.lower := h1.upper_side.trans h2.upper_side.symm
  have hlt1 := h1.cut_lt
  have hlt2 := h2.cut_lt
  unfold range_minus_internal
  simp only [Bool.and_eq_true, Bool.or_eq_true, decide_eq_true_eq, cmp_same_neg tc hll, cmp_same_pos tc huu,
    cmp_lower_upper_pos tc h1.lower_side h2.upper_side, cmp_upper_lower tc h1.upper_side h2.lower_side,
    cmp_same_nonneg tc hll, cmp_same_nonpos tc huu, cmp_same_nonpos tc hll, cmp_same_nonneg tc huu,
    cmp_upper_lower_nonneg tc h1.upper_side h2.lower_side, cmp_lower_upper tc h1.lower_side h2.upper_side,
    lo_bounds, hi_bounds]
  by_cases hin : l1.cut < l2.cut ∧ u2.cut < u1.cut
  · exact .inl ⟨hin.1, hin.2, if_pos hin⟩
  refine .inr ⟨hin, ?_⟩
  rw [if_neg hin]
  by_cases hap : u2.cut ≤ l1.cut ∨ u1.cut ≤ l2.cut
  · rw [if_pos hap]
    exact ⟨_, rfl, .apart hap.symm rfl⟩
  rw [if_neg hap]
  obtain ⟨hm1, hm2⟩ := not_or.mp hap
  by_cases hno : l2.cut ≤ l1.cut ∧ u1.cut ≤ u2.cut
  · rw [if_pos hno]
    exact ⟨_, rfl, .nothing hno.1 hno.2 rfl⟩
  rw [if_neg hno]
  by_cases hle : u1.cut ≤ u2.cut
  · -- the first range sticks out on the left
    have hl : l1.cut < l2.cut := not_le.mp fun h => hno ⟨h, hle⟩
    have hfl := RangeBound.cut_flip false (val_ne_none_of_bot_lt h2.lower_side hl) h2.lower_side
    obtain ⟨t, ht, hn, hlo, hhi⟩ := make_range_spec tc h1.lower_side (b := l2.flip false) rfl (hfl ▸ hl)
    rw [if_pos ⟨⟨hl.le, not_le.mp hm2⟩, hle⟩, ht]
    exact ⟨t, rfl, .left hl (not_le.mp hm2) hle hn hlo (hhi.trans hfl)⟩
  · -- the first range sticks out on the right
    have hu : u2.cut < u1.cut := not_le.mp hle
    have hl : l2.cut ≤ l1.cut := not_lt.mp fun h => hin ⟨h, hu⟩
    have hfl := RangeBound.cut_flip true (val_ne_none_of_lt_top h2.upper_side hu) h2.upper_side
    obtain ⟨t, ht, hn, hlo, hhi⟩ := make_range_spec tc (a := u2.flip true) rfl h1.upper_side (hfl ▸ hu)
    rw [if_neg (fun h => hle h.2), if_pos ⟨⟨hl, hu.le⟩, not_le.mp hm1⟩, ht]
    exact ⟨t, rfl, .right hl (not_le.mp hm1) hu hn (hlo.trans hfl) hhi⟩

/-- **Union** of ranges that meet, or of any two where it is not strict. -/
theorem union_spec (hr : r.isEmpty = false) (hs : s.isEmpty = false) (strict : Bool)
    (h : strict = true → (r.lo < s.hi ∧ s.lo < r.hi) ∨ r.hi = s.lo ∨ s.hi = r.lo) :
    ∃ t, range_union_internal tc r s strict = .ok t ∧ t.isEmpty = false ∧ t.lo = min r.lo s.lo ∧
      t.hi = max r.hi s.hi := by
  have hov := overlaps_iff tc hr hs
  have had := adjacent_iff tc hr hs
  obtain ⟨l1, u1, h1, rfl⟩ := exists_bounds hr
  obtain ⟨l2, u2, h2, rfl⟩ := exists_bounds hs
  have hll : l1.lower = l2.lower := h1.lower_side.trans h2.lower_side.symm
  have huu : u1.lower = u2.lower := h1.upper_side.trans h2.upper_side.symm
  have hc : ¬ (strict && !range_overlaps_internal tc (.bounds l1 u1 h1) (.bounds l2 u2 h2) &&
      !range_adjacent_internal tc (.bounds l1 u1 h1) (.bounds l2 u2 h2)) = true := by
    simp only [Bool.and_eq_true, Bool.not_eq_true']
    rintro ⟨⟨hst, ho⟩, ha⟩
    rcases h hst with h | h
    · rw [hov.mpr h] at ho
      cases ho
    · rw [had.mpr h] at ha
      cases ha
  rw [range_union_internal, if_neg hc]
  simp only [cmp_same_neg tc hll, cmp_same_pos tc huu]
  have hlo : (if l1.cut < l2.cut then l1 else l2).cut = min l1.cut l2.cut := by
    by_cases hlt : l1.cut < l2.cut
    · rw [if_pos hlt, min_eq_left hlt.le]
    · rw [if_neg hlt, min_eq_right (not_lt.mp hlt)]
  have hhi : (if u2.cut < u1.cut then u1 else u2).cut = max u1.cut u2.cut := by
    by_cases hlt : u2.cut < u1.cut
    · rw [if_pos hlt, max_eq_left hlt.le]
    · rw [if_neg hlt, max_eq_right (not_lt.mp hlt)]
  obtain ⟨t, ht, hn, htlo, hthi⟩ := make_range_spec tc (a := if l1.cut < l2.cut then l1 else l2)
    (b := if u2.cut < u1.cut then u1 else u2) (by split <;> simp [h1.lower_side, h2.lower_side])
    (by split <;> simp [h1.upper_side, h2.upper_side])
    (by rw [hlo, hhi]; exact lt_of_le_of_lt (min_le_left _ _) (lt_of_lt_of_le h1.cut_lt (le_max_left _ _)))
  exact ⟨t, ht, hn, htlo.trans hlo, hthi.trans hhi⟩

/-- **Intersection** of ranges that overlap. -/
theorem intersect_spec (hr : r.isEmpty = false) (hs : s.isEmpty = false) (h : r.lo < s.hi ∧ s.lo < r.hi) :
    ∃ t, range_intersect_internal tc r s = .ok t ∧ t.isEmpty = false ∧ t.lo = max r.lo s.lo ∧
      t.hi = min r.hi s.hi := by
  have hov := (overlaps_iff tc hr hs).mpr h
  obtain ⟨l1, u1, h1, rfl⟩ := exists_bounds hr
  obtain ⟨l2, u2, h2, rfl⟩ := exists_bounds hs
  have hll : l1.lower = l2.lower := h1.lower_side.trans h2.lower_side.symm
  have huu : u1.lower = u2.lower := h1.upper_side.trans h2.upper_side.symm
  rw [range_intersect_internal, if_neg (by simp [hov])]
  simp only [cmp_same_nonneg tc hll, cmp_same_nonpos tc huu]
  have hlo : (if l2.cut ≤ l1.cut then l1 else l2).cut = max l1.cut l2.cut := by
    by_cases hle : l2.cut ≤ l1.cut
    · rw [if_pos hle, max_eq_left hle]
    · rw [if_neg hle, max_eq_right (not_le.mp hle).le]
  have hhi : (if u1.cut ≤ u2.cut then u1 else u2).cut = min u1.cut u2.cut := by
    by_cases hle : u1.cut ≤ u2.cut
    · rw [if_pos hle, min_eq_left hle]
    · rw [if_neg hle, min_eq_right (not_le.mp hle).le]
  obtain ⟨t, ht, hn, htlo, hthi⟩ := make_range_spec tc (a := if l2.cut ≤ l1.cut then l1 else l2)
    (b := if u1.cut ≤ u2.cut then u1 else u2) (by split <;> simp [h1.lower_side, h2.lower_side])
    (by split <;> simp [h1.upper_side, h2.upper_side])
    (by rw [hlo, hhi]; exact max_lt (lt_min h1.cut_lt h.1) (lt_min h.2 h2.cut_lt))
  exact ⟨t, ht, hn, htlo.trans hlo, hthi.trans hhi⟩

/-! ## 6. The order of ranges -/

/-- What `range_compare` sorts by. -/
def RangeType.key (r : RangeType α) : WithBot (Cut α ×ₗ Cut α) :=
  match r with
  | .empty => ⊥
  | .bounds lower upper _ => ((toLex (lower.cut, upper.cut) : Cut α ×ₗ Cut α) : WithBot (Cut α ×ₗ Cut α))

theorem compare_neg : range_compare tc r s < 0 ↔ r.key < s.key := by
  cases r with
  | empty => cases s <;> simp [range_compare, RangeType.key]
  | bounds l1 u1 h1 =>
      cases s with
      | empty => simp [range_compare, RangeType.key]
      | bounds l2 u2 h2 =>
          have hll : l1.lower = l2.lower := h1.lower_side.trans h2.lower_side.symm
          have huu : u1.lower = u2.lower := h1.upper_side.trans h2.upper_side.symm
          rw [range_compare, RangeType.key, RangeType.key, WithBot.coe_lt_coe, Prod.Lex.toLex_lt_toLex]
          simp only [cmp_same_zero tc hll]
          by_cases heq : l1.cut = l2.cut
          · rw [if_pos heq, cmp_same_neg tc huu, heq]
            simp
          · rw [if_neg heq, cmp_same_neg tc hll]
            simp [heq]

theorem compare_swap : range_compare tc s r < 0 ↔ range_compare tc r s > 0 := by
  cases r with
  | empty => cases s <;> simp [range_compare]
  | bounds l1 u1 h1 =>
      cases s with
      | empty => simp [range_compare]
      | bounds l2 u2 h2 =>
          have h1 := cmp_swap tc l1 l2
          have h2 := cmp_swap tc l2 l1
          have h3 := cmp_swap tc u1 u2
          simp only [range_compare]
          by_cases hz : range_cmp_bounds tc l1 l2 = 0
          · rw [if_pos hz, if_pos (by omega), h3]
          · rw [if_neg hz, if_neg (by omega), h1]

theorem compare_nonpos : range_compare tc r s ≤ 0 ↔ r.key ≤ s.key := by
  rw [← not_lt (a := s.key), ← compare_neg tc, compare_swap tc]
  omega

/-- Of two ranges in order the first one does not begin later. -/
theorem lo_le_of_key_le (hr : r.isEmpty = false) (h : r.key ≤ s.key) : s.isEmpty = false ∧ r.lo ≤ s.lo := by
  obtain ⟨l1, u1, h1, rfl⟩ := exists_bounds hr
  cases s with
  | empty => exact absurd h (by simp [RangeType.key])
  | bounds l2 u2 h2 =>
      refine ⟨rfl, ?_⟩
      rw [RangeType.key, RangeType.key, WithBot.coe_le_coe, Prod.Lex.toLex_le_toLex] at h
      rcases h with h | ⟨h, _⟩
      · exact h.le
      · exact h.le

/-! ## 7. The values of a range -/

/-- A bound admits a value. -/
def RangeBound.Admits (b : RangeBound α) (x : α) : Prop :=
  ∀ v ∈ b.val, if b.lower then v < x ∨ v = x ∧ b.inclusive = true else x < v ∨ x = v ∧ b.inclusive = true

/-- The values of a range. -/
def RangeType.points : RangeType α → Set α
  | .empty => ∅
  | .bounds lower upper _ => {x | lower.Admits x ∧ upper.Admits x}

theorem admits_lower (ha : a.lower = true) : a.Admits x ↔ a.cut ≤ below x := by
  obtain ⟨v, i, l⟩ := a
  have ha : l = true := ha
  subst ha
  cases v with
  | none => simp [RangeBound.Admits, RangeBound.cut]
  | some v => cases i <;> simp [RangeBound.Admits, RangeBound.cut, le_iff_lt_or_eq]

theorem admits_upper (ha : a.lower = false) : a.Admits x ↔ below x < a.cut := by
  obtain ⟨v, i, l⟩ := a
  have ha : l = false := ha
  subst ha
  cases v with
  | none => simp [RangeBound.Admits, RangeBound.cut]
  | some v => cases i <;> simp [RangeBound.Admits, RangeBound.cut, le_iff_lt_or_eq]

/-- **The values of a range** are those between its cuts. -/
theorem mem_points : x ∈ r.points ↔ r.lo ≤ below x ∧ below x < r.hi := by
  cases r with
  | empty => simp [RangeType.points]
  | bounds lower upper h =>
      rw [RangeType.points, Set.mem_ofPred_eq, admits_lower h.lower_side, admits_upper h.upper_side]
      rfl

theorem aboveLower_iff (ha : a.lower = true) : aboveLower tc a x = true ↔ a.Admits x := by
  obtain ⟨v, i, l⟩ := a
  have ha : l = true := ha
  subst ha
  cases v with
  | none => simp [aboveLower, RangeBound.Admits]
  | some v =>
      rcases tc.cmp_cases v x with ⟨hc, hv⟩ | ⟨hc, rfl⟩ | ⟨hc, hv⟩
      · have hn : ¬ 0 < tc.rng_cmp_proc v x := by omega
        have hz : tc.rng_cmp_proc v x ≠ 0 := by omega
        simp [aboveLower, RangeBound.Admits, hv, hn, hz]
      · cases i <;> simp [aboveLower, RangeBound.Admits, hc]
      · simp [aboveLower, RangeBound.Admits, hc, hv.le, hv.ne']

theorem belowUpper_iff (ha : a.lower = false) : belowUpper tc a x = true ↔ a.Admits x := by
  obtain ⟨v, i, l⟩ := a
  have ha : l = false := ha
  subst ha
  cases v with
  | none => simp [belowUpper, RangeBound.Admits]
  | some v =>
      rcases tc.cmp_cases v x with ⟨hc, hv⟩ | ⟨hc, rfl⟩ | ⟨hc, hv⟩
      · simp [belowUpper, RangeBound.Admits, hc, hv.le, hv.ne']
      · cases i <;> simp [belowUpper, RangeBound.Admits, hc]
      · have hn : ¬ tc.rng_cmp_proc v x < 0 := by omega
        have hz : tc.rng_cmp_proc v x ≠ 0 := by omega
        simp [belowUpper, RangeBound.Admits, hv, hn, hz]

/-- `range_contains_elem_internal` tests for the values of the range. -/
theorem contains_elem_iff : range_contains_elem_internal tc r x = true ↔ x ∈ r.points := by
  cases r with
  | empty => simp [range_contains_elem_internal, RangeType.points]
  | bounds lower upper h =>
      rw [range_contains_elem_internal, Bool.and_eq_true, aboveLower_iff tc h.lower_side,
        belowUpper_iff tc h.upper_side]
      rfl

end Pgvec.RangeOps
