/-
  File:      Pgvec/Adt/RangeOps.lean
  Subject:   RANGES OVER ANY SUBTYPE (`src/backend/utils/adt/rangetypes.c`): comparing bounds, building a range,
             and the operations on two ranges, for a range type without a canonical function.

  A range is what `range_deserialize` gives for it: empty, or two bounds. That the bounds are as `range_serialize`
  stores them is part of the type.
-/
import Mathlib

namespace Pgvec.RangeOps

/-! ## 1. The range type and its bounds -/

/-- Why a function does not return. -/
inductive Failure where
  /-- `ereport(ERROR, ...)` or `elog(ERROR, ...)`, with its message. -/
  | error (errmsg : String)
  /-- An `Assert` fails. -/
  | assertion
  /-- An array is read or written outside its slots, or the bounds of an empty range are compared. -/
  | outside
deriving Repr, DecidableEq

abbrev M := Except Failure

/-- What the range functions use of `TypeCacheEntry`: the comparison function of the subtype, which follows its
    order. There is no `rng_canonical_finfo`. -/
structure TypeCacheEntry (α : Type) [LinearOrder α] where
  rng_cmp_proc : α → α → Int
  cmp_neg : ∀ a b, rng_cmp_proc a b < 0 ↔ a < b
  cmp_zero : ∀ a b, rng_cmp_proc a b = 0 ↔ a = b

/-- `numrange`: the numbers in their order. -/
def numrange : TypeCacheEntry ℚ where
  rng_cmp_proc a b := if a < b then -1 else if a = b then 0 else 1
  cmp_neg a b := by split_ifs <;> simp_all
  cmp_zero a b := by
    split_ifs with h1 h2
    · simp [h1.ne]
    · simp [h2]
    · simp [h2]

/-- `RangeBound`: the value is missing when the bound is `infinite`. -/
structure RangeBound (α : Type) where
  val : Option α
  inclusive : Bool
  lower : Bool
deriving Repr, DecidableEq

/-- `infinite` of a bound. -/
def RangeBound.infinite {α : Type} (b : RangeBound α) : Bool := b.val.isNone

variable {α : Type} [LinearOrder α]

/-- Two bounds as `range_deserialize` gives them for a range that is not empty. -/
structure Stored (lower upper : RangeBound α) : Prop where
  lower_side : lower.lower = true
  upper_side : upper.lower = false
  lower_inf : lower.val = none → lower.inclusive = false
  upper_inf : upper.val = none → upper.inclusive = false
  ordered : ∀ v ∈ lower.val, ∀ w ∈ upper.val, v < w ∨ v = w ∧ lower.inclusive = true ∧ upper.inclusive = true

/-- `RangeType`. -/
inductive RangeType (α : Type) [LinearOrder α] where
  | empty
  | bounds (lower upper : RangeBound α) (stored : Stored lower upper)

/-- `RangeIsEmpty`. -/
def RangeType.isEmpty : RangeType α → Bool
  | .empty => true
  | .bounds .. => false

variable (typcache : TypeCacheEntry α)

/-- `range_cmp_bound_values`. -/
def range_cmp_bound_values (b1 b2 : RangeBound α) : Int :=
  match b1.val, b2.val with
  | none, none => if b1.lower = b2.lower then 0 else if b1.lower then -1 else 1
  | none, some _ => if b1.lower then -1 else 1
  | some _, none => if b2.lower then 1 else -1
  | some v1, some v2 => typcache.rng_cmp_proc v1 v2

/-- The end of `range_cmp_bounds`, where the values compare equal. -/
def cmpInclusive (b1 b2 : RangeBound α) : Int :=
  if !b1.inclusive && !b2.inclusive then
    if b1.lower = b2.lower then 0 else if b1.lower then 1 else -1
  else if !b1.inclusive then if b1.lower then 1 else -1
  else if !b2.inclusive then if b2.lower then -1 else 1
  else 0

/-- `range_cmp_bounds`. -/
def range_cmp_bounds (b1 b2 : RangeBound α) : Int :=
  match b1.val, b2.val with
  | none, none => if b1.lower = b2.lower then 0 else if b1.lower then -1 else 1
  | none, some _ => if b1.lower then -1 else 1
  | some _, none => if b2.lower then 1 else -1
  | some v1, some v2 =>
      let result := typcache.rng_cmp_proc v1 v2
      if result = 0 then cmpInclusive b1 b2 else result

/-! ## 2. Building a range -/

/-- What the flags and the value stored keep of a bound: infinite boundaries are never inclusive. -/
def RangeBound.emit (b : RangeBound α) (lower : Bool) : RangeBound α :=
  { val := b.val, inclusive := b.inclusive && !b.infinite, lower }

/-- The bounds that pass the checks of `range_serialize` can be stored. -/
theorem stored_of_cmp {lower upper : RangeBound α} (h : ¬ range_cmp_bound_values typcache lower upper > 0)
    (h0 : ¬ (range_cmp_bound_values typcache lower upper = 0 ∧ ¬ (lower.inclusive ∧ upper.inclusive))) :
    Stored (lower.emit true) (upper.emit false) := by
  refine ⟨rfl, rfl, fun hv => ?_, fun hv => ?_, fun v hv w hw => ?_⟩
  · have hv : lower.val = none := hv
    simp [RangeBound.emit, RangeBound.infinite, hv]
  · have hv : upper.val = none := hv
    simp [RangeBound.emit, RangeBound.infinite, hv]
  · have hv : lower.val = some v := hv
    have hw : upper.val = some w := hw
    have hcmp : range_cmp_bound_values typcache lower upper = typcache.rng_cmp_proc v w := by
      simp [range_cmp_bound_values, hv, hw]
    rw [hcmp] at h h0
    have hle : typcache.rng_cmp_proc v w ≤ 0 := by omega
    rcases Int.lt_or_eq_of_le hle with hlt | heq
    · exact .inl ((typcache.cmp_neg v w).mp hlt)
    · have hinc := not_not.mp fun hn => h0 ⟨heq, hn⟩
      refine .inr ⟨(typcache.cmp_zero v w).mp heq, ?_, ?_⟩
      · simp [RangeBound.emit, RangeBound.infinite, hv, hinc.1]
      · simp [RangeBound.emit, RangeBound.infinite, hw, hinc.2]

/-- `range_serialize`. -/
def range_serialize (lower upper : RangeBound α) (empty : Bool) : M (RangeType α) :=
  if !lower.lower || upper.lower then .error .assertion
  else if empty then .ok .empty
  else if h : range_cmp_bound_values typcache lower upper > 0 then
    .error (.error "range lower bound must be less than or equal to range upper bound")
  else if h0 : range_cmp_bound_values typcache lower upper = 0 ∧ ¬ (lower.inclusive ∧ upper.inclusive) then
    .ok .empty
  else .ok (.bounds (lower.emit true) (upper.emit false) (stored_of_cmp typcache h h0))

/-- `make_range`: there is no canonical function to call. -/
def make_range (lower upper : RangeBound α) (empty : Bool) : M (RangeType α) :=
  range_serialize typcache lower upper empty

/-- `make_empty_range`: the bounds it passes are not looked at. -/
def make_empty_range : RangeType α := .empty

/-! ## 3. Tests on two ranges -/

/-- `range_before_internal`. -/
def range_before_internal : RangeType α → RangeType α → Bool
  | .bounds _ upper1 _, .bounds lower2 _ _ => range_cmp_bounds typcache upper1 lower2 < 0
  | _, _ => false

/-- `bounds_adjacent`: in a continuous subtype, there are assumed to be points between. -/
def bounds_adjacent (boundA boundB : RangeBound α) : Bool :=
  let cmp := range_cmp_bound_values typcache boundA boundB
  if cmp < 0 then false
  else if cmp = 0 then boundA.inclusive != boundB.inclusive
  else false

/-- `range_adjacent_internal`. -/
def range_adjacent_internal : RangeType α → RangeType α → Bool
  | .bounds lower1 upper1 _, .bounds lower2 upper2 _ =>
      bounds_adjacent typcache upper1 lower2 || bounds_adjacent typcache upper2 lower1
  | _, _ => false

/-- `range_overlaps_internal`. -/
def range_overlaps_internal : RangeType α → RangeType α → Bool
  | .bounds lower1 upper1 _, .bounds lower2 upper2 _ =>
      if range_cmp_bounds typcache lower1 lower2 ≥ 0 && range_cmp_bounds typcache lower1 upper2 ≤ 0 then true
      else if range_cmp_bounds typcache lower2 lower1 ≥ 0 && range_cmp_bounds typcache lower2 upper1 ≤ 0 then true
      else false
  | _, _ => false

/-- `range_overleft_internal`. -/
def range_overleft_internal : RangeType α → RangeType α → Bool
  | .bounds _ upper1 _, .bounds _ upper2 _ => range_cmp_bounds typcache upper1 upper2 ≤ 0
  | _, _ => false

/-- `range_after_internal`. -/
def range_after_internal : RangeType α → RangeType α → Bool
  | .bounds lower1 _ _, .bounds _ upper2 _ => range_cmp_bounds typcache lower1 upper2 > 0
  | _, _ => false

/-- `range_overright_internal`. -/
def range_overright_internal : RangeType α → RangeType α → Bool
  | .bounds lower1 _ _, .bounds lower2 _ _ => range_cmp_bounds typcache lower1 lower2 ≥ 0
  | _, _ => false

/-- `range_contains_internal`. -/
def range_contains_internal : RangeType α → RangeType α → Bool
  | _, .empty => true
  | .empty, _ => false
  | .bounds lower1 upper1 _, .bounds lower2 upper2 _ =>
      if range_cmp_bounds typcache lower1 lower2 > 0 then false
      else if range_cmp_bounds typcache upper1 upper2 < 0 then false
      else true

/-- `range_eq_internal`. -/
def range_eq_internal : RangeType α → RangeType α → Bool
  | .empty, .empty => true
  | .bounds lower1 upper1 _, .bounds lower2 upper2 _ =>
      if range_cmp_bounds typcache lower1 lower2 ≠ 0 then false
      else if range_cmp_bounds typcache upper1 upper2 ≠ 0 then false
      else true
  | _, _ => false

/-- `range_compare`. -/
def range_compare : RangeType α → RangeType α → Int
  | .empty, .empty => 0
  | .empty, .bounds .. => -1
  | .bounds .., .empty => 1
  | .bounds lower1 upper1 _, .bounds lower2 upper2 _ =>
      let cmp := range_cmp_bounds typcache lower1 lower2
      if cmp = 0 then range_cmp_bounds typcache upper1 upper2 else cmp

/-- The test of a value against the lower bound, in `range_contains_elem_internal`. -/
def aboveLower (lower : RangeBound α) (val : α) : Bool :=
  match lower.val with
  | none => true
  | some v =>
      let cmp := typcache.rng_cmp_proc v val
      if cmp > 0 then false else if cmp = 0 && !lower.inclusive then false else true

/-- The test of a value against the upper bound, in `range_contains_elem_internal`. -/
def belowUpper (upper : RangeBound α) (val : α) : Bool :=
  match upper.val with
  | none => true
  | some v =>
      let cmp := typcache.rng_cmp_proc v val
      if cmp < 0 then false else if cmp = 0 && !upper.inclusive then false else true

/-- `range_contains_elem_internal`. -/
def range_contains_elem_internal : RangeType α → α → Bool
  | .empty, _ => false
  | .bounds lower upper _, val => aboveLower typcache lower val && belowUpper typcache upper val

/-! ## 4. Ranges from two ranges -/

/-- A bound with its inclusiveness inverted, on the other side of the point. -/
def RangeBound.flip (b : RangeBound α) (lower : Bool) : RangeBound α :=
  { val := b.val, inclusive := !b.inclusive, lower }

/-- `range_minus_internal`. -/
def range_minus_internal (r1 r2 : RangeType α) : M (RangeType α) :=
  match r1, r2 with
  | .bounds lower1 upper1 _, .bounds lower2 upper2 _ =>
      let cmp_l1l2 := range_cmp_bounds typcache lower1 lower2
      let cmp_l1u2 := range_cmp_bounds typcache lower1 upper2
      let cmp_u1l2 := range_cmp_bounds typcache upper1 lower2
      let cmp_u1u2 := range_cmp_bounds typcache upper1 upper2
      if cmp_l1l2 < 0 && cmp_u1u2 > 0 then .error (.error "result of range difference would not be contiguous")
      else if cmp_l1u2 > 0 || cmp_u1l2 < 0 then .ok r1
      else if cmp_l1l2 ≥ 0 && cmp_u1u2 ≤ 0 then .ok make_empty_range
      else if cmp_l1l2 ≤ 0 && cmp_u1l2 ≥ 0 && cmp_u1u2 ≤ 0 then
        make_range typcache lower1 (lower2.flip false) false
      else if cmp_l1l2 ≥ 0 && cmp_u1u2 ≥ 0 && cmp_l1u2 ≤ 0 then
        make_range typcache (upper2.flip true) upper1 false
      else .error (.error "unexpected case in range_minus")
  | _, _ => .ok r1

/-- `range_union_internal`. -/
def range_union_internal (r1 r2 : RangeType α) (strict : Bool) : M (RangeType α) :=
  match r1, r2 with
  | .empty, _ => .ok r2
  | _, .empty => .ok r1
  | .bounds lower1 upper1 _, .bounds lower2 upper2 _ =>
      if strict && !range_overlaps_internal typcache r1 r2 && !range_adjacent_internal typcache r1 r2 then
        .error (.error "result of range union would not be contiguous")
      else
        let result_lower := if range_cmp_bounds typcache lower1 lower2 < 0 then lower1 else lower2
        let result_upper := if range_cmp_bounds typcache upper1 upper2 > 0 then upper1 else upper2
        make_range typcache result_lower result_upper false

/-- `range_union`. -/
def range_union (r1 r2 : RangeType α) : M (RangeType α) := range_union_internal typcache r1 r2 true

/-- `range_merge`. -/
def range_merge (r1 r2 : RangeType α) : M (RangeType α) := range_union_internal typcache r1 r2 false

/-- `range_intersect_internal`. -/
def range_intersect_internal (r1 r2 : RangeType α) : M (RangeType α) :=
  match r1, r2 with
  | .bounds lower1 upper1 _, .bounds lower2 upper2 _ =>
      if !range_overlaps_internal typcache r1 r2 then .ok make_empty_range
      else
        let result_lower := if range_cmp_bounds typcache lower1 lower2 ≥ 0 then lower1 else lower2
        let result_upper := if range_cmp_bounds typcache upper1 upper2 ≤ 0 then upper1 else upper2
        make_range typcache result_lower result_upper false
  | _, _ => .ok make_empty_range

/-- `range_split_internal`: the two outputs, when it returns true. Neither input range should be empty. -/
def range_split_internal : RangeType α → RangeType α → M (Option (RangeType α × RangeType α))
  | .bounds lower1 upper1 _, .bounds lower2 upper2 _ =>
      if range_cmp_bounds typcache lower1 lower2 < 0 && range_cmp_bounds typcache upper1 upper2 > 0 then do
        let output1 ← make_range typcache lower1 (lower2.flip false) false
        let output2 ← make_range typcache (upper2.flip true) upper1 false
        return some (output1, output2)
      else .ok none
  | _, _ => .error .outside

end Pgvec.RangeOps
