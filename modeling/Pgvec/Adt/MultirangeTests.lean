/-
  File:      Pgvec/Adt/MultirangeTests.lean
  Subject:   THE TESTS ON MULTIRANGES (`src/backend/utils/adt/multirangetypes.c`): the loops that walk through two
             multiranges in tandem, and the tests that look at the outermost bounds.

  As in `MultirangeOps`, an array that is walked from the front is the list of what is still ahead: its head is the
  range the index stands at, and its bounds are read there.
-/
import Pgvec.Adt.MultirangeOps

namespace Pgvec.MultirangeOps

open Pgvec.RangeOps

variable {α : Type} [LinearOrder α] (rangetyp : TypeCacheEntry α)

/-! ## 1. Two multiranges in tandem -/

/-- `range_bounds_overlaps`. -/
def range_bounds_overlaps (lower1 upper1 lower2 upper2 : RangeBound α) : Bool :=
  if range_cmp_bounds rangetyp lower1 lower2 ≥ 0 && range_cmp_bounds rangetyp lower1 upper2 ≤ 0 then true
  else if range_cmp_bounds rangetyp lower2 lower1 ≥ 0 && range_cmp_bounds rangetyp lower2 upper1 ≤ 0 then true
  else false

/-- Discard r1s while r1 << r2. Nothing is left when `++i1 >= range_count1`. -/
def discardBefore (lower2 : RangeBound α) : List (RangeType α) → M (List (RangeType α))
  | [] => .ok []
  | r1 :: ranges1 => do
      let (_, upper1) ← multirange_get_bounds (r1 :: ranges1) 0
      if range_cmp_bounds rangetyp upper1 lower2 < 0 then discardBefore lower2 ranges1 else .ok (r1 :: ranges1)

/-- The loop of `multirange_overlaps_multirange_internal`. -/
def overlapsLoop : List (RangeType α) → List (RangeType α) → M Bool
  | _, [] => .ok false
  | ranges1, r2 :: ranges2 => do
      let (lower2, upper2) ← multirange_get_bounds (r2 :: ranges2) 0
      let ranges1 ← discardBefore rangetyp lower2 ranges1
      if ranges1.isEmpty then .ok false
      else do
        let (lower1, upper1) ← multirange_get_bounds ranges1 0
        if range_bounds_overlaps rangetyp lower1 upper1 lower2 upper2 then .ok true
        else overlapsLoop ranges1 ranges2

/-- `multirange_overlaps_multirange_internal`. -/
def multirange_overlaps_multirange_internal (mr1 mr2 : List (RangeType α)) : M Bool :=
  if mr1.isEmpty || mr2.isEmpty then .ok false else overlapsLoop rangetyp mr1 mr2

/-- The loop of `multirange_contains_multirange_internal`. -/
def containsLoop : List (RangeType α) → List (RangeType α) → M Bool
  | _, [] => .ok true
  | ranges1, r2 :: ranges2 => do
      let (lower2, upper2) ← multirange_get_bounds (r2 :: ranges2) 0
      let ranges1 ← discardBefore rangetyp lower2 ranges1
      if ranges1.isEmpty then .ok false
      else do
        let (lower1, upper1) ← multirange_get_bounds ranges1 0
        if !range_bounds_contains rangetyp lower1 upper1 lower2 upper2 then .ok false
        else containsLoop ranges1 ranges2

/-- `multirange_contains_multirange_internal`. -/
def multirange_contains_multirange_internal (mr1 mr2 : List (RangeType α)) : M Bool :=
  if mr2.length = 0 then .ok true
  else if mr1.length = 0 then .ok false
  else containsLoop rangetyp mr1 mr2

/-! ## 2. Tests of the outermost bounds -/

/-- `range_contains_multirange_internal`. -/
def range_contains_multirange_internal (r : RangeType α) (mr : List (RangeType α)) : M Bool :=
  if mr.isEmpty then .ok true
  else match r with
    | .empty => .ok false
    | .bounds lower1 upper1 _ => do
        let (lower2, _) ← multirange_get_bounds mr 0
        let (_, upper2) ← multirange_get_bounds mr (mr.length - 1)
        .ok (range_bounds_contains rangetyp lower1 upper1 lower2 upper2)

/-- `range_overleft_multirange_internal`. -/
def range_overleft_multirange_internal (r : RangeType α) (mr : List (RangeType α)) : M Bool :=
  match r with
  | .empty => .ok false
  | .bounds _ upper1 _ =>
      if mr.isEmpty then .ok false
      else do
        let (_, upper2) ← multirange_get_bounds mr (mr.length - 1)
        .ok (range_cmp_bounds rangetyp upper1 upper2 ≤ 0)

/-- `multirange_overleft_range`. -/
def multirange_overleft_range (mr : List (RangeType α)) (r : RangeType α) : M Bool :=
  if mr.isEmpty then .ok false
  else match r with
    | .empty => .ok false
    | .bounds _ upper2 _ => do
        let (_, upper1) ← multirange_get_bounds mr (mr.length - 1)
        .ok (range_cmp_bounds rangetyp upper1 upper2 ≤ 0)

/-- `multirange_overleft_multirange`. -/
def multirange_overleft_multirange (mr1 mr2 : List (RangeType α)) : M Bool :=
  if mr1.isEmpty || mr2.isEmpty then .ok false
  else do
    let (_, upper1) ← multirange_get_bounds mr1 (mr1.length - 1)
    let (_, upper2) ← multirange_get_bounds mr2 (mr2.length - 1)
    .ok (range_cmp_bounds rangetyp upper1 upper2 ≤ 0)

/-- `range_overright_multirange_internal`. -/
def range_overright_multirange_internal (r : RangeType α) (mr : List (RangeType α)) : M Bool :=
  match r with
  | .empty => .ok false
  | .bounds lower1 _ _ =>
      if mr.isEmpty then .ok false
      else do
        let (lower2, _) ← multirange_get_bounds mr 0
        .ok (range_cmp_bounds rangetyp lower1 lower2 ≥ 0)

/-- `multirange_overright_range`. -/
def multirange_overright_range (mr : List (RangeType α)) (r : RangeType α) : M Bool :=
  if mr.isEmpty then .ok false
  else match r with
    | .empty => .ok false
    | .bounds lower2 _ _ => do
        let (lower1, _) ← multirange_get_bounds mr 0
        .ok (range_cmp_bounds rangetyp lower1 lower2 ≥ 0)

/-- `multirange_overright_multirange`. -/
def multirange_overright_multirange (mr1 mr2 : List (RangeType α)) : M Bool :=
  if mr1.isEmpty || mr2.isEmpty then .ok false
  else do
    let (lower1, _) ← multirange_get_bounds mr1 0
    let (lower2, _) ← multirange_get_bounds mr2 0
    .ok (range_cmp_bounds rangetyp lower1 lower2 ≥ 0)

/-- `range_before_multirange_internal`. -/
def range_before_multirange_internal (r : RangeType α) (mr : List (RangeType α)) : M Bool :=
  match r with
  | .empty => .ok false
  | .bounds _ upper1 _ =>
      if mr.isEmpty then .ok false
      else do
        let (lower2, _) ← multirange_get_bounds mr 0
        .ok (range_cmp_bounds rangetyp upper1 lower2 < 0)

/-- `multirange_before_multirange_internal`. -/
def multirange_before_multirange_internal (mr1 mr2 : List (RangeType α)) : M Bool :=
  if mr1.isEmpty || mr2.isEmpty then .ok false
  else do
    let (_, upper1) ← multirange_get_bounds mr1 (mr1.length - 1)
    let (lower2, _) ← multirange_get_bounds mr2 0
    .ok (range_cmp_bounds rangetyp upper1 lower2 < 0)

/-- `range_after_multirange_internal`. -/
def range_after_multirange_internal (r : RangeType α) (mr : List (RangeType α)) : M Bool :=
  match r with
  | .empty => .ok false
  | .bounds lower1 _ _ =>
      if mr.isEmpty then .ok false
      else do
        let (_, upper2) ← multirange_get_bounds mr (mr.length - 1)
        .ok (range_cmp_bounds rangetyp lower1 upper2 > 0)

/-- `range_adjacent_multirange_internal`: the bounds of the only range are not read again. -/
def range_adjacent_multirange_internal (r : RangeType α) (mr : List (RangeType α)) : M Bool :=
  match r with
  | .empty => .ok false
  | .bounds lower1 upper1 _ =>
      if mr.isEmpty then .ok false
      else do
        let (lower2, upper2) ← multirange_get_bounds mr 0
        if bounds_adjacent rangetyp upper1 lower2 then .ok true
        else do
          let (_, upper2) ← if mr.length > 1 then multirange_get_bounds mr (mr.length - 1) else .ok (lower2, upper2)
          .ok (bounds_adjacent rangetyp upper2 lower1)

/-- `multirange_adjacent_multirange`. -/
def multirange_adjacent_multirange (mr1 mr2 : List (RangeType α)) : M Bool :=
  if mr1.isEmpty || mr2.isEmpty then .ok false
  else do
    let (lower1, upper1) ← multirange_get_bounds mr1 (mr1.length - 1)
    let (lower2, upper2) ← multirange_get_bounds mr2 0
    if bounds_adjacent rangetyp upper1 lower2 then .ok true
    else do
      let (lower1, _) ← if mr1.length > 1 then multirange_get_bounds mr1 0 else .ok (lower1, upper1)
      let (_, upper2) ← if mr2.length > 1 then multirange_get_bounds mr2 (mr2.length - 1) else .ok (lower2, upper2)
      .ok (bounds_adjacent rangetyp upper2 lower1)

/-! ## 3. Comparing, merging, aggregating -/

/-- The loop of `multirange_cmp`, over so many ranges from index `i` on. -/
def cmpLoop (mr1 mr2 : List (RangeType α)) : Nat → Nat → M Int
  | 0, _ => .ok 0
  | n + 1, i =>
      if i ≥ mr1.length then .ok (-1)
      else if i ≥ mr2.length then .ok 1
      else do
        let (lower1, upper1) ← multirange_get_bounds mr1 i
        let (lower2, upper2) ← multirange_get_bounds mr2 i
        let cmp := range_cmp_bounds rangetyp lower1 lower2
        let cmp := if cmp = 0 then range_cmp_bounds rangetyp upper1 upper2 else cmp
        if cmp ≠ 0 then .ok cmp else cmpLoop mr1 mr2 n (i + 1)

/-- `multirange_cmp`. -/
def multirange_cmp (mr1 mr2 : List (RangeType α)) : M Int :=
  cmpLoop rangetyp mr1 mr2 (max mr1.length mr2.length) 0

/-- `range_merge_from_multirange`. -/
def range_merge_from_multirange (mr : List (RangeType α)) : M (RangeType α) :=
  match mr with
  | [] => .ok make_empty_range
  | [r] => .ok r
  | _ => do
      let (firstLower, _) ← multirange_get_bounds mr 0
      let (_, lastUpper) ← multirange_get_bounds mr (mr.length - 1)
      make_range rangetyp firstLower lastUpper false

/-- `range_agg_transfn`: the array of the ranges so far, `NULL` before the first call. -/
def range_agg_transfn (state : Option (List (RangeType α))) (arg : Option (RangeType α)) :
    Option (List (RangeType α)) :=
  let state := state.getD []
  match arg with
  | none => some state
  | some r => some (state ++ [r])

/-- `multirange_agg_transfn`: an empty multirange adds an empty range, so that the result is not `NULL`. -/
def multirange_agg_transfn (state : Option (List (RangeType α))) (arg : Option (List (RangeType α))) :
    Option (List (RangeType α)) :=
  let state := state.getD []
  match arg with
  | none => some state
  | some current => if current.length = 0 then some (state ++ [make_empty_range]) else some (state ++ current)

/-- `range_agg_finalfn`, with `NULL` for the result on no inputs. -/
def range_agg_finalfn (state : Option (List (RangeType α))) : M (Option (List (RangeType α))) :=
  match state with
  | none => .ok none
  | some ranges =>
      if ranges.length = 0 then .ok none
      else do
        let mr ← make_multirange rangetyp ranges
        .ok (some mr)

/-- `multirange_intersect_agg_transfn`: strict, so that the first multirange starts the state and `NULL`s are
    skipped. -/
def multirange_intersect_agg_transfn (state : Option (List (RangeType α))) (arg : Option (List (RangeType α))) :
    M (Option (List (RangeType α))) :=
  match state, arg with
  | state, none => .ok state
  | none, some current => .ok (some current)
  | some result, some current => do
      let mr ← multirange_intersect_internal rangetyp result current
      .ok (some mr)

/-- The aggregate `range_agg(anyrange)` over the rows of a group. -/
def range_agg (args : List (Option (RangeType α))) : M (Option (List (RangeType α))) :=
  range_agg_finalfn rangetyp (args.foldl range_agg_transfn none)

/-- The aggregate `range_agg(anymultirange)`: `multirange_agg_finalfn` is `range_agg_finalfn`. -/
def multirange_agg (args : List (Option (List (RangeType α)))) : M (Option (List (RangeType α))) :=
  range_agg_finalfn rangetyp (args.foldl multirange_agg_transfn none)

/-- The aggregate `range_intersect_agg(anymultirange)`, which has no final function. -/
def multirange_intersect_agg (args : List (Option (List (RangeType α)))) : M (Option (List (RangeType α))) :=
  args.foldlM (multirange_intersect_agg_transfn rangetyp) none

end Pgvec.MultirangeOps
