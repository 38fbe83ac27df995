/-
  File:      Pgvec/Adt/MultirangeOps.lean
  Subject:   MULTIRANGES OVER ANY SUBTYPE (`src/backend/utils/adt/multirangetypes.c`): the canonical form, union,
             difference and intersection, and the binary searches.

  A multirange is the list of its ranges. How one is laid out in memory is `MultirangeStorage`. Arrays that are
  walked from the front are the lists of what is still ahead: the range an index stands at is the head, and `NULL`
  stands for the empty list.
-/
import Pgvec.Adt.RangeOps

namespace Pgvec.MultirangeOps

open Pgvec.RangeOps

variable {α : Type} [LinearOrder α] (rangetyp : TypeCacheEntry α)

/-! ## 1. The canonical form -/

/-- `qsort_arg` with a comparison function. -/
def qsort_arg {β : Type} (cmp : β → β → Int) (a : List β) : List β := a.mergeSort fun x y => cmp x y ≤ 0

/-- The loop of `multirange_canonicalize`. `out` are the slots filled so far: none of them is ahead of the range
    that is read, so what is still to be read is as the sort left it. -/
def mergeLoop : List (RangeType α) → Option (RangeType α) → List (RangeType α) → M (List (RangeType α))
  | out, _, [] => .ok out
  | out, lastRange, currentRange :: ranges =>
      if currentRange.isEmpty then mergeLoop out lastRange ranges
      else match lastRange with
        | none => mergeLoop (out ++ [currentRange]) (some currentRange) ranges
        | some lastRange =>
            if range_adjacent_internal rangetyp lastRange currentRange then do
              let lastRange ← range_union_internal rangetyp lastRange currentRange false
              mergeLoop (out.dropLast ++ [lastRange]) (some lastRange) ranges
            else if range_before_internal rangetyp lastRange currentRange then
              mergeLoop (out ++ [currentRange]) (some currentRange) ranges
            else do
              let lastRange ← range_union_internal rangetyp lastRange currentRange true
              mergeLoop (out.dropLast ++ [lastRange]) (some lastRange) ranges

/-- `multirange_canonicalize`. -/
def multirange_canonicalize (ranges : List (RangeType α)) : M (List (RangeType α)) :=
  mergeLoop rangetyp [] none (qsort_arg (range_compare rangetyp) ranges)

/-- `make_multirange`: the ranges that are then written out. -/
def make_multirange (ranges : List (RangeType α)) : M (List (RangeType α)) := multirange_canonicalize rangetyp ranges

/-! ## 2. Union, difference, intersection -/

/-- `multirange_union`. -/
def multirange_union (mr1 mr2 : List (RangeType α)) : M (List (RangeType α)) :=
  if mr1.isEmpty then .ok mr2
  else if mr2.isEmpty then .ok mr1
  else make_multirange rangetyp (mr1 ++ mr2)

/-- `ranges3[range_count3++] = r`, in an array of so many slots. -/
def storeRange (slots : Nat) (ranges3 : List (RangeType α)) (r : RangeType α) : M (List (RangeType α)) :=
  if ranges3.length < slots then .ok (ranges3 ++ [r]) else .error .outside

/-- Discard r2s while r2 << r1. -/
def discard (r1 : RangeType α) : List (RangeType α) → List (RangeType α)
  | [] => []
  | r2 :: ranges2 => if range_before_internal rangetyp r2 r1 then discard r1 ranges2 else r2 :: ranges2

/-- The inner loop of `multirange_minus_internal`: what is left of `r1`, the r2s kept, and the outputs. -/
def subtractLoop (slots : Nat) : RangeType α → List (RangeType α) → List (RangeType α) →
    M (RangeType α × List (RangeType α) × List (RangeType α))
  | r1, [], ranges3 => .ok (r1, [], ranges3)
  | r1, r2 :: ranges2, ranges3 => do
      match ← range_split_internal rangetyp r1 r2 with
      | some (output1, output2) => do
          let ranges3 ← storeRange slots ranges3 output1
          subtractLoop slots output2 ranges2 ranges3
      | none =>
          if range_overlaps_internal rangetyp r1 r2 then do
            let r1 ← range_minus_internal rangetyp r1 r2
            if r1.isEmpty || range_before_internal rangetyp r1 r2 then .ok (r1, r2 :: ranges2, ranges3)
            else subtractLoop slots r1 ranges2 ranges3
          else .ok (r1, r2 :: ranges2, ranges3)

/-- The loop of `multirange_minus_internal` over the r1s. -/
def minusLoop (slots : Nat) : List (RangeType α) → List (RangeType α) → List (RangeType α) → M (List (RangeType α))
  | [], _, ranges3 => .ok ranges3
  | r1 :: ranges1, ranges2, ranges3 => do
      let (r1, ranges2, ranges3) ← subtractLoop rangetyp slots r1 (discard rangetyp r1 ranges2) ranges3
      let ranges3 ← storeRange slots ranges3 r1
      minusLoop slots ranges1 ranges2 ranges3

/-- `multirange_minus_internal`, which reads `ranges2[0]` before anything else. -/
def multirange_minus_internal (ranges1 ranges2 : List (RangeType α)) : M (List (RangeType α)) :=
  if ranges2.isEmpty then .error .outside
  else do
    let ranges3 ← minusLoop rangetyp (ranges1.length + ranges2.length) ranges1 ranges2 []
    make_multirange rangetyp ranges3

/-- `multirange_minus`. -/
def multirange_minus (mr1 mr2 : List (RangeType α)) : M (List (RangeType α)) :=
  if mr1.isEmpty || mr2.isEmpty then .ok mr1 else multirange_minus_internal rangetyp mr1 mr2

/-- The inner loop of `multirange_intersect_internal`: the r2s kept, and the outputs. -/
def overlapLoop (slots : Nat) (r1 : RangeType α) : List (RangeType α) → List (RangeType α) →
    M (List (RangeType α) × List (RangeType α))
  | [], ranges3 => .ok ([], ranges3)
  | r2 :: ranges2, ranges3 =>
      if range_overlaps_internal rangetyp r1 r2 then do
        let r ← range_intersect_internal rangetyp r1 r2
        let ranges3 ← storeRange slots ranges3 r
        if range_overleft_internal rangetyp r2 r1 then overlapLoop slots r1 ranges2 ranges3
        else .ok (r2 :: ranges2, ranges3)
      else .ok (r2 :: ranges2, ranges3)

/-- The loop of `multirange_intersect_internal` over the r1s. -/
def intersectLoop (slots : Nat) : List (RangeType α) → List (RangeType α) → List (RangeType α) →
    M (List (RangeType α))
  | [], _, ranges3 => .ok ranges3
  | r1 :: ranges1, ranges2, ranges3 => do
      let (ranges2, ranges3) ← overlapLoop rangetyp slots r1 (discard rangetyp r1 ranges2) ranges3
      if ranges2.isEmpty then .ok ranges3 else intersectLoop slots ranges1 ranges2 ranges3

/-- `multirange_intersect_internal`. -/
def multirange_intersect_internal (ranges1 ranges2 : List (RangeType α)) : M (List (RangeType α)) :=
  if ranges1.isEmpty || ranges2.isEmpty then make_multirange rangetyp []
  else do
    let ranges3 ← intersectLoop rangetyp (ranges1.length + ranges2.length) ranges1 ranges2 []
    make_multirange rangetyp ranges3

/-- `multirange_intersect`. -/
def multirange_intersect (mr1 mr2 : List (RangeType α)) : M (List (RangeType α)) :=
  if mr1.isEmpty || mr2.isEmpty then make_multirange rangetyp [] else multirange_intersect_internal rangetyp mr1 mr2

/-! ## 3. Searches and equality -/

/-- `multirange_get_bounds`. -/
def multirange_get_bounds (mr : List (RangeType α)) (i : Nat) : M (RangeBound α × RangeBound α) :=
  match mr[i]? with
  | some (.bounds lower upper _) => .ok (lower, upper)
  | _ => .error .outside

/-- The loop of `multirange_bsearch_match`. The comparison function returns the new `match` beside its result. -/
def bsearchLoop (mr : List (RangeType α)) (cmp_func : RangeBound α → RangeBound α → Bool → Int × Bool) (l u : Nat)
    (matched : Bool) : M Bool :=
  if _h : l < u then do
    let (lower, upper) ← multirange_get_bounds mr ((l + u) / 2)
    if (cmp_func lower upper matched).1 < 0 then bsearchLoop mr cmp_func l ((l + u) / 2) (cmp_func lower upper matched).2
    else if (cmp_func lower upper matched).1 > 0 then
      bsearchLoop mr cmp_func ((l + u) / 2 + 1) u (cmp_func lower upper matched).2
    else .ok (cmp_func lower upper matched).2
  else .ok false
termination_by u - l

/-- `multirange_bsearch_match`. -/
def multirange_bsearch_match (mr : List (RangeType α)) (cmp_func : RangeBound α → RangeBound α → Bool → Int × Bool) :
    M Bool := bsearchLoop mr cmp_func 0 mr.length false

/-- `multirange_elem_bsearch_comparison`. -/
def multirange_elem_bsearch_comparison (val : α) (lower upper : RangeBound α) (matched : Bool) : Int × Bool :=
  if !aboveLower rangetyp lower val then (-1, matched)
  else if !belowUpper rangetyp upper val then (1, matched)
  else (0, true)

/-- `multirange_contains_elem_internal`. -/
def multirange_contains_elem_internal (mr : List (RangeType α)) (val : α) : M Bool :=
  if mr.isEmpty then .ok false
  else multirange_bsearch_match mr (multirange_elem_bsearch_comparison rangetyp val)

/-- `range_bounds_contains`. -/
def range_bounds_contains (lower1 upper1 lower2 upper2 : RangeBound α) : Bool :=
  range_cmp_bounds rangetyp lower1 lower2 ≤ 0 && range_cmp_bounds rangetyp upper1 upper2 ≥ 0

/-- `multirange_range_contains_bsearch_comparison`. -/
def multirange_range_contains_bsearch_comparison (keyLower keyUpper lower upper : RangeBound α) (matched : Bool) :
    Int × Bool :=
  if range_cmp_bounds rangetyp keyUpper lower < 0 then (-1, matched)
  else if range_cmp_bounds rangetyp keyLower upper > 0 then (1, matched)
  else (0, range_bounds_contains rangetyp lower upper keyLower keyUpper)

/-- `multirange_contains_range_internal`. -/
def multirange_contains_range_internal (mr : List (RangeType α)) (r : RangeType α) : M Bool :=
  match r with
  | .empty => .ok true
  | .bounds lower upper _ =>
      if mr.isEmpty then .ok false
      else multirange_bsearch_match mr (multirange_range_contains_bsearch_comparison rangetyp lower upper)

/-- `multirange_range_overlaps_bsearch_comparison`. -/
def multirange_range_overlaps_bsearch_comparison (keyLower keyUpper lower upper : RangeBound α) (matched : Bool) :
    Int × Bool :=
  if range_cmp_bounds rangetyp keyUpper lower < 0 then (-1, matched)
  else if range_cmp_bounds rangetyp keyLower upper > 0 then (1, matched)
  else (0, true)

/-- `range_overlaps_multirange_internal`. -/
def range_overlaps_multirange_internal (r : RangeType α) (mr : List (RangeType α)) : M Bool :=
  match r with
  | .empty => .ok false
  | .bounds lower upper _ =>
      if mr.isEmpty then .ok false
      else multirange_bsearch_match mr (multirange_range_overlaps_bsearch_comparison rangetyp lower upper)

/-- The loop of `multirange_eq_internal`, over so many ranges from index `i` on. -/
def eqLoop (mr1 mr2 : List (RangeType α)) : Nat → Nat → M Bool
  | 0, _ => .ok true
  | n + 1, i => do
      let (lower1, upper1) ← multirange_get_bounds mr1 i
      let (lower2, upper2) ← multirange_get_bounds mr2 i
      if range_cmp_bounds rangetyp lower1 lower2 ≠ 0 ∨ range_cmp_bounds rangetyp upper1 upper2 ≠ 0 then .ok false
      else eqLoop mr1 mr2 n (i + 1)

/-- `multirange_eq_internal`. -/
def multirange_eq_internal (mr1 mr2 : List (RangeType α)) : M Bool :=
  if mr1.length ≠ mr2.length then .ok false else eqLoop rangetyp mr1 mr2 mr1.length 0

end Pgvec.MultirangeOps
