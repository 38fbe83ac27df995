/-
  File:      Pgvec/Adt/MultirangeStorage.lean
  Subject:   HOW A MULTIRANGE IS STORED (`src/backend/utils/adt/multirangetypes.c`): writing it, and reading one of
             its ranges.

  Behind the header stand the items (one for every range but the first), the flags, and the bounds, each range
  aligned for the element type. An item is the length of the range before it, or, every fourth one, the offset of
  its own range.
-/
import Pgvec.Adt.RangeBytes

namespace Pgvec.Multirange

open Pgvec.Cells Pgvec.Range

/-- `sizeof(MultirangeType)`. -/
def sizeofMultirangeType : Nat := 12

/-- `MULTIRANGE_ITEM_OFF_BIT`. -/
def MULTIRANGE_ITEM_OFF_BIT : Nat := 0x80000000

/-- `MULTIRANGE_ITEM_GET_OFFLEN`. -/
def MULTIRANGE_ITEM_GET_OFFLEN (item : Nat) : Nat := item &&& 0x7FFFFFFF

/-- `MULTIRANGE_ITEM_HAS_OFF`. -/
def MULTIRANGE_ITEM_HAS_OFF (item : Nat) : Prop := item &&& MULTIRANGE_ITEM_OFF_BIT ≠ 0

instance (item : Nat) : Decidable (MULTIRANGE_ITEM_HAS_OFF item) := inferInstanceAs (Decidable (_ ≠ _))

/-- `MULTIRANGE_ITEM_OFFSET_STRIDE`. -/
def MULTIRANGE_ITEM_OFFSET_STRIDE : Nat := 4

/-- `MultirangeGetItemsPtr`. -/
def MultirangeGetItemsPtr : Nat := sizeofMultirangeType

/-- `MultirangeGetFlagsPtr`. -/
def MultirangeGetFlagsPtr (rangeCount : Nat) : Nat := sizeofMultirangeType + (rangeCount - 1) * 4

/-- `MultirangeGetBoundariesPtr`. -/
def MultirangeGetBoundariesPtr (rangeCount : Nat) (align : Typalign) : Nat :=
  att_align_nominal (sizeofMultirangeType + (rangeCount - 1) * 4 + rangeCount) align

variable (typcache : RangeTypeCache)

/-- `VARSIZE(range) - sizeof(RangeType) - sizeof(char)`. -/
def boundsLen (range : List UInt8) : M Nat := (access (VARSIZE_4B range 0)).map (· - sizeofRangeType - 1)

/-- The loop of `multirange_size_estimate`. -/
def sizeLoop (size : Nat) : List (List UInt8) → M Nat
  | [] => .ok size
  | range :: ranges => do
      let len ← boundsLen range
      sizeLoop (size + att_align_nominal len typcache.rngelemtype.typalign) ranges

/-- `multirange_size_estimate`. -/
def multirange_size_estimate (ranges : List (List UInt8)) : M Nat :=
  sizeLoop typcache (MultirangeGetBoundariesPtr ranges.length typcache.rngelemtype.typalign) ranges

/-- `items[i - 1]`, for a range at this offset. -/
def newItem (i offset prev_offset : Nat) : Nat :=
  if i % MULTIRANGE_ITEM_OFFSET_STRIDE ≠ 0 then (offset + 2 ^ 32 - prev_offset) % 2 ^ 32
  else offset ||| MULTIRANGE_ITEM_OFF_BIT

/-- `items[i - 1] = ...`, and the new `prev_offset`: every range, except the first one, has an item. -/
def writeItem (i offset prev_offset : Nat) (multirange : List UInt8) : M (List UInt8 × Nat) :=
  if i > 0 then
    (access (poke multirange (MultirangeGetItemsPtr + (i - 1) * 4) (leBytes 4 (newItem i offset prev_offset)))).map
      fun multirange => (multirange, offset)
  else .ok (multirange, prev_offset)

/-- The loop of `write_multirange_data`, from range `i` on. -/
def writeLoop (rangeCount begin_ : Nat) : List (List UInt8) → Nat → Nat → Nat → List UInt8 → M (List UInt8)
  | [], _, _, _, multirange => .ok multirange
  | range :: ranges, i, prev_offset, ptr, multirange => do
      let (multirange, prev_offset) ← writeItem i (ptr - begin_) prev_offset multirange
      let size ← access (VARSIZE_4B range 0)
      let flag ← access (range[size - 1]?)
      let multirange ← access (poke multirange (MultirangeGetFlagsPtr rangeCount + i) [flag])
      let len ← boundsLen range
      let bounds ← access (read range sizeofRangeType len)
      let multirange ← access (poke multirange ptr bounds)
      writeLoop rangeCount begin_ ranges (i + 1) prev_offset
        (ptr + att_align_nominal len typcache.rngelemtype.typalign) multirange

/-- `write_multirange_data`. -/
def write_multirange_data (ranges : List (List UInt8)) (multirange : List UInt8) : M (List UInt8) :=
  let ptr := MultirangeGetBoundariesPtr ranges.length typcache.rngelemtype.typalign
  writeLoop typcache ranges.length ptr ranges 0 0 ptr multirange

/-- `make_multirange`, from the ranges on that `multirange_canonicalize` leaves. -/
def make_multirange (mltrngtypoid : Nat) (ranges : List (List UInt8)) : M (List UInt8) := do
  let size ← multirange_size_estimate typcache ranges
  let multirange ← palloc0 size
  let multirange ← setVarsize multirange size
  let multirange ← access (poke multirange 4 (leBytes 4 mltrngtypoid))
  let multirange ← access (poke multirange 8 (leBytes 4 ranges.length))
  write_multirange_data typcache ranges multirange

/-- `multirange->rangeCount`. -/
def rangeCount (multirange : List UInt8) : Option Nat := readLE multirange 8 4

/-- `multirange_get_bounds_offset`. -/
def multirange_get_bounds_offset (multirange : List UInt8) : Nat → Nat → M Nat
  | 0, offset => .ok offset
  | i + 1, offset => do
      let item ← access (readLE multirange (MultirangeGetItemsPtr + i * 4) 4)
      let offset := (offset + MULTIRANGE_ITEM_GET_OFFLEN item) % 2 ^ 32
      if MULTIRANGE_ITEM_HAS_OFF item then .ok offset else multirange_get_bounds_offset multirange i offset

/-- Where the bounds of the `i`-th range stand, and its flags. -/
def locate (multirange : List UInt8) (i : Nat) : M (Nat × Nat) := do
  let count ← access (rangeCount multirange)
  let offset ← multirange_get_bounds_offset multirange i 0
  let flags ← access (va_header multirange (MultirangeGetFlagsPtr count + i))
  return (MultirangeGetBoundariesPtr count typcache.rngelemtype.typalign + offset, flags)

/-- The pointer behind the lower bound, if any. -/
def walkLower (ty : ElemType) (flags : Nat) (m : List UInt8) (ptr : Nat) : Option Nat :=
  if RANGE_HAS_LBOUND flags then att_addlength_pointer ty.typlen m ptr else some ptr

/-- The pointer behind the upper bound, if any. -/
def walkUpper (ty : ElemType) (flags : Nat) (m : List UInt8) (ptr : Nat) : Option Nat :=
  if RANGE_HAS_UBOUND flags then
    (att_align_pointer ty.typalign ty.typlen m ptr).bind (att_addlength_pointer ty.typlen m)
  else some ptr

/-- `multirange_get_range`. -/
def multirange_get_range (multirange : List UInt8) (i : Nat) : M (List UInt8) := do
  let (begin_, flags) ← locate typcache multirange i
  let ptr ← access (walkLower typcache.rngelemtype flags multirange begin_)
  let ptr ← access (walkUpper typcache.rngelemtype flags multirange ptr)
  let len := (ptr - begin_) + sizeofRangeType + 1
  let range ← palloc0 len
  let range ← setVarsize range len
  let range ← access (poke range 4 (leBytes 4 typcache.type_id))
  let bounds ← access (read multirange begin_ (ptr - begin_))
  let range ← access (poke range sizeofRangeType bounds)
  access (poke range (sizeofRangeType + (ptr - begin_)) [UInt8.ofNat flags])

/-- `multirange_get_bounds`. -/
def multirange_get_bounds (multirange : List UInt8) (i : Nat) : M (RangeBound × RangeBound) := do
  let (ptr, flags) ← locate typcache multirange i
  let vals ← fetchBounds typcache.rngelemtype flags multirange ptr
  return emitBounds flags vals

end Pgvec.Multirange
