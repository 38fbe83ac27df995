/-
  File:      Pgvec/Adt/RangeBytes.lean
  Subject:   RANGES AS BYTES (`src/backend/utils/adt/rangetypes.c`, with `src/include/access/tupmacs.h` and
             `src/include/varatt.h`): `range_serialize` and `range_deserialize`.

  A piece of memory is the list of its bytes, and a pointer into it an offset from its start, where the
  allocator aligns it for every type. An access outside of it is a failure, as an error report is. The machine
  is little-endian, with 8-byte datums.
-/
import Pgvec.Lib.Cells

namespace Pgvec.Range

open Pgvec.Cells

/-- What ends a function early. -/
inductive Failure where
  | outside
  | error (message : String)

abbrev M := Except Failure

/-- An access to memory. -/
def access {α : Type} (o : Option α) : M α := o.elim (.error .outside) .ok

/-- `MaxAllocSize`. -/
def MaxAllocSize : Nat := 0x3fffffff

/-- `palloc0`. -/
def palloc0 (size : Nat) : M (List UInt8) :=
  if size ≤ MaxAllocSize then .ok (List.replicate size 0) else .error (.error "invalid memory alloc request size")

/-! ## 1. Element types -/

inductive Typalign where
  | TYPALIGN_CHAR
  | TYPALIGN_SHORT
  | TYPALIGN_INT
  | TYPALIGN_DOUBLE
  deriving DecidableEq

open Typalign

/-- `TYPEALIGN`. -/
def TYPEALIGN (alignval len : Nat) : Nat := (len + (alignval - 1)) / alignval * alignval

/-- `att_align_nominal`. -/
def att_align_nominal (cur_offset : Nat) : Typalign → Nat
  | TYPALIGN_INT => TYPEALIGN 4 cur_offset
  | TYPALIGN_CHAR => cur_offset
  | TYPALIGN_DOUBLE => TYPEALIGN 8 cur_offset
  | TYPALIGN_SHORT => TYPEALIGN 2 cur_offset

/-- What the type cache says of an element type, as far as `TypeCreate` lets such a type be made. -/
structure ElemType where
  typlen : Int
  typbyval : Bool
  typalign : Typalign
  /-- `typstorage == TYPSTORAGE_PLAIN`. -/
  typstorage_plain : Bool
  byval_len : typbyval = true → typlen = 1 ∨ typlen = 2 ∨ typlen = 4 ∨ typlen = 8
  byref_len : typbyval = false → 0 < typlen ∨ typlen = -1 ∨ typlen = -2 ∧ typalign = TYPALIGN_CHAR

/-- `Datum`: a value, or a pointer, which is given by the datum it points to. -/
inductive Datum where
  | byval (value : BitVec 64)
  | pointer (bytes : List UInt8)

/-- `DatumGetPointer`: the memory behind the pointer. -/
def Datum.bytes : Datum → List UInt8
  | .byval _ => []
  | .pointer bytes => bytes

/-- `TypeCacheEntry` of a range type. -/
structure RangeTypeCache where
  type_id : Nat
  rngelemtype : ElemType
  /-- `rng_cmp_proc_finfo` with `rng_collation`. -/
  rng_cmp : Datum → Datum → Int

/-! ## 2. Reading a datum -/

/-- `va_header`, as a byte. -/
def va_header (m : List UInt8) (p : Nat) : Option Nat := m[p]?.map UInt8.toNat

/-- `VARATT_IS_1B_E`. -/
def VARATT_IS_1B_E (header : Nat) : Prop := header = 0x01

/-- `VARATT_IS_1B`. -/
def VARATT_IS_1B (header : Nat) : Prop := header &&& 0x01 = 0x01

/-- `VARATT_IS_4B_U`. -/
def VARATT_IS_4B_U (header : Nat) : Prop := header &&& 0x03 = 0x00

instance (h : Nat) : Decidable (VARATT_IS_1B_E h) := inferInstanceAs (Decidable (_ = _))

instance (h : Nat) : Decidable (VARATT_IS_1B h) := inferInstanceAs (Decidable (_ = _))

instance (h : Nat) : Decidable (VARATT_IS_4B_U h) := inferInstanceAs (Decidable (_ = _))

/-- An unsigned integer of `n` bytes. -/
def readLE (m : List UInt8) (p n : Nat) : Option Nat := (read m p n).map leNat

/-- `VARSIZE_4B`. -/
def VARSIZE_4B (m : List UInt8) (p : Nat) : Option Nat := (readLE m p 4).map fun h => (h >>> 2) &&& 0x3FFFFFFF

/-- `VARSIZE_1B`. -/
def VARSIZE_1B (header : Nat) : Nat := (header >>> 1) &&& 0x7F

/-- `VARTAG_SIZE`. -/
def VARTAG_SIZE (tag : Nat) : Nat := if tag = 1 then 8 else if tag / 2 * 2 = 2 then 8 else if tag = 18 then 16 else 0

/-- `VARSIZE_ANY`. -/
def VARSIZE_ANY (m : List UInt8) (p : Nat) : Option Nat := do
  let header ← va_header m p
  if VARATT_IS_1B_E header then return 2 + VARTAG_SIZE (← va_header m (p + 1))
  else if VARATT_IS_1B header then return VARSIZE_1B header
  else VARSIZE_4B m p

/-- `strlen`. -/
def strlen (m : List UInt8) (p : Nat) : Option Nat := (m.drop p).findIdx? (· == 0)

/-- `att_addlength_pointer(p, typlen, p)`. -/
def att_addlength_pointer (typlen : Int) (m : List UInt8) (p : Nat) : Option Nat :=
  if typlen > 0 then some (p + typlen.toNat)
  else if typlen = -1 then (VARSIZE_ANY m p).map (p + ·)
  else (strlen m p).map fun n => p + (n + 1)

/-- `att_align_pointer(p, typalign, typlen, p)`: at a varlena it peeks whether this is a pad byte. -/
def att_align_pointer (typalign : Typalign) (typlen : Int) (m : List UInt8) (p : Nat) : Option Nat :=
  if typlen = -1 then m[p]?.map fun b => if b ≠ 0 then p else att_align_nominal p typalign
  else some (att_align_nominal p typalign)

/-- `fetch_att`: a value is extended to a datum; a pointer stands for the datum at it. -/
def fetch_att (m : List UInt8) (p : Nat) (attbyval : Bool) (attlen : Int) : M Datum :=
  if attbyval then
    if attlen = 1 ∨ attlen = 2 ∨ attlen = 4 ∨ attlen = 8 then
      (access (readLE m p attlen.toNat)).map fun n => .byval ((BitVec.ofNat (8 * attlen.toNat) n).signExtend 64)
    else .error (.error "unsupported byval length")
  else access do
    let end_ ← att_addlength_pointer attlen m p
    return .pointer (← read m p (end_ - p))

/-! ## 3. Writing a datum -/

variable (ty : ElemType)

/-- `TYPE_IS_PACKABLE`. -/
def TYPE_IS_PACKABLE : Prop := ty.typlen = -1 ∧ ty.typstorage_plain = false

instance : Decidable (TYPE_IS_PACKABLE ty) := inferInstanceAs (Decidable (_ ∧ _))

/-- `VARATT_CONVERTED_SHORT_SIZE`, where `VARATT_CAN_MAKE_SHORT`. -/
def converted_short_size (val : List UInt8) : Option (Option Nat) := do
  if VARATT_IS_4B_U (← va_header val 0) then
    let size := (← VARSIZE_4B val 0) - 4 + 1
    return if size ≤ 0x7F then some size else none
  else return none

/-- The short size to which a value is converted, if it is. -/
def convertedSize (val : List UInt8) : M (Option Nat) :=
  if TYPE_IS_PACKABLE ty then access (converted_short_size val) else .ok none

/-- `att_align_datum`. -/
def att_align_datum (cur_offset : Nat) (val : List UInt8) : M Nat :=
  if ty.typlen = -1 then do
    let header ← access (va_header val 0)
    return if VARATT_IS_1B header then cur_offset else att_align_nominal cur_offset ty.typalign
  else .ok (att_align_nominal cur_offset ty.typalign)

/-- `datum_compute_size`. -/
def datum_compute_size (data_length : Nat) (val : Datum) : M Nat := do
  match ← convertedSize ty val.bytes with
  | some size => return data_length + size
  | none =>
      let data_length ← att_align_datum ty data_length val.bytes
      return data_length + (← access (att_addlength_pointer ty.typlen val.bytes 0))

/-- `SET_VARSIZE_1B`. -/
def shortHeader (len : Nat) : UInt8 := UInt8.ofNat ((len <<< 1) ||| 0x01)

/-- `memcpy(ptr, data, data_length)`, and the pointer behind it. -/
def put (m : List UInt8) (ptr : Nat) (data : List UInt8) : M (List UInt8 × Nat) :=
  (access (poke m ptr data)).map fun m => (m, ptr + data.length)

/-- `datum_write`: the memory, and the pointer behind the datum. -/
def datum_write (m : List UInt8) (ptr : Nat) (datum : Datum) : M (List UInt8 × Nat) :=
  match datum with
  | .byval value => put m (att_align_nominal ptr ty.typalign) (leBytes ty.typlen.toNat value.toNat)
  | .pointer val =>
      if ty.typlen = -1 then do
        let header ← access (va_header val 0)
        if VARATT_IS_1B_E header then .error (.error "cannot store a toast pointer inside a range")
        else if VARATT_IS_1B header then put m ptr (← access (read val 0 (VARSIZE_1B header)))
        else
          match ← convertedSize ty val with
          | some size =>
              -- convert to short varlena -- no alignment
              put m ptr (shortHeader size :: (← access (read val 4 (size - 1))))
          | none =>
              put m (att_align_nominal ptr ty.typalign) (← access (read val 0 (← access (VARSIZE_4B val 0))))
      else if ty.typlen = -2 then do
        put m ptr (← access (read val 0 ((← access (strlen val 0)) + 1)))
      else do
        put m (att_align_nominal ptr ty.typalign) (← access (read val 0 ty.typlen.toNat))

/-! ## 4. Ranges -/

def RANGE_EMPTY : Nat := 0x01
def RANGE_LB_INC : Nat := 0x02
def RANGE_UB_INC : Nat := 0x04
def RANGE_LB_INF : Nat := 0x08
def RANGE_UB_INF : Nat := 0x10
def RANGE_LB_NULL : Nat := 0x20
def RANGE_UB_NULL : Nat := 0x40

/-- `RANGE_HAS_LBOUND`. -/
def RANGE_HAS_LBOUND (flags : Nat) : Prop := flags &&& (RANGE_EMPTY ||| RANGE_LB_NULL ||| RANGE_LB_INF) = 0

/-- `RANGE_HAS_UBOUND`. -/
def RANGE_HAS_UBOUND (flags : Nat) : Prop := flags &&& (RANGE_EMPTY ||| RANGE_UB_NULL ||| RANGE_UB_INF) = 0

instance (flags : Nat) : Decidable (RANGE_HAS_LBOUND flags) := inferInstanceAs (Decidable (_ = _))

instance (flags : Nat) : Decidable (RANGE_HAS_UBOUND flags) := inferInstanceAs (Decidable (_ = _))

/-- `RangeBound`. -/
structure RangeBound where
  val : Datum
  infinite : Bool
  inclusive : Bool
  lower : Bool

/-- `sizeof(RangeType)`. -/
def sizeofRangeType : Nat := 8

/-- `range_cmp_bound_values`. -/
def range_cmp_bound_values (typcache : RangeTypeCache) (b1 b2 : RangeBound) : Int :=
  if b1.infinite && b2.infinite then if b1.lower = b2.lower then 0 else if b1.lower then -1 else 1
  else if b1.infinite then if b1.lower then -1 else 1
  else if b2.infinite then if b2.lower then 1 else -1
  else typcache.rng_cmp b1.val b2.val

/-- The flags of `range_serialize`. -/
def serializeFlags (typcache : RangeTypeCache) (lower upper : RangeBound) (empty : Bool) : M Nat :=
  if empty then .ok RANGE_EMPTY
  else
    let cmp := range_cmp_bound_values typcache lower upper
    if cmp > 0 then .error (.error "range lower bound must be less than or equal to range upper bound")
    else if cmp = 0 ∧ ¬(lower.inclusive ∧ upper.inclusive) then .ok RANGE_EMPTY
    else
      .ok ((if lower.infinite then RANGE_LB_INF else if lower.inclusive then RANGE_LB_INC else 0) |||
        (if upper.infinite then RANGE_UB_INF else if upper.inclusive then RANGE_UB_INC else 0))

/-- `SET_VARSIZE`. -/
def setVarsize (m : List UInt8) (len : Nat) : M (List UInt8) := access (poke m 0 (leBytes 4 (len <<< 2)))

/-- `datum_compute_size`, for a bound that the flags say is there. -/
def boundSize (has : Prop) [Decidable has] (msize : Nat) (val : Datum) : M Nat :=
  if has then datum_compute_size ty msize val else .ok msize

/-- `datum_write`, for a bound that the flags say is there. -/
def boundWrite (has : Prop) [Decidable has] (range : List UInt8) (ptr : Nat) (val : Datum) : M (List UInt8 × Nat) :=
  if has then datum_write ty range ptr val else .ok (range, ptr)

/-- `range_serialize`. The values are detoasted: `PG_DETOAST_DATUM_PACKED` gives such a value back as it is. -/
def range_serialize (typcache : RangeTypeCache) (lower upper : RangeBound) (empty : Bool) : M (List UInt8) := do
  let ty := typcache.rngelemtype
  let flags ← serializeFlags typcache lower upper empty
  let msize ← boundSize ty (RANGE_HAS_LBOUND flags) sizeofRangeType lower.val
  let msize ← boundSize ty (RANGE_HAS_UBOUND flags) msize upper.val
  let msize := msize + 1
  let range ← palloc0 msize
  let range ← setVarsize range msize
  let range ← access (poke range 4 (leBytes 4 typcache.type_id))
  let (range, ptr) ← boundWrite ty (RANGE_HAS_LBOUND flags) range sizeofRangeType lower.val
  let (range, ptr) ← boundWrite ty (RANGE_HAS_UBOUND flags) range ptr upper.val
  access (poke range ptr [UInt8.ofNat flags])

/-- `fetch lower bound, if any`: its value, and the pointer behind it. -/
def fetchLower (flags : Nat) (m : List UInt8) (ptr : Nat) : M (Datum × Nat) :=
  if RANGE_HAS_LBOUND flags then do
    let lbound ← fetch_att m ptr ty.typbyval ty.typlen
    return (lbound, ← access (att_addlength_pointer ty.typlen m ptr))
  else .ok (.byval 0, ptr)

/-- `fetch upper bound, if any`. -/
def fetchUpper (flags : Nat) (m : List UInt8) (ptr : Nat) : M Datum :=
  if RANGE_HAS_UBOUND flags then do
    let ptr ← access (att_align_pointer ty.typalign ty.typlen m ptr)
    fetch_att m ptr ty.typbyval ty.typlen
  else .ok (.byval 0)

/-- The bound values at `ptr`, of `range_deserialize` and `multirange_get_bounds`. -/
def fetchBounds (flags : Nat) (m : List UInt8) (ptr : Nat) : M (Datum × Datum) := do
  let (lbound, ptr) ← fetchLower ty flags m ptr
  let ubound ← fetchUpper ty flags m ptr
  return (lbound, ubound)

/-- `emit results`, of `range_deserialize` and `multirange_get_bounds`. -/
def emitBounds (flags : Nat) (vals : Datum × Datum) : RangeBound × RangeBound :=
  (⟨vals.1, flags &&& RANGE_LB_INF != 0, flags &&& RANGE_LB_INC != 0, true⟩,
    ⟨vals.2, flags &&& RANGE_UB_INF != 0, flags &&& RANGE_UB_INC != 0, false⟩)

/-- `range_deserialize`: the bounds, and `empty`. -/
def range_deserialize (typcache : RangeTypeCache) (range : List UInt8) : M ((RangeBound × RangeBound) × Bool) := do
  let size ← access (VARSIZE_4B range 0)
  let flags ← access (va_header range (size - 1))
  let vals ← fetchBounds typcache.rngelemtype flags range sizeofRangeType
  return (emitBounds flags vals, flags &&& RANGE_EMPTY != 0)

end Pgvec.Range
