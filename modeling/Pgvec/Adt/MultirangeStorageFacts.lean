/-
  File:      Pgvec/Adt/MultirangeStorageFacts.lean
  Subject:   WHAT IS READ OUT OF A STORED MULTIRANGE (`src/backend/utils/adt/multirangetypes.c`).

  * `offsetAt` -- where the bounds of a range stand; `sizeLoop_eq` -- the estimate is the end of the last;
  * `Entry` -- item, flags and bounds of one range; `writeLoop_spec` -- the loop writes one for each range, and
    stays within the estimate;
  * `get_bounds_offset_eq` -- summing backwards up to an offset comes to the same;
  * **`storage_round_trip`**.
-/
import Pgvec.Adt.RangeBytesFacts
import Mathlib.Data.Nat.Bitwise

namespace Pgvec.Multirange

open Pgvec.Cells Pgvec.Range

variable {tc : RangeTypeCache} {ranges : List (List UInt8)} {r m : List UInt8} {n i : Nat}

/-! ## 1. Where everything stands -/

/-- The room that the bounds of a range take. -/
def room (tc : RangeTypeCache) (r : List UInt8) : Nat := att_align_nominal (r.length - 9) tc.rngelemtype.typalign

/-- The offset of the bounds of a range. -/
def offsetAt (tc : RangeTypeCache) (ranges : List (List UInt8)) (k : Nat) : Nat := ((ranges.take k).map (room tc)).sum

theorem offsetAt_zero (tc : RangeTypeCache) (ranges : List (List UInt8)) : offsetAt tc ranges 0 = 0 := rfl

theorem offsetAt_cons (tc : RangeTypeCache) (r : List UInt8) (ranges : List (List UInt8)) (k : Nat) :
    offsetAt tc (r :: ranges) (k + 1) = room tc r + offsetAt tc ranges k := rfl

theorem offsetAt_mono (tc : RangeTypeCache) (ranges : List (List UInt8)) {j k : Nat} (h : j ≤ k) :
    offsetAt tc ranges j ≤ offsetAt tc ranges k := by
  obtain ⟨d, rfl⟩ := Nat.exists_eq_add_of_le h
  rw [offsetAt, offsetAt, List.take_add, List.map_append, List.sum_append]
  exact Nat.le_add_right _ _

theorem offsetAt_aligned (tc : RangeTypeCache) (ranges : List (List UInt8)) (k : Nat) :
    att_align_nominal (offsetAt tc ranges k) tc.rngelemtype.typalign = offsetAt tc ranges k := by
  rw [offsetAt]
  induction ranges.take k with
  | nil =>
      rw [List.map_nil, List.sum_nil]
      cases tc.rngelemtype.typalign <;> rfl
  | cons r rs ih =>
      rw [List.map_cons, List.sum_cons]
      exact align_add (align_align _ _) ih

theorem boundsLen_eq (P : Parts tc r) : boundsLen r = .ok (r.length - 9) := by
  rw [boundsLen, P.varsize]
  rfl

theorem sizeLoop_eq (h : ∀ r ∈ ranges, Nonempty (Parts tc r)) :
    ∀ size, sizeLoop tc size ranges = .ok (size + offsetAt tc ranges ranges.length) := by
  induction ranges with
  | nil => exact fun size => rfl
  | cons r ranges ih =>
      intro size
      obtain ⟨P⟩ := h r List.mem_cons_self
      rw [sizeLoop, boundsLen_eq P]
      show sizeLoop tc (size + room tc r) ranges = _
      rw [ih (fun r hr => h r (List.mem_cons_of_mem _ hr)), List.length_cons, offsetAt_cons, Nat.add_assoc]

/-- The boundaries begin behind the flags, at an aligned address. -/
theorem boundaries_spec (n : Nat) (al : Typalign) :
    MultirangeGetFlagsPtr n + n ≤ MultirangeGetBoundariesPtr n al ∧
      att_align_nominal (MultirangeGetBoundariesPtr n al) al = MultirangeGetBoundariesPtr n al :=
  ⟨le_align _ al, align_align _ al⟩

/-! ## 2. Writing -/

/-- What is stored of the `j`-th range: its bounds at an offset, its flags, and its item. -/
structure Entry (tc : RangeTypeCache) (n : Nat) (m : List UInt8) (j offset prev : Nat) (r : List UInt8) : Prop where
  bounds : At m (MultirangeGetBoundariesPtr n tc.rngelemtype.typalign + offset) ((r.drop sizeofRangeType).take (r.length - 9))
  flags : m[MultirangeGetFlagsPtr n + j]? = r[r.length - 1]?
  item : 0 < j → At m (MultirangeGetItemsPtr + (j - 1) * 4) (leBytes 4 (newItem j offset prev))

/-- What the loop has written when it comes to range `i`, of which the bounds go to `ptr`. -/
def Done (n i ptr a : Nat) : Prop :=
  a < MultirangeGetItemsPtr + (i - 1) * 4 ∨ MultirangeGetFlagsPtr n ≤ a ∧ a < MultirangeGetFlagsPtr n + i ∨
    MultirangeGetFlagsPtr n + n ≤ a ∧ a < ptr

theorem Done.mono {j ptr ptr' a : Nat} (hi : i ≤ j) (hp : ptr ≤ ptr') (h : Done n i ptr a) : Done n j ptr' a := by
  simp only [Done, MultirangeGetItemsPtr, MultirangeGetFlagsPtr, sizeofMultirangeType] at h ⊢
  omega

/-- The item is written into its own place. -/
theorem writeItem_spec {offset prev : Nat} (hi : i < n) (hfit : MultirangeGetFlagsPtr n ≤ m.length)
    (h0 : i = 0 → prev = offset) :
    ∃ m', writeItem i offset prev m = .ok (m', offset) ∧ m'.length = m.length ∧
      (∀ a, a < MultirangeGetItemsPtr + (i - 1) * 4 ∨ MultirangeGetFlagsPtr n ≤ a → m'[a]? = m[a]?) ∧
      (0 < i → At m' (MultirangeGetItemsPtr + (i - 1) * 4) (leBytes 4 (newItem i offset prev))) := by
  simp only [MultirangeGetFlagsPtr, sizeofMultirangeType] at hfit
  rw [writeItem]
  split_ifs with hpos
  · obtain ⟨m', hm', hlen⟩ := poke_eq m (MultirangeGetItemsPtr + (i - 1) * 4)
      (leBytes 4 (newItem i offset prev)) (by
        rw [length_leBytes, MultirangeGetItemsPtr, sizeofMultirangeType]
        omega)
    refine ⟨m', by rw [hm']; rfl, hlen, fun a ha => getElem?_poke_out hm' ?_, fun _ => at_poke hm'⟩
    rw [length_leBytes]
    simp only [MultirangeGetItemsPtr, MultirangeGetFlagsPtr, sizeofMultirangeType] at ha ⊢
    omega
  · exact ⟨m, by rw [h0 (by omega)], rfl, fun _ _ => rfl, fun h => absurd h hpos⟩

/-- **The loop** writes an entry for every range, inside the memory, and nothing that is done again. -/
theorem writeLoop_spec (n : Nat) : ∀ (ranges : List (List UInt8)) (i prev offset : Nat) (m : List UInt8),
    (∀ r ∈ ranges, Nonempty (Parts tc r)) → i + ranges.length = n → (i = 0 → prev = offset) →
    MultirangeGetBoundariesPtr n tc.rngelemtype.typalign + offset + offsetAt tc ranges ranges.length ≤ m.length →
    ∃ m', writeLoop tc n (MultirangeGetBoundariesPtr n tc.rngelemtype.typalign) ranges i prev
        (MultirangeGetBoundariesPtr n tc.rngelemtype.typalign + offset) m = .ok m' ∧ m'.length = m.length ∧
      (∀ a, Done n i (MultirangeGetBoundariesPtr n tc.rngelemtype.typalign + offset) a → m'[a]? = m[a]?) ∧
      ∀ k (hk : k < ranges.length),
        Entry tc n m' (i + k) (offset + offsetAt tc ranges k)
          (if k = 0 then prev else offset + offsetAt tc ranges (k - 1)) ranges[k] := by
  intro ranges
  induction ranges with
  | nil => exact fun i prev offset m _ _ _ _ => ⟨m, rfl, rfl, fun _ _ => rfl, fun k hk => absurd hk (Nat.not_lt_zero k)⟩
  | cons r ranges ih =>
      intro i prev offset m hP hn h0 hfit
      obtain ⟨P⟩ := hP r List.mem_cons_self
      have hb := (boundaries_spec n tc.rngelemtype.typalign).1
      rw [List.length_cons, offsetAt_cons] at hfit
      rw [List.length_cons] at hn
      have hroom : r.length - 9 ≤ room tc r := le_align _ _
      have hlen := P.length_eq
      -- the item, the flags and the bounds of this range
      obtain ⟨m1, h1, hlen1, hout1, hitem⟩ := writeItem_spec (n := n) (i := i) (m := m) (by omega) (by omega) h0
      obtain ⟨m2, h2, hlen2⟩ := poke_eq m1 (MultirangeGetFlagsPtr n + i) [UInt8.ofNat P.flags]
        (by rw [List.length_singleton]; omega)
      have hbounds : ((r.drop sizeofRangeType).take (r.length - 9)).length = r.length - 9 := by
        rw [List.length_take, List.length_drop, sizeofRangeType]
        omega
      obtain ⟨m3, h3, hlen3⟩ := poke_eq m2 (MultirangeGetBoundariesPtr n tc.rngelemtype.typalign + offset)
        ((r.drop sizeofRangeType).take (r.length - 9)) (by omega)
      have hread : Pgvec.Cells.read r sizeofRangeType (r.length - 9) =
          some ((r.drop sizeofRangeType).take (r.length - 9)) := by
        rw [Pgvec.Cells.read, if_pos (by rw [sizeofRangeType]; omega)]
      obtain ⟨m', hm', hlen', hdone, hentries⟩ := ih (i + 1) offset (offset + room tc r) m3
        (fun r hr => hP r (List.mem_cons_of_mem _ hr)) (by omega) (by omega) (by omega)
      refine ⟨m', ?_, by omega, fun a ha => ?_, fun k hk => ?_⟩
      · rw [writeLoop, Nat.add_sub_cancel_left, h1]
        show (do let size ← access (VARSIZE_4B r 0); _) = _
        rw [P.varsize]
        show (do let flag ← access (r[r.length - 1]?); _) = _
        rw [P.last]
        show (do let multirange ← access (poke m1 _ _); _) = _
        rw [h2, boundsLen_eq P]
        show (do let bounds ← access (read r _ _); _) = _
        rw [hread]
        show (do let multirange ← access (poke m2 _ _); _) = _
        rw [h3]
        show writeLoop tc n _ ranges (i + 1) offset (_ + offset + room tc r) m3 = _
        rw [Nat.add_assoc]
        exact hm'
      · -- what was done before this range is none of the three places
        rw [hdone a (ha.mono (Nat.le_succ i) (by omega)), getElem?_poke_out h3, getElem?_poke_out h2, hout1]
        all_goals
          simp only [Done, MultirangeGetItemsPtr, MultirangeGetFlagsPtr, sizeofMultirangeType, List.length_singleton]
            at ha hb ⊢
          omega
      · cases k with
        | zero =>
            have hsame : ∀ a, Done n (i + 1) (MultirangeGetBoundariesPtr n tc.rngelemtype.typalign + (offset + room tc r)) a →
                m'[a]? = m3[a]? := hdone
            rw [offsetAt_zero, if_pos rfl, Nat.add_zero, Nat.add_zero, List.getElem_cons_zero]
            refine ⟨(at_poke h3).congr hlen'.ge fun a ha1 ha2 => hsame a (.inr (.inr ?_)), ?_, fun hpos => ?_⟩
            · rw [hbounds] at ha2
              omega
            · rw [hsame _ (.inr (.inl (by omega))), getElem?_poke_out h3 (by omega), P.last]
              exact (at_poke h2).head
            · refine (hitem hpos).congr (by omega) fun a ha1 ha2 => ?_
              rw [length_leBytes] at ha2
              have hlt : a < MultirangeGetFlagsPtr n := by
                simp only [MultirangeGetItemsPtr, MultirangeGetFlagsPtr, sizeofMultirangeType] at ha2 ⊢
                omega
              rw [hsame a (.inl (by rw [Nat.add_sub_cancel]; omega)), getElem?_poke_out h3 (by omega),
                getElem?_poke_out h2 (by omega)]
        | succ k =>
            have h := hentries k (by rw [List.length_cons] at hk; omega)
            have hprev : (if k = 0 then offset else offset + room tc r + offsetAt tc ranges (k - 1)) =
                offset + offsetAt tc (r :: ranges) k := by
              cases k with
              | zero => rw [if_pos rfl, offsetAt_zero, Nat.add_zero]
              | succ k => rw [if_neg (Nat.succ_ne_zero k), offsetAt_cons, Nat.add_sub_cancel, Nat.add_assoc]
            rw [hprev, Nat.add_assoc, Nat.add_assoc, Nat.add_comm 1 k, ← offsetAt_cons] at h
            rw [if_neg (Nat.succ_ne_zero k), Nat.add_sub_cancel, List.getElem_cons_succ]
            exact h

/-! ## 3. Reading -/

/-- An item with the offset bit gives the offset. -/
theorem offset_item {offset : Nat} (h : offset < 2 ^ 31) :
    offset ||| MULTIRANGE_ITEM_OFF_BIT < 2 ^ 32 ∧
      MULTIRANGE_ITEM_GET_OFFLEN (offset ||| MULTIRANGE_ITEM_OFF_BIT) = offset ∧
      MULTIRANGE_ITEM_HAS_OFF (offset ||| MULTIRANGE_ITEM_OFF_BIT) := by
  have hor : offset ||| MULTIRANGE_ITEM_OFF_BIT = 2 ^ 31 + offset := by
    have := Nat.two_pow_add_eq_or_of_lt h 1
    rw [Nat.mul_one] at this
    rw [this, Nat.or_comm]
    rfl
  rw [hor]
  refine ⟨by omega, ?_, ?_⟩
  · rw [MULTIRANGE_ITEM_GET_OFFLEN, show (0x7FFFFFFF : Nat) = 2 ^ 31 - 1 from rfl, Nat.and_two_pow_sub_one_eq_mod]
    omega
  · rw [MULTIRANGE_ITEM_HAS_OFF, MULTIRANGE_ITEM_OFF_BIT, show (0x80000000 : Nat) = 2 ^ 31 from rfl, Nat.and_two_pow,
      Nat.testBit_two_pow_add_eq, Nat.testBit_lt_two_pow h]
    decide

/-- An item without it gives a length. -/
theorem length_item {len : Nat} (h : len < 2 ^ 31) :
    MULTIRANGE_ITEM_GET_OFFLEN len = len ∧ ¬MULTIRANGE_ITEM_HAS_OFF len := by
  refine ⟨?_, ?_⟩
  · rw [MULTIRANGE_ITEM_GET_OFFLEN, show (0x7FFFFFFF : Nat) = 2 ^ 31 - 1 from rfl, Nat.and_two_pow_sub_one_eq_mod,
      Nat.mod_eq_of_lt h]
  · rw [MULTIRANGE_ITEM_HAS_OFF, MULTIRANGE_ITEM_OFF_BIT, show (0x80000000 : Nat) = 2 ^ 31 from rfl, Nat.and_two_pow,
      Nat.testBit_lt_two_pow h]
    decide

/-- **Lengths summed backwards up to an offset, or to the first range, are the offset of the range.** -/
theorem get_bounds_offset_eq (hitem : ∀ j, j < n → 0 < j →
      At m (MultirangeGetItemsPtr + (j - 1) * 4) (leBytes 4 (newItem j (offsetAt tc ranges j) (offsetAt tc ranges (j - 1)))))
    (hmax : ∀ j, offsetAt tc ranges j < 2 ^ 31) (j : Nat) :
    ∀ acc, j < n → acc + offsetAt tc ranges j < 2 ^ 32 →
      multirange_get_bounds_offset m j acc = .ok (acc + offsetAt tc ranges j) := by
  induction j with
  | zero => exact fun acc _ _ => rfl
  | succ j ih =>
      intro acc hj hacc
      have hat := hitem (j + 1) hj (Nat.succ_pos j)
      rw [Nat.add_sub_cancel] at hat
      have hread := readLE_of_at hat (k := 4) (by rw [length_leBytes])
      rw [List.take_of_length_le (by rw [length_leBytes]), leNat_leBytes] at hread
      have hmono := offsetAt_mono tc ranges (show j ≤ j + 1 by omega)
      have hj1 := hmax (j + 1)
      rw [multirange_get_bounds_offset, hread]
      show (if MULTIRANGE_ITEM_HAS_OFF _ then _ else _) = _
      rw [newItem]
      split_ifs with hstride hoff hoff
      · -- a length
        have hitem' : (offsetAt tc ranges (j + 1) + 2 ^ 32 - offsetAt tc ranges j) % 2 ^ 32 % 256 ^ 4 =
            offsetAt tc ranges (j + 1) - offsetAt tc ranges j := by omega
        rw [hitem'] at hoff
        exact absurd hoff (length_item (by omega)).2
      · have hitem' : (offsetAt tc ranges (j + 1) + 2 ^ 32 - offsetAt tc ranges j) % 2 ^ 32 % 256 ^ 4 =
            offsetAt tc ranges (j + 1) - offsetAt tc ranges j := by omega
        rw [hitem', (length_item (by omega)).1, Nat.mod_eq_of_lt (by omega), ih _ (by omega) (by omega)]
        congr 1
        omega
      · -- an offset
        obtain ⟨hlt, hget, -⟩ := offset_item hj1
        rw [Nat.mod_eq_of_lt (show _ < 256 ^ 4 from hlt), hget, Nat.mod_eq_of_lt hacc]
      · obtain ⟨hlt, -, hhas⟩ := offset_item hj1
        rw [Nat.mod_eq_of_lt (show _ < 256 ^ 4 from hlt)] at hoff
        exact absurd hhas hoff

/-- A multirange in which every range is stored. -/
structure Stores (tc : RangeTypeCache) (ranges : List (List UInt8)) (m : List UInt8) : Prop where
  count : rangeCount m = some ranges.length
  entry : ∀ i (hi : i < ranges.length),
    Entry tc ranges.length m i (offsetAt tc ranges i) (offsetAt tc ranges (i - 1)) ranges[i]
  small : ∀ j, offsetAt tc ranges j < 2 ^ 31

theorem Parts.bytes_eq (P : Parts tc r) : (r.drop sizeofRangeType).take (r.length - 9) =
    boundsBytes tc.rngelemtype P.lo P.hi := by
  have h := read_eq P.at_bounds
  have hlen := P.length_eq
  rw [Pgvec.Cells.read, if_pos (by rw [sizeofRangeType]; omega)] at h
  rw [show r.length - 9 = (boundsBytes tc.rngelemtype P.lo P.hi).length by omega]
  exact Option.some.inj h

theorem base_aligned (tc : RangeTypeCache) (ranges : List (List UInt8)) (i : Nat) : att_align_nominal
    (MultirangeGetBoundariesPtr ranges.length tc.rngelemtype.typalign + offsetAt tc ranges i) tc.rngelemtype.typalign =
    MultirangeGetBoundariesPtr ranges.length tc.rngelemtype.typalign + offsetAt tc ranges i :=
  align_add (boundaries_spec ranges.length _).2 (offsetAt_aligned tc ranges i)

section Read

variable (S : Stores tc ranges m) (hi : i < ranges.length) (P : Parts tc ranges[i])

include S

theorem locate_eq :
    locate tc m i = .ok (MultirangeGetBoundariesPtr ranges.length tc.rngelemtype.typalign + offsetAt tc ranges i, P.flags) := by
  have hoff := get_bounds_offset_eq (n := ranges.length) (fun j hj => (S.entry j hj).item) S.small i 0 hi
    (by have := S.small i; omega)
  have hflags : va_header m (MultirangeGetFlagsPtr ranges.length + i) = some P.flags := by
    rw [va_header, (S.entry i hi).flags, P.last, Option.map_some, toNat_flags P]
  rw [locate, S.count]
  show (do let offset ← multirange_get_bounds_offset m i 0; _) = _
  rw [hoff, Nat.zero_add]
  show (do let flags ← access (va_header m _); _) = _
  rw [hflags]
  rfl

theorem at_entry : At m (MultirangeGetBoundariesPtr ranges.length tc.rngelemtype.typalign + offsetAt tc ranges i)
    (boundsBytes tc.rngelemtype P.lo P.hi) := by
  rw [← Parts.bytes_eq P]
  exact (S.entry i hi).bounds

include hi P

/-- **`multirange_get_range`** gives the bytes of the range. -/
theorem get_range_eq : multirange_get_range tc m i = .ok ranges[i] := by
  have hat := at_entry S hi P
  have hlow := (lower_spec P hat).1
  have hup := (upper_spec P hat (base_aligned tc ranges i)).1
  have hlen := P.length_eq
  have hsmall := P.small
  have hread := read_eq hat
  generalize hbounds : boundsBytes tc.rngelemtype P.lo P.hi = bounds at *
  rw [multirange_get_range, locate_eq S hi P]
  show (do let ptr ← access (walkLower _ _ _ _); _) = _
  rw [hlow]
  show (do let ptr ← access (walkUpper _ _ _ _); _) = _
  rw [hup]
  obtain ⟨hhdr, hoid⟩ := header_written (n := bounds.length + 9) (by omega) (bounds.length + 9) tc.type_id
  have hbody : poke (leBytes 4 ((bounds.length + 9) <<< 2) ++ leBytes 4 tc.type_id ++
      List.replicate (bounds.length + 9 - 8) 0) 8 bounds = some (leBytes 4 ((bounds.length + 9) <<< 2) ++
      leBytes 4 tc.type_id ++ bounds ++ List.replicate 1 0) := by
    have := poke_blank (leBytes 4 ((bounds.length + 9) <<< 2) ++ leBytes 4 tc.type_id) bounds 0 (bounds.length + 9 - 8) 0
      (by omega)
    simp only [List.length_append, length_leBytes, Nat.add_zero, List.replicate_zero, List.append_nil, Nat.sub_zero] at this
    rw [this]
    congr 3
    omega
  have hlast : poke (leBytes 4 ((bounds.length + 9) <<< 2) ++ leBytes 4 tc.type_id ++ bounds ++ List.replicate 1 0)
      (8 + bounds.length) [UInt8.ofNat P.flags] = some ranges[i] := by
    have := poke_blank (leBytes 4 ((bounds.length + 9) <<< 2) ++ leBytes 4 tc.type_id ++ bounds) [UInt8.ofNat P.flags] 0 1 0
      (by rw [List.length_singleton])
    simp only [List.length_append, length_leBytes, Nat.add_zero, List.replicate_zero, List.append_nil, Nat.sub_zero,
      List.length_singleton, Nat.sub_self] at this
    have himage := P.eq_image
    rw [hbounds] at himage
    rw [this]
    exact congrArg some himage.symm
  have hnew : palloc0 (bounds.length + 9) = .ok (List.replicate (bounds.length + 9) 0) := if_pos (by omega)
  simp only [access, Option.elim_some, bind, Except.bind, Nat.add_sub_cancel_left, hnew, hhdr, hoid, hread,
    show sizeofRangeType = 8 from rfl, hbody, hlast]

/-- **`multirange_get_bounds`** gives what `range_deserialize` gives. -/
theorem get_bounds_eq : multirange_get_bounds tc m i = .ok (emitBounds P.flags P.vals) := by
  rw [multirange_get_bounds, locate_eq S hi P]
  show (do let vals ← fetchBounds _ _ _ _; _) = _
  rw [fetchBounds_eq P (at_entry S hi P) (base_aligned tc ranges i)]
  rfl

end Read

/-! ## 4. The round trip -/

/-- The header of a multirange, written into new memory. -/
theorem make_header (oid count : Nat) {size : Nat} (h : 12 ≤ size) :
    ∃ m1 m2 m3, setVarsize (List.replicate size 0) size = .ok m1 ∧ poke m1 4 (leBytes 4 oid) = some m2 ∧
      poke m2 8 (leBytes 4 count) = some m3 ∧ m3.length = size ∧ At m3 8 (leBytes 4 count) := by
  obtain ⟨m1, h1, hlen1⟩ := poke_eq (List.replicate size (0 : UInt8)) 0 (leBytes 4 (size <<< 2))
    (by rw [length_leBytes, List.length_replicate]; omega)
  rw [List.length_replicate] at hlen1
  obtain ⟨m2, h2, hlen2⟩ := poke_eq m1 4 (leBytes 4 oid) (by rw [length_leBytes]; omega)
  obtain ⟨m3, h3, hlen3⟩ := poke_eq m2 8 (leBytes 4 count) (by rw [length_leBytes]; omega)
  exact ⟨m1, m2, m3, by rw [setVarsize, h1]; rfl, h2, h3, by omega, at_poke h3⟩

/-- **Every range of a multirange is read back**: a multirange of less than 2^30 bytes is written without leaving
    the estimated size, `multirange_get_range` gives back each range byte for byte, and `multirange_get_bounds` the
    bounds that `range_deserialize` finds in it. -/
theorem storage_round_trip (tc : RangeTypeCache) (mltrngtypoid : Nat) (ranges : List (List UInt8))
    (hranges : ∀ r ∈ ranges, IsRange tc r) (size : Nat) (hsize : multirange_size_estimate tc ranges = .ok size)
    (hlt : size < 2 ^ 30) :
    ∃ m, make_multirange tc mltrngtypoid ranges = .ok m ∧ m.length = size ∧
      ∀ i (hi : i < ranges.length), multirange_get_range tc m i = .ok ranges[i] ∧
        ∃ lower upper, range_deserialize tc ranges[i] = .ok ((lower, upper), false) ∧
          multirange_get_bounds tc m i = .ok (lower, upper) := by
  have hP : ∀ r ∈ ranges, Nonempty (Parts tc r) := fun r hr => (hranges r hr).parts
  have hsum := sizeLoop_eq hP (MultirangeGetBoundariesPtr ranges.length tc.rngelemtype.typalign)
  have hb := (boundaries_spec ranges.length tc.rngelemtype.typalign).1
  have hsize' := hsize
  rw [multirange_size_estimate, hsum] at hsize'
  have heq : MultirangeGetBoundariesPtr ranges.length tc.rngelemtype.typalign + offsetAt tc ranges ranges.length = size :=
    Except.ok.inj hsize'
  have hflags : 12 ≤ MultirangeGetFlagsPtr ranges.length := Nat.le_add_right _ _
  obtain ⟨m1, m2, m3, h1, h2, h3, hlen3, hcount⟩ := make_header mltrngtypoid ranges.length
    (show 12 ≤ size by omega)
  obtain ⟨m, hm, hlen, hdone, hentries⟩ := writeLoop_spec ranges.length ranges 0 0 0 m3 hP (Nat.zero_add _) (fun _ => rfl)
    (by omega)
  have hmake : make_multirange tc mltrngtypoid ranges = .ok m := by
    have hnew : palloc0 size = .ok (List.replicate size 0) := if_pos (by rw [MaxAllocSize]; omega)
    rw [make_multirange, hsize]
    show (do let multirange ← palloc0 size; _) = _
    rw [hnew]
    show (do let multirange ← setVarsize _ size; _) = _
    rw [h1]
    show (do let multirange ← access (poke m1 4 _); _) = _
    rw [h2]
    show (do let multirange ← access (poke m2 8 _); _) = _
    rw [h3]
    exact hm
  have hstores : Stores tc ranges m := by
    refine ⟨?_, fun i hi => ?_, fun j => ?_⟩
    · have hat := hcount.congr hlen.ge fun a _ ha => hdone a (.inl (by
        rw [length_leBytes] at ha
        exact ha))
      have hread := readLE_of_at hat (k := 4) (by rw [length_leBytes])
      rw [List.take_of_length_le (by rw [length_leBytes]), leNat_leBytes, Nat.mod_eq_of_lt (by omega)] at hread
      exact hread
    · have h := hentries i hi
      rw [Nat.zero_add, Nat.zero_add] at h
      have hprev : (if i = 0 then 0 else 0 + offsetAt tc ranges (i - 1)) = offsetAt tc ranges (i - 1) := by
        split_ifs with h0
        · rw [h0]
          rfl
        · exact Nat.zero_add _
      rwa [hprev] at h
    · have hle : offsetAt tc ranges j ≤ offsetAt tc ranges ranges.length := by
        rcases Nat.le_total j ranges.length with h | h
        · exact offsetAt_mono tc ranges h
        · rw [offsetAt, List.take_of_length_le h, offsetAt, List.take_length]
      omega
  refine ⟨m, hmake, by omega, fun i hi => ?_⟩
  obtain ⟨P⟩ := hP _ (List.getElem_mem hi)
  exact ⟨get_range_eq hstores hi P, _, _, range_deserialize_eq P, get_bounds_eq hstores hi P⟩

/-- `int4range`. -/
def int4range : RangeTypeCache where
  type_id := 3904
  rngelemtype := ⟨4, true, .TYPALIGN_INT, true, fun _ => .inr (.inr (.inl rfl)), nofun⟩
  rng_cmp
    | .byval x, .byval y => if x.slt y then -1 else if y.slt x then 1 else 0
    | _, _ => 0

/-- `[3,5)` and `[7,)`. -/
theorem storage_round_trip_int4range :
    ∃ m, make_multirange int4range 4451 [[68, 0, 0, 0, 64, 15, 0, 0, 3, 0, 0, 0, 5, 0, 0, 0, 2],
        [52, 0, 0, 0, 64, 15, 0, 0, 7, 0, 0, 0, 18]] = .ok m ∧ m.length = 32 ∧
      ∀ i (hi : i < [[68, 0, 0, 0, 64, 15, 0, 0, 3, 0, 0, 0, 5, 0, 0, 0, 2],
          [52, 0, 0, 0, 64, 15, 0, 0, 7, 0, 0, 0, 18]].length),
        multirange_get_range int4range m i = .ok ([[68, 0, 0, 0, 64, 15, 0, 0, 3, 0, 0, 0, 5, 0, 0, 0, 2],
          [52, 0, 0, 0, 64, 15, 0, 0, 7, 0, 0, 0, 18]].get ⟨i, hi⟩) ∧
        ∃ lower upper, range_deserialize int4range ([[68, 0, 0, 0, 64, 15, 0, 0, 3, 0, 0, 0, 5, 0, 0, 0, 2],
          [52, 0, 0, 0, 64, 15, 0, 0, 7, 0, 0, 0, 18]].get ⟨i, hi⟩) = .ok ((lower, upper), false) ∧
          multirange_get_bounds int4range m i = .ok (lower, upper) := by
  refine storage_round_trip int4range 4451 _ (fun r hr => ?_) 32 rfl (by decide)
  rcases List.mem_cons.mp hr with rfl | hr
  · exact ⟨⟨.byval 3, false, true, true⟩, ⟨.byval 5, false, false, false⟩, 2, rfl, rfl, fun _ => rfl, fun _ => rfl, rfl⟩
  · obtain rfl := List.mem_singleton.mp hr
    exact ⟨⟨.byval 7, false, true, true⟩, ⟨.byval 0, true, false, false⟩, 18, rfl, rfl, fun _ => rfl, fun _ => rfl, rfl⟩

end Pgvec.Multirange
