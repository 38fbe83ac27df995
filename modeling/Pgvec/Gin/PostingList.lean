/-
  File:      Pgvec/Gin/PostingList.lean
  Subject:   COMPRESSED POSTING LISTS (`src/backend/access/gin/ginpostinglist.c`): a varbyte encoding of the
             differences of item pointers, and the decoder of any number of segments.

  A segment in memory is its header (the first item pointer and the `uint16` `nbytes`), `nbytes` bytes, and a
  padding byte when their number is odd (`GinPostingList.image`). The decoder is given a memory of exactly `len` bytes: a
  read past it gives `none`, and so does a write past the end of the output array, so a result `some` says
  that neither happens. Assertions and the memory the allocator can give are left out.

  * `decode_varbyte_encode` -- one integer of at most 49 bits is read back;
  * `compressLoop_spec` -- what the encoder packs, and why it stops;
  * `decodeItems_spec`, `decodeSegments_spec` -- one segment, then all of them;
  * **`posting_list_round_trip`**.
-/
import Pgvec.Storage.GenericXlog
import Pgvec.Hnsw.Tuple

namespace Pgvec.Gin

open Pgvec.Hnsw (ItemPointer)
open Pgvec.Storage (BLCKSZ)
open Pgvec.Storage.GenericXlog (uint16Of bytesOf uint16Of_bytes)

/-! ## 1. The encoding -/

/-- `MaxHeapTuplesPerPageBits`. -/
def MaxHeapTuplesPerPageBits : Nat := 11

/-- `MaxBytesPerInteger`. -/
def MaxBytesPerInteger : Nat := 7

/-- `itemptr_to_uint64`. -/
def itemptr_to_uint64 (iptr : ItemPointer) : Nat :=
  (iptr.blkno <<< MaxHeapTuplesPerPageBits) ||| iptr.offno

/-- `uint64_to_itemptr`; the block number is a `uint32`. -/
def uint64_to_itemptr (val : Nat) : ItemPointer :=
  ⟨(val >>> MaxHeapTuplesPerPageBits) % 2 ^ 32, val &&& ((1 <<< MaxHeapTuplesPerPageBits) - 1)⟩

/-- `encode_varbyte`: the bytes written. -/
def encode_varbyte (val : Nat) : List UInt8 :=
  if 0x7F < val then UInt8.ofNat (0x80 ||| (val &&& 0x7F)) :: encode_varbyte (val >>> 7)
  else [UInt8.ofNat val]
termination_by val
decreasing_by
  rw [Nat.shiftRight_eq_div_pow]
  omega

/-- `SHORTALIGN`. -/
def SHORTALIGN (n : Nat) : Nat := (n + 1) / 2 * 2

/-- `SHORTALIGN_DOWN`. -/
def SHORTALIGN_DOWN (n : Nat) : Nat := n / 2 * 2

/-- `GinPostingList`: the first item, `nbytes`, and the bytes written behind it for the others. -/
structure GinPostingList where
  first : ItemPointer
  nbytes : UInt16
  bytes : List UInt8
  /-- `nbytes` of them are there; more, if the count of the bytes written did not fit. -/
  written : nbytes.toNat ≤ bytes.length
  deriving DecidableEq, Repr

/-- `offsetof(GinPostingList, bytes)`: an item pointer of three 16-bit fields, and `nbytes`. -/
def offsetofBytes : Nat := 8

/-- `SizeOfGinPostingList`. -/
def SizeOfGinPostingList (plist : GinPostingList) : Nat := offsetofBytes + SHORTALIGN plist.nbytes.toNat

/-- `ItemPointerData` in memory: `bi_hi`, `bi_lo`, `ip_posid`. -/
def itemPointerBytes (p : ItemPointer) : List UInt8 :=
  bytesOf (p.blkno >>> 16) ++ bytesOf (p.blkno &&& 0xFFFF) ++ bytesOf p.offno

/-- A segment in memory, as far as `SizeOfGinPostingList` counts it: its bytes, and the zero padding byte
    at the end of an odd number of them. -/
def GinPostingList.image (plist : GinPostingList) : List UInt8 :=
  itemPointerBytes plist.first ++ bytesOf plist.nbytes.toNat ++ plist.bytes.take plist.nbytes.toNat ++
    List.replicate (SHORTALIGN plist.nbytes.toNat - plist.nbytes.toNat) 0

/-- The loop of `ginCompressPostingList`: `bytes` are written so far, `totalpacked` items are packed. -/
def compressLoop (maxbytes : Nat) : Nat → List UInt8 → Nat → List ItemPointer → List UInt8 × Nat
  | _, bytes, totalpacked, [] => (bytes, totalpacked)
  | prev, bytes, totalpacked, ip :: ipd =>
      let val := itemptr_to_uint64 ip
      let delta := (val + 2 ^ 64 - prev) % 2 ^ 64
      if MaxBytesPerInteger ≤ maxbytes - bytes.length then
        compressLoop maxbytes val (bytes ++ encode_varbyte delta) (totalpacked + 1) ipd
      else
        -- less than 7 bytes left: check whether the next item fits before writing it out
        let buf := encode_varbyte delta
        if maxbytes - bytes.length < buf.length then (bytes, totalpacked)
        else compressLoop maxbytes val (bytes ++ buf) (totalpacked + 1) ipd

theorem uint16_toNat_le (n : Nat) : (UInt16.ofNat n).toNat ≤ n := by
  rw [UInt16.toNat_ofNat']
  exact Nat.mod_le _ _

/-- The end of `ginCompressPostingList`: `nbytes` is a `uint16`, and the byte behind that many is set to
    zero if their number is odd. It is the padding byte unless `nbytes` has wrapped. -/
def finishPostingList (first : ItemPointer) (bytes : List UInt8) : GinPostingList where
  first := first
  nbytes := UInt16.ofNat bytes.length
  bytes :=
    let nbytes := (UInt16.ofNat bytes.length).toNat
    if nbytes ≠ SHORTALIGN nbytes then bytes.set nbytes 0 else bytes
  written := by
    simp only
    split
    · rw [List.length_set]
      exact uint16_toNat_le _
    · exact uint16_toNat_le _

/-- **`ginCompressPostingList`**: the segment and `*nwritten`; `none` for an array without a first item. -/
def ginCompressPostingList (ipd : List ItemPointer) (maxsize : Nat) : Option (GinPostingList × Nat) :=
  match ipd with
  | [] => none
  | first :: rest =>
      let maxbytes := SHORTALIGN_DOWN maxsize - offsetofBytes
      let (bytes, totalpacked) := compressLoop maxbytes (itemptr_to_uint64 first) [] 1 rest
      some (finishPostingList first bytes, totalpacked)

/-! ## 2. The decoder -/

/-- One byte of memory. -/
def readByte (mem : List UInt8) (p : Nat) : Option Nat := (mem[p]?).map (·.toNat)

/-- A 16-bit field. -/
def readUint16 (mem : List UInt8) (p : Nat) : Option Nat :=
  match mem[p]?, mem[p + 1]? with
  | some lo, some hi => some (uint16Of lo hi)
  | _, _ => none

/-- An item pointer. -/
def readItemPointer (mem : List UInt8) (p : Nat) : Option ItemPointer := do
  let hi ← readUint16 mem p
  let lo ← readUint16 mem (p + 2)
  let posid ← readUint16 mem (p + 4)
  return ⟨(hi <<< 16) ||| lo, posid⟩

/-- **`decode_varbyte`**: the value and the pointer behind it. -/
def decode_varbyte (mem : List UInt8) (p : Nat) : Option (Nat × Nat) := do
  -- 1st byte
  let c ← readByte mem p
  let val := c &&& 0x7F
  if c &&& 0x80 = 0 then return (val, p + 1)
  -- 2nd byte
  let c ← readByte mem (p + 1)
  let val := val ||| ((c &&& 0x7F) <<< 7)
  if c &&& 0x80 = 0 then return (val, p + 2)
  -- 3rd byte
  let c ← readByte mem (p + 2)
  let val := val ||| ((c &&& 0x7F) <<< 14)
  if c &&& 0x80 = 0 then return (val, p + 3)
  -- 4th byte
  let c ← readByte mem (p + 3)
  let val := val ||| ((c &&& 0x7F) <<< 21)
  if c &&& 0x80 = 0 then return (val, p + 4)
  -- 5th byte
  let c ← readByte mem (p + 4)
  let val := val ||| ((c &&& 0x7F) <<< 28)
  if c &&& 0x80 = 0 then return (val, p + 5)
  -- 6th byte
  let c ← readByte mem (p + 5)
  let val := val ||| ((c &&& 0x7F) <<< 35)
  if c &&& 0x80 = 0 then return (val, p + 6)
  -- 7th byte, should not have continuation bit
  let c ← readByte mem (p + 6)
  return (val ||| (c <<< 42), p + 7)

/-- The output array: the items decoded and the places allocated. -/
structure Output where
  items : List ItemPointer
  nallocated : Nat

/-- Enlarge the array if needed, and store the next item. -/
def Output.put (out : Output) (ip : ItemPointer) : Option Output :=
  let nallocated := if out.nallocated ≤ out.items.length then out.nallocated * 2 else out.nallocated
  if out.items.length < nallocated then some ⟨out.items ++ [ip], nallocated⟩ else none

/-- The inner loop of the decoder: `while (ptr < endptr)`, at most `fuel` times. -/
def decodeItems (mem : List UInt8) (endptr : Nat) : Nat → Nat → Nat → Output → Option Output
  | 0, _, _, _ => none
  | fuel + 1, val, ptr, out =>
      if ptr < endptr then do
        let (delta, ptr) ← decode_varbyte mem ptr
        let val := (val + delta) % 2 ^ 64
        let out ← out.put (uint64_to_itemptr val)
        decodeItems mem endptr fuel val ptr out
      else some out

/-- The outer loop: `while (segment < endseg)`, at most `fuel` times. -/
def decodeSegments (mem : List UInt8) : Nat → Nat → Output → Option Output
  | 0, _, _ => none
  | fuel + 1, segment, out =>
      if segment < mem.length then do
        let first ← readItemPointer mem segment
        let nbytes ← readUint16 mem (segment + 6)
        let out ← out.put first
        let ptr := segment + offsetofBytes
        let out ← decodeItems mem (ptr + nbytes) (mem.length + 1) (itemptr_to_uint64 first) ptr out
        decodeSegments mem fuel (segment + (offsetofBytes + SHORTALIGN nbytes)) out
      else some out

/-- **`ginPostingListDecodeAllSegments`** on a memory of `len` bytes. -/
def ginPostingListDecodeAllSegments (mem : List UInt8) : Option (List ItemPointer) := do
  let nbytes ← readUint16 mem 6
  let out ← decodeSegments mem (mem.length + 1) 0 ⟨[], nbytes * 2 + 1⟩
  return out.items

/-- `ginPostingListDecode`. -/
def ginPostingListDecode (plist : GinPostingList) : Option (List ItemPointer) :=
  ginPostingListDecodeAllSegments plist.image

/-! ## 3. One integer -/

theorem and_low (c : Nat) : c &&& 0x7F = c % 128 := Nat.and_two_pow_sub_one_eq_mod c 7

theorem high_add {c : Nat} (h : c < 128) : 0x80 + c = 0x80 ||| c := Nat.two_pow_add_eq_or_of_lt (i := 7) h 1

/-- The continuation bit of a byte. -/
theorem and_high {c : Nat} (h : c < 256) : c &&& 0x80 = 0 ↔ c < 128 := by
  rw [show (0x80 : Nat) = 2 ^ 7 from rfl, Nat.and_two_pow, Nat.testBit_eq_decide_div_mod_eq]
  by_cases hc : c < 128
  · simp [hc]
    omega
  · simp [hc]
    omega

theorem encode_varbyte_small {val : Nat} (h : val ≤ 0x7F) : encode_varbyte val = [UInt8.ofNat val] := by
  rw [encode_varbyte, if_neg (Nat.not_lt.mpr h)]

theorem encode_varbyte_large {val : Nat} (h : 0x7F < val) :
    encode_varbyte val = UInt8.ofNat (0x80 + val % 128) :: encode_varbyte (val / 128) := by
  rw [encode_varbyte, if_pos h, Nat.shiftRight_eq_div_pow, and_low, ← high_add (Nat.mod_lt _ (by decide))]

theorem encode_varbyte_ne_nil (val : Nat) : encode_varbyte val ≠ [] := by
  rw [encode_varbyte]
  split <;> exact List.cons_ne_nil _ _

/-- An integer of `7 * k` bits takes at most `k` bytes. -/
theorem length_encode_varbyte (k : Nat) :
    ∀ {val : Nat}, val < 2 ^ (7 * (k + 1)) → (encode_varbyte val).length ≤ k + 1 := by
  induction k with
  | zero =>
      intro val h
      rw [encode_varbyte_small (by omega), List.length_singleton]
  | succ k ih =>
      intro val h
      by_cases hs : val ≤ 0x7F
      · rw [encode_varbyte_small hs, List.length_singleton]
        omega
      · rw [encode_varbyte_large (by omega), List.length_cons]
        refine Nat.succ_le_succ (ih (Nat.div_lt_of_lt_mul ?_))
        rwa [show (128 : Nat) = 2 ^ 7 from rfl, ← Nat.pow_add, Nat.add_comm]

/-- The bytes of an integer from the one after the first `6 - n` on, with the last one unmasked: the
    decoder written as a loop. -/
def varbyteTail (mem : List UInt8) : Nat → Nat → Nat → Nat → Option (Nat × Nat)
  | 0, shift, val, p => do
      let c ← readByte mem p
      return (val ||| (c <<< shift), p + 1)
  | n + 1, shift, val, p => do
      let c ← readByte mem p
      let val := val ||| ((c &&& 0x7F) <<< shift)
      if c &&& 0x80 = 0 then return (val, p + 1)
      varbyteTail mem n (shift + 7) val (p + 1)

/-- The unrolled decoder is the loop. -/
theorem decode_varbyte_eq (mem : List UInt8) (p : Nat) : decode_varbyte mem p = varbyteTail mem 6 0 0 p := by
  simp only [decode_varbyte, varbyteTail, Nat.zero_or, Nat.shiftLeft_zero]

theorem readByte_of_drop {mem rest : List UInt8} {p : Nat} {b : UInt8} (h : mem.drop p = b :: rest) :
    readByte mem p = some b.toNat := by
  have := congrArg (·[0]?) h
  simp only [List.getElem?_drop, Nat.add_zero, List.getElem?_cons_zero] at this
  rw [readByte, this]
  rfl

theorem drop_succ_of_drop {α : Type} {mem rest : List α} {p : Nat} {b : α} (h : mem.drop p = b :: rest) :
    mem.drop (p + 1) = rest := by
  rw [← List.tail_drop, h, List.tail_cons]

theorem or_shiftLeft {acc c shift : Nat} (h : acc < 2 ^ shift) : acc ||| (c <<< shift) = acc + c * 2 ^ shift := by
  rw [Nat.shiftLeft_eq, Nat.or_comm, Nat.mul_comm c, ← Nat.two_pow_add_eq_or_of_lt h, Nat.add_comm]

section Tail

variable {mem rest : List UInt8} {b : UInt8} {p acc shift : Nat}

/-- A byte without the continuation bit ends the integer. -/
theorem varbyteTail_last (n : Nat) (h : mem.drop p = b :: rest) (hb : b.toNat < 128) (hacc : acc < 2 ^ shift) :
    varbyteTail mem n shift acc p = some (acc + b.toNat * 2 ^ shift, p + 1) := by
  cases n with
  | zero => simp [varbyteTail, readByte_of_drop h, or_shiftLeft hacc]
  | succ n =>
      have hc := (and_high (by omega : b.toNat < 256)).mpr hb
      simp [varbyteTail, readByte_of_drop h, and_low, hc, Nat.mod_eq_of_lt hb, or_shiftLeft hacc]

/-- A byte with it does not. -/
theorem varbyteTail_more (n : Nat) (h : mem.drop p = b :: rest) (hb : 128 ≤ b.toNat) (hacc : acc < 2 ^ shift) :
    varbyteTail mem (n + 1) shift acc p =
      varbyteTail mem n (shift + 7) (acc + b.toNat % 128 * 2 ^ shift) (p + 1) := by
  have hc : ¬ b.toNat &&& 0x80 = 0 := fun hc => absurd ((and_high b.toNat_lt).mp hc) (by omega)
  simp [varbyteTail, readByte_of_drop h, and_low, hc, or_shiftLeft hacc]

theorem varbyteTail_encode (n : Nat) : ∀ {val acc shift p : Nat} {rest : List UInt8},
    val < 2 ^ (7 * (n + 1)) → acc < 2 ^ shift → mem.drop p = encode_varbyte val ++ rest →
      varbyteTail mem n shift acc p = some (acc + val * 2 ^ shift, p + (encode_varbyte val).length) := by
  have hlast : ∀ {n val acc shift p : Nat} {rest : List UInt8}, val ≤ 0x7F → acc < 2 ^ shift →
      mem.drop p = encode_varbyte val ++ rest →
      varbyteTail mem n shift acc p = some (acc + val * 2 ^ shift, p + (encode_varbyte val).length) := by
    intro n val acc shift p rest hs hacc h
    rw [encode_varbyte_small hs] at h ⊢
    have hb : (UInt8.ofNat val).toNat = val := by
      rw [UInt8.toNat_ofNat']
      omega
    rw [varbyteTail_last n h (by omega) hacc, hb]
    rfl
  induction n with
  | zero => exact fun hval => hlast (by omega)
  | succ n ih =>
      intro val acc shift p rest hval hacc h
      by_cases hs : val ≤ 0x7F
      · exact hlast hs hacc h
      · rw [encode_varbyte_large (by omega)] at h ⊢
        have hb : (UInt8.ofNat (0x80 + val % 128)).toNat = 128 + val % 128 := by
          rw [UInt8.toNat_ofNat']
          omega
        rw [varbyteTail_more n h (by omega) hacc, hb, Nat.add_mod_left, Nat.mod_mod,
          ih ?_ ?_ (drop_succ_of_drop h)]
        · have hval' : acc + val % 128 * 2 ^ shift + val / 128 * 2 ^ (shift + 7) = acc + val * 2 ^ shift := by
            conv_rhs => rw [← Nat.mod_add_div val 128]
            rw [Nat.pow_add]
            ring
          rw [hval', List.length_cons, Nat.add_right_comm, Nat.add_assoc]
        · refine Nat.div_lt_of_lt_mul ?_
          rwa [show (128 : Nat) = 2 ^ 7 from rfl, ← Nat.pow_add, Nat.add_comm]
        · have : val % 128 * 2 ^ shift ≤ 127 * 2 ^ shift := Nat.mul_le_mul_right _ (by omega)
          rw [Nat.pow_add]
          omega

end Tail

/-- **An integer is read back.** -/
theorem decode_varbyte_encode {mem rest : List UInt8} {val p : Nat} (hval : val < 2 ^ 49)
    (h : mem.drop p = encode_varbyte val ++ rest) :
    decode_varbyte mem p = some (val, p + (encode_varbyte val).length) := by
  rw [decode_varbyte_eq, varbyteTail_encode 6 hval (by decide) h, Nat.pow_zero, Nat.mul_one, Nat.zero_add]

/-! ## 4. Item pointers -/

/-- A valid item pointer with an offset number of at most 11 bits. -/
def Packs (p : ItemPointer) : Prop := p.blkno < 2 ^ 32 ∧ p.isValid = true ∧ p.offno < 2 ^ MaxHeapTuplesPerPageBits

/-- `ginCompareItemPointers(a, b) < 0`. -/
def Before (a b : ItemPointer) : Prop := a.blkno < b.blkno ∨ (a.blkno = b.blkno ∧ a.offno < b.offno)

theorem itemptr_to_uint64_eq {p : ItemPointer} (h : Packs p) : itemptr_to_uint64 p = p.blkno * 2048 + p.offno := by
  unfold itemptr_to_uint64
  rw [Nat.shiftLeft_eq, Nat.mul_comm, ← Nat.two_pow_add_eq_or_of_lt h.2.2, Nat.mul_comm]
  rfl

theorem itemptr_to_uint64_lt {p : ItemPointer} (h : Packs p) : itemptr_to_uint64 p < 2 ^ 43 := by
  have h1 := h.1
  have h2 : p.offno < 2048 := h.2.2
  rw [itemptr_to_uint64_eq h]
  omega

theorem itemptr_to_uint64_strict {a b : ItemPointer} (ha : Packs a) (hb : Packs b) (h : Before a b) :
    itemptr_to_uint64 a < itemptr_to_uint64 b := by
  have h1 : a.offno < 2048 := ha.2.2
  rw [itemptr_to_uint64_eq ha, itemptr_to_uint64_eq hb]
  rcases h with h | ⟨h, h'⟩ <;> omega

theorem uint64_to_itemptr_eq {p : ItemPointer} (h : Packs p) : uint64_to_itemptr (itemptr_to_uint64 p) = p := by
  have h1 := h.1
  have h2 : p.offno < 2048 := h.2.2
  unfold uint64_to_itemptr
  rw [itemptr_to_uint64_eq h, Nat.shiftRight_eq_div_pow]
  have hmask : (1 <<< MaxHeapTuplesPerPageBits) - 1 = 2 ^ 11 - 1 := rfl
  rw [hmask, Nat.and_two_pow_sub_one_eq_mod]
  have hb : (p.blkno * 2048 + p.offno) / 2 ^ MaxHeapTuplesPerPageBits % 2 ^ 32 = p.blkno := by
    unfold MaxHeapTuplesPerPageBits
    omega
  have ho : (p.blkno * 2048 + p.offno) % 2 ^ 11 = p.offno := by omega
  rw [hb, ho]

/-- The header fields are read back. -/
theorem readUint16_of_drop {mem rest : List UInt8} {p n : Nat} (hn : n < 65536)
    (h : mem.drop p = bytesOf n ++ rest) : readUint16 mem p = some n ∧ mem.drop (p + 2) = rest := by
  have h0 : mem[p]? = some (UInt8.ofNat (n % 256)) := by
    have := congrArg (·[0]?) h
    simpa [List.getElem?_drop, bytesOf] using this
  have h1 : mem[p + 1]? = some (UInt8.ofNat (n / 256 % 256)) := by
    have := congrArg (·[1]?) h
    simpa [List.getElem?_drop, bytesOf] using this
  refine ⟨?_, drop_succ_of_drop (drop_succ_of_drop h)⟩
  simp only [readUint16, h0, h1]
  rw [uint16Of_bytes hn]

theorem readItemPointer_of_drop {mem rest : List UInt8} {q : Nat} {p : ItemPointer} (hp : Packs p)
    (h : mem.drop q = itemPointerBytes p ++ rest) :
    readItemPointer mem q = some p ∧ mem.drop (q + 6) = rest := by
  have h1 := hp.1
  have h2 : p.offno < 2048 := hp.2.2
  have hhi : p.blkno >>> 16 < 65536 := by
    rw [Nat.shiftRight_eq_div_pow]
    omega
  have hlo : p.blkno &&& 0xFFFF = p.blkno % 65536 := Nat.and_two_pow_sub_one_eq_mod _ 16
  simp only [itemPointerBytes, List.append_assoc] at h
  obtain ⟨k1, d1⟩ := readUint16_of_drop hhi h
  obtain ⟨k2, d2⟩ := readUint16_of_drop (hlo ▸ Nat.mod_lt _ (by decide)) d1
  obtain ⟨k3, d3⟩ := readUint16_of_drop (by omega) d2
  refine ⟨?_, d3⟩
  have hblk : (p.blkno >>> 16) <<< 16 ||| (p.blkno &&& 0xFFFF) = p.blkno := by
    rw [hlo, Nat.shiftLeft_eq, Nat.mul_comm, ← Nat.two_pow_add_eq_or_of_lt (Nat.mod_lt _ (by decide)),
      Nat.shiftRight_eq_div_pow]
    omega
  simp only [readItemPointer, k1, k2, k3]
  show some (ItemPointer.mk ((p.blkno >>> 16) <<< 16 ||| (p.blkno &&& 0xFFFF)) p.offno) = some p
  rw [hblk]

/-! ## 5. The encoder -/

/-- The bytes of the items of a list behind the item with the number `prev`. -/
def deltaBytes : Nat → List ItemPointer → List UInt8
  | _, [] => []
  | prev, ip :: ipd => encode_varbyte (itemptr_to_uint64 ip - prev) ++ deltaBytes (itemptr_to_uint64 ip) ipd

/-- The items of a list follow `prev` in strictly increasing order. -/
def Follows : Nat → List ItemPointer → Prop
  | _, [] => True
  | prev, ip :: ipd => Packs ip ∧ prev < itemptr_to_uint64 ip ∧ Follows (itemptr_to_uint64 ip) ipd

theorem follows_of_pairwise {ip : ItemPointer} {ipd : List ItemPointer} (h : ∀ x ∈ ip :: ipd, Packs x)
    (hs : (ip :: ipd).Pairwise Before) : Follows (itemptr_to_uint64 ip) ipd := by
  induction ipd generalizing ip with
  | nil => trivial
  | cons x ipd ih =>
      have hx : Packs x := h x (by simp)
      obtain ⟨h1, h2⟩ := List.pairwise_cons.mp hs
      exact ⟨hx, itemptr_to_uint64_strict (h ip (by simp)) hx (h1 x (by simp)),
        ih (fun y hy => h y (List.mem_cons_of_mem _ hy)) h2⟩

/-- **What the encoder packs**: the first `k` items, and the next one only did not fit. -/
theorem compressLoop_spec (maxbytes : Nat) (ipd : List ItemPointer) :
    ∀ {prev : Nat} (bytes : List UInt8) (total : Nat), Follows prev ipd → bytes.length ≤ maxbytes →
      ∃ k, k ≤ ipd.length ∧
        compressLoop maxbytes prev bytes total ipd = (bytes ++ deltaBytes prev (ipd.take k), total + k) ∧
        (bytes ++ deltaBytes prev (ipd.take k)).length ≤ maxbytes ∧
        (k < ipd.length → maxbytes < (bytes ++ deltaBytes prev (ipd.take (k + 1))).length) := by
  induction ipd with
  | nil => exact fun _ _ _ hb => ⟨0, Nat.le_refl _, by simp [compressLoop, deltaBytes], by simpa [deltaBytes] using hb,
      fun h => absurd h (Nat.lt_irrefl _)⟩
  | cons ip ipd ih =>
      intro prev bytes total hf hb
      obtain ⟨hp, hlt, hf'⟩ := hf
      have hval := itemptr_to_uint64_lt hp
      have hdelta : (itemptr_to_uint64 ip + 2 ^ 64 - prev) % 2 ^ 64 = itemptr_to_uint64 ip - prev := by omega
      have hlen : (encode_varbyte (itemptr_to_uint64 ip - prev)).length ≤ 7 :=
        length_encode_varbyte 6 (by omega)
      simp only [compressLoop, hdelta]
      -- what follows when the item is written out
      have hnext : bytes.length + (encode_varbyte (itemptr_to_uint64 ip - prev)).length ≤ maxbytes →
          ∃ k, k ≤ (ip :: ipd).length ∧
            compressLoop maxbytes (itemptr_to_uint64 ip) (bytes ++ encode_varbyte (itemptr_to_uint64 ip - prev))
              (total + 1) ipd = (bytes ++ deltaBytes prev ((ip :: ipd).take k), total + k) ∧
            (bytes ++ deltaBytes prev ((ip :: ipd).take k)).length ≤ maxbytes ∧
            (k < (ip :: ipd).length →
              maxbytes < (bytes ++ deltaBytes prev ((ip :: ipd).take (k + 1))).length) := by
        intro hfit
        obtain ⟨k, h1, h2, h3, h4⟩ := ih _ (total + 1) hf' (by rwa [List.length_append])
        refine ⟨k + 1, Nat.succ_le_succ h1, ?_, ?_, fun hk => ?_⟩
        · rw [h2, List.append_assoc, List.take_succ_cons, deltaBytes, Nat.add_assoc total, Nat.add_comm 1 k]
        · simpa [List.take_succ_cons, deltaBytes, List.append_assoc] using h3
        · simpa [List.take_succ_cons, deltaBytes, List.append_assoc] using h4 (Nat.lt_of_succ_lt_succ hk)
      by_cases hroom : MaxBytesPerInteger ≤ maxbytes - bytes.length
      · rw [if_pos hroom]
        unfold MaxBytesPerInteger at hroom
        exact hnext (by omega)
      · rw [if_neg hroom]
        by_cases hfull : maxbytes - bytes.length < (encode_varbyte (itemptr_to_uint64 ip - prev)).length
        · rw [if_pos hfull]
          refine ⟨0, Nat.zero_le _, by simp [deltaBytes], by simpa [deltaBytes] using hb, fun _ => ?_⟩
          simp only [List.take_succ_cons, List.take_zero, deltaBytes, List.append_nil, List.length_append]
          omega
        · rw [if_neg hfull]
          exact hnext (by omega)

/-! ## 6. The decoder -/

/-- The output array holds its items, and doubling makes room. -/
def Output.Ok (out : Output) : Prop := out.items.length ≤ out.nallocated ∧ 0 < out.nallocated

theorem Output.Ok.put {out : Output} (h : out.Ok) (ip : ItemPointer) :
    ∃ out', out.put ip = some out' ∧ out'.items = out.items ++ [ip] ∧ out'.Ok := by
  obtain ⟨h1, h2⟩ := h
  unfold Output.put
  by_cases hfull : out.nallocated ≤ out.items.length
  · simp only [if_pos hfull]
    rw [if_pos (by omega)]
    exact ⟨_, rfl, rfl, by simp only [List.length_append, List.length_singleton]; omega, by simp only; omega⟩
  · simp only [if_neg hfull]
    rw [if_pos (by omega)]
    exact ⟨_, rfl, rfl, by simp only [List.length_append, List.length_singleton]; omega, h2⟩

theorem length_le_deltaBytes (ipd : List ItemPointer) : ∀ prev, ipd.length ≤ (deltaBytes prev ipd).length := by
  induction ipd with
  | nil => exact fun _ => Nat.le_refl _
  | cons ip ipd ih =>
      intro prev
      have := ih (itemptr_to_uint64 ip)
      have := List.length_pos_of_ne_nil (encode_varbyte_ne_nil (itemptr_to_uint64 ip - prev))
      simp only [deltaBytes, List.length_append, List.length_cons]
      omega

/-- **The inner loop** reads the items of one segment. -/
theorem decodeItems_spec {mem : List UInt8} (ipd : List ItemPointer) :
    ∀ {fuel prev p : Nat} {out : Output} {rest : List UInt8}, Follows prev ipd →
      mem.drop p = deltaBytes prev ipd ++ rest → ipd.length < fuel → out.Ok →
      ∃ out', decodeItems mem (p + (deltaBytes prev ipd).length) fuel prev p out = some out' ∧
        out'.items = out.items ++ ipd ∧ out'.Ok := by
  induction ipd with
  | nil =>
      intro fuel prev p out rest _ _ hfuel hok
      obtain ⟨fuel, rfl⟩ := Nat.exists_eq_succ_of_ne_zero (Nat.ne_of_gt hfuel)
      exact ⟨out, by simp [decodeItems, deltaBytes], by simp, hok⟩
  | cons ip ipd ih =>
      intro fuel prev p out rest hf hmem hfuel hok
      obtain ⟨fuel, rfl⟩ := Nat.exists_eq_succ_of_ne_zero (Nat.ne_zero_of_lt hfuel)
      obtain ⟨hp, hlt, hf'⟩ := hf
      have hval := itemptr_to_uint64_lt hp
      have hpos := List.length_pos_of_ne_nil (encode_varbyte_ne_nil (itemptr_to_uint64 ip - prev))
      rw [deltaBytes, List.append_assoc] at hmem
      have hdec := decode_varbyte_encode (by omega) hmem
      have hsum : (prev + (itemptr_to_uint64 ip - prev)) % 2 ^ 64 = itemptr_to_uint64 ip := by omega
      obtain ⟨out1, hput, hitems, hok1⟩ := hok.put ip
      have hdrop : mem.drop (p + (encode_varbyte (itemptr_to_uint64 ip - prev)).length) =
          deltaBytes (itemptr_to_uint64 ip) ipd ++ rest := by
        rw [← List.drop_drop, hmem, List.drop_left]
      obtain ⟨out2, hrun, hitems2, hok2⟩ := ih hf' hdrop (Nat.lt_of_succ_lt_succ hfuel) hok1
      refine ⟨out2, ?_, by rw [hitems2, hitems, List.append_assoc, List.singleton_append], hok2⟩
      have hend : p + (deltaBytes prev (ip :: ipd)).length =
          p + (encode_varbyte (itemptr_to_uint64 ip - prev)).length + (deltaBytes (itemptr_to_uint64 ip) ipd).length := by
        rw [deltaBytes, List.length_append, Nat.add_assoc]
      rw [hend, decodeItems, if_pos (by omega), hdec]
      simp only [Option.bind_eq_bind, Option.bind_some, hsum, uint64_to_itemptr_eq hp, hput]
      exact hrun

/-- The segment holds these items. -/
def Holds (seg : GinPostingList) (ipd : List ItemPointer) : Prop :=
  ∃ first rest, ipd = first :: rest ∧ Packs first ∧ Follows (itemptr_to_uint64 first) rest ∧
    seg = finishPostingList first (deltaBytes (itemptr_to_uint64 first) rest) ∧
    (deltaBytes (itemptr_to_uint64 first) rest).length < 65536

theorem length_image (seg : GinPostingList) : seg.image.length = SizeOfGinPostingList seg := by
  have hw := seg.written
  simp only [GinPostingList.image, itemPointerBytes, bytesOf, SizeOfGinPostingList, offsetofBytes, SHORTALIGN,
    List.length_append, List.length_cons, List.length_nil, List.length_replicate, List.length_take]
  omega

section Finish

variable {bytes : List UInt8} (first : ItemPointer)

/-- `nbytes` is the number of bytes written as long as that fits. -/
theorem finish_nbytes (h : bytes.length < 65536) :
    (finishPostingList first bytes).nbytes.toNat = bytes.length := by
  show (UInt16.ofNat bytes.length).toNat = bytes.length
  rw [UInt16.toNat_ofNat']
  exact Nat.mod_eq_of_lt h

theorem finish_bytes (h : bytes.length < 65536) : (finishPostingList first bytes).bytes = bytes := by
  have hn := finish_nbytes first h
  simp only [finishPostingList] at hn ⊢
  rw [hn]
  split
  · exact List.set_eq_of_length_le (Nat.le_refl _)
  · rfl

theorem finish_size (h : bytes.length < 65536) :
    SizeOfGinPostingList (finishPostingList first bytes) = offsetofBytes + SHORTALIGN bytes.length := by
  unfold SizeOfGinPostingList
  rw [finish_nbytes first h]

/-- The segment in memory. -/
theorem finish_image (h : bytes.length < 65536) : (finishPostingList first bytes).image =
    itemPointerBytes first ++ (bytesOf bytes.length ++ (bytes ++
      List.replicate (SHORTALIGN bytes.length - bytes.length) 0)) := by
  unfold GinPostingList.image
  rw [finish_nbytes first h, finish_bytes first h, List.take_length, List.append_assoc, List.append_assoc]
  rfl

end Finish

/-- **The outer loop** reads the segments one after the other. -/
theorem decodeSegments_spec {mem : List UInt8} (segs : List (GinPostingList × List ItemPointer)) :
    ∀ {fuel p : Nat} (out : Output), (∀ s ∈ segs, Holds s.1 s.2) →
      mem.drop p = segs.flatMap (·.1.image) → segs.length < fuel → out.Ok →
      ∃ out', decodeSegments mem fuel p out = some out' ∧ out'.items = out.items ++ segs.flatMap (·.2) := by
  induction segs with
  | nil =>
      intro fuel p out _ hmem hfuel _
      obtain ⟨fuel, rfl⟩ := Nat.exists_eq_succ_of_ne_zero (Nat.ne_of_gt hfuel)
      have hp : mem.length ≤ p := List.drop_eq_nil_iff.mp hmem
      exact ⟨out, by rw [decodeSegments, if_neg (by omega)], by simp⟩
  | cons s segs ih =>
      intro fuel p out hholds hmem hfuel hok
      obtain ⟨fuel, rfl⟩ := Nat.exists_eq_succ_of_ne_zero (Nat.ne_zero_of_lt hfuel)
      obtain ⟨seg, ipd⟩ := s
      obtain ⟨first, rest, rfl, hp, hf, rfl, hlen⟩ := hholds (seg, ipd) List.mem_cons_self
      simp only [List.flatMap_cons] at hmem
      have hsize := finish_size first hlen
      have hmemlen : p + (offsetofBytes + SHORTALIGN (deltaBytes (itemptr_to_uint64 first) rest).length) ≤
          mem.length := by
        have h1 := congrArg List.length hmem
        rw [List.length_drop, List.length_append, length_image, hsize] at h1
        unfold offsetofBytes at h1 ⊢
        omega
      have hnext : mem.drop (p + (offsetofBytes +
          SHORTALIGN (deltaBytes (itemptr_to_uint64 first) rest).length)) = segs.flatMap (·.1.image) := by
        rw [← List.drop_drop, hmem, ← hsize, ← length_image, List.drop_left]
      rw [finish_image first hlen] at hmem
      simp only [List.append_assoc] at hmem
      obtain ⟨hfirst, d1⟩ := readItemPointer_of_drop hp hmem
      obtain ⟨hnbytes, d2⟩ := readUint16_of_drop hlen d1
      obtain ⟨out1, hput, hitems1, hok1⟩ := hok.put first
      have hfuel' : rest.length < mem.length + 1 := by
        have := length_le_deltaBytes rest (itemptr_to_uint64 first)
        unfold SHORTALIGN at hmemlen
        omega
      obtain ⟨out2, hrun, hitems2, hok2⟩ := decodeItems_spec rest hf d2 hfuel' hok1
      obtain ⟨out3, hrun3, hitems3⟩ := ih out2 (fun s hs => hholds s (List.mem_cons_of_mem _ hs)) hnext
        (Nat.lt_of_succ_lt_succ hfuel) hok2
      refine ⟨out3, ?_, by
        rw [hitems3, hitems2, hitems1, List.flatMap_cons]
        simp only [List.append_assoc, List.singleton_append]⟩
      rw [decodeSegments, if_pos (by unfold offsetofBytes at hmemlen; omega), hfirst]
      simp only [Option.bind_eq_bind, Option.bind_some, hnbytes, hput]
      rw [show p + offsetofBytes = p + 6 + 2 from rfl, hrun]
      exact hrun3

/-- What `ginCompressPostingList` may be called with. -/
structure Packable (ipd : List ItemPointer) (maxsize : Nat) : Prop where
  nonempty : ipd ≠ []
  packs : ∀ p ∈ ipd, Packs p
  increasing : ipd.Pairwise Before
  lower : offsetofBytes + 2 ≤ maxsize
  upper : maxsize ≤ BLCKSZ

theorem Follows.take {ipd : List ItemPointer} :
    ∀ {prev : Nat}, Follows prev ipd → ∀ k, Follows prev (ipd.take k) := by
  induction ipd with
  | nil => exact fun _ k => by simp [Follows]
  | cons ip ipd ih =>
      intro prev h k
      cases k with
      | zero => trivial
      | succ k => exact ⟨h.1, h.2.1, ih h.2.2 k⟩

theorem deltaBytes_take_succ {rest : List ItemPointer} : ∀ {first prev next : ItemPointer} {k : Nat},
    (first :: rest)[k]? = some prev → rest[k]? = some next →
    deltaBytes (itemptr_to_uint64 first) (rest.take (k + 1)) = deltaBytes (itemptr_to_uint64 first) (rest.take k) ++
      encode_varbyte (itemptr_to_uint64 next - itemptr_to_uint64 prev) := by
  induction rest with
  | nil => exact fun _ h => by simp at h
  | cons ip rest ih =>
      intro first prev next k hprev hnext
      cases k with
      | zero =>
          simp only [List.getElem?_cons_zero, Option.some.injEq] at hprev hnext
          subst hprev hnext
          simp [deltaBytes]
      | succ k =>
          rw [List.getElem?_cons_succ] at hprev hnext
          rw [List.take_succ_cons, List.take_succ_cons, deltaBytes, deltaBytes, ih hprev hnext, List.append_assoc]

/-- **The encoder**: a prefix, within the size, cut off only where the next item does not fit. -/
theorem compress_spec {ipd : List ItemPointer} {maxsize : Nat} (h : Packable ipd maxsize) :
    ∃ seg nwritten, ginCompressPostingList ipd maxsize = some (seg, nwritten) ∧ 0 < nwritten ∧
      nwritten ≤ ipd.length ∧ Holds seg (ipd.take nwritten) ∧ SizeOfGinPostingList seg ≤ maxsize ∧
      ∀ prev next, ipd[nwritten - 1]? = some prev → ipd[nwritten]? = some next →
        maxsize < offsetofBytes + SHORTALIGN (seg.bytes.length +
          (encode_varbyte (itemptr_to_uint64 next - itemptr_to_uint64 prev)).length) := by
  obtain ⟨first, rest, rfl⟩ := List.exists_cons_of_ne_nil h.nonempty
  have hf := follows_of_pairwise h.packs h.increasing
  obtain ⟨k, hk, hrun, hlen, hstop⟩ := compressLoop_spec (SHORTALIGN_DOWN maxsize - offsetofBytes) rest
    [] 1 hf (Nat.zero_le _)
  rw [List.nil_append] at hrun hlen
  have hlower := h.lower
  have hupper := h.upper
  unfold SHORTALIGN_DOWN offsetofBytes at hlen
  unfold offsetofBytes at hlower
  unfold BLCKSZ at hupper
  have hfits : (deltaBytes (itemptr_to_uint64 first) (rest.take k)).length < 65536 := by omega
  refine ⟨finishPostingList first (deltaBytes (itemptr_to_uint64 first) (rest.take k)), 1 + k, ?_, by omega,
    by rw [List.length_cons]; omega, ?_, ?_, ?_⟩
  · simp only [ginCompressPostingList, hrun]
  · rw [Nat.add_comm 1 k, List.take_succ_cons]
    exact ⟨first, rest.take k, rfl, h.packs first List.mem_cons_self, hf.take k, rfl, hfits⟩
  · rw [finish_size first hfits]
    unfold SHORTALIGN offsetofBytes
    omega
  · intro prev next hprev hnext
    rw [Nat.add_sub_cancel_left] at hprev
    rw [Nat.add_comm 1 k, List.getElem?_cons_succ] at hnext
    have hbig := hstop (List.getElem?_eq_some_iff.mp hnext).1
    rw [List.nil_append, deltaBytes_take_succ hprev hnext, List.length_append] at hbig
    unfold SHORTALIGN_DOWN offsetofBytes at hbig
    rw [finish_bytes first hfits]
    unfold SHORTALIGN offsetofBytes
    omega

/-- The segment is one that `ginCompressPostingList` builds, and these are the items it packs. -/
def Built (seg : GinPostingList) (items : List ItemPointer) : Prop :=
  ∃ ipd maxsize nwritten, Packable ipd maxsize ∧ ginCompressPostingList ipd maxsize = some (seg, nwritten) ∧
    items = ipd.take nwritten

theorem Built.holds {seg : GinPostingList} {items : List ItemPointer} (h : Built seg items) : Holds seg items := by
  obtain ⟨ipd, maxsize, nwritten, hp, hc, rfl⟩ := h
  obtain ⟨seg', n', hc', _, _, hh, _⟩ := compress_spec hp
  rw [hc] at hc'
  obtain ⟨rfl, rfl⟩ := Prod.mk.inj (Option.some.inj hc')
  exact hh

/-- **The round trip.** Every call packs a non-empty prefix into at most `maxsize` bytes and stops early
    only where the next difference does not fit; and segments laid one behind the other are decoded to the
    items packed into them, without a read past their end. -/
theorem posting_list_round_trip :
    (∀ (ipd : List ItemPointer) (maxsize : Nat), Packable ipd maxsize →
      ∃ seg nwritten, ginCompressPostingList ipd maxsize = some (seg, nwritten) ∧ 0 < nwritten ∧
        nwritten ≤ ipd.length ∧ seg.image.length = SizeOfGinPostingList seg ∧ SizeOfGinPostingList seg ≤ maxsize ∧
        ∀ prev next, ipd[nwritten - 1]? = some prev → ipd[nwritten]? = some next →
          maxsize < offsetofBytes + SHORTALIGN (seg.bytes.length +
            (encode_varbyte (itemptr_to_uint64 next - itemptr_to_uint64 prev)).length)) ∧
    ∀ segs : List (GinPostingList × List ItemPointer), segs ≠ [] → (∀ s ∈ segs, Built s.1 s.2) →
      ginPostingListDecodeAllSegments (segs.flatMap (·.1.image)) = some (segs.flatMap (·.2)) := by
  constructor
  · intro ipd maxsize h
    obtain ⟨seg, n, h1, h2, h3, _, h5, h6⟩ := compress_spec h
    exact ⟨seg, n, h1, h2, h3, length_image seg, h5, h6⟩
  · intro segs hne hb
    obtain ⟨s, segs', rfl⟩ := List.exists_cons_of_ne_nil hne
    have hholds : ∀ x ∈ s :: segs', Holds x.1 x.2 := fun x hx => (hb x hx).holds
    obtain ⟨first, rest, hs, hp, _, hseg, hlen⟩ := hholds s List.mem_cons_self
    -- the guess of the array's size reads the header of the first segment
    have hnbytes : ∃ n, readUint16 ((s :: segs').flatMap (·.1.image)) 6 = some n := by
      have hmem : ((s :: segs').flatMap (·.1.image)).drop 0 = itemPointerBytes first ++
          (bytesOf (deltaBytes (itemptr_to_uint64 first) rest).length ++
            (deltaBytes (itemptr_to_uint64 first) rest ++
              (List.replicate (SHORTALIGN (deltaBytes (itemptr_to_uint64 first) rest).length -
                (deltaBytes (itemptr_to_uint64 first) rest).length) 0 ++ segs'.flatMap (·.1.image)))) := by
        rw [List.drop_zero, List.flatMap_cons, hseg, finish_image first hlen]
        simp only [List.append_assoc]
      obtain ⟨_, d⟩ := readItemPointer_of_drop hp hmem
      exact ⟨_, (readUint16_of_drop hlen d).1⟩
    obtain ⟨n, hn⟩ := hnbytes
    have hfuel : ∀ l : List (GinPostingList × List ItemPointer), l.length ≤ (l.flatMap (·.1.image)).length := by
      intro l
      induction l with
      | nil => exact Nat.le_refl _
      | cons x l ih =>
          rw [List.flatMap_cons, List.length_append, length_image, List.length_cons]
          unfold SizeOfGinPostingList offsetofBytes
          omega
    obtain ⟨out, hrun, hitems⟩ := decodeSegments_spec (s :: segs') (p := 0) ⟨[], n * 2 + 1⟩ hholds
      List.drop_zero (Nat.lt_succ_of_le (hfuel _)) ⟨Nat.zero_le _, Nat.succ_pos _⟩
    unfold ginPostingListDecodeAllSegments
    rw [hn]
    simp only [Option.bind_eq_bind, Option.bind_some, hrun]
    show some out.items = _
    rw [hitems, List.nil_append]

/-- An array that does not fit into one segment of 12 bytes, packed into two and decoded from both. -/
theorem posting_list_round_trip_two : ∃ seg seg',
    ginCompressPostingList [⟨0, 1⟩, ⟨0, 5⟩, ⟨70000, 9⟩] 12 = some (seg, 2) ∧
    ginCompressPostingList [⟨70000, 9⟩, ⟨70001, 2⟩] 12 = some (seg', 2) ∧
    SizeOfGinPostingList seg ≤ 12 ∧ ginPostingListDecodeAllSegments (seg.image ++ seg'.image) =
      some [⟨0, 1⟩, ⟨0, 5⟩, ⟨70000, 9⟩, ⟨70001, 2⟩] := by
  have hp : Packable [⟨0, 1⟩, ⟨0, 5⟩, ⟨70000, 9⟩] 12 := by
    refine ⟨by decide, ?_, ?_, by decide, by decide⟩
    · unfold Packs
      decide
    · unfold Before
      decide
  have hp' : Packable [⟨70000, 9⟩, ⟨70001, 2⟩] 12 := by
    refine ⟨by decide, ?_, ?_, by decide, by decide⟩
    · unfold Packs
      decide
    · unfold Before
      decide
  have hc : (ginCompressPostingList [⟨0, 1⟩, ⟨0, 5⟩, ⟨70000, 9⟩] 12).map (·.2) = some 2 := by
    simp [ginCompressPostingList, compressLoop, itemptr_to_uint64, encode_varbyte, SHORTALIGN_DOWN,
      offsetofBytes, MaxBytesPerInteger, MaxHeapTuplesPerPageBits]
  have hc' : (ginCompressPostingList [⟨70000, 9⟩, ⟨70001, 2⟩] 12).map (·.2) = some 2 := by
    simp [ginCompressPostingList, compressLoop, itemptr_to_uint64, encode_varbyte, SHORTALIGN_DOWN,
      offsetofBytes, MaxBytesPerInteger, MaxHeapTuplesPerPageBits]
  obtain ⟨seg, n, h1, _, _, _, h2, _⟩ := posting_list_round_trip.1 _ _ hp
  obtain ⟨seg', n', h1', _⟩ := posting_list_round_trip.1 _ _ hp'
  rw [h1] at hc
  rw [h1'] at hc'
  obtain rfl : n = 2 := Option.some.inj hc
  obtain rfl : n' = 2 := Option.some.inj hc'
  have hround := posting_list_round_trip.2 [(seg, [⟨0, 1⟩, ⟨0, 5⟩]), (seg', [⟨70000, 9⟩, ⟨70001, 2⟩])]
    (List.cons_ne_nil _ _) fun s hs => by
      rcases List.mem_pair.mp hs with rfl | rfl
      · exact ⟨_, _, _, hp, h1, rfl⟩
      · exact ⟨_, _, _, hp', h1', rfl⟩
  rw [List.flatMap_cons, List.flatMap_singleton] at hround
  exact ⟨seg, seg', h1, h1', h2, hround⟩

end Pgvec.Gin
