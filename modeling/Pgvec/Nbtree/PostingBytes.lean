/-
  File:      Pgvec/Nbtree/PostingBytes.lean
  Subject:   POSTING LIST TUPLES BYTE BY BYTE: `_bt_form_posting`, `_bt_update_posting` and `_bt_swap_posting`
             of `src/backend/access/nbtree/nbtdedup.c`.

  A tuple in memory is a function from offsets to bytes: `t_tid` (three 16-bit fields), `t_info`, the key,
  and perhaps an array of heap TIDs. What lies behind its size is not part of it. An array of heap TIDs that
  a function is given is a list.

  * `tidAt`, `t_info`, `BTreeTupleGetPostingN` -- the fields; `BTreeTupleSetPosting`;
  * `PostingTuple` -- what `_bt_posting_valid` and the callers promise of a posting list tuple;
  * **`update_posting_eq`** -- `_bt_update_posting` is `_bt_form_posting` on the heap TIDs that are left;
  * `swap_posting_bytes`, `Shifted.postingTuple` -- the new posting list; `newitem_spec` -- the heap TID
    that moves into the new item;
  * **`posting_list_edits`** -- the two together.
-/
import Pgvec.Lib.Blocks
import Pgvec.Gin.PostingList
import Pgvec.Nbtree.Dedup

namespace Pgvec.Nbtree.PostingBytes

open Pgvec.Storage (MAXALIGN)
open Pgvec.Storage.GenericXlog (Bytes uint16Of bytesOf)
open Pgvec.Hnsw (ItemPointer)
open Pgvec.Gin (itemPointerBytes)
open Blocks (copy move store slice)

/-! ## 1. The fields -/

/-- A 16-bit field. -/
def uint16At (itup : Bytes) (p : Nat) : Nat := uint16Of (itup p) (itup (p + 1))

def setUint16 (itup : Bytes) (p n : Nat) : Bytes := store itup p (bytesOf n)

/-- The `ItemPointerData` at an offset: `bi_hi`, `bi_lo`, `ip_posid`. -/
def tidAt (itup : Bytes) (p : Nat) : ItemPointer :=
  ⟨(uint16At itup p <<< 16) ||| uint16At itup (p + 2), uint16At itup (p + 4)⟩

def t_info (itup : Bytes) : Nat := uint16At itup 6

/-- `IndexTupleSize`. -/
def IndexTupleSize (itup : Bytes) : Nat := t_info itup &&& INDEX_SIZE_MASK

def INDEX_ALT_TID_MASK : Nat := 0x2000

def BT_OFFSET_MASK : Nat := 0x0FFF

def BT_IS_POSTING : Nat := 0x2000

def BTreeTupleIsPivot (itup : Bytes) : Bool :=
  t_info itup &&& INDEX_ALT_TID_MASK != 0 && (tidAt itup 0).offno &&& BT_IS_POSTING == 0

def BTreeTupleIsPosting (itup : Bytes) : Bool :=
  t_info itup &&& INDEX_ALT_TID_MASK != 0 && (tidAt itup 0).offno &&& BT_IS_POSTING != 0

def BTreeTupleGetNPosting (posting : Bytes) : Nat := (tidAt posting 0).offno &&& BT_OFFSET_MASK

def BTreeTupleGetPostingOffset (posting : Bytes) : Nat := (tidAt posting 0).blkno

/-- The offset of a heap TID of the posting list. -/
def BTreeTupleGetPostingN (posting : Bytes) (n : Nat) : Nat :=
  BTreeTupleGetPostingOffset posting + n * sizeofItemPointerData

/-- `BTreeTupleSetPosting`. -/
def BTreeTupleSetPosting (itup : Bytes) (nhtids postingoffset : Nat) : Bytes :=
  let itup := setUint16 itup 6 (t_info itup ||| INDEX_ALT_TID_MASK)
  let itup := setUint16 itup 4 (nhtids ||| BT_IS_POSTING)
  let itup := setUint16 itup 0 (postingoffset >>> 16)
  setUint16 itup 2 (postingoffset &&& 0xFFFF)

/-! ## 2. The functions -/

/-- A tuple that a function has allocated: its size, and its bytes. -/
structure Allocated where
  size : Nat
  bytes : Bytes

/-- The start of both `_bt_form_posting` and `_bt_update_posting`: the key part of `base`, with the new
    size. -/
def formHeader (base : Bytes) (keysize newsize : Nat) : Bytes :=
  let itup := copy base 0 0 keysize fun _ => 0
  let itup := setUint16 itup 6 (t_info itup &&& (0xFFFF ^^^ INDEX_SIZE_MASK))
  setUint16 itup 6 (t_info itup ||| newsize)

/-- **`_bt_form_posting`.** -/
def bt_form_posting (base : Bytes) (htids : List ItemPointer) : Allocated :=
  let keysize := if BTreeTupleIsPosting base then BTreeTupleGetPostingOffset base else IndexTupleSize base
  let nhtids := htids.length
  let newsize := if 1 < nhtids then MAXALIGN (keysize + nhtids * sizeofItemPointerData) else keysize
  let itup := formHeader base keysize newsize
  if 1 < nhtids then
    let itup := BTreeTupleSetPosting itup nhtids keysize
    ⟨newsize, store itup (BTreeTupleGetPostingOffset itup) (htids.flatMap itemPointerBytes)⟩
  else
    let itup := setUint16 itup 6 (t_info itup &&& (0xFFFF ^^^ INDEX_ALT_TID_MASK))
    ⟨newsize, store itup 0 ((htids.take 1).flatMap itemPointerBytes)⟩

/-- The loop of `_bt_update_posting` up to position `i`: the bytes, `ui` and `d`. -/
def updateLoop (origtuple : Bytes) (deletetids : List Nat) (htids : Nat) (itup : Bytes) :
    Nat → Bytes × Nat × Nat
  | 0 => (itup, 0, 0)
  | i + 1 =>
      let (itup, ui, d) := updateLoop origtuple deletetids htids itup i
      if d < deletetids.length ∧ deletetids.getD d 0 = i then (itup, ui, d + 1)
      else (copy origtuple (htids + ui * sizeofItemPointerData) (BTreeTupleGetPostingN origtuple i)
        sizeofItemPointerData itup, ui + 1, d)

/-- **`_bt_update_posting`**: `vacposting->itup` at the end. -/
def bt_update_posting (origtuple : Bytes) (deletetids : List Nat) : Allocated :=
  let nhtids := BTreeTupleGetNPosting origtuple - deletetids.length
  let keysize := BTreeTupleGetPostingOffset origtuple
  let newsize := if 1 < nhtids then MAXALIGN (keysize + nhtids * sizeofItemPointerData) else keysize
  let itup := formHeader origtuple keysize newsize
  if 1 < nhtids then
    let itup := BTreeTupleSetPosting itup nhtids keysize
    ⟨newsize, (updateLoop origtuple deletetids (BTreeTupleGetPostingOffset itup) itup
      (BTreeTupleGetNPosting origtuple)).1⟩
  else
    let itup := setUint16 itup 6 (t_info itup &&& (0xFFFF ^^^ INDEX_ALT_TID_MASK))
    ⟨newsize, (updateLoop origtuple deletetids 0 itup (BTreeTupleGetNPosting origtuple)).1⟩

/-- `CopyIndexTuple`. -/
def CopyIndexTuple (source : Bytes) : Allocated :=
  ⟨IndexTupleSize source, copy source 0 0 (IndexTupleSize source) fun _ => 0⟩

/-- **`_bt_swap_posting`**: the new posting list, and the new item. -/
def bt_swap_posting (newitem oposting : Bytes) (postingoff : Nat) : Except String (Allocated × Bytes) :=
  let nhtids := BTreeTupleGetNPosting oposting
  if ¬ (0 < postingoff ∧ postingoff < nhtids) then
    .error ("posting list tuple with " ++ toString nhtids ++ " items cannot be split at offset " ++
      toString postingoff)
  else
    let nposting := CopyIndexTuple oposting
    let replacepos := BTreeTupleGetPostingN nposting.bytes postingoff
    let replaceposright := BTreeTupleGetPostingN nposting.bytes (postingoff + 1)
    let nmovebytes := (nhtids - postingoff - 1) * sizeofItemPointerData
    let bytes := move replaceposright replacepos nmovebytes nposting.bytes
    -- fill the gap with the heap TID of the new item, which takes the rightmost one instead
    let bytes := copy newitem replacepos 0 sizeofItemPointerData bytes
    let newitem := copy oposting 0 (BTreeTupleGetPostingN oposting (nhtids - 1)) sizeofItemPointerData newitem
    .ok (⟨nposting.size, bytes⟩, newitem)

/-- `ItemPointerCompare`. -/
def ItemPointerCompare (arg1 arg2 : ItemPointer) : Int :=
  if arg1.blkno < arg2.blkno then -1
  else if arg2.blkno < arg1.blkno then 1
  else if arg1.offno < arg2.offno then -1
  else if arg2.offno < arg1.offno then 1
  else 0

/-! ## 3. Reading what was written -/

variable {m m' : Bytes} {p q : Nat}

theorem uint16At_lt (m : Bytes) (p : Nat) : uint16At m p < 65536 := by
  have h1 := (m p).toNat_lt
  have h2 := (m (p + 1)).toNat_lt
  unfold uint16At uint16Of
  omega

theorem bytesOf_uint16At (m : Bytes) (p : Nat) : bytesOf (uint16At m p) = [m p, m (p + 1)] := by
  have h1 := (m p).toNat_lt
  have h2 := (m (p + 1)).toNat_lt
  unfold bytesOf uint16At uint16Of
  have e1 : ((m p).toNat + 256 * (m (p + 1)).toNat) % 256 = (m p).toNat := by omega
  have e2 : ((m p).toNat + 256 * (m (p + 1)).toNat) / 256 % 256 = (m (p + 1)).toNat := by omega
  rw [e1, e2, UInt8.ofNat_toNat, UInt8.ofNat_toNat]

theorem uint16At_congr (h0 : m p = m' q) (h1 : m (p + 1) = m' (q + 1)) : uint16At m p = uint16At m' q := by
  unfold uint16At
  rw [h0, h1]

theorem tidAt_congr (h : ∀ x, x < 6 → m (p + x) = m' (q + x)) : tidAt m p = tidAt m' q := by
  have h0 := h 0 (by decide)
  rw [Nat.add_zero, Nat.add_zero] at h0
  unfold tidAt
  rw [uint16At_congr h0 (h 1 (by decide)), uint16At_congr (h 2 (by decide)) (h 3 (by decide)),
    uint16At_congr (h 4 (by decide)) (h 5 (by decide))]

/-- The bytes of a heap TID are the ones it was read from. -/
theorem itemPointerBytes_tidAt (m : Bytes) (p : Nat) : itemPointerBytes (tidAt m p) = slice m p 6 := by
  have hhi : (tidAt m p).blkno >>> 16 = uint16At m p := by
    have hlo := uint16At_lt m (p + 2)
    show (uint16At m p <<< 16 ||| uint16At m (p + 2)) >>> 16 = _
    rw [Nat.shiftLeft_eq, Nat.mul_comm, ← Nat.two_pow_add_eq_or_of_lt hlo, Nat.shiftRight_eq_div_pow]
    omega
  have hlo : (tidAt m p).blkno &&& 0xFFFF = uint16At m (p + 2) := by
    have hlo := uint16At_lt m (p + 2)
    show (uint16At m p <<< 16 ||| uint16At m (p + 2)) &&& 0xFFFF = _
    rw [Nat.shiftLeft_eq, Nat.mul_comm, ← Nat.two_pow_add_eq_or_of_lt hlo]
    have hmask := Nat.and_two_pow_sub_one_eq_mod (2 ^ 16 * uint16At m p + uint16At m (p + 2)) 16
    rw [show (2 ^ 16 - 1 : Nat) = 0xFFFF from rfl] at hmask
    rw [hmask]
    omega
  have hpos : (tidAt m p).offno = uint16At m (p + 4) := rfl
  unfold itemPointerBytes
  rw [hhi, hlo, hpos, bytesOf_uint16At, bytesOf_uint16At, bytesOf_uint16At]
  rfl

/-! ## 4. Posting list tuples -/

/-- **A posting list tuple** with these heap TIDs: `_bt_posting_valid`, and where the posting list lies. -/
structure PostingTuple (itup : Bytes) (htids : List ItemPointer) : Prop where
  isPosting : BTreeTupleIsPosting itup = true
  nposting : BTreeTupleGetNPosting itup = htids.length
  two_le : 2 ≤ htids.length
  aligned : MAXALIGN (BTreeTupleGetPostingOffset itup) = BTreeTupleGetPostingOffset itup
  header : 8 ≤ BTreeTupleGetPostingOffset itup
  fits : BTreeTupleGetPostingOffset itup + htids.length * sizeofItemPointerData ≤ IndexTupleSize itup
  tids : ∀ i tid, htids[i]? = some tid → tidAt itup (BTreeTupleGetPostingN itup i) = tid
  valid : ∀ tid ∈ htids, tid.isValid = true
  sorted : htids.Pairwise fun a b => ItemPointerCompare a b < 0

/-- The heap TIDs at the positions that are not deleted. -/
def survivors (htids : List ItemPointer) (deletetids : List Nat) : List ItemPointer :=
  (htids.zipIdx.filter fun t => t.2 ∉ deletetids).map Prod.fst

theorem survivors_take_succ {htids : List ItemPointer} (deletetids : List Nat) {i : Nat} {tid : ItemPointer}
    (h : htids[i]? = some tid) : survivors (htids.take (i + 1)) deletetids =
      survivors (htids.take i) deletetids ++ if i ∈ deletetids then [] else [tid] := by
  obtain ⟨hi, -⟩ := List.getElem?_eq_some_iff.mp h
  have hlen : (htids.take i).length = i := List.length_take_of_le hi.le
  unfold survivors
  rw [List.take_add_one, h, Option.toList_some, List.zipIdx_append, List.filter_append, List.map_append, hlen,
    Nat.zero_add]
  by_cases hd : i ∈ deletetids
  · simp [hd]
  · simp [hd]

/-- The number of deleted positions in front of one. -/
theorem sorted_getD_iff {deletetids : List Nat} (hsorted : deletetids.Pairwise (· < ·)) {d i : Nat}
    (hd : ∀ k, k < deletetids.length → (deletetids.getD k 0 < i ↔ k < d)) :
    (d < deletetids.length ∧ deletetids.getD d 0 = i) ↔ i ∈ deletetids := by
  constructor
  · intro ⟨hlt, he⟩
    rw [← he, List.getD_eq_getElem _ _ hlt]
    exact List.getElem_mem hlt
  · intro hm
    obtain ⟨k, hk, he⟩ := List.mem_iff_getElem.mp hm
    have hget : deletetids.getD k 0 = i := by rw [List.getD_eq_getElem _ _ hk, he]
    have hge : d ≤ k := by
      have hiff := hd k hk
      omega
    have hlt : d < deletetids.length := lt_of_le_of_lt hge hk
    refine ⟨hlt, ?_⟩
    -- no element between the two
    by_contra hne
    have hiff := hd d hlt
    have hdi : i < deletetids.getD d 0 := by omega
    have hdk : d < k := by
      rcases Nat.lt_or_eq_of_le hge with h | h
      · exact h
      · rw [h] at hne
        exact absurd hget hne
    have hord := (List.pairwise_iff_getElem.mp hsorted) d k hlt hk hdk
    rw [List.getD_eq_getElem _ _ hlt] at hdi
    omega

/-- **The loop of `_bt_update_posting`** writes the heap TIDs that are left, one behind the other. -/
theorem updateLoop_spec {origtuple : Bytes} {htids : List ItemPointer}
    (htid : ∀ i tid, htids[i]? = some tid → tidAt origtuple (BTreeTupleGetPostingN origtuple i) = tid)
    {deletetids : List Nat} (hsorted : deletetids.Pairwise (· < ·)) (dst : Nat) (itup : Bytes) {i : Nat}
    (hi : i ≤ htids.length) :
    ∃ d, updateLoop origtuple deletetids dst itup i =
        (store itup dst ((survivors (htids.take i) deletetids).flatMap itemPointerBytes),
          (survivors (htids.take i) deletetids).length, d) ∧
      ∀ k, k < deletetids.length → (deletetids.getD k 0 < i ↔ k < d) := by
  induction i with
  | zero =>
      refine ⟨0, ?_, fun k _ => by omega⟩
      rw [updateLoop, List.take_zero]
      show (itup, 0, 0) = (store itup dst [], 0, 0)
      rw [Blocks.store_nil]
  | succ i ih =>
      obtain ⟨d, hrun, hd⟩ := ih (Nat.le_of_succ_le hi)
      have hget : htids[i]? = some htids[i] := List.getElem?_eq_getElem hi
      have hnext := survivors_take_succ deletetids hget
      have hiff := sorted_getD_iff hsorted hd
      rw [updateLoop, hrun]
      simp only
      by_cases hm : i ∈ deletetids
      · rw [if_pos hm, List.append_nil] at hnext
        rw [if_pos (hiff.mpr hm), hnext]
        refine ⟨d + 1, rfl, fun k hk => ?_⟩
        have hk' := hd k hk
        obtain ⟨hlt, he⟩ := hiff.mpr hm
        constructor
        · intro hle
          by_contra hgt
          have hdk : d < k := by omega
          have hord := (List.pairwise_iff_getElem.mp hsorted) d k hlt hk hdk
          rw [List.getD_eq_getElem _ _ hlt] at he
          rw [List.getD_eq_getElem _ _ hk] at hle
          omega
        · intro hkd
          by_cases hke : k = d
          · rw [hke, he]
            exact Nat.lt_succ_self i
          · have hlt' := hk'.mpr (by omega)
            omega
      · rw [if_neg hm] at hnext
        rw [if_neg fun h => hm (hiff.mp h), hnext]
        refine ⟨d, ?_, fun k hk => ?_⟩
        · have hbytes : ∀ l : List ItemPointer, (l.flatMap itemPointerBytes).length =
              l.length * sizeofItemPointerData := by
            intro l
            rw [List.length_flatMap]
            show (l.map fun _ => 6).sum = _
            rw [List.map_const', List.sum_replicate, smul_eq_mul]
            rfl
          rw [Blocks.copy_eq_store, List.flatMap_append, List.flatMap_singleton, List.length_append,
            List.length_singleton, ← htid i _ hget, itemPointerBytes_tidAt, ← Blocks.store_append, hbytes]
          rfl
        · have hk' := hd k hk
          have hne : deletetids.getD k 0 ≠ i := by
            intro he
            rw [List.getD_eq_getElem _ _ hk] at he
            exact hm (he ▸ List.getElem_mem hk)
          omega

theorem length_survivors {htids : List ItemPointer} {deletetids : List Nat} (hsorted : deletetids.Pairwise (· < ·))
    (hlt : ∀ p ∈ deletetids, p < htids.length) :
    (survivors htids deletetids).length = htids.length - deletetids.length := by
  -- the positions that are left and the ones that are deleted make up the list
  have hleft : (survivors htids deletetids).length =
      ((List.range htids.length).filter fun i => i ∉ deletetids).length := by
    unfold survivors
    rw [List.length_map, List.range_eq_range', ← List.zipIdx_map_snd 0 htids, List.filter_map, List.length_map]
    rfl
  have hdeleted : ((List.range htids.length).filter fun i => i ∈ deletetids).length = deletetids.length := by
    refine List.Perm.length_eq ((List.perm_ext_iff_of_nodup (List.nodup_range.filter _) hsorted.nodup).mpr ?_)
    intro x
    rw [List.mem_filter, List.mem_range, decide_eq_true_eq]
    exact ⟨fun h => h.2, fun h => ⟨hlt x h, h⟩⟩
  have hsum := List.length_eq_length_filter_add (l := List.range htids.length) fun i => decide (i ∈ deletetids)
  rw [List.length_range, hdeleted] at hsum
  rw [hleft]
  have hneg : ((List.range htids.length).filter fun i => decide (i ∉ deletetids)) =
      (List.range htids.length).filter fun i => !decide (i ∈ deletetids) := by
    refine List.filter_congr fun x _ => ?_
    exact decide_not
  rw [hneg]
  omega

/-- **`_bt_update_posting`** gives the tuple that `_bt_form_posting` makes of the heap TIDs that are left. -/
theorem update_posting_eq {origtuple : Bytes} {htids : List ItemPointer} (h : PostingTuple origtuple htids)
    {deletetids : List Nat} (hsorted : deletetids.Pairwise (· < ·))
    (hlt : ∀ p ∈ deletetids, p < htids.length) :
    bt_update_posting origtuple deletetids = bt_form_posting origtuple (survivors htids deletetids) := by
  have hlen := length_survivors hsorted hlt
  have hloop : ∀ dst itup, (updateLoop origtuple deletetids dst itup htids.length).1 =
      store itup dst ((survivors htids deletetids).flatMap itemPointerBytes) := by
    intro dst itup
    obtain ⟨d, hrun, -⟩ := updateLoop_spec h.tids hsorted dst itup (Nat.le_refl htids.length)
    rw [hrun, List.take_length]
  unfold bt_update_posting bt_form_posting
  rw [if_pos h.isPosting, h.nposting, ← hlen]
  simp only [hloop]
  split
  · rfl
  · rename_i hone
    have htake : (survivors htids deletetids).take 1 = survivors htids deletetids :=
      List.take_of_length_le (by omega)
    rw [htake]

/-! ## 5. Splitting a posting list -/

/-- A plain tuple with this heap TID. -/
structure PlainTuple (itup : Bytes) (htid : ItemPointer) : Prop where
  notPivot : BTreeTupleIsPivot itup = false
  notPosting : BTreeTupleIsPosting itup = false
  tid : tidAt itup 0 = htid
  valid : htid.isValid = true

theorem compare_trans {a b c : ItemPointer} (h1 : ItemPointerCompare a b < 0) (h2 : ItemPointerCompare b c < 0) :
    ItemPointerCompare a c < 0 := by
  unfold ItemPointerCompare at *
  split at h1 <;> split at h2 <;> split <;> omega

/-- The heap TIDs of the new posting list: `newtid` at position `off`, and without the last one. -/
def swapped (htids : List ItemPointer) (off : Nat) (newtid : ItemPointer) : List ItemPointer :=
  htids.take off ++ newtid :: (htids.drop off).dropLast

/-- The heap TIDs behind the split end with the last one. -/
theorem split_htids {htids : List ItemPointer} {off : Nat} (hlt : off < htids.length) :
    ∃ last, htids.getLast? = some last ∧ htids.drop off = (htids.drop off).dropLast ++ [last] := by
  have hne : htids.drop off ≠ [] := fun e => by
    have hle := List.drop_eq_nil_iff.mp e
    omega
  have hdrop := List.dropLast_append_getLast hne
  refine ⟨(htids.drop off).getLast hne, ?_, hdrop.symm⟩
  have hsplit : htids = htids.take off ++ (htids.drop off).dropLast ++ [(htids.drop off).getLast hne] := by
    rw [List.append_assoc, hdrop, List.take_append_drop]
  exact (congrArg List.getLast? hsplit).trans List.getLast?_concat

/-- The new posting list with the old maximum is the old one with the new heap TID. -/
theorem swapped_perm (newtid : ItemPointer) {htids : List ItemPointer} {off : Nat} {last : ItemPointer}
    (hdrop : htids.drop off = (htids.drop off).dropLast ++ [last]) :
    (swapped htids off newtid ++ [last]).Perm (newtid :: htids) := by
  unfold swapped
  rw [List.append_assoc, List.cons_append, ← hdrop]
  refine List.perm_middle.trans ?_
  rw [List.take_append_drop]

theorem length_swapped (newtid : ItemPointer) {htids : List ItemPointer} {off : Nat} {last : ItemPointer}
    (hdrop : htids.drop off = (htids.drop off).dropLast ++ [last]) :
    (swapped htids off newtid).length = htids.length := by
  have h := (swapped_perm newtid hdrop).length_eq
  rw [List.length_append, List.length_singleton, List.length_cons] at h
  omega

/-- **The new posting list is strictly increasing**, and below the old maximum. -/
theorem swapped_sorted {htids : List ItemPointer} (hsorted : htids.Pairwise fun a b => ItemPointerCompare a b < 0)
    {off : Nat} {prev next newtid last : ItemPointer} (h0 : 0 < off) (hprev : htids[off - 1]? = some prev)
    (hnext : htids[off]? = some next) (h1 : ItemPointerCompare prev newtid < 0)
    (h2 : ItemPointerCompare newtid next < 0)
    (hdrop : htids.drop off = (htids.drop off).dropLast ++ [last]) :
    (swapped htids off newtid ++ [last]).Pairwise fun a b => ItemPointerCompare a b < 0 := by
  obtain ⟨hlt, -⟩ := List.getElem?_eq_some_iff.mp hnext
  -- all in front of the split are below the new heap TID
  have hfront : ∀ a ∈ htids.take off, ItemPointerCompare a newtid < 0 := by
    intro a ha
    obtain ⟨i, hi, rfl⟩ := List.mem_iff_getElem.mp ha
    rw [List.length_take_of_le hlt.le] at hi
    rw [List.getElem_take]
    by_cases he : i = off - 1
    · subst he
      rw [List.getElem?_eq_getElem (by omega), Option.some.injEq] at hprev
      rw [hprev]
      exact h1
    · rw [List.getElem?_eq_getElem (by omega), Option.some.injEq] at hprev
      have hord := (List.pairwise_iff_getElem.mp hsorted) i (off - 1) (by omega) (by omega) (by omega)
      rw [hprev] at hord
      exact compare_trans hord h1
  -- all behind it are above
  have hback : ∀ b ∈ htids.drop off, ItemPointerCompare newtid b < 0 := by
    intro b hb
    obtain ⟨i, hi, rfl⟩ := List.mem_iff_getElem.mp hb
    rw [List.length_drop] at hi
    rw [List.getElem_drop]
    rw [List.getElem?_eq_getElem hlt, Option.some.injEq] at hnext
    by_cases he : i = 0
    · subst he
      simp only [Nat.add_zero, hnext]
      exact h2
    · have hord := (List.pairwise_iff_getElem.mp hsorted) off (off + i) hlt (by omega) (by omega)
      rw [hnext] at hord
      exact compare_trans h2 hord
  rw [← List.take_append_drop off htids] at hsorted
  obtain ⟨hs1, hs2, hs3⟩ := List.pairwise_append.mp hsorted
  unfold swapped
  rw [List.append_assoc, List.cons_append, ← hdrop]
  refine List.pairwise_append.mpr ⟨hs1, List.pairwise_cons.mpr ⟨hback, hs2⟩, fun a ha b hb => ?_⟩
  rcases List.mem_cons.mp hb with rfl | hb
  · exact hfront a ha
  · exact hs3 a ha b hb

/-- The heap TID at a position of the new posting list. -/
theorem getElem?_swapped {htids : List ItemPointer} {off i : Nat} {newtid tid : ItemPointer}
    (hlt : off < htids.length) (h : (swapped htids off newtid)[i]? = some tid) :
    (i < off ∧ htids[i]? = some tid) ∨ (i = off ∧ tid = newtid) ∨
      (off < i ∧ i < htids.length ∧ htids[i - 1]? = some tid) := by
  have hlen : (htids.take off).length = off := List.length_take_of_le hlt.le
  unfold swapped at h
  by_cases h1 : i < off
  · rw [List.getElem?_append_left (by omega), List.getElem?_take_of_lt h1] at h
    exact Or.inl ⟨h1, h⟩
  · rw [List.getElem?_append_right (by omega), hlen] at h
    by_cases h2 : i = off
    · rw [h2, Nat.sub_self, List.getElem?_cons_zero, Option.some.injEq] at h
      exact Or.inr (Or.inl ⟨h2, h.symm⟩)
    · obtain ⟨k, hk⟩ : ∃ k, i - off = k + 1 := ⟨i - off - 1, by omega⟩
      rw [hk, List.getElem?_cons_succ] at h
      obtain ⟨hk', -⟩ := List.getElem?_eq_some_iff.mp h
      rw [List.length_dropLast, List.length_drop] at hk'
      rw [List.getElem?_dropLast, if_pos (by rw [List.length_drop]; omega), List.getElem?_drop] at h
      refine Or.inr (Or.inr ⟨by omega, by omega, ?_⟩)
      rw [← h]
      congr 1
      omega

/-- Where the bytes of the new posting list come from. -/
structure Shifted (newitem oposting bytes : Bytes) (start stop : Nat) : Prop where
  front : ∀ a, a < start → bytes a = oposting a
  gap : ∀ x, x < 6 → bytes (start + x) = newitem x
  shifted : ∀ a, start + 6 ≤ a → a < stop → bytes a = oposting (a - 6)
  back : ∀ a, stop ≤ a → a < IndexTupleSize oposting → bytes a = oposting a

/-- **The bytes of the new posting list.** -/
theorem swap_posting_bytes (newitem : Bytes) {oposting : Bytes} {htids : List ItemPointer} (h : PostingTuple oposting htids)
    {postingoff : Nat} (h0 : 0 < postingoff) (hlt : postingoff < htids.length) :
    ∃ bytes, bt_swap_posting newitem oposting postingoff =
        .ok (⟨IndexTupleSize oposting, bytes⟩,
          copy oposting 0 (BTreeTupleGetPostingN oposting (htids.length - 1)) 6 newitem) ∧
      Shifted newitem oposting bytes (BTreeTupleGetPostingN oposting postingoff)
        (BTreeTupleGetPostingN oposting htids.length) := by
  have hheader := h.header
  have hfits := h.fits
  have hcopy : ∀ a, a < IndexTupleSize oposting → (CopyIndexTuple oposting).bytes a = oposting a := by
    intro a ha
    have hin : copy oposting 0 0 (IndexTupleSize oposting) (fun _ => 0) (0 + a) = oposting (0 + a) :=
      Blocks.copy_in ha
    rwa [Nat.zero_add] at hin
  have hoffset : BTreeTupleGetPostingOffset (CopyIndexTuple oposting).bytes = BTreeTupleGetPostingOffset oposting := by
    unfold BTreeTupleGetPostingOffset
    rw [tidAt_congr fun x hx => hcopy (0 + x) (by omega)]
  have hn : ∀ i, BTreeTupleGetPostingN (CopyIndexTuple oposting).bytes i = BTreeTupleGetPostingN oposting i := by
    intro i
    unfold BTreeTupleGetPostingN
    rw [hoffset]
  unfold bt_swap_posting
  simp only [h.nposting, hn]
  rw [if_neg (not_not.mpr ⟨h0, hlt⟩)]
  unfold BTreeTupleGetPostingN sizeofItemPointerData at *
  refine ⟨_, rfl, fun a ha => ?_, fun x hx => ?_, fun a h1 h2 => ?_, fun a h1 h2 => ?_⟩
  · rw [Blocks.copy_out (by omega), Blocks.move_out (by omega), hcopy a (by omega)]
  · refine (Blocks.copy_in hx).trans ?_
    rw [Nat.zero_add]
  · obtain ⟨x, rfl⟩ : ∃ x, a = BTreeTupleGetPostingOffset oposting + (postingoff + 1) * 6 + x :=
      ⟨a - (BTreeTupleGetPostingOffset oposting + (postingoff + 1) * 6), by omega⟩
    rw [Blocks.copy_out (by omega), Blocks.move_in (by omega), hcopy _ (by omega)]
    congr 1
    omega
  · rw [Blocks.copy_out (by omega), Blocks.move_out (by omega), hcopy a h2]

/-- **The new posting list.** -/
theorem Shifted.postingTuple {newitem oposting bytes : Bytes} {htids : List ItemPointer} {postingoff : Nat}
    {newtid last : ItemPointer} (h : PostingTuple oposting htids) (hnew : PlainTuple newitem newtid)
    (hlt : postingoff < htids.length)
    (hs : Shifted newitem oposting bytes (BTreeTupleGetPostingN oposting postingoff)
      (BTreeTupleGetPostingN oposting htids.length))
    (hdrop : htids.drop postingoff = (htids.drop postingoff).dropLast ++ [last])
    (hsorted : (swapped htids postingoff newtid ++ [last]).Pairwise fun a b => ItemPointerCompare a b < 0) :
    PostingTuple bytes (swapped htids postingoff newtid) ∧ IndexTupleSize bytes = IndexTupleSize oposting := by
  have hheader := h.header
  have hfits := h.fits
  have hfront : ∀ a, a < BTreeTupleGetPostingOffset oposting → bytes a = oposting a := by
    intro a ha
    refine hs.front a ?_
    unfold BTreeTupleGetPostingN
    omega
  -- the header is the old one
  have htid : tidAt bytes 0 = tidAt oposting 0 := tidAt_congr fun x hx => hfront (0 + x) (by omega)
  have hinfo : t_info bytes = t_info oposting := uint16At_congr (hfront 6 (by omega)) (hfront 7 (by omega))
  have hoffset : BTreeTupleGetPostingOffset bytes = BTreeTupleGetPostingOffset oposting := by
    unfold BTreeTupleGetPostingOffset
    rw [htid]
  have hsize : IndexTupleSize bytes = IndexTupleSize oposting := by
    unfold IndexTupleSize
    rw [hinfo]
  have hlen := length_swapped newtid hdrop
  refine ⟨⟨?_, ?_, ?_, ?_, ?_, ?_, fun i tid hi => ?_, fun tid hm => ?_, ?_⟩, hsize⟩
  · have hp := h.isPosting
    unfold BTreeTupleIsPosting at hp ⊢
    rw [hinfo, htid]
    exact hp
  · have hn := h.nposting
    unfold BTreeTupleGetNPosting at hn ⊢
    rw [htid, hlen]
    exact hn
  · rw [hlen]
    exact h.two_le
  · rw [hoffset]
    exact h.aligned
  · rw [hoffset]
    exact hheader
  · rw [hoffset, hlen, hsize]
    exact hfits
  · have hn : BTreeTupleGetPostingN bytes i = BTreeTupleGetPostingN oposting i := by
      unfold BTreeTupleGetPostingN
      rw [hoffset]
    rw [hn]
    rcases getElem?_swapped hlt hi with ⟨hlow, hget⟩ | ⟨rfl, rfl⟩ | ⟨hhigh, hle, hget⟩
    · rw [← h.tids i tid hget]
      refine tidAt_congr fun x hx => hs.front _ ?_
      unfold BTreeTupleGetPostingN sizeofItemPointerData
      omega
    · rw [← hnew.tid]
      refine tidAt_congr fun x hx => ?_
      rw [Nat.zero_add]
      exact hs.gap x hx
    · rw [← h.tids (i - 1) tid hget]
      refine tidAt_congr fun x hx => ?_
      unfold BTreeTupleGetPostingN sizeofItemPointerData
      have hshift := hs.shifted (BTreeTupleGetPostingOffset oposting + i * 6 + x)
        (by unfold BTreeTupleGetPostingN sizeofItemPointerData; omega)
        (by unfold BTreeTupleGetPostingN sizeofItemPointerData; omega)
      rw [hshift]
      congr 1
      omega
  · have hmem := (swapped_perm newtid hdrop).subset (List.mem_append_left _ hm)
    rcases List.mem_cons.mp hmem with rfl | hmem
    · exact hnew.valid
    · exact h.valid tid hmem
  · exact (List.pairwise_append.mp hsorted).1

/-- A plain tuple has the flag of alternative uses of `t_tid` clear. -/
theorem PlainTuple.flag {itup : Bytes} {htid : ItemPointer} (h : PlainTuple itup htid) :
    t_info itup &&& INDEX_ALT_TID_MASK = 0 := by
  have h1 := h.notPivot
  have h2 := h.notPosting
  unfold BTreeTupleIsPivot at h1
  unfold BTreeTupleIsPosting at h2
  by_contra hne
  have hset : (t_info itup &&& INDEX_ALT_TID_MASK != 0) = true := bne_iff_ne.mpr hne
  rw [hset, Bool.true_and] at h1 h2
  rw [bne_eq_false_iff_eq] at h2
  rw [h2] at h1
  cases h1

/-- **The new item** gets the old maximum, and stays as it is otherwise. -/
theorem newitem_spec {newitem oposting : Bytes} {htids : List ItemPointer} {newtid last : ItemPointer}
    (h : PostingTuple oposting htids) (hnew : PlainTuple newitem newtid) (hlast : htids.getLast? = some last) :
    PlainTuple (copy oposting 0 (BTreeTupleGetPostingN oposting (htids.length - 1)) 6 newitem) last ∧
      ∀ a, 6 ≤ a → copy oposting 0 (BTreeTupleGetPostingN oposting (htids.length - 1)) 6 newitem a =
        newitem a := by
  have hout : ∀ a, 6 ≤ a →
      copy oposting 0 (BTreeTupleGetPostingN oposting (htids.length - 1)) 6 newitem a = newitem a :=
    fun a ha => Blocks.copy_out (by omega)
  have hinfo : t_info (copy oposting 0 (BTreeTupleGetPostingN oposting (htids.length - 1)) 6 newitem) =
      t_info newitem := uint16At_congr (hout 6 (by omega)) (hout 7 (by omega))
  have hflag := hnew.flag
  refine ⟨⟨?_, ?_, ?_, ?_⟩, hout⟩
  · unfold BTreeTupleIsPivot
    rw [hinfo, hflag]
    rfl
  · unfold BTreeTupleIsPosting
    rw [hinfo, hflag]
    rfl
  · rw [List.getLast?_eq_getElem?] at hlast
    rw [← h.tids _ _ hlast]
    exact tidAt_congr fun x hx => Blocks.copy_in hx
  · exact h.valid last (List.mem_of_getLast? hlast)

/-- **Posting list edits.** For a new heap TID strictly between two of the posting list,
    `_bt_swap_posting` gives a posting list of the same size and key with the new heap TID, and the new item
    the old maximum; and `_bt_update_posting` gives, byte by byte, what `_bt_form_posting` makes of the heap
    TIDs that are left. -/
theorem posting_list_edits {oposting : Bytes} {htids : List ItemPointer} (h : PostingTuple oposting htids) :
    (∀ (newitem : Bytes) (newtid prev next : ItemPointer) (postingoff : Nat), PlainTuple newitem newtid →
      0 < postingoff → htids[postingoff - 1]? = some prev → htids[postingoff]? = some next →
      ItemPointerCompare prev newtid < 0 → ItemPointerCompare newtid next < 0 →
      ∃ bytes newitem' last, bt_swap_posting newitem oposting postingoff =
          .ok (⟨IndexTupleSize oposting, bytes⟩, newitem') ∧
        IndexTupleSize bytes = IndexTupleSize oposting ∧
        (∀ a, a < BTreeTupleGetPostingOffset oposting → bytes a = oposting a) ∧
        PostingTuple bytes (swapped htids postingoff newtid) ∧
        htids.getLast? = some last ∧ PlainTuple newitem' last ∧ (∀ a, 6 ≤ a → newitem' a = newitem a) ∧
        (∀ tid ∈ swapped htids postingoff newtid, ItemPointerCompare tid last < 0) ∧
        (swapped htids postingoff newtid ++ [last]).Perm (newtid :: htids)) ∧
    ∀ deletetids : List Nat, deletetids.Pairwise (· < ·) → (∀ p ∈ deletetids, p < htids.length) →
      deletetids.length < htids.length →
      bt_update_posting oposting deletetids = bt_form_posting oposting (survivors htids deletetids) ∧
        survivors htids deletetids ≠ [] := by
  refine ⟨fun newitem newtid prev next postingoff hnew h0 hprev hnext h1 h2 => ?_,
    fun deletetids hsorted hlt hleft => ⟨update_posting_eq h hsorted hlt, fun hnil => ?_⟩⟩
  · obtain ⟨hlt, -⟩ := List.getElem?_eq_some_iff.mp hnext
    obtain ⟨last, hlast, hdrop⟩ := split_htids hlt
    obtain ⟨bytes, hrun, hshift⟩ := swap_posting_bytes newitem h h0 hlt
    have hsorted := swapped_sorted h.sorted h0 hprev hnext h1 h2 hdrop
    obtain ⟨hposting, hsize⟩ := hshift.postingTuple h hnew hlt hdrop hsorted
    obtain ⟨hplain, hkept⟩ := newitem_spec h hnew hlast
    refine ⟨bytes, _, last, hrun, hsize, fun a ha => hshift.front a ?_, hposting, hlast, hplain, hkept,
      fun tid hm => ?_, swapped_perm newtid hdrop⟩
    · unfold BTreeTupleGetPostingN
      omega
    · exact (List.pairwise_append.mp hsorted).2.2 tid hm last (List.mem_singleton.mpr rfl)
  · have hlen := length_survivors hsorted hlt
    rw [hnil, List.length_nil] at hlen
    omega

/-- A tuple with a 16-byte key part, and the posting list tuple of its key with three heap TIDs. -/
def keyTuple (htid : ItemPointer) : Bytes :=
  store (fun a => if a = 6 then 16 else if a = 8 then 42 else 0) 0 (itemPointerBytes htid)

def threeTids : Bytes := (bt_form_posting (keyTuple ⟨1, 1⟩) [⟨1, 1⟩, ⟨1, 4⟩, ⟨2, 1⟩]).bytes

theorem threeTids_postingTuple : PostingTuple threeTids [⟨1, 1⟩, ⟨1, 4⟩, ⟨2, 1⟩] where
  isPosting := by decide +kernel
  nposting := by decide +kernel
  two_le := by decide
  aligned := by decide +kernel
  header := by decide +kernel
  fits := by decide +kernel
  tids := by
    intro i tid hi
    obtain ⟨hlt, he⟩ := List.getElem?_eq_some_iff.mp hi
    have hall : ∀ k : Fin 3, tidAt threeTids (BTreeTupleGetPostingN threeTids k) =
        [(⟨1, 1⟩ : ItemPointer), ⟨1, 4⟩, ⟨2, 1⟩].get k := by decide +kernel
    rw [← he]
    exact hall ⟨i, hlt⟩
  valid := by decide
  sorted := by decide

theorem keyTuple_plainTuple : PlainTuple (keyTuple ⟨1, 2⟩) ⟨1, 2⟩ where
  notPivot := by decide +kernel
  notPosting := by decide +kernel
  tid := by decide +kernel
  valid := by decide

/-- The heap TID (1, 2) goes into the middle of the posting list, and (2, 1) into the new item. -/
theorem posting_list_edits_three :
    (∃ bytes newitem', bt_swap_posting (keyTuple ⟨1, 2⟩) threeTids 1 = .ok (⟨40, bytes⟩, newitem') ∧
      PostingTuple bytes [⟨1, 1⟩, ⟨1, 2⟩, ⟨1, 4⟩] ∧ PlainTuple newitem' ⟨2, 1⟩) ∧
    bt_update_posting threeTids [0, 2] = bt_form_posting threeTids [⟨1, 4⟩] := by
  obtain ⟨hswap, hupdate⟩ := posting_list_edits threeTids_postingTuple
  obtain ⟨bytes, newitem', last, hrun, -, -, hposting, hlast, hplain, -⟩ :=
    hswap (keyTuple ⟨1, 2⟩) ⟨1, 2⟩ ⟨1, 1⟩ ⟨1, 4⟩ 1 keyTuple_plainTuple (by decide) rfl rfl (by decide)
      (by decide)
  obtain rfl : (⟨2, 1⟩ : ItemPointer) = last := Option.some.inj hlast
  have hsize : IndexTupleSize threeTids = 40 := by decide +kernel
  rw [hsize] at hrun
  exact ⟨⟨bytes, newitem', hrun, hposting, hplain⟩,
    (hupdate [0, 2] (by decide) (by decide) (by decide)).1⟩

end Pgvec.Nbtree.PostingBytes
