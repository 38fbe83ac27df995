/-
  File:      Pgvec/Common/Pglz.lean
  Subject:   THE BUILT-IN LZ COMPRESSOR (`src/common/pg_lzcompress.c`): `pglz_compress` with its static
             history arrays, and `pglz_decompress`.

  A source string is a list of bytes and a pointer into it a position. The history arrays are static in
  the source: `pglz_compress` is given their contents and everything it reads of them goes through
  `hist_start` and `hist_entries` as the macros do. The output buffer is the list of the bytes written so
  far; the place of the current control byte is in it, and its value is written when the next control byte
  is allocated. The loops take a fuel, and running out of it gives `none`, as does a read past the end of
  the compressed string.
-/
import Mathlib

namespace Pgvec.Pglz

/-- `PGLZ_HISTORY_SIZE`. -/
@[irreducible] def PGLZ_HISTORY_SIZE : Nat := 4096

/-- `PGLZ_MAX_MATCH`. -/
def PGLZ_MAX_MATCH : Nat := 273

/-- `PGLZ_MAX_OUTPUT`. -/
def PGLZ_MAX_OUTPUT (dlen : Nat) : Nat := dlen + 4

/-- `INT_MAX`. -/
def INT_MAX : Nat := 2 ^ 31 - 1

/-- `PGLZ_Strategy`. -/
structure PGLZ_Strategy where
  min_input_size : Int
  max_input_size : Int
  min_comp_rate : Int
  first_success_by : Int
  match_size_good : Int
  match_size_drop : Int

/-- `PGLZ_strategy_default`. -/
def PGLZ_strategy_default : PGLZ_Strategy where
  min_input_size := 32
  max_input_size := INT_MAX
  min_comp_rate := 25
  first_success_by := 1024
  match_size_good := 128
  match_size_drop := 10

/-! ## 1. The history -/

/-- `PGLZ_HistEntry`: `none` is a NULL pointer, `some i` points to `hist_entries[i]`. -/
structure PGLZ_HistEntry where
  next : Option Nat
  prev : Option Nat
  hindex : Nat
  pos : Nat

/-- `hist_start` and `hist_entries`. -/
structure History where
  hist_start : Nat → Nat
  hist_entries : Nat → PGLZ_HistEntry

/-- `INVALID_ENTRY`. -/
def INVALID_ENTRY : Nat := 0

/-- A `char` of the source, as an `int`. -/
def charAt (source : List UInt8) (s : Nat) : BitVec 32 := (source.getD s 0).toBitVec.signExtend 32

/-- `pglz_hist_idx`. -/
def pglz_hist_idx (source : List UInt8) (s mask : Nat) : Nat :=
  ((if source.length - s < 4 then charAt source s
    else (charAt source s <<< 6) ^^^ (charAt source (s + 1) <<< 4) ^^^ (charAt source (s + 2) <<< 2) ^^^
      charAt source (s + 3)) &&& BitVec.ofNat 32 mask).toNat

/-- The history and the local variables `hist_next` and `hist_recycle`. -/
structure HistState extends History where
  hist_next : Nat
  hist_recycle : Bool

/-- `hist_start[h] = e`. -/
def HistState.setStart (st : HistState) (h e : Nat) : HistState :=
  { st with hist_start := Function.update st.hist_start h e }

/-- Change `hist_entries[i]`. -/
def HistState.modify (st : HistState) (i : Nat) (f : PGLZ_HistEntry → PGLZ_HistEntry) : HistState :=
  { st with hist_entries := Function.update st.hist_entries i (f (st.hist_entries i)) }

/-- Delink the entry `hist_next` from its old list. -/
def HistState.delink (st : HistState) : HistState :=
  let myhe := st.hist_entries st.hist_next
  let st := match myhe.prev with
    | none => st.setStart myhe.hindex (myhe.next.getD INVALID_ENTRY)
    | some p => st.modify p fun e => { e with next := myhe.next }
  match myhe.next with
  | none => st
  | some n => st.modify n fun e => { e with prev := myhe.prev }

/-- `pglz_hist_add` for the position `s`. -/
def pglz_hist_add (source : List UInt8) (mask : Nat) (st : HistState) (s : Nat) : HistState :=
  let hindex := pglz_hist_idx source s mask
  let hn := st.hist_next
  let st := if st.hist_recycle then st.delink else st
  let head := st.hist_start hindex
  let st := st.modify hn fun _ => ⟨some head, none, hindex, s⟩
  -- with an empty list this scribbles on the unused entry 0
  let st := st.modify head fun e => { e with prev := some hn }
  let st := st.setStart hindex hn
  if PGLZ_HISTORY_SIZE + 1 ≤ hn + 1 then { st with hist_next := 1, hist_recycle := true }
  else { st with hist_next := hn + 1 }

/-- `while (ip < end && *ip == *hp && thislen < PGLZ_MAX_MATCH)`: how often it runs, at most `n` times. -/
def countMatch (source : List UInt8) : Nat → Nat → Nat → Nat
  | 0, _, _ => 0
  | n + 1, ip, hp =>
      if ip < source.length ∧ source.getD ip 0 = source.getD hp 0 then countMatch source n (ip + 1) (hp + 1) + 1
      else 0

/-- The length of the match of `input` with the history position `hp`, when the best so far is `len`. -/
def matchLength (source : List UInt8) (input hp len : Nat) : Nat :=
  if 16 ≤ len then
    if (source.drop input).take len = (source.drop hp).take len then
      len + countMatch source (PGLZ_MAX_MATCH - len) (input + len) (hp + len)
    else 0
  else countMatch source PGLZ_MAX_MATCH input hp

/-- The loop of `pglz_find_match`: the best length and its offset. -/
def findLoop (entries : Nat → PGLZ_HistEntry) (source : List UInt8) (input good_drop : Nat) :
    Nat → Nat → Nat → Nat → Nat → Option (Nat × Nat)
  | 0, _, _, _, _ => none
  | fuel + 1, hent, len, off, good_match =>
      if hent = INVALID_ENTRY then some (len, off)
      else
        let hp := (entries hent).pos
        let thisoff := input - hp
        -- stop if the offset does not fit into our tag anymore
        if 0x0fff ≤ thisoff then some (len, off)
        else
          let thislen := matchLength source input hp len
          let best := if len < thislen then (thislen, thisoff) else (len, off)
          match (entries hent).next with
          | none => none
          | some next =>
              if next = INVALID_ENTRY then some best
              else if good_match ≤ best.1 then some best
              else findLoop entries source input good_drop fuel next best.1 best.2
                (good_match - good_match * good_drop / 100)

/-- `pglz_find_match`: `some none` when there is no match that pays. -/
def pglz_find_match (st : HistState) (source : List UInt8) (input good_match good_drop mask : Nat) :
    Option (Option (Nat × Nat)) := do
  let (len, off) ← findLoop st.hist_entries source input good_drop (PGLZ_HISTORY_SIZE + 1)
    (st.hist_start (pglz_hist_idx source input mask)) 0 0 good_match
  return if 2 < len then some (len, off) else none

/-! ## 2. The output -/

/-- The output buffer up to `bp`, and the control byte: `ctrlp` (`none` is `ctrl_dummy`), `ctrlb`, `ctrl`. -/
structure Output where
  buf : List UInt8
  ctrlp : Option Nat
  ctrlb : Nat
  ctrl : Nat

/-- `*ctrlp = ctrlb`. -/
def Output.storeCtrl (o : Output) : List UInt8 :=
  match o.ctrlp with
  | none => o.buf
  | some p => o.buf.set p (UInt8.ofNat o.ctrlb)

/-- `pglz_out_ctrl`. -/
def pglz_out_ctrl (o : Output) : Output :=
  if o.ctrl &&& 0xff = 0 then
    -- the new control byte is written when the next one is allocated
    { buf := o.storeCtrl ++ [0], ctrlp := some o.buf.length, ctrlb := 0, ctrl := 1 }
  else o

/-- `pglz_out_literal`. -/
def pglz_out_literal (o : Output) (byte : UInt8) : Output :=
  let o := pglz_out_ctrl o
  { o with buf := o.buf ++ [byte], ctrl := (o.ctrl <<< 1) % 256 }

/-- The bytes of a tag. -/
def tagBytes (len off : Nat) : List UInt8 :=
  if 17 < len then
    [UInt8.ofNat (((off &&& 0xf00) >>> 4) ||| 0x0f), UInt8.ofNat (off &&& 0xff), UInt8.ofNat (len - 18)]
  else [UInt8.ofNat (((off &&& 0xf00) >>> 4) ||| (len - 3)), UInt8.ofNat (off &&& 0xff)]

/-- `pglz_out_tag`. -/
def pglz_out_tag (o : Output) (len off : Nat) : Output :=
  let o := pglz_out_ctrl o
  { o with
    buf := o.buf ++ tagBytes len off
    ctrlb := o.ctrlb ||| o.ctrl
    ctrl := (o.ctrl <<< 1) % 256 }

/-! ## 3. `pglz_compress` -/

/-- The match parameters of a strategy, in the supported range. -/
structure Params where
  good_match : Nat
  good_drop : Nat
  need_rate : Nat
  first_success_by : Int

/-- `if (x < lo) lo else if (x > hi) hi else x`. -/
def clamp (lo hi : Nat) (x : Int) : Nat := if x < lo then lo else if (hi : Int) < x then hi else x.toNat

/-- Limit the match parameters to the supported range. -/
def PGLZ_Strategy.params (s : PGLZ_Strategy) : Params where
  good_match := clamp 17 PGLZ_MAX_MATCH s.match_size_good
  good_drop := clamp 0 100 s.match_size_drop
  need_rate := clamp 0 99 s.min_comp_rate
  first_success_by := s.first_success_by

/-- `result_max`. -/
def resultMax (slen need_rate : Nat) : Nat :=
  if INT_MAX / 100 < slen then slen / 100 * (100 - need_rate) else slen * (100 - need_rate) / 100

/-- `hashsz`. -/
def hashsz (slen : Nat) : Nat :=
  if slen < 128 then 512 else if slen < 256 then 1024 else if slen < 512 then 2048
  else if slen < 1024 then 4096 else 8192

/-- `memset(hist_start, 0, hashsz * sizeof(int16))`, and the local variables at the start. -/
def startHistory (h : History) (hashsz : Nat) : HistState where
  hist_start i := if i < hashsz then 0 else h.hist_start i
  hist_entries := h.hist_entries
  hist_next := 1
  hist_recycle := false

/-- What comes back: the return value (`none` is -1), the bytes written, and the history arrays left. -/
structure Compressed where
  result : Option Nat
  buf : List UInt8
  history : History

/-- The loop of `pglz_compress`. -/
def compressLoop (source : List UInt8) (p : Params) (result_max mask : Nat) :
    Nat → Nat → Bool → Output → HistState → Option Compressed
  | 0, _, _, _, _ => none
  | fuel + 1, dp, found_match, o, st =>
      if dp < source.length then
        if result_max ≤ o.buf.length then some ⟨none, o.buf, st.toHistory⟩
        else if found_match = false ∧ p.first_success_by ≤ o.buf.length then some ⟨none, o.buf, st.toHistory⟩
        else do
          match ← pglz_find_match st source dp p.good_match p.good_drop mask with
          | some (len, off) =>
              -- the tag, and history entries for all matched characters
              let st := (List.range' dp len).foldl (pglz_hist_add source mask) st
              compressLoop source p result_max mask fuel (dp + len) true (pglz_out_tag o len off) st
          | none =>
              let st := pglz_hist_add source mask st dp
              compressLoop source p result_max mask fuel (dp + 1) found_match
                (pglz_out_literal o (source.getD dp 0)) st
      else
        -- write out the last control byte
        let buf := o.storeCtrl
        some ⟨if result_max ≤ buf.length then none else some buf.length, buf, st.toHistory⟩

/-- **`pglz_compress`**, with the contents of the static arrays; no strategy is the default one. -/
def pglz_compress (h : History) (source : List UInt8) (strategy : Option PGLZ_Strategy) : Option Compressed :=
  let strategy := strategy.getD PGLZ_strategy_default
  let slen := source.length
  if strategy.match_size_good ≤ 0 ∨ (slen : Int) < strategy.min_input_size ∨
      strategy.max_input_size < (slen : Int) then some ⟨none, [], h⟩
  else
    compressLoop source strategy.params (resultMax slen strategy.params.need_rate) (hashsz slen - 1) (slen + 1) 0
      false ⟨[], none, 0, 0⟩ (startHistory h (hashsz slen))

/-! ## 4. `pglz_decompress` -/

/-- `memcpy(dp, dp - off, n)` behind the end of the output. -/
def copyBack (out : List UInt8) (off n : Nat) : List UInt8 := out ++ (out.drop (out.length - off)).take n

/-- The copy of a match: regions that do not overlap, the offset doubled after each. -/
def copyMatch : Nat → List UInt8 → Nat → Nat → Option (List UInt8)
  | 0, _, _, _ => none
  | fuel + 1, out, off, len =>
      if off < len then copyMatch fuel (copyBack out off off) (off + off) (len - off)
      else some (copyBack out off len)

/-- What an item does: fall off the end (`none`), report corrupt data (`some none`), or go on. -/
def decodeTag (source : List UInt8) (rawsize sp : Nat) (out : List UInt8) : Option (Option (Nat × List UInt8)) := do
  let b0 ← source[sp]?
  let b1 ← source[sp + 1]?
  let len := (b0.toNat &&& 0x0f) + 3
  let off := ((b0.toNat &&& 0xf0) <<< 4) ||| b1.toNat
  let sp := sp + 2
  let (len, sp) ← if len = 18 then (source[sp]?).map fun b => (len + b.toNat, sp + 1) else some (len, sp)
  if source.length < sp ∨ off = 0 ∨ out.length < off then return none
  -- don't emit more data than requested
  let len := min len (rawsize - out.length)
  let out ← copyMatch (len + 1) out off len
  return some (sp, out)

/-- The items of one control byte. -/
def decodeGroup (source : List UInt8) (rawsize : Nat) :
    Nat → Nat → Nat → List UInt8 → Option (Option (Nat × List UInt8))
  | 0, _, sp, out => some (some (sp, out))
  | n + 1, ctrl, sp, out =>
      if sp < source.length ∧ out.length < rawsize then
        if ctrl &&& 1 ≠ 0 then do
          match ← decodeTag source rawsize sp out with
          | none => return none
          | some (sp, out) => decodeGroup source rawsize n (ctrl >>> 1) sp out
        else do
          let b ← source[sp]?
          decodeGroup source rawsize n (ctrl >>> 1) (sp + 1) (out ++ [b])
      else some (some (sp, out))

/-- The loop of `pglz_decompress`. -/
def decompressLoop (source : List UInt8) (rawsize : Nat) : Nat → Nat → List UInt8 →
    Option (Option (Nat × List UInt8))
  | 0, _, _ => none
  | fuel + 1, sp, out =>
      if sp < source.length ∧ out.length < rawsize then do
        let ctrl ← source[sp]?
        match ← decodeGroup source rawsize 8 ctrl.toNat (sp + 1) out with
        | none => return none
        | some (sp, out) => decompressLoop source rawsize fuel sp out
      else some (some (sp, out))

/-- **`pglz_decompress`**: the bytes in the destination buffer, whose number is the return value; `some none`
    is -1. -/
def pglz_decompress (source : List UInt8) (rawsize : Nat) (check_complete : Bool) : Option (Option (List UInt8)) := do
  match ← decompressLoop source rawsize (source.length + 1) 0 [] with
  | none => return none
  | some (sp, out) =>
      return if check_complete ∧ (out.length ≠ rawsize ∨ sp ≠ source.length) then none else some out

end Pgvec.Pglz
