/-
  File:      Pgvec/Storage/XlogPosition.lean
  Subject:   BYTE POSITIONS AND RECORD POINTERS OF THE WRITE-AHEAD LOG (`src/backend/access/transam/xlog.c`).

  The log is a row of pages of `XLOG_BLCKSZ` bytes, each with a header; the first page of a segment has a
  longer one. A usable byte position counts the bytes outside the headers.

  So the record pointer of a position `p` is the `p`-th byte outside the headers, and the position of a pointer
  is the number of such bytes below it: `Nat.nth` and `Nat.count`. The three functions compute this.

  * `Usable` -- the byte lies outside the header of its page;
  * `count_usable` -- how many such bytes there are below a pointer;
  * `recPtr_spec`, `endRecPtr_spec`, `bytePos_spec` -- each function, with the 32-bit overflow flag;
  * **`positions_and_pointers`**.
-/
import Mathlib.Data.Nat.Nth
import Mathlib.Data.Nat.Bitwise

namespace Pgvec.Storage.XlogPosition

/-! ## 1. The functions -/

def XLOG_BLCKSZ : Nat := 8192

/-- `MAXALIGN(sizeof(XLogPageHeaderData))` -/
def SizeOfXLogShortPHD : Nat := 24

/-- `MAXALIGN(sizeof(XLogLongPageHeaderData))` -/
def SizeOfXLogLongPHD : Nat := 40

def UsableBytesInPage : Nat := XLOG_BLCKSZ - SizeOfXLogShortPHD

def WalSegMinSize : Nat := 1024 * 1024

def WalSegMaxSize : Nat := 1024 * 1024 * 1024

def IsPowerOf2 (x : Nat) : Prop := 0 < x ∧ x &&& (x - 1) = 0

def IsValidWalSegSize (size : Nat) : Prop := IsPowerOf2 size ∧ WalSegMinSize ≤ size ∧ size ≤ WalSegMaxSize

/-- A value goes into a `uint32`. The flag remembers whether one did not fit. -/
def uint32 (x : Nat) : StateM Bool Nat := fun overflow => (x % 2 ^ 32, overflow || decide (2 ^ 32 ≤ x))

/-- A value goes into a `uint64`. -/
def uint64 (x : Nat) : Nat := x % 2 ^ 64

section Functions

variable (wal_segment_size : Nat)

/-- The number of bytes in a WAL segment usable for WAL data (an `int`). -/
def UsableBytesInSegment : Nat :=
  wal_segment_size / XLOG_BLCKSZ * UsableBytesInPage - (SizeOfXLogLongPHD - SizeOfXLogShortPHD)

def XLogSegNoOffsetToRecPtr (segno offset : Nat) : Nat := uint64 (uint64 (segno * wal_segment_size) + offset)

def XLogSegmentOffset (xlogptr : Nat) : Nat := xlogptr &&& (wal_segment_size - 1)

def XLByteToSeg (xlrp : Nat) : Nat := xlrp / wal_segment_size

def XLogBytePosToRecPtr (bytepos : Nat) : StateM Bool Nat := do
  let fullsegs := bytepos / UsableBytesInSegment wal_segment_size
  let bytesleft := bytepos % UsableBytesInSegment wal_segment_size
  if bytesleft < XLOG_BLCKSZ - SizeOfXLogLongPHD then
    -- fits on the first page of the segment
    let seg_offset ← uint32 (bytesleft + SizeOfXLogLongPHD)
    return XLogSegNoOffsetToRecPtr wal_segment_size fullsegs seg_offset
  else
    let seg_offset ← uint32 XLOG_BLCKSZ
    let bytesleft := bytesleft - (XLOG_BLCKSZ - SizeOfXLogLongPHD)
    let fullpages := bytesleft / UsableBytesInPage
    let bytesleft := bytesleft % UsableBytesInPage
    let seg_offset ← uint32 (seg_offset + (fullpages * XLOG_BLCKSZ + bytesleft + SizeOfXLogShortPHD))
    return XLogSegNoOffsetToRecPtr wal_segment_size fullsegs seg_offset

def XLogBytePosToEndRecPtr (bytepos : Nat) : StateM Bool Nat := do
  let fullsegs := bytepos / UsableBytesInSegment wal_segment_size
  let bytesleft := bytepos % UsableBytesInSegment wal_segment_size
  if bytesleft < XLOG_BLCKSZ - SizeOfXLogLongPHD then
    let seg_offset ← uint32 (if bytesleft = 0 then 0 else bytesleft + SizeOfXLogLongPHD)
    return XLogSegNoOffsetToRecPtr wal_segment_size fullsegs seg_offset
  else
    let seg_offset ← uint32 XLOG_BLCKSZ
    let bytesleft := bytesleft - (XLOG_BLCKSZ - SizeOfXLogLongPHD)
    let fullpages := bytesleft / UsableBytesInPage
    let bytesleft := bytesleft % UsableBytesInPage
    let seg_offset ← uint32 (seg_offset +
      if bytesleft = 0 then fullpages * XLOG_BLCKSZ + bytesleft
      else fullpages * XLOG_BLCKSZ + bytesleft + SizeOfXLogShortPHD)
    return XLogSegNoOffsetToRecPtr wal_segment_size fullsegs seg_offset

def XLogRecPtrToBytePos (ptr : Nat) : StateM Bool Nat := do
  let fullsegs := XLByteToSeg wal_segment_size ptr
  let fullpages ← uint32 (XLogSegmentOffset wal_segment_size ptr / XLOG_BLCKSZ)
  let offset ← uint32 (ptr % XLOG_BLCKSZ)
  if fullpages = 0 then
    let result := uint64 (fullsegs * UsableBytesInSegment wal_segment_size)
    if 0 < offset then
      return uint64 (result + (offset - SizeOfXLogLongPHD))
    else return result
  else
    let result := uint64 (fullsegs * UsableBytesInSegment wal_segment_size +
      -- account for the first page, then the full pages
      (XLOG_BLCKSZ - SizeOfXLogLongPHD) + (fullpages - 1) * UsableBytesInPage)
    if 0 < offset then
      return uint64 (result + (offset - SizeOfXLogShortPHD))
    else return result

/-! ## 2. The bytes outside the headers -/

/-- The size of the header of the page with this byte. -/
def headerSize (ptr : Nat) : Nat :=
  if ptr % wal_segment_size < XLOG_BLCKSZ then SizeOfXLogLongPHD else SizeOfXLogShortPHD

/-- The byte lies outside the header of its page. -/
def Usable (ptr : Nat) : Prop := headerSize wal_segment_size ptr ≤ ptr % XLOG_BLCKSZ

instance : DecidablePred (Usable wal_segment_size) := fun _ => Nat.decLe _ _

end Functions

/-- A pointer by its segment, its page there, and its offset there. -/
structure At (S W s q off : Nat) : Prop where
  size : S = W * 8192
  page : q < W
  offset : off < 8192

variable {S W s q off : Nat}

theorem At.seg (h : At S W s q off) : (s * S + q * 8192 + off) / S = s := by
  have hlt : q * 8192 + off < S := by
    have := h.size
    have := h.page
    have := h.offset
    omega
  rw [Nat.add_assoc, Nat.add_comm, Nat.add_mul_div_right _ _ (by omega), Nat.div_eq_of_lt hlt, Nat.zero_add]

theorem At.segOffset (h : At S W s q off) : (s * S + q * 8192 + off) % S = q * 8192 + off := by
  have hlt : q * 8192 + off < S := by
    have := h.size
    have := h.page
    have := h.offset
    omega
  rw [Nat.add_assoc, Nat.mul_comm, Nat.mul_add_mod, Nat.mod_eq_of_lt hlt]

theorem At.pageOffset (h : At S W s q off) : (s * S + q * 8192 + off) % 8192 = off := by
  have hs : s * S = s * W * 8192 := by rw [h.size, Nat.mul_assoc]
  have := h.offset
  omega

/-- The header of page `q` of a segment. -/
def pageHeader (q : Nat) : Nat := if q = 0 then 40 else 24

theorem At.header (h : At S W s q off) : headerSize S (s * S + q * 8192 + off) = pageHeader q := by
  have hoff := h.offset
  unfold headerSize pageHeader XLOG_BLCKSZ SizeOfXLogLongPHD SizeOfXLogShortPHD
  rw [h.segOffset]
  by_cases hq : q = 0
  · rw [if_pos hq, if_pos (by omega)]
  · rw [if_neg hq, if_neg (by omega)]

theorem At.usable (h : At S W s q off) : Usable S (s * S + q * 8192 + off) ↔ pageHeader q ≤ off := by
  unfold Usable XLOG_BLCKSZ
  rw [h.header, h.pageOffset]

/-- Inside one page. -/
theorem count_page (hS : S = W * 8192) (hq : q < W) (hoff : off ≤ 8192) :
    Nat.count (fun k => Usable S (s * S + q * 8192 + k)) off = off - pageHeader q := by
  induction off with
  | zero => rw [Nat.count_zero, Nat.zero_sub]
  | succ off ih =>
      have h : At S W s q off := ⟨hS, hq, by omega⟩
      rw [Nat.count_succ, ih (by omega)]
      by_cases hu : pageHeader q ≤ off
      · rw [if_pos (h.usable.mpr hu)]
        omega
      · rw [if_neg (fun hc => hu (h.usable.mp hc))]
        omega

/-- What the pages in front of page `q` of a segment hold. -/
def pagesBefore (q : Nat) : Nat := if q = 0 then 0 else 8152 + (q - 1) * 8168

theorem pagesBefore_succ (q : Nat) : pagesBefore q + (8192 - pageHeader q) = pagesBefore (q + 1) := by
  unfold pagesBefore pageHeader
  by_cases hq : q = 0
  · subst hq
    rfl
  · rw [if_neg hq, if_neg hq, if_neg (Nat.succ_ne_zero q)]
    omega

/-- The first pages of one segment. -/
theorem count_pages (hS : S = W * 8192) (hq : q ≤ W) :
    Nat.count (fun k => Usable S (s * S + k)) (q * 8192) = pagesBefore q := by
  induction q with
  | zero => rw [Nat.zero_mul, Nat.count_zero]; rfl
  | succ q ih =>
      have hpage := count_page (s := s) hS (show q < W by omega) (Nat.le_refl 8192)
      simp only [Nat.add_assoc] at hpage
      rw [Nat.succ_mul, Nat.count_add, ih (by omega), hpage, pagesBefore_succ]

/-- A whole segment. -/
theorem usableBytesInSegment_eq (hS : S = W * 8192) (hW : 0 < W) : UsableBytesInSegment S = pagesBefore W := by
  have hdiv : S / 8192 = W := by omega
  unfold UsableBytesInSegment pagesBefore UsableBytesInPage XLOG_BLCKSZ SizeOfXLogLongPHD SizeOfXLogShortPHD
  rw [hdiv, if_neg (by omega)]
  omega

theorem count_segments (hS : S = W * 8192) (hW : 0 < W) (s : Nat) :
    Nat.count (Usable S) (s * S) = s * UsableBytesInSegment S := by
  induction s with
  | zero => rw [Nat.zero_mul, Nat.zero_mul, Nat.count_zero]
  | succ s ih =>
      have hseg := count_pages (s := s) hS (Nat.le_refl W)
      rw [← hS, ← usableBytesInSegment_eq hS hW] at hseg
      rw [Nat.succ_mul, Nat.count_add, ih, hseg, Nat.succ_mul]

/-- **The usable bytes below a pointer.** -/
theorem At.count (h : At S W s q off) :
    Nat.count (Usable S) (s * S + q * 8192 + off) =
      s * UsableBytesInSegment S + (pagesBefore q + (off - pageHeader q)) := by
  have hpage := count_page (s := s) h.size h.page (Nat.le_of_lt h.offset)
  have hpages := count_pages (s := s) h.size (Nat.le_of_lt h.page)
  have hW : 0 < W := Nat.lt_of_le_of_lt (Nat.zero_le _) h.page
  rw [Nat.count_add, Nat.count_add, count_segments h.size hW, hpages, hpage, Nat.add_assoc]

/-! ## 3. Where a position lies -/

/-- The page and the offset in a segment of the usable byte with number `b` there. -/
def inSegment (b : Nat) : Nat × Nat :=
  if b < 8152 then (0, b + 40) else ((b - 8152) / 8168 + 1, (b - 8152) % 8168 + 24)

theorem inSegment_spec (b : Nat) :
    pagesBefore (inSegment b).1 + ((inSegment b).2 - pageHeader (inSegment b).1) = b ∧
      pageHeader (inSegment b).1 ≤ (inSegment b).2 ∧ (inSegment b).2 < 8192 := by
  unfold inSegment pagesBefore pageHeader
  by_cases hb : b < 8152
  · rw [if_pos hb]
    simp only [if_true]
    omega
  · rw [if_neg hb]
    simp only [Nat.succ_ne_zero, if_false]
    omega

theorem inSegment_page {b : Nat} (hb : b < pagesBefore W) : (inSegment b).1 < W := by
  unfold inSegment
  unfold pagesBefore at hb
  by_cases hW : W = 0
  · rw [if_pos hW] at hb
    omega
  · rw [if_neg hW] at hb
    by_cases hlt : b < 8152
    · rw [if_pos hlt]
      exact Nat.pos_of_ne_zero hW
    · rw [if_neg hlt]
      have : (b - 8152) / 8168 < W - 1 := Nat.div_lt_of_lt_mul (by omega)
      show (b - 8152) / 8168 + 1 < W
      omega

/-- **The record pointer of a position**: the byte outside the headers with this number. -/
noncomputable def recPtr (S p : Nat) : Nat := Nat.nth (Usable S) p

/-- The same, or the start of the page if there is only its header in between. -/
noncomputable def endRecPtr (S p : Nat) : Nat :=
  if recPtr S p % XLOG_BLCKSZ = headerSize S (recPtr S p) then recPtr S p - recPtr S p % XLOG_BLCKSZ else recPtr S p

/-- A position by its segment, and the page and the offset there. -/
structure Located (S W p s q off : Nat) : Prop extends At S W s q off where
  page_header : pageHeader q ≤ off
  position : p = s * UsableBytesInSegment S + (pagesBefore q + (off - pageHeader q))

theorem located (hS : S = W * 8192) (hW : 0 < W) (p : Nat) :
    Located S W p (p / UsableBytesInSegment S) (inSegment (p % UsableBytesInSegment S)).1
      (inSegment (p % UsableBytesInSegment S)).2 := by
  have hU := usableBytesInSegment_eq hS hW
  have hpos : 0 < UsableBytesInSegment S := by
    rw [hU, pagesBefore, if_neg (by omega)]
    omega
  obtain ⟨hb, hle, hlt⟩ := inSegment_spec (p % UsableBytesInSegment S)
  have hmod : p % UsableBytesInSegment S < pagesBefore W := hU ▸ Nat.mod_lt p hpos
  refine ⟨⟨hS, inSegment_page hmod, hlt⟩, hle, ?_⟩
  rw [hb, Nat.mul_comm, Nat.div_add_mod]

section Located

variable {p : Nat} (h : Located S W p s q off)

include h

theorem Located.usable : Usable S (s * S + q * 8192 + off) := h.toAt.usable.mpr h.page_header

theorem Located.recPtr_eq : recPtr S p = s * S + q * 8192 + off := by
  have hcount := h.toAt.count
  rw [← h.position] at hcount
  rw [recPtr, ← hcount]
  exact Nat.nth_count h.usable

theorem Located.endRecPtr_eq :
    endRecPtr S p = s * S + q * 8192 + if off = pageHeader q then 0 else off := by
  unfold endRecPtr XLOG_BLCKSZ
  rw [h.recPtr_eq, h.pageOffset, h.header]
  by_cases ho : off = pageHeader q
  · rw [if_pos ho, if_pos ho]
    omega
  · rw [if_neg ho, if_neg ho]

/-- No byte of the header is usable. -/
theorem Located.count_endRecPtr : Nat.count (Usable S) (endRecPtr S p) = p := by
  rw [h.endRecPtr_eq]
  by_cases ho : off = pageHeader q
  · have hstart : At S W s q 0 := ⟨h.size, h.page, by omega⟩
    have hp := h.position
    rw [if_pos ho, hstart.count, hp, ho, Nat.sub_self, Nat.zero_sub]
  · rw [if_neg ho, h.toAt.count, ← h.position]

end Located

/-! ## 4. The functions compute it -/

theorem uint32_run {x : Nat} (h : x < 2 ^ 32) (overflow : Bool) : uint32 x overflow = (x, overflow) := by
  unfold uint32
  rw [Nat.mod_eq_of_lt h, decide_eq_false (Nat.not_le_of_lt h), Bool.or_false]

theorem XLogSegNoOffsetToRecPtr_eq {segno offset : Nat} (h : segno * S + offset < 2 ^ 64) :
    XLogSegNoOffsetToRecPtr S segno offset = segno * S + offset := by
  unfold XLogSegNoOffsetToRecPtr uint64
  rw [Nat.mod_eq_of_lt (Nat.lt_of_le_of_lt (Nat.le_add_right _ _) h), Nat.mod_eq_of_lt h]

/-- What a valid segment size is: a power of two, so a number of whole pages. -/
theorem IsValidWalSegSize.pages (hS : IsValidWalSegSize S) :
    ∃ W, S = W * 8192 ∧ 0 < W ∧ W ≤ 131072 ∧ ∀ ptr, XLogSegmentOffset S ptr = ptr % S := by
  obtain ⟨⟨hpos, hand⟩, hmin, hmax⟩ := hS
  obtain ⟨k, hk⟩ := Nat.ne_zero_and_sub_one_eq_zero_iff_isPowerOfTwo.mp ⟨Nat.ne_of_gt hpos, hand⟩
  unfold WalSegMinSize at hmin
  unfold WalSegMaxSize at hmax
  have hk13 : 13 ≤ k := by
    by_contra hlt
    have := Nat.pow_le_pow_right (show 0 < 2 by omega) (show k ≤ 12 by omega)
    omega
  have hsplit : S = 2 ^ (k - 13) * 8192 := by
    rw [hk, show 8192 = 2 ^ 13 from rfl, ← Nat.pow_add, Nat.sub_add_cancel hk13]
  refine ⟨2 ^ (k - 13), hsplit, Nat.two_pow_pos _, by omega, fun ptr => ?_⟩
  unfold XLogSegmentOffset
  rw [hk, Nat.and_two_pow_sub_one_eq_mod]

section Spec

variable {p : Nat} (overflow : Bool)

theorem recPtr_spec (hS : IsValidWalSegSize S) (hp : recPtr S p < 2 ^ 64) :
    XLogBytePosToRecPtr S p overflow = (recPtr S p, overflow) := by
  obtain ⟨W, hsize, hW, hWmax, -⟩ := hS.pages
  have hl := located hsize hW p
  have hpage := hl.page
  have hoff := hl.offset
  rw [hl.recPtr_eq] at hp ⊢
  unfold XLogBytePosToRecPtr
  generalize p / UsableBytesInSegment S = s at hl hp hpage hoff ⊢
  generalize p % UsableBytesInSegment S = b at hl hp hpage hoff ⊢
  unfold inSegment at hl hp hpage hoff ⊢
  unfold UsableBytesInPage XLOG_BLCKSZ SizeOfXLogLongPHD SizeOfXLogShortPHD
  simp only [Nat.reduceSub]
  by_cases hb : b < 8152
  · simp only [if_pos hb] at hp hpage hoff ⊢
    simp only [bind, StateT.bind, uint32_run (show b + 40 < 2 ^ 32 by omega)]
    rw [XLogSegNoOffsetToRecPtr_eq (by omega)]
    rfl
  · simp only [if_neg hb] at hp hpage hoff ⊢
    have hfit : 8192 + ((b - 8152) / 8168 * 8192 + (b - 8152) % 8168 + 24) < 2 ^ 32 := by omega
    simp only [bind, StateT.bind, uint32_run (show 8192 < 2 ^ 32 by omega), uint32_run hfit]
    rw [XLogSegNoOffsetToRecPtr_eq (by omega)]
    exact congrArg (·, overflow) (by omega)

theorem endRecPtr_spec (hS : IsValidWalSegSize S) (hp : recPtr S p < 2 ^ 64) :
    XLogBytePosToEndRecPtr S p overflow = (endRecPtr S p, overflow) := by
  obtain ⟨W, hsize, hW, hWmax, -⟩ := hS.pages
  have hl := located hsize hW p
  have hpage := hl.page
  have hoff := hl.offset
  rw [hl.recPtr_eq] at hp
  rw [hl.endRecPtr_eq]
  unfold XLogBytePosToEndRecPtr
  generalize p / UsableBytesInSegment S = s at hl hp hpage hoff ⊢
  generalize p % UsableBytesInSegment S = b at hl hp hpage hoff ⊢
  unfold inSegment at hl hp hpage hoff ⊢
  unfold UsableBytesInPage XLOG_BLCKSZ SizeOfXLogLongPHD SizeOfXLogShortPHD
  simp only [Nat.reduceSub]
  by_cases hb : b < 8152
  · simp only [if_pos hb, pageHeader, if_true] at hp hpage hoff ⊢
    by_cases h0 : b = 0
    · simp only [if_pos h0, if_pos (show b + 40 = 40 by omega), bind, StateT.bind,
        uint32_run (show 0 < 2 ^ 32 by omega)]
      rw [XLogSegNoOffsetToRecPtr_eq (by omega)]
      rfl
    · simp only [if_neg h0, if_neg (show b + 40 ≠ 40 by omega), bind, StateT.bind,
        uint32_run (show b + 40 < 2 ^ 32 by omega)]
      rw [XLogSegNoOffsetToRecPtr_eq (by omega)]
      rfl
  · simp only [if_neg hb, pageHeader, Nat.succ_ne_zero, if_false] at hp hpage hoff ⊢
    by_cases h0 : (b - 8152) % 8168 = 0
    · have hfit : 8192 + ((b - 8152) / 8168 * 8192 + (b - 8152) % 8168) < 2 ^ 32 := by omega
      simp only [if_pos h0, if_pos (show (b - 8152) % 8168 + 24 = 24 by omega), bind, StateT.bind,
        uint32_run (show 8192 < 2 ^ 32 by omega), uint32_run hfit]
      rw [XLogSegNoOffsetToRecPtr_eq (by omega)]
      exact congrArg (·, overflow) (by omega)
    · have hfit : 8192 + ((b - 8152) / 8168 * 8192 + (b - 8152) % 8168 + 24) < 2 ^ 32 := by omega
      simp only [if_neg h0, if_neg (show (b - 8152) % 8168 + 24 ≠ 24 by omega), bind, StateT.bind,
        uint32_run (show 8192 < 2 ^ 32 by omega), uint32_run hfit]
      rw [XLogSegNoOffsetToRecPtr_eq (by omega)]
      exact congrArg (·, overflow) (by omega)

/-- **The way back**, from a usable byte or the start of a page: the usable bytes below it. -/
theorem bytePos_spec (hS : IsValidWalSegSize S) {ptr : Nat} (hptr : ptr < 2 ^ 64)
    (hu : Usable S ptr ∨ ptr % XLOG_BLCKSZ = 0) :
    XLogRecPtrToBytePos S ptr overflow = (Nat.count (Usable S) ptr, overflow) := by
  obtain ⟨W, hsize, hW, hWmax, hoffset⟩ := hS.pages
  have hle : Nat.count (Usable S) ptr ≤ ptr := Nat.count_le _
  have hlt : ptr % S < S := Nat.mod_lt ptr (by omega)
  have h : At S W (ptr / S) (ptr % S / 8192) (ptr % 8192) := ⟨hsize, by omega, by omega⟩
  have hmod : ptr % S % 8192 = ptr % 8192 := Nat.mod_mod_of_dvd ptr ⟨W, by omega⟩
  have hdecomp : ptr = ptr / S * S + ptr % S / 8192 * 8192 + ptr % 8192 := by
    have := Nat.div_add_mod ptr S
    rw [Nat.mul_comm] at this
    omega
  have hcount := h.count
  rw [← hdecomp] at hcount
  have huse : pageHeader (ptr % S / 8192) ≤ ptr % 8192 ∨ ptr % 8192 = 0 := by
    refine hu.imp_left fun hu => h.usable.mp ?_
    rwa [← hdecomp]
  unfold XLogRecPtrToBytePos XLByteToSeg UsableBytesInPage XLOG_BLCKSZ SizeOfXLogLongPHD SizeOfXLogShortPHD uint64
  rw [hoffset, hcount]
  rw [hcount] at hle
  generalize ptr % S / 8192 = q at h huse hle ⊢
  generalize ptr % 8192 = off at h huse hle ⊢
  generalize ptr / S * UsableBytesInSegment S = u at hle ⊢
  have hq := h.page
  have hoff := h.offset
  simp only [bind, StateT.bind, uint32_run (show q < 2 ^ 32 by omega), uint32_run (show off < 2 ^ 32 by omega)]
  unfold pagesBefore at hle ⊢
  unfold pageHeader at hle huse ⊢
  by_cases hq0 : q = 0
  · simp only [if_pos hq0] at hle huse ⊢
    split <;> exact congrArg (·, overflow) (by omega)
  · simp only [if_neg hq0] at hle huse ⊢
    split <;> exact congrArg (·, overflow) (by omega)

end Spec

/-! ## 5. The conversions together -/

/-- `p` and its pointers `r` and `e`. -/
structure Converted (S p r e : Nat) : Prop where
  to_recPtr : (XLogBytePosToRecPtr S p).run false = (r, false)
  to_endRecPtr : (XLogBytePosToEndRecPtr S p).run false = (e, false)
  of_recPtr : (XLogRecPtrToBytePos S r).run false = (p, false)
  of_endRecPtr : (XLogRecPtrToBytePos S e).run false = (p, false)
  usable : Usable S r
  ends : e = if r % XLOG_BLCKSZ = headerSize S r then r - r % XLOG_BLCKSZ else r

/-- **Positions and pointers.** Where the record pointer fits into 64 bits, the functions convert a position
    there and back, with no overflow in 32 bits; both pointers grow strictly. -/
theorem positions_and_pointers {S : Nat} (hS : IsValidWalSegSize S) :
    (∀ p, recPtr S p < 2 ^ 64 → Converted S p (recPtr S p) (endRecPtr S p)) ∧
      StrictMono (recPtr S) ∧ StrictMono (endRecPtr S) ∧ UsableBytesInSegment S < 2 ^ 31 := by
  obtain ⟨W, hsize, hW, hWmax, -⟩ := hS.pages
  have hcount : ∀ p, Nat.count (Usable S) (recPtr S p) = p := by
    intro p
    have hl := located hsize hW p
    rw [hl.recPtr_eq, hl.toAt.count, ← hl.position]
  have hcountEnd : ∀ p, Nat.count (Usable S) (endRecPtr S p) = p := fun p => (located hsize hW p).count_endRecPtr
  -- a larger number of usable bytes below it makes a larger pointer
  have hmono : ∀ f : Nat → Nat, (∀ p, Nat.count (Usable S) (f p) = p) → StrictMono f := by
    intro f hf p p' hlt
    by_contra hle
    have := Nat.count_monotone (Usable S) (Nat.le_of_not_lt hle)
    rw [hf, hf] at this
    omega
  refine ⟨fun p hp => ?_, hmono _ hcount, hmono _ hcountEnd, ?_⟩
  · have hl := located hsize hW p
    have hu : Usable S (recPtr S p) := hl.recPtr_eq ▸ hl.usable
    have hle : endRecPtr S p ≤ recPtr S p := by
      unfold endRecPtr
      split
      · exact Nat.sub_le _ _
      · exact Nat.le_refl _
    have hend : Usable S (endRecPtr S p) ∨ endRecPtr S p % XLOG_BLCKSZ = 0 := by
      unfold endRecPtr
      split
      · exact Or.inr (Nat.sub_mod_eq_zero_of_mod_eq (Nat.mod_mod _ _).symm)
      · exact Or.inl hu
    refine ⟨recPtr_spec false hS hp, endRecPtr_spec false hS hp, ?_, ?_, hu, rfl⟩
    · have h := bytePos_spec false hS hp (Or.inl hu)
      rwa [hcount] at h
    · have h := bytePos_spec false hS (Nat.lt_of_le_of_lt hle hp) hend
      rwa [hcountEnd] at h
  · rw [usableBytesInSegment_eq hsize hW, pagesBefore, if_neg (by omega)]
    omega

/-- **Segments of the default size.** The position behind the first page, and the position behind the first
    segment: the record pointer is behind the next header, the end pointer in front of it. -/
theorem positions_and_pointers_16MB :
    Converted 16777216 8152 8216 8192 ∧ Converted 16777216 16728048 16777256 16777216 ∧
      StrictMono (recPtr 16777216) ∧ StrictMono (endRecPtr 16777216) := by
  have hpage : Located 16777216 2048 8152 0 1 24 := ⟨⟨rfl, by decide, by decide⟩, by decide, by decide⟩
  have hseg : Located 16777216 2048 16728048 1 0 40 := ⟨⟨rfl, by decide, by decide⟩, by decide, by decide⟩
  obtain ⟨hconv, hrec, hend, -⟩ :=
    positions_and_pointers (S := 16777216) ⟨⟨by decide, by decide⟩, by decide, by decide⟩
  have hc1 := hconv 8152 (by rw [hpage.recPtr_eq]; decide)
  have hc2 := hconv 16728048 (by rw [hseg.recPtr_eq]; decide)
  rw [hpage.recPtr_eq, hpage.endRecPtr_eq] at hc1
  rw [hseg.recPtr_eq, hseg.endRecPtr_eq] at hc2
  exact ⟨hc1, hc2, hrec, hend⟩

end Pgvec.Storage.XlogPosition
