/-
  File:      Pgvec/Storage/GenericXlog.lean
  Subject:   GENERIC WAL RECORDS (`src/backend/access/transam/generic_xlog.c`): the delta between two
             images of a page, what the primary leaves in the buffer, and what replay makes of it.

  A page is read byte by byte here; only the offsets below `BLCKSZ` count. A delta is the bytes of its
  fragments one after another: offset and length (two bytes each, the low one first) and the data.

  * `computeRegionDelta`, `computeDelta` -- the loop over matched and unmatched runs; the sentinel `-1` of
    `fragmentBegin` and `fragmentEnd` is `none`;
  * `finishPage` -- `GenericXLogFinish` for one registered page of a logged relation;
  * `applyPageRedo`, `redoPage` -- `generic_redo` for one block;
  * `computeRegionDelta_spec` -- the fragments stay in their region and leave out matching valid bytes only;
  * `length_computeDelta` -- the delta fits into its buffer;
  * **`redo_eq_finish`** -- replay gives the page of the primary.
-/
import Pgvec.Storage.Page
import Mathlib.Data.UInt
import Mathlib.Tactic.Ring

namespace Pgvec.Storage.GenericXlog

/-- The bytes of a page. -/
abbrev Bytes := Nat → UInt8

/-- `FRAGMENT_HEADER_SIZE`. -/
def FRAGMENT_HEADER_SIZE : Nat := 2 * 2

/-- `MATCH_THRESHOLD`. -/
def MATCH_THRESHOLD : Nat := FRAGMENT_HEADER_SIZE

/-- `MAX_DELTA_SIZE`. -/
def MAX_DELTA_SIZE : Nat := BLCKSZ + 2 * FRAGMENT_HEADER_SIZE

/-- The 16-bit value in two bytes. -/
def uint16Of (lo hi : UInt8) : Nat := lo.toNat + 256 * hi.toNat

/-- The two bytes of a 16-bit value. -/
def bytesOf (n : Nat) : List UInt8 := [UInt8.ofNat (n % 256), UInt8.ofNat (n / 256 % 256)]

/-- `pd_lower` of the page header. -/
def pd_lower (page : Bytes) : Nat := uint16Of (page 12) (page 13)

/-- `pd_upper` of the page header. -/
def pd_upper (page : Bytes) : Nat := uint16Of (page 14) (page 15)

/-- `memcpy(page + offset, data, length)` with the bytes of `data`. -/
def memcpy (page : Bytes) (offset : Nat) (data : List UInt8) : Bytes := fun i =>
  if offset ≤ i ∧ i < offset + data.length then data.getD (i - offset) 0 else page i

/-- `memset(page + start, 0, count)`. -/
def memzero (page : Bytes) (start count : Nat) : Bytes := fun i =>
  if start ≤ i ∧ i < start + count then 0 else page i

/-- The bytes of `page` from `start` on. -/
def slice (page : Bytes) (start length : Nat) : List UInt8 :=
  (List.range length).map fun k => page (start + k)

/-- `PageSetLSN`: eight bytes at the start of the page. -/
def PageSetLSN (page : Bytes) (lsn : Fin 8 → UInt8) : Bytes := fun i =>
  if h : i < 8 then lsn ⟨i, h⟩ else page i

/-! ## 1. The delta -/

/-- `writeFragment`: the delta grows by one fragment. -/
def writeFragment (delta : List UInt8) (offset length : Nat) (data : List UInt8) : List UInt8 :=
  delta ++ bytesOf offset ++ bytesOf length ++ data

/-- `while (i < loopEnd && p i) i++`. -/
def extend (p : Nat → Bool) (loopEnd i : Nat) : Nat :=
  if i < loopEnd ∧ p i then extend p loopEnd (i + 1) else i
termination_by loopEnd - i

/-- The variables of `computeRegionDelta`. -/
structure Region where
  i : Nat
  fragmentBegin : Option Nat
  fragmentEnd : Option Nat
  delta : List UInt8

theorem le_extend (p : Nat → Bool) (loopEnd i : Nat) : i ≤ extend p loopEnd i := by
  fun_induction extend p loopEnd i with
  | case1 i _ ih => exact Nat.le_of_succ_le ih
  | case2 i _ => exact Nat.le_refl i

section Region

variable (cur target : Bytes)

/-- The part of the loop body from the matched byte at `st.i` on. -/
def matchedRun (loopEnd : Nat) (st : Region) : Region :=
  -- found a matched byte, so remember end of unmatched fragment
  let fragmentEnd := st.i
  let i := extend (fun j => cur j == target j) loopEnd (st.i + 1)
  match st.fragmentBegin with
  | some fragmentBegin =>
      if MATCH_THRESHOLD < i - fragmentEnd then
        { i, fragmentBegin := none, fragmentEnd := none,
          delta := writeFragment st.delta fragmentBegin (fragmentEnd - fragmentBegin)
            (slice target fragmentBegin (fragmentEnd - fragmentBegin)) }
      else { st with i, fragmentEnd := some fragmentEnd }
  | none => { st with i, fragmentEnd := some fragmentEnd }

/-- The unmatched run that starts at `st.i`. -/
def unmatchedRun (loopEnd : Nat) (st : Region) : Region :=
  { st with
    fragmentBegin := some (st.fragmentBegin.getD st.i)
    fragmentEnd := none
    i := extend (fun j => cur j != target j) loopEnd (st.i + 1) }

theorem lt_matchedRun (loopEnd : Nat) (st : Region) : st.i < (matchedRun cur target loopEnd st).i := by
  have h := le_extend (fun j => cur j == target j) loopEnd (st.i + 1)
  simp only [matchedRun]
  split
  · split <;> exact h
  · exact h

theorem lt_unmatchedRun (loopEnd : Nat) (st : Region) :
    st.i < (unmatchedRun cur target loopEnd st).i :=
  le_extend (fun j => cur j != target j) loopEnd (st.i + 1)

/-- The `while` loop of `computeRegionDelta`. -/
def regionLoop (loopEnd : Nat) (st : Region) : Region :=
  if st.i < loopEnd then
    if cur st.i = target st.i then regionLoop loopEnd (matchedRun cur target loopEnd st)
    else
      let st' := unmatchedRun cur target loopEnd st
      if loopEnd ≤ st'.i then st' else regionLoop loopEnd (matchedRun cur target loopEnd st')
  else st
termination_by loopEnd - st.i
decreasing_by
  · have := lt_matchedRun cur target loopEnd st
    omega
  · have h1 := lt_unmatchedRun cur target loopEnd st
    have h2 := lt_matchedRun cur target loopEnd (unmatchedRun cur target loopEnd st)
    omega

/-- What `computeRegionDelta` does after its loop. -/
def finalFragment (loopEnd targetEnd : Nat) (st : Region) : List UInt8 :=
  let fragmentBegin :=
    if loopEnd < targetEnd then some (st.fragmentBegin.getD loopEnd) else st.fragmentBegin
  let fragmentEnd := if loopEnd < targetEnd then some targetEnd else st.fragmentEnd
  match fragmentBegin with
  | some fragmentBegin =>
      let fragmentEnd := fragmentEnd.getD targetEnd
      writeFragment st.delta fragmentBegin (fragmentEnd - fragmentBegin)
        (slice target fragmentBegin (fragmentEnd - fragmentBegin))
  | none => st.delta

/-- The variables before the loop: an invalid start region is part of the first fragment. -/
def startRegion (delta : List UInt8) (targetStart validStart : Nat) : Region :=
  if targetStart < validStart then ⟨validStart, some targetStart, none, delta⟩
  else ⟨targetStart, none, none, delta⟩

/-- **`computeRegionDelta`.** -/
def computeRegionDelta (delta : List UInt8) (targetStart targetEnd validStart validEnd : Nat) :
    List UInt8 :=
  let loopEnd := min targetEnd validEnd
  finalFragment target loopEnd targetEnd
    (regionLoop cur target loopEnd (startRegion delta targetStart validStart))

/-- **`computeDelta`.** -/
def computeDelta : List UInt8 :=
  let delta := computeRegionDelta cur target [] 0 (pd_lower target) 0 (pd_lower cur)
  computeRegionDelta cur target delta (pd_upper target) BLCKSZ (pd_upper cur) BLCKSZ

/-- **`GenericXLogFinish`** for one registered buffer of a logged relation: the page it leaves there. -/
def finishPage (page image : Bytes) (lsn : Fin 8 → UInt8) : Bytes :=
  let page := memcpy page 0 (slice image 0 (pd_lower image))
  let page := memzero page (pd_lower image) (pd_upper image - pd_lower image)
  let page := memcpy page (pd_upper image) (slice image (pd_upper image) (BLCKSZ - pd_upper image))
  PageSetLSN page lsn

end Region

/-! ## 2. Replay -/

/-- **`applyPageRedo`.** A delta that ends inside a fragment is not read further. -/
def applyPageRedo (page : Bytes) : List UInt8 → Bytes
  | o0 :: o1 :: l0 :: l1 :: ptr =>
      let offset := uint16Of o0 o1
      let length := uint16Of l0 l1
      applyPageRedo (memcpy page offset (ptr.take length)) (ptr.drop length)
  | _ => page
termination_by ptr => ptr.length
decreasing_by
  simp only [List.length_drop, List.length_cons]
  omega

/-- **`generic_redo`** for one block that needs redo. -/
def redoPage (page : Bytes) (delta : List UInt8) (lsn : Fin 8 → UInt8) : Bytes :=
  let page := applyPageRedo page delta
  let page := memzero page (pd_lower page) (pd_upper page - pd_lower page)
  PageSetLSN page lsn

/-! ## 3. What a delta holds -/

/-- A fragment: its offset and its length; the data are the bytes of the target. -/
abbrev Fragment := Nat × Nat

/-- The bytes of one fragment. -/
def encodeFragment (target : Bytes) (f : Fragment) : List UInt8 :=
  bytesOf f.1 ++ bytesOf f.2 ++ slice target f.1 f.2

/-- The bytes of fragments. -/
def encode (target : Bytes) (frs : List Fragment) : List UInt8 :=
  (frs.map (encodeFragment target)).flatten

/-- The offset lies in one of the fragments. -/
def Covered (frs : List Fragment) (i : Nat) : Prop := ∃ f ∈ frs, f.1 ≤ i ∧ i < f.1 + f.2

/-- The room the fragments take in the delta. -/
def room (frs : List Fragment) : Nat := (frs.map fun f => FRAGMENT_HEADER_SIZE + f.2).sum

section Encode

variable {target : Bytes} {frs frs' : List Fragment} {i : Nat}

theorem length_slice (page : Bytes) (start length : Nat) : (slice page start length).length = length := by
  rw [slice, List.length_map, List.length_range]

theorem encode_append : encode target (frs ++ frs') = encode target frs ++ encode target frs' := by
  rw [encode, List.map_append, List.flatten_append]
  rfl

theorem writeFragment_encode (delta : List UInt8) (offset length : Nat) :
    writeFragment delta offset length (slice target offset length) =
      delta ++ encode target [(offset, length)] := by
  simp only [writeFragment, encode, encodeFragment, List.map_cons, List.map_nil, List.flatten_cons,
    List.flatten_nil, List.append_nil, List.append_assoc]

theorem length_encode : (encode target frs).length = room frs := by
  induction frs with
  | nil => rfl
  | cons f frs ih =>
    rw [← List.singleton_append, encode_append, List.length_append, ih]
    simp only [encode, encodeFragment, bytesOf, room, List.map_cons, List.map_nil, List.flatten_cons,
      List.flatten_nil, List.append_nil, List.length_append, List.length_cons, List.length_nil,
      length_slice, List.sum_cons, FRAGMENT_HEADER_SIZE, List.singleton_append]

theorem covered_append : Covered (frs ++ frs') i ↔ Covered frs i ∨ Covered frs' i := by
  simp only [Covered, List.mem_append, or_and_right, exists_or]

theorem covered_singleton {f : Fragment} : Covered [f] i ↔ f.1 ≤ i ∧ i < f.1 + f.2 := by
  simp only [Covered, List.mem_singleton, exists_eq_left]

theorem room_append : room (frs ++ frs') = room frs + room frs' := by
  rw [room, List.map_append, List.sum_append]
  rfl

theorem uint16Of_bytes {n : Nat} (h : n < 65536) :
    uint16Of (UInt8.ofNat (n % 256)) (UInt8.ofNat (n / 256 % 256)) = n := by
  simp only [uint16Of, UInt8.toNat_ofNat']
  omega

theorem memcpy_slice (page : Bytes) (offset length i : Nat) :
    memcpy page offset (slice target offset length) i =
      if offset ≤ i ∧ i < offset + length then target i else page i := by
  rw [memcpy, length_slice]
  split
  · rename_i h
    have hlt : i - offset < length := by omega
    rw [slice, List.getD_eq_getElem?_getD, List.getElem?_map, List.getElem?_range hlt, Option.map_some,
      Option.getD_some, Nat.add_sub_cancel' h.1]
  · rfl

/-- One fragment in front is one `memcpy`. -/
theorem applyPageRedo_fragment {f : Fragment} (ho : f.1 < 65536) (hl : f.2 < 65536) (page : Bytes)
    (rest : List UInt8) : applyPageRedo page (encodeFragment target f ++ rest) =
      applyPageRedo (memcpy page f.1 (slice target f.1 f.2)) rest := by
  have hlen : (slice target f.1 f.2).length = f.2 := length_slice _ _ _
  simp only [encodeFragment, bytesOf, List.cons_append, List.nil_append]
  rw [applyPageRedo]
  simp only [uint16Of_bytes ho, uint16Of_bytes hl, List.take_left' hlen, List.drop_left' hlen]

/-- **Applying a delta** puts the target's bytes where the fragments are and nothing elsewhere. -/
theorem applyPageRedo_encode (target : Bytes) (hb : ∀ f ∈ frs, f.1 + f.2 < 65536) (page : Bytes) (i : Nat) :
    (Covered frs i → applyPageRedo page (encode target frs) i = target i) ∧
      (¬ Covered frs i → applyPageRedo page (encode target frs) i = page i) := by
  induction frs generalizing page with
  | nil =>
    refine ⟨?_, fun _ => by rw [encode, List.map_nil, List.flatten_nil, applyPageRedo]; exact fun _ _ _ _ _ h => by cases h⟩
    rintro ⟨f, hf, _⟩
    cases hf
  | cons f frs ih =>
    have hf := hb f List.mem_cons_self
    have hcons : encode target (f :: frs) = encodeFragment target f ++ encode target frs := rfl
    rw [hcons, applyPageRedo_fragment (by omega) (by omega)]
    obtain ⟨ih1, ih2⟩ := ih (fun g hg => hb g (List.mem_cons_of_mem _ hg))
      (memcpy page f.1 (slice target f.1 f.2))
    have hc : Covered (f :: frs) i ↔ (f.1 ≤ i ∧ i < f.1 + f.2) ∨ Covered frs i := by
      rw [← List.singleton_append, covered_append, covered_singleton]
    rw [hc]
    by_cases hi : Covered frs i
    · exact ⟨fun _ => ih1 hi, fun h => absurd (Or.inr hi) h⟩
    · rw [ih2 hi, memcpy_slice]
      exact ⟨fun h => if_pos (h.resolve_right hi), fun h => if_neg fun h' => h (Or.inl h')⟩

end Encode

/-! ## 4. The loop -/

section Loop

variable {cur target : Bytes}

theorem extend_le {p : Nat → Bool} {loopEnd i : Nat} (h : i ≤ loopEnd) : extend p loopEnd i ≤ loopEnd := by
  fun_induction extend p loopEnd i with
  | case1 i hi ih => exact ih hi.1
  | case2 i _ => exact h

/-- What the loop went over has the property. -/
theorem extend_holds {p : Nat → Bool} {loopEnd i j : Nat} (h1 : i ≤ j) (h2 : j < extend p loopEnd i) :
    p j = true := by
  fun_induction extend p loopEnd i with
  | case1 i hi ih =>
    rcases Nat.eq_or_lt_of_le h1 with rfl | h
    · exact hi.2
    · exact ih h h2
  | case2 i _ => omega

/-- The loop ends in front of a byte without the property. -/
theorem extend_stops {p : Nat → Bool} {loopEnd i : Nat} (h : extend p loopEnd i < loopEnd) :
    p (extend p loopEnd i) = false := by
  fun_induction extend p loopEnd i with
  | case1 i _ ih => exact ih h
  | case2 i hi => exact Bool.eq_false_iff.mpr fun hp => hi ⟨h, hp⟩

/-- Where the fragment that is still to be written starts. -/
def Region.settled (st : Region) : Nat := st.fragmentBegin.getD st.i

/-- **The loop invariant.** The delta has grown by fragments in front of the unwritten one; what they
    leave out there matches; what was found to match since `fragmentEnd` does. -/
structure Region.Ok (cur target : Bytes) (delta : List UInt8) (start validStart loopEnd : Nat)
    (frs : List Fragment) (st : Region) : Prop where
  delta_eq : st.delta = delta ++ encode target frs
  inside : ∀ f ∈ frs, start ≤ f.1 ∧ f.1 + f.2 ≤ st.settled
  start_le : start ≤ st.settled
  settled_le : st.settled ≤ st.i
  valid_le : validStart ≤ st.i
  le_loopEnd : st.i ≤ loopEnd
  room_le : start + room frs ≤ st.settled
  covered : ∀ j, start ≤ j → j < st.settled → Covered frs j ∨ validStart ≤ j ∧ cur j = target j
  matched : ∀ e, st.fragmentEnd = some e → st.fragmentBegin ≠ none → st.settled ≤ e ∧ e ≤ st.i ∧
    validStart ≤ e ∧ ∀ j, e ≤ j → j < st.i → cur j = target j

variable {delta : List UInt8} {start validStart loopEnd : Nat} {frs : List Fragment} {st : Region}

/-- An unmatched run joins the unwritten fragment. -/
theorem Region.Ok.unmatched (h : st.Ok cur target delta start validStart loopEnd frs)
    (hi : st.i < loopEnd) :
    (unmatchedRun cur target loopEnd st).Ok cur target delta start validStart loopEnd frs where
  delta_eq := h.delta_eq
  inside := h.inside
  start_le := h.start_le
  settled_le := Nat.le_trans h.settled_le (Nat.le_of_lt (lt_unmatchedRun cur target loopEnd st))
  valid_le := Nat.le_trans h.valid_le (Nat.le_of_lt (lt_unmatchedRun cur target loopEnd st))
  le_loopEnd := extend_le hi
  room_le := h.room_le
  covered := h.covered
  matched _ he := nomatch he

/-- A matched run ends the unwritten fragment, or is remembered as its end, or is left out. -/
theorem Region.Ok.matching (h : st.Ok cur target delta start validStart loopEnd frs)
    (hi : st.i < loopEnd) (hm : cur st.i = target st.i) :
    ∃ frs', (matchedRun cur target loopEnd st).Ok cur target delta start validStart loopEnd frs' := by
  have hlt := le_extend (fun j => cur j == target j) loopEnd (st.i + 1)
  have hle : extend (fun j => cur j == target j) loopEnd (st.i + 1) ≤ loopEnd := extend_le hi
  have hrun : ∀ j, st.i ≤ j → j < extend (fun j => cur j == target j) loopEnd (st.i + 1) →
      cur j = target j := by
    intro j h1 h2
    rcases Nat.eq_or_lt_of_le h1 with rfl | h1
    · exact hm
    · exact beq_iff_eq.mp (extend_holds (p := fun j => cur j == target j) h1 h2)
  simp only [matchedRun]
  generalize extend (fun j => cur j == target j) loopEnd (st.i + 1) = i at hlt hle hrun
  have hs1 := h.start_le
  have hs2 := h.settled_le
  have hv := h.valid_le
  have hr := h.room_le
  cases hb : st.fragmentBegin with
  | none =>
    have hset : st.settled = st.i := by rw [Region.settled, hb]; rfl
    refine ⟨frs, ⟨h.delta_eq, ?_, ?_, Nat.le_refl i, ?_, hle, ?_, ?_, fun _ _ hne => absurd rfl hne⟩⟩
    · intro f hf
      have := h.inside f hf
      exact ⟨this.1, show f.1 + f.2 ≤ i by omega⟩
    · show start ≤ i
      omega
    · show validStart ≤ i
      omega
    · show start + room frs ≤ i
      omega
    · intro j h1 h2
      by_cases hj : j < st.settled
      · exact h.covered j h1 hj
      · exact Or.inr ⟨by omega, hrun j (by omega) h2⟩
  | some b =>
    have hset : st.settled = b := by rw [Region.settled, hb]; rfl
    rw [hset] at hs1 hs2 hr
    simp only
    split
    · rename_i hthr
      have hthr : 4 < i - st.i := hthr
      refine ⟨frs ++ [(b, st.i - b)], ⟨?_, ?_, ?_, Nat.le_refl i, ?_, hle, ?_, ?_,
        fun _ he => by cases he⟩⟩
      · rw [writeFragment_encode, h.delta_eq, encode_append, List.append_assoc]
      · intro f hf
        show start ≤ f.1 ∧ f.1 + f.2 ≤ i
        rcases List.mem_append.mp hf with hf | hf
        · have := h.inside f hf
          omega
        · rw [List.mem_singleton.mp hf]
          exact ⟨hs1, by omega⟩
      · show start ≤ i
        omega
      · show validStart ≤ i
        omega
      · show start + room (frs ++ [(b, st.i - b)]) ≤ i
        rw [room_append]
        have : room [(b, st.i - b)] = 4 + (st.i - b) := rfl
        omega
      · intro j h1 h2
        have h2 : j < i := h2
        rw [covered_append, covered_singleton]
        by_cases hj : j < b
        · rcases h.covered j h1 (by omega) with hc | hc
          · exact Or.inl (Or.inl hc)
          · exact Or.inr hc
        · by_cases hj' : j < st.i
          · exact Or.inl (Or.inr ⟨by omega, by omega⟩)
          · exact Or.inr ⟨by omega, hrun j (by omega) h2⟩
    · have hin := h.inside
      have hcov := h.covered
      rw [hset] at hin hcov
      refine ⟨frs, ⟨h.delta_eq, hin, hs1, ?_, ?_, hle, hr, hcov, ?_⟩⟩
      · show b ≤ i
        omega
      · show validStart ≤ i
        omega
      · intro e he _
        cases he
        refine ⟨hs2, ?_, hv, hrun⟩
        show st.i ≤ i
        omega

/-- **The whole loop keeps the invariant** and goes up to `loopEnd`. -/
theorem Region.Ok.loop (h : st.Ok cur target delta start validStart loopEnd frs) :
    ∃ frs', (regionLoop cur target loopEnd st).Ok cur target delta start validStart loopEnd frs' ∧
      (regionLoop cur target loopEnd st).i = loopEnd := by
  fun_induction regionLoop cur target loopEnd st generalizing frs with
  | case1 st hi hm ih =>
    obtain ⟨frs', h'⟩ := h.matching hi hm
    exact ih h'
  | case2 st hi _ st' =>
    rename_i hend
    exact ⟨frs, h.unmatched hi, Nat.le_antisymm (extend_le hi) hend⟩
  | case3 st hi _ st' =>
    rename_i hend ih
    have hu := h.unmatched hi
    have hlt : (unmatchedRun cur target loopEnd st).i < loopEnd := Nat.lt_of_not_le hend
    have hm := extend_stops (p := fun j => cur j != target j) hlt
    simp only [bne_eq_false_iff_eq] at hm
    obtain ⟨frs', h'⟩ := hu.matching hlt hm
    exact ih h'
  | case4 st hi => exact ⟨frs, h, Nat.le_antisymm h.le_loopEnd (Nat.le_of_not_lt hi)⟩

/-- What the fragments of a region say: they stay inside it, they take little room, and what they leave out
    is valid and matches. -/
structure Describes (cur target : Bytes) (targetStart targetEnd validStart validEnd : Nat)
    (frs : List Fragment) : Prop where
  inside : ∀ f ∈ frs, targetStart ≤ f.1 ∧ f.1 + f.2 ≤ targetEnd
  room_le : targetStart + room frs ≤ targetEnd + FRAGMENT_HEADER_SIZE
  covered : ∀ j, targetStart ≤ j → j < targetEnd →
    Covered frs j ∨ validStart ≤ j ∧ j < validEnd ∧ cur j = target j

/-- The last fragment, from `b` to `e`. -/
theorem Region.Ok.last {targetEnd validEnd b e : Nat}
    (h : st.Ok cur target delta start validStart loopEnd frs) (hb : st.settled = b) (hbe : b ≤ e)
    (he : e ≤ targetEnd)
    (hrest : ∀ j, e ≤ j → j < targetEnd → validStart ≤ j ∧ j < validEnd ∧ cur j = target j)
    (hvalid : loopEnd ≤ validEnd) :
    writeFragment st.delta b (e - b) (slice target b (e - b)) =
        delta ++ encode target (frs ++ [(b, e - b)]) ∧
      Describes cur target start targetEnd validStart validEnd (frs ++ [(b, e - b)]) := by
  have hs1 := h.start_le
  have hs2 := h.settled_le
  have hl := h.le_loopEnd
  have hr := h.room_le
  refine ⟨?_, ⟨?_, ?_, ?_⟩⟩
  · rw [writeFragment_encode, h.delta_eq, encode_append, List.append_assoc]
  · intro f hf
    rcases List.mem_append.mp hf with hf | hf
    · have := h.inside f hf
      omega
    · rw [List.mem_singleton.mp hf]
      exact ⟨by omega, show b + (e - b) ≤ targetEnd by omega⟩
  · rw [room_append]
    have : room [(b, e - b)] = FRAGMENT_HEADER_SIZE + (e - b) := rfl
    omega
  · intro j h1 h2
    rw [covered_append, covered_singleton]
    by_cases hj : j < b
    · rcases h.covered j h1 (by omega) with hc | hc
      · exact Or.inl (Or.inl hc)
      · exact Or.inr ⟨hc.1, by omega, hc.2⟩
    · by_cases hj' : j < e
      · exact Or.inl (Or.inr ⟨by omega, show j < b + (e - b) by omega⟩)
      · exact Or.inr (hrest j (by omega) h2)

theorem startRegion_ok (cur target : Bytes) (delta : List UInt8) {targetStart validStart loopEnd : Nat}
    (h1 : targetStart ≤ loopEnd) (h2 : validStart ≤ loopEnd) :
    (startRegion delta targetStart validStart).Ok cur target delta targetStart validStart loopEnd [] := by
  have hset : (startRegion delta targetStart validStart).settled = targetStart := by
    unfold startRegion
    split <;> rfl
  refine ⟨?_, (fun _ hf => nomatch hf), hset.symm.le, ?_, ?_, ?_, hset.symm.le, ?_, ?_⟩
  · rw [encode, List.map_nil, List.flatten_nil, List.append_nil]
    unfold startRegion
    split <;> rfl
  · rw [hset]
    unfold startRegion
    split
    · rename_i h
      exact Nat.le_of_lt h
    · exact Nat.le_refl targetStart
  · unfold startRegion
    split
    · exact Nat.le_refl validStart
    · rename_i h
      exact Nat.le_of_not_lt h
  · unfold startRegion
    split
    · exact h2
    · exact h1
  · intro j hj hj'
    omega
  · intro e he
    unfold startRegion at he
    split at he <;> cases he

/-- **`computeRegionDelta` appends fragments that describe its region.** -/
theorem computeRegionDelta_spec (cur target : Bytes) (delta : List UInt8)
    {targetStart targetEnd validStart validEnd : Nat}
    (h1 : targetStart ≤ targetEnd) (h2 : targetStart ≤ validEnd) (h3 : validStart ≤ targetEnd)
    (h4 : validStart ≤ validEnd) :
    ∃ frs, computeRegionDelta cur target delta targetStart targetEnd validStart validEnd =
        delta ++ encode target frs ∧
      Describes cur target targetStart targetEnd validStart validEnd frs := by
  have hstart := startRegion_ok cur target delta (Nat.le_min.mpr ⟨h1, h2⟩) (Nat.le_min.mpr ⟨h3, h4⟩)
  obtain ⟨frs, hok, hend⟩ := hstart.loop
  simp only [computeRegionDelta]
  generalize regionLoop cur target (min targetEnd validEnd) _ = st at hok hend
  have hv : min targetEnd validEnd ≤ validEnd := Nat.min_le_right _ _
  simp only [finalFragment]
  by_cases hlt : min targetEnd validEnd < targetEnd
  · rw [if_pos hlt, if_pos hlt]
    refine ⟨_, hok.last ?_ ?_ (Nat.le_refl targetEnd) (fun j hj hj' => absurd hj (Nat.not_le.mpr hj')) hv⟩
    · rw [Region.settled, hend]
    · have := hok.settled_le
      rw [Region.settled, hend] at this
      simp only [Option.getD_some]
      omega
  · rw [if_neg hlt, if_neg hlt]
    have hi : st.i = targetEnd := by omega
    cases hb : st.fragmentBegin with
    | none =>
      have hset : st.settled = targetEnd := by rw [Region.settled, hb, ← hi]; rfl
      refine ⟨frs, hok.delta_eq, ⟨fun f hf => hset ▸ hok.inside f hf, ?_, ?_⟩⟩
      · have := hok.room_le
        omega
      · intro j hj hj'
        rcases hok.covered j hj (hset ▸ hj') with hc | hc
        · exact Or.inl hc
        · exact Or.inr ⟨hc.1, by omega, hc.2⟩
    | some b =>
      have hset : st.settled = b := by rw [Region.settled, hb]; rfl
      have hle := hok.settled_le
      cases he : st.fragmentEnd with
      | none =>
        exact ⟨_, hok.last hset (show b ≤ targetEnd by omega) (Nat.le_refl targetEnd)
          (fun j hj hj' => absurd hj (Nat.not_le.mpr hj')) hv⟩
      | some e =>
        obtain ⟨hm1, hm2, hm3, hm4⟩ := hok.matched e he (by rw [hb]; exact Option.some_ne_none b)
        exact ⟨_, hok.last hset (show b ≤ e by omega) (show e ≤ targetEnd by omega)
          (fun j hj hj' => ⟨Nat.le_trans hm3 hj, by omega, hm4 j hj (by omega)⟩) hv⟩

end Loop

/-! ## 5. Replay gives the page of the primary -/

/-- `pd_lower <= pd_upper <= BLCKSZ`. -/
def HeaderOk (page : Bytes) : Prop := pd_lower page ≤ pd_upper page ∧ pd_upper page ≤ BLCKSZ

/-- The two pages agree outside the hole of the first one. -/
def SameOutsideHole (cur standby : Bytes) : Prop := ∀ i, i < BLCKSZ →
  i < pd_lower cur ∨ pd_upper cur ≤ i → standby i = cur i

/-- The hole leaves the two fields that say where it is alone. -/
def FieldsOutsideHole (page : Bytes) : Prop :=
  pd_lower page = pd_upper page ∨ 16 ≤ pd_lower page ∨ pd_upper page ≤ 12

section Replay

variable {cur target standby : Bytes}

/-- The fragments of the two parts of a page. -/
theorem computeDelta_spec (hc : HeaderOk cur) (ht : HeaderOk target) : ∃ lower upper,
    computeDelta cur target = encode target (lower ++ upper) ∧
      Describes cur target 0 (pd_lower target) 0 (pd_lower cur) lower ∧
      Describes cur target (pd_upper target) BLCKSZ (pd_upper cur) BLCKSZ upper := by
  obtain ⟨lower, hl, hld⟩ := computeRegionDelta_spec cur target [] (Nat.zero_le (pd_lower target))
    (Nat.zero_le (pd_lower cur)) (Nat.zero_le _) (Nat.zero_le _)
  obtain ⟨upper, hu, hud⟩ := computeRegionDelta_spec cur target (encode target lower) ht.2 ht.2 hc.2 hc.2
  refine ⟨lower, upper, ?_, hld, hud⟩
  rw [computeDelta, hl, List.nil_append, hu, encode_append]

/-- **The delta fits into its buffer.** -/
theorem length_computeDelta (hc : HeaderOk cur) (ht : HeaderOk target) :
    (computeDelta cur target).length ≤ MAX_DELTA_SIZE := by
  obtain ⟨lower, upper, h, hl, hu⟩ := computeDelta_spec hc ht
  rw [h, length_encode, room_append, MAX_DELTA_SIZE]
  have h1 := hl.room_le
  have h2 := hu.room_le
  have h3 := ht.1
  have h4 := ht.2
  omega

/-- Applying the delta gives the target outside its hole. -/
theorem applyPageRedo_computeDelta (hc : HeaderOk cur) (ht : HeaderOk target)
    (hs : SameOutsideHole cur standby) {i : Nat} (hi : i < BLCKSZ)
    (hout : i < pd_lower target ∨ pd_upper target ≤ i) :
    applyPageRedo standby (computeDelta cur target) i = target i := by
  obtain ⟨lower, upper, h, hl, hu⟩ := computeDelta_spec hc ht
  have hb : ∀ f ∈ lower ++ upper, f.1 + f.2 < 65536 := by
    have h1 := ht.1
    have h2 := ht.2
    have h3 : BLCKSZ = 8192 := rfl
    intro f hf
    rcases List.mem_append.mp hf with hf | hf
    · have := hl.inside f hf
      omega
    · have := hu.inside f hf
      omega
  obtain ⟨hcov, hframe⟩ := applyPageRedo_encode target hb standby i
  rw [h]
  by_cases hin : Covered (lower ++ upper) i
  · exact hcov hin
  · rw [hframe hin]
    rw [covered_append, not_or] at hin
    rcases hout with hout | hout
    · obtain ⟨_, h2, h3⟩ := (hl.covered i (Nat.zero_le i) hout).resolve_left hin.1
      rw [hs i hi (Or.inl h2), h3]
    · obtain ⟨h1, _, h3⟩ := (hu.covered i hout hi).resolve_left hin.2
      rw [hs i hi (Or.inr h1), h3]

/-- Replay reads the header of the target. -/
theorem header_replayed (hc : HeaderOk cur) (ht : HeaderOk target) (hs : SameOutsideHole cur standby)
    (hf : FieldsOutsideHole target) :
    pd_lower (applyPageRedo standby (computeDelta cur target)) = pd_lower target ∧
      pd_upper (applyPageRedo standby (computeDelta cur target)) = pd_upper target := by
  have hout : ∀ i, 12 ≤ i → i < 16 → applyPageRedo standby (computeDelta cur target) i = target i := by
    intro i h1 h2
    refine applyPageRedo_computeDelta hc ht hs (Nat.lt_trans h2 (by decide)) ?_
    rcases hf with hf | hf | hf <;> omega
  refine ⟨?_, ?_⟩
  · rw [pd_lower, hout 12 (by decide) (by decide), hout 13 (by decide) (by decide)]
    rfl
  · rw [pd_upper, hout 14 (by decide) (by decide), hout 15 (by decide) (by decide)]
    rfl

/-- **Replay gives the page of the primary**, the page LSN aside. -/
theorem redo_eq_finish (cur target standby : Bytes) (hc : HeaderOk cur) (ht : HeaderOk target)
    (hs : SameOutsideHole cur standby) (hf : FieldsOutsideHole target) (lsn lsn' : Fin 8 → UInt8) :
    ∀ i, 8 ≤ i → i < BLCKSZ →
      redoPage standby (computeDelta cur target) lsn i = finishPage cur target lsn' i := by
  intro i h8 hi
  obtain ⟨h1, h2⟩ := header_replayed hc ht hs hf
  have hlo := ht.1
  have hup := ht.2
  have h8' : ¬ i < 8 := Nat.not_lt.mpr h8
  simp only [redoPage, finishPage, PageSetLSN, h8', dite_false, memcpy_slice, memzero, h1, h2]
  by_cases hu : pd_upper target ≤ i
  · rw [if_neg (by omega), if_pos (by omega)]
    exact applyPageRedo_computeDelta hc ht hs hi (Or.inr hu)
  · rw [if_neg (show ¬ (pd_upper target ≤ i ∧ _) from fun h => hu h.1)]
    by_cases hl : i < pd_lower target
    · rw [if_neg (by omega), if_neg (by omega), if_pos (by omega)]
      exact applyPageRedo_computeDelta hc ht hs hi (Or.inl hl)
    · rw [if_pos (by omega), if_pos (by omega)]

end Replay

/-- A page of zeros with the two fields set. -/
def emptyPage (lower upper : Nat) : Bytes := fun i =>
  if i = 12 then UInt8.ofNat (lower % 256) else if i = 13 then UInt8.ofNat (lower / 256)
  else if i = 14 then UInt8.ofNat (upper % 256) else if i = 15 then UInt8.ofNat (upper / 256) else 0

/-- A page grows by one item at each end; the standby has another byte in the hole, and the byte of the
    new item at the upper end is replayed. -/
theorem redo_eq_finish_item :
    SameOutsideHole (emptyPage 24 8176) (fun i => if i = 100 then 7 else emptyPage 24 8176 i) ∧
      redoPage (fun i => if i = 100 then 7 else emptyPage 24 8176 i)
          (computeDelta (emptyPage 24 8176) fun i => if i = 24 ∨ i = 8168 then 1 else emptyPage 28 8168 i)
          (fun _ => 1) 8168 =
        finishPage (emptyPage 24 8176) (fun i => if i = 24 ∨ i = 8168 then 1 else emptyPage 28 8168 i)
          (fun _ => 2) 8168 := by
  have hs : SameOutsideHole (emptyPage 24 8176) (fun i => if i = 100 then 7 else emptyPage 24 8176 i) := by
    intro i _ hi
    have h1 : pd_lower (emptyPage 24 8176) = 24 := by decide
    have h2 : pd_upper (emptyPage 24 8176) = 8176 := by decide
    rw [h1, h2] at hi
    exact if_neg (by omega)
  exact ⟨hs, redo_eq_finish _ _ _ ⟨by decide, by decide⟩ ⟨by decide, by decide⟩ hs
    (Or.inr (Or.inl (by decide))) _ _ 8168 (by decide) (by decide)⟩

/-- An empty region adds nothing. -/
theorem computeRegionDelta_empty (cur target : Bytes) (delta : List UInt8) (n : Nat) :
    computeRegionDelta cur target delta n n n n = delta := by
  rw [computeRegionDelta, startRegion, if_neg (Nat.lt_irrefl n), Nat.min_self, regionLoop,
    if_neg (Nat.lt_irrefl n), finalFragment, if_neg (Nat.lt_irrefl n)]

/-- **Where the hole covers the fields themselves**, replay reads whatever the standby has there: the page is
    all hole, and a byte of the standby in it stays. -/
theorem redo_ne_finish :
    HeaderOk (emptyPage 0 BLCKSZ) ∧
      SameOutsideHole (emptyPage 0 BLCKSZ) (fun i => if i = 100 then 7 else 0) ∧
      redoPage (fun i => if i = 100 then 7 else 0)
          (computeDelta (emptyPage 0 BLCKSZ) (emptyPage 0 BLCKSZ)) (fun _ => 0) 100 ≠
        finishPage (emptyPage 0 BLCKSZ) (emptyPage 0 BLCKSZ) (fun _ => 0) 100 := by
  have h1 : pd_lower (emptyPage 0 BLCKSZ) = 0 := by decide
  have h2 : pd_upper (emptyPage 0 BLCKSZ) = BLCKSZ := by decide
  have hdelta : computeDelta (emptyPage 0 BLCKSZ) (emptyPage 0 BLCKSZ) = [] := by
    rw [computeDelta, h1, h2, computeRegionDelta_empty, computeRegionDelta_empty]
  refine ⟨⟨by decide, by decide⟩, ?_, ?_⟩
  · intro i hi ho
    rw [h1, h2] at ho
    omega
  · rw [hdelta, redoPage, applyPageRedo]
    · decide
    · exact fun _ _ _ _ _ h => nomatch h

end Pgvec.Storage.GenericXlog
