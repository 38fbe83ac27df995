/-
  File:      Pgvec/Storage/XlogCalls.lean
  Subject:   THE CALLS OF `writeFragment` (`src/backend/access/transam/generic_xlog.c`): what every one of them
             is given, and that the delta always has room for it.

  `GenericXlog.lean` has the delta that the calls leave behind. Here the calls themselves are listed, with the
  control flow of the functions that make them.

  * `Made` -- the calls are those that make the delta, each with the `deltaLen` it finds;
  * `regionCalls_made`, `regionCalls_ok` -- the calls of one region;
  * **`delta_calls_fit`**.
-/
import Pgvec.Storage.GenericXlog

namespace Pgvec.Storage.GenericXlog

/-! ## 1. The calls -/

/-- A call of `writeFragment`: `deltaLen`, and the fragment from `fragmentBegin` to `fragmentEnd`. -/
structure Call where
  deltaLen : Nat
  fragmentBegin : Nat
  fragmentEnd : Nat

section Calls

variable (cur target : Bytes)

/-- What the call does. -/
def Call.write (delta : List UInt8) (c : Call) : List UInt8 :=
  writeFragment delta c.fragmentBegin (c.fragmentEnd - c.fragmentBegin)
    (slice target c.fragmentBegin (c.fragmentEnd - c.fragmentBegin))

/-- The call of `matchedRun`, if it makes one. -/
def matchedCalls (loopEnd : Nat) (st : Region) : List Call :=
  match st.fragmentBegin with
  | some fragmentBegin =>
      if MATCH_THRESHOLD < extend (fun j => cur j == target j) loopEnd (st.i + 1) - st.i then
        [⟨st.delta.length, fragmentBegin, st.i⟩]
      else []
  | none => []

/-- The calls of the `while` loop of `computeRegionDelta`. -/
def loopCalls (loopEnd : Nat) (st : Region) : List Call :=
  if st.i < loopEnd then
    if cur st.i = target st.i then
      matchedCalls cur target loopEnd st ++ loopCalls loopEnd (matchedRun cur target loopEnd st)
    else
      let st' := unmatchedRun cur target loopEnd st
      if loopEnd ≤ st'.i then []
      else matchedCalls cur target loopEnd st' ++ loopCalls loopEnd (matchedRun cur target loopEnd st')
  else []
termination_by loopEnd - st.i
decreasing_by
  · have := lt_matchedRun cur target loopEnd st
    omega
  · have h1 := lt_unmatchedRun cur target loopEnd st
    have h2 := lt_matchedRun cur target loopEnd (unmatchedRun cur target loopEnd st)
    omega

/-- The call after the loop, if there is one. -/
def finalCalls (loopEnd targetEnd : Nat) (st : Region) : List Call :=
  let fragmentBegin :=
    if loopEnd < targetEnd then some (st.fragmentBegin.getD loopEnd) else st.fragmentBegin
  let fragmentEnd := if loopEnd < targetEnd then some targetEnd else st.fragmentEnd
  match fragmentBegin with
  | some fragmentBegin => [⟨st.delta.length, fragmentBegin, fragmentEnd.getD targetEnd⟩]
  | none => []

/-- The calls of `computeRegionDelta`. -/
def regionCalls (delta : List UInt8) (targetStart targetEnd validStart validEnd : Nat) : List Call :=
  let loopEnd := min targetEnd validEnd
  let st := startRegion delta targetStart validStart
  loopCalls cur target loopEnd st ++ finalCalls loopEnd targetEnd (regionLoop cur target loopEnd st)

/-- The calls of `computeDelta`. -/
def deltaCalls : List Call :=
  regionCalls cur target [] 0 (pd_lower target) 0 (pd_lower cur) ++
    regionCalls cur target (computeRegionDelta cur target [] 0 (pd_lower target) 0 (pd_lower cur))
      (pd_upper target) BLCKSZ (pd_upper cur) BLCKSZ

end Calls

/-! ## 2. They make the delta -/

variable {cur target : Bytes}

/-- **These calls**, one after the other, make the one delta from the other. -/
inductive Made (target : Bytes) : List UInt8 → List Call → List UInt8 → Prop
  | nil (delta : List UInt8) : Made target delta [] delta
  | cons {delta delta' : List UInt8} {c : Call} {cs : List Call} (hlen : c.deltaLen = delta.length)
      (h : Made target (c.write target delta) cs delta') : Made target delta (c :: cs) delta'

theorem Made.append {d₁ d₂ d₃ : List UInt8} {cs cs' : List Call} (h : Made target d₁ cs d₂)
    (h' : Made target d₂ cs' d₃) : Made target d₁ (cs ++ cs') d₃ := by
  induction h with
  | nil delta => exact h'
  | cons hlen _ ih => exact .cons hlen (ih h')

theorem Made.one (delta : List UInt8) (b e : Nat) :
    Made target delta [⟨delta.length, b, e⟩] (writeFragment delta b (e - b) (slice target b (e - b))) :=
  .cons rfl (.nil _)

theorem matchedCalls_made (loopEnd : Nat) (st : Region) :
    Made target st.delta (matchedCalls cur target loopEnd st) (matchedRun cur target loopEnd st).delta := by
  unfold matchedCalls matchedRun
  cases st.fragmentBegin with
  | none => exact .nil _
  | some b =>
      dsimp only
      split
      · exact Made.one st.delta b st.i
      · exact .nil _

theorem loopCalls_made (loopEnd : Nat) (st : Region) :
    Made target st.delta (loopCalls cur target loopEnd st) (regionLoop cur target loopEnd st).delta := by
  fun_induction loopCalls cur target loopEnd st with
  | case1 st hi hm ih =>
      rw [regionLoop, if_pos hi, if_pos hm]
      exact (matchedCalls_made loopEnd st).append ih
  | case2 st hi hm st' hend =>
      rw [regionLoop, if_pos hi, if_neg hm, if_pos hend]
      exact .nil _
  | case3 st hi hm st' hend ih =>
      rw [regionLoop, if_pos hi, if_neg hm, if_neg hend]
      exact (matchedCalls_made loopEnd st').append ih
  | case4 st hi =>
      rw [regionLoop, if_neg hi]
      exact .nil _

theorem finalCalls_made (loopEnd targetEnd : Nat) (st : Region) :
    Made target st.delta (finalCalls loopEnd targetEnd st) (finalFragment target loopEnd targetEnd st) := by
  unfold finalCalls finalFragment
  dsimp only
  cases (if loopEnd < targetEnd then some (st.fragmentBegin.getD loopEnd) else st.fragmentBegin) with
  | none => exact .nil _
  | some b => exact Made.one st.delta b _

theorem regionCalls_made (delta : List UInt8) (targetStart targetEnd validStart validEnd : Nat) :
    Made target delta (regionCalls cur target delta targetStart targetEnd validStart validEnd)
      (computeRegionDelta cur target delta targetStart targetEnd validStart validEnd) := by
  have hstart : (startRegion delta targetStart validStart).delta = delta := by
    unfold startRegion
    split <;> rfl
  have hloop : Made target (startRegion delta targetStart validStart).delta
      (loopCalls cur target (min targetEnd validEnd) (startRegion delta targetStart validStart)) _ :=
    loopCalls_made _ _
  rw [hstart] at hloop
  exact hloop.append (finalCalls_made _ _ _)

/-! ## 3. They fit -/

/-- A call inside a region that started with `base` bytes in the delta. -/
structure Call.Within (base start targetEnd : Nat) (c : Call) : Prop where
  ordered : c.fragmentBegin ≤ c.fragmentEnd
  inside : c.fragmentEnd ≤ targetEnd
  room : c.deltaLen + start + (c.fragmentEnd - c.fragmentBegin) ≤ base + targetEnd

section Within

variable {delta : List UInt8} {start validStart loopEnd targetEnd : Nat} {frs : List Fragment} {st : Region}

/-- What is in the delta, by the loop invariant. -/
theorem Region.Ok.length (h : st.Ok cur target delta start validStart loopEnd frs) :
    st.delta.length + start ≤ delta.length + st.settled := by
  have hr := h.room_le
  rw [h.delta_eq, List.length_append, length_encode]
  omega

theorem Region.Ok.matchedCalls (h : st.Ok cur target delta start validStart loopEnd frs) (hend : loopEnd ≤ targetEnd) :
    ∀ c ∈ matchedCalls cur target loopEnd st, c.Within delta.length start targetEnd := by
  intro c hc
  have hlen := h.length
  have hle := h.settled_le
  have hi := h.le_loopEnd
  unfold GenericXlog.matchedCalls at hc
  cases hb : st.fragmentBegin with
  | none =>
      rw [hb] at hc
      exact absurd hc List.not_mem_nil
  | some b =>
      rw [hb] at hc
      have hset : st.settled = b := by rw [Region.settled, hb]; rfl
      rw [hset] at hlen hle
      dsimp only at hc
      split at hc
      · rw [List.mem_singleton.mp hc]
        exact ⟨hle, Nat.le_trans hi hend, show st.delta.length + start + (st.i - b) ≤ _ by omega⟩
      · exact absurd hc List.not_mem_nil

theorem Region.Ok.loopCalls (h : st.Ok cur target delta start validStart loopEnd frs) (hend : loopEnd ≤ targetEnd) :
    ∀ c ∈ loopCalls cur target loopEnd st, c.Within delta.length start targetEnd := by
  fun_induction GenericXlog.loopCalls cur target loopEnd st generalizing frs with
  | case1 st hi hm ih =>
      obtain ⟨frs', h'⟩ := h.matching hi hm
      exact List.forall_mem_append.mpr ⟨h.matchedCalls hend, ih h'⟩
  | case2 st hi hm hstop => exact fun c hc => absurd hc List.not_mem_nil
  | case3 st hi hm st' hstop =>
      rename_i ih
      have hu := h.unmatched hi
      have hlt : (unmatchedRun cur target loopEnd st).i < loopEnd := Nat.lt_of_not_le hstop
      have hmatch := extend_stops (p := fun j => cur j != target j) hlt
      simp only [bne_eq_false_iff_eq] at hmatch
      obtain ⟨frs', h'⟩ := hu.matching hlt hmatch
      exact List.forall_mem_append.mpr ⟨hu.matchedCalls hend, ih h'⟩
  | case4 st hi => exact fun c hc => absurd hc List.not_mem_nil

/-- The last call: up to `targetEnd`, or up to where the bytes match to the end. -/
theorem Region.Ok.finalCalls (h : st.Ok cur target delta start validStart loopEnd frs) (hi : st.i = loopEnd)
    (hend : loopEnd ≤ targetEnd) :
    ∀ c ∈ finalCalls loopEnd targetEnd st, c.Within delta.length start targetEnd := by
  intro c hc
  have hlen := h.length
  have hle := h.settled_le
  unfold GenericXlog.finalCalls at hc
  by_cases hlt : loopEnd < targetEnd
  · rw [if_pos hlt, if_pos hlt] at hc
    have hset : st.fragmentBegin.getD loopEnd = st.settled := by rw [Region.settled, hi]
    rw [List.mem_singleton.mp hc, hset]
    exact ⟨show st.settled ≤ targetEnd by omega, Nat.le_refl _,
      show st.delta.length + start + (targetEnd - st.settled) ≤ _ by omega⟩
  · rw [if_neg hlt, if_neg hlt] at hc
    cases hb : st.fragmentBegin with
    | none =>
        rw [hb] at hc
        exact absurd hc List.not_mem_nil
    | some b =>
        rw [hb] at hc
        have hset : st.settled = b := by rw [Region.settled, hb]; rfl
        rw [hset] at hlen hle
        rw [List.mem_singleton.mp hc]
        cases he : st.fragmentEnd with
        | none =>
            exact ⟨show b ≤ targetEnd by omega, Nat.le_refl _,
              show st.delta.length + start + (targetEnd - b) ≤ _ by omega⟩
        | some e =>
            obtain ⟨hbe, hei, -⟩ := h.matched e he (by rw [hb]; exact Option.some_ne_none b)
            rw [hset] at hbe
            exact ⟨hbe, show e ≤ targetEnd by omega, show st.delta.length + start + (e - b) ≤ _ by omega⟩

end Within

/-- **The calls of one region.** -/
theorem regionCalls_ok (cur target : Bytes) (delta : List UInt8) {targetStart targetEnd validStart validEnd : Nat}
    (h1 : targetStart ≤ targetEnd) (h2 : targetStart ≤ validEnd) (h3 : validStart ≤ targetEnd)
    (h4 : validStart ≤ validEnd) :
    ∀ c ∈ regionCalls cur target delta targetStart targetEnd validStart validEnd,
      c.Within delta.length targetStart targetEnd := by
  have hstart := startRegion_ok cur target delta (Nat.le_min.mpr ⟨h1, h2⟩) (Nat.le_min.mpr ⟨h3, h4⟩)
  obtain ⟨frs, hok, hi⟩ := hstart.loop
  have hend : min targetEnd validEnd ≤ targetEnd := Nat.min_le_left _ _
  exact List.forall_mem_append.mpr ⟨hstart.loopCalls hend, hok.finalCalls hi hend⟩

/-- A call that the buffer has room for. -/
structure Call.Fits (c : Call) : Prop where
  ordered : c.fragmentBegin ≤ c.fragmentEnd
  inside : c.fragmentEnd ≤ BLCKSZ
  room : c.deltaLen + FRAGMENT_HEADER_SIZE + (c.fragmentEnd - c.fragmentBegin) ≤ MAX_DELTA_SIZE

/-- **Every call of `writeFragment`** that `computeDelta` makes has a fragment inside the page, of no negative
    length, and the delta has room for it. -/
theorem delta_calls_fit (cur target : Bytes) (hc : HeaderOk cur) (ht : HeaderOk target) :
    Made target [] (deltaCalls cur target) (computeDelta cur target) ∧ ∀ c ∈ deltaCalls cur target, c.Fits := by
  have hlower := Nat.le_trans ht.1 ht.2
  have hheader : FRAGMENT_HEADER_SIZE = 4 := rfl
  have hmax : MAX_DELTA_SIZE = BLCKSZ + 2 * FRAGMENT_HEADER_SIZE := rfl
  refine ⟨(regionCalls_made _ _ _ _ _).append (regionCalls_made _ _ _ _ _), ?_⟩
  refine List.forall_mem_append.mpr ⟨fun c hmem => ?_, fun c hmem => ?_⟩
  · have h := regionCalls_ok cur target [] (Nat.zero_le _) (Nat.zero_le _) (Nat.zero_le _) (Nat.zero_le _) c hmem
    have hroom := h.room
    rw [List.length_nil] at hroom
    exact ⟨h.ordered, Nat.le_trans h.inside hlower, by omega⟩
  · -- the first region leaves at most its bytes and one header in the delta
    obtain ⟨frs, hdelta, hfrs⟩ := computeRegionDelta_spec cur target [] (Nat.zero_le (pd_lower target))
      (Nat.zero_le (pd_lower cur)) (Nat.zero_le _) (Nat.zero_le _)
    have hfirst := hfrs.room_le
    have h := regionCalls_ok cur target _ ht.2 ht.2 hc.2 hc.2 c hmem
    have hroom := h.room
    rw [hdelta, List.nil_append, length_encode] at hroom
    have hupper := ht.1
    exact ⟨h.ordered, h.inside, by omega⟩

/-- Two pages with nothing on them. -/
theorem delta_calls_fit_empty :
    Made (emptyPage 24 8176) [] (deltaCalls (emptyPage 24 8192) (emptyPage 24 8176))
      (computeDelta (emptyPage 24 8192) (emptyPage 24 8176)) ∧
    ∀ c ∈ deltaCalls (emptyPage 24 8192) (emptyPage 24 8176), c.Fits :=
  delta_calls_fit _ _ ⟨by decide, by decide⟩ ⟨by decide, by decide⟩

end Pgvec.Storage.GenericXlog
