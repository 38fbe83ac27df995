/-
  File:      Pgvec/Vector/Binary.lean
  Subject:   THE BINARY FORM OF A VECTOR (`vector.c`): `vector_send` and `vector_recv`.

  A message is the list of the bytes from its cursor on. Floats are their 32 bits; `pq_sendint` and
  `pq_sendfloat4` write the bytes of a number, the highest first.

  * `Vector` -- the varlena without its length word, which follows from `dim`;
  * `vector_send`, `vector_recv` -- the two functions, with the checks in the order of the code;
  * `Vector.Ok` -- what `InitVector` and the checks leave;
  * **`vector_recv_iff`** -- a message is accepted exactly when it starts with what `vector_send` makes of a
    good vector of the expected dimension, and that is the vector returned.
-/
import Pgvec.Lib.Except
import Pgvec.Vector.Text

namespace Pgvec

/-- The bits of a `float`. -/
abbrev Float4 := BitVec 32

/-- **`Vector`**; `x` has as many elements as `dim` says. -/
structure Vector where
  dim : BitVec 16
  unused : BitVec 16
  x : List Float4
  length_eq : x.length = dim.toInt.toNat

namespace Vector

/-- The exponent is all ones and the fraction is not zero. -/
def isnan4 (f : Float4) : Bool := f.extractLsb' 23 8 == 255#8 && f.extractLsb' 0 23 != 0#23

/-- The exponent is all ones and the fraction is zero. -/
def isinf4 (f : Float4) : Bool := f.extractLsb' 23 8 == 255#8 && f.extractLsb' 0 23 == 0#23

/-- `CheckElement` on the bits of a float. -/
def CheckElement4 (value : Float4) : Except Report Unit :=
  CheckElement ⟨fun _ => [], fun _ => (0#32, 0, false), isnan4, isinf4⟩ value

/-! ## 1. Messages -/

abbrev Bytes := List (BitVec 8)

/-- `pq_sendint` of two bytes. -/
def pq_sendint16 (i : BitVec 16) : Bytes := [i.extractLsb' 8 8, i.extractLsb' 0 8]

/-- `pq_sendint` of four bytes. -/
def pq_sendint32 (i : BitVec 32) : Bytes :=
  [i.extractLsb' 24 8, i.extractLsb' 16 8, i.extractLsb' 8 8, i.extractLsb' 0 8]

def pq_sendfloat4 (f : Float4) : Bytes := pq_sendint32 f

def insufficientData : Report :=
  ⟨.ERRCODE_PROTOCOL_VIOLATION, "insufficient data left in message", none⟩

/-- `pq_getmsgint` of two bytes: the number, and the message behind it. -/
def pq_getmsgint16 : Bytes → Except Report (BitVec 16 × Bytes)
  | b1 :: b0 :: buf => .ok (b1 ++ b0, buf)
  | _ => .error insufficientData

/-- `pq_getmsgint` of four bytes. -/
def pq_getmsgint32 : Bytes → Except Report (BitVec 32 × Bytes)
  | b3 :: b2 :: b1 :: b0 :: buf => .ok (b3 ++ b2 ++ b1 ++ b0, buf)
  | _ => .error insufficientData

def pq_getmsgfloat4 (buf : Bytes) : Except Report (Float4 × Bytes) := pq_getmsgint32 buf

/-! ## 2. The two functions -/

/-- The elements, one after the other. -/
def sendElements : List Float4 → Bytes
  | [] => []
  | f :: x => pq_sendfloat4 f ++ sendElements x

/-- **`vector_send`.** -/
def vector_send (vec : Vector) : Bytes := pq_sendint16 vec.dim ++ pq_sendint16 vec.unused ++ sendElements vec.x

/-- The loop of `vector_recv`: `n` elements, each checked after it is stored. -/
def recvElements : (n : Nat) → Bytes → Except Report ({ x : List Float4 // x.length = n } × Bytes)
  | 0, buf => .ok (⟨[], rfl⟩, buf)
  | n + 1, buf => do
      let (f, buf) ← pq_getmsgfloat4 buf
      CheckElement4 f
      let (x, buf) ← recvElements n buf
      return (⟨f :: x.1, congrArg (· + 1) x.2⟩, buf)

def unusedNotZero (unused : BitVec 16) : Report :=
  ⟨.ERRCODE_DATA_EXCEPTION, "expected unused to be 0, not " ++ toString unused.toInt, none⟩

/-- **`vector_recv`**: the vector, and the message behind it. -/
def vector_recv (buf : Bytes) (typmod : Int) : Except Report (Vector × Bytes) := do
  let (dim, buf) ← pq_getmsgint16 buf
  let (unused, buf) ← pq_getmsgint16 buf
  CheckDim dim.toInt
  CheckExpectedDim typmod dim.toInt
  if unused.toInt ≠ 0 then .error (unusedNotZero unused)
  else
    let (x, buf) ← recvElements dim.toInt.toNat buf
    -- `InitVector` leaves zero in `unused`
    return (⟨dim, 0, x.1, x.2⟩, buf)

/-! ## 3. The round trip -/

/-- **A vector as `InitVector` and the checks leave it.** -/
structure Ok (vec : Vector) : Prop where
  dim : 1 ≤ vec.dim.toInt ∧ vec.dim.toInt ≤ VECTOR_MAX_DIM
  unused : vec.unused = 0
  finite : ∀ f ∈ vec.x, isnan4 f = false ∧ isinf4 f = false

theorem ext {v w : Vector} (hd : v.dim = w.dim) (hu : v.unused = w.unused) (hx : v.x = w.x) : v = w := by
  cases v
  cases w
  cases hd
  cases hu
  cases hx
  rfl

/-- **Two bytes are read as they were sent.** -/
theorem getmsgint16_iff {buf rest : Bytes} {i : BitVec 16} :
    pq_getmsgint16 buf = .ok (i, rest) ↔ buf = pq_sendint16 i ++ rest := by
  constructor
  · intro h
    match buf, h with
    | b1 :: b0 :: buf, h =>
        cases h
        have h1 : (b1 ++ b0).extractLsb' 8 8 = b1 := BitVec.extractLsb'_append_eq_left
        have h0 : (b1 ++ b0).extractLsb' 0 8 = b0 := BitVec.extractLsb'_append_eq_right
        show b1 :: b0 :: rest = (b1 ++ b0).extractLsb' 8 8 :: (b1 ++ b0).extractLsb' 0 8 :: rest
        rw [h1, h0]
  · rintro rfl
    show Except.ok (i.extractLsb' 8 8 ++ i.extractLsb' 0 8, rest) = .ok (i, rest)
    have h : i.extractLsb' 8 8 ++ i.extractLsb' 0 8 = i.extractLsb' 0 16 :=
      BitVec.extractLsb'_append_extractLsb'_eq_extractLsb' rfl
    rw [h]
    exact congrArg (fun j => Except.ok (j, rest)) BitVec.extractLsb'_eq_self

/-- **Four bytes are read as they were sent.** -/
theorem getmsgfloat4_iff {buf rest : Bytes} {f : Float4} :
    pq_getmsgfloat4 buf = .ok (f, rest) ↔ buf = pq_sendfloat4 f ++ rest := by
  constructor
  · intro h
    match buf, h with
    | b3 :: b2 :: b1 :: b0 :: buf, h =>
        cases h
        have h3 : (b3 ++ b2 ++ b1 ++ b0).extractLsb' 24 8 = b3 := by
          rw [BitVec.extractLsb'_append_eq_of_le (by decide), BitVec.extractLsb'_append_eq_of_le (by decide)]
          exact BitVec.extractLsb'_append_eq_left
        have h2 : (b3 ++ b2 ++ b1 ++ b0).extractLsb' 16 8 = b2 := by
          rw [BitVec.extractLsb'_append_eq_of_le (by decide), BitVec.extractLsb'_append_eq_of_le (by decide)]
          exact BitVec.extractLsb'_append_eq_right
        have h1 : (b3 ++ b2 ++ b1 ++ b0).extractLsb' 8 8 = b1 := by
          rw [BitVec.extractLsb'_append_eq_of_le (by decide)]
          exact BitVec.extractLsb'_append_eq_right
        have h0 : (b3 ++ b2 ++ b1 ++ b0).extractLsb' 0 8 = b0 := BitVec.extractLsb'_append_eq_right
        show b3 :: b2 :: b1 :: b0 :: rest = _ :: _ :: _ :: _ :: rest
        rw [h3, h2, h1, h0]
  · rintro rfl
    show Except.ok (f.extractLsb' 24 8 ++ f.extractLsb' 16 8 ++ f.extractLsb' 8 8 ++ f.extractLsb' 0 8, rest) =
      .ok (f, rest)
    have h2 : f.extractLsb' 24 8 ++ f.extractLsb' 16 8 = f.extractLsb' 16 16 :=
      BitVec.extractLsb'_append_extractLsb'_eq_extractLsb' rfl
    have h1 : f.extractLsb' 16 16 ++ f.extractLsb' 8 8 = f.extractLsb' 8 24 :=
      BitVec.extractLsb'_append_extractLsb'_eq_extractLsb' rfl
    have h0 : f.extractLsb' 8 24 ++ f.extractLsb' 0 8 = f.extractLsb' 0 32 :=
      BitVec.extractLsb'_append_extractLsb'_eq_extractLsb' rfl
    rw [h2, h1, h0]
    exact congrArg (fun g => Except.ok (g, rest)) BitVec.extractLsb'_eq_self

theorem checkElement4_iff {f : Float4} : CheckElement4 f = .ok () ↔ isnan4 f = false ∧ isinf4 f = false :=
  checkElement_eq_ok

/-- **The loop reads what `sendElements` wrote**, and finite floats only. -/
theorem recvElements_iff {n : Nat} : ∀ {buf rest : Bytes} {x : { x : List Float4 // x.length = n }},
    recvElements n buf = .ok (x, rest) ↔
      buf = sendElements x.1 ++ rest ∧ ∀ f ∈ x.1, isnan4 f = false ∧ isinf4 f = false := by
  induction n with
  | zero =>
      intro buf rest x
      obtain ⟨x, hx⟩ := x
      obtain rfl := List.length_eq_zero_iff.mp hx
      constructor
      · intro h
        cases h
        exact ⟨rfl, fun f hf => absurd hf List.not_mem_nil⟩
      · intro h
        rw [h.1]
        rfl
  | succ n ih =>
      intro buf rest x
      obtain ⟨x, hx⟩ := x
      obtain ⟨f, x, rfl⟩ := List.exists_cons_of_length_eq_add_one hx
      rw [recvElements, Except.bind_eq_ok]
      constructor
      · intro h
        obtain ⟨⟨g, buf'⟩, hget, h⟩ := h
        obtain ⟨u, hcheck, h⟩ := Except.bind_eq_ok.mp h
        obtain ⟨⟨y, rest'⟩, hrec, h⟩ := Except.bind_eq_ok.mp h
        cases h
        obtain ⟨hbuf, hfin⟩ := ih.mp hrec
        refine ⟨?_, fun g hg => ?_⟩
        · rw [getmsgfloat4_iff.mp hget, hbuf]
          exact (List.append_assoc _ _ _).symm
        · rcases List.mem_cons.mp hg with rfl | hg
          · exact checkElement4_iff.mp hcheck
          · exact hfin g hg
      · intro h
        obtain ⟨hbuf, hfin⟩ := h
        refine ⟨(f, sendElements x ++ rest), getmsgfloat4_iff.mpr ?_, Except.bind_eq_ok.mpr ⟨(),
          checkElement4_iff.mpr (hfin f List.mem_cons_self), Except.bind_eq_ok.mpr ⟨(⟨x, Nat.succ.inj hx⟩, rest),
            ih.mpr ⟨rfl, fun g hg => hfin g (List.mem_cons_of_mem f hg)⟩, rfl⟩⟩⟩
        rw [hbuf]
        exact List.append_assoc _ _ _

/-- **`vector_recv` accepts exactly the messages that start with what `vector_send` makes of a good vector** of
    the expected dimension, and returns that vector and what is behind it. -/
theorem vector_recv_iff (buf rest : Bytes) (typmod : Int) (v : Vector) :
    vector_recv buf typmod = .ok (v, rest) ↔
      buf = vector_send v ++ rest ∧ v.Ok ∧ (typmod = -1 ∨ typmod = v.dim.toInt) := by
  unfold vector_recv
  constructor
  · intro h
    obtain ⟨⟨dim, buf1⟩, hdim, h⟩ := Except.bind_eq_ok.mp h
    obtain ⟨⟨unused, buf2⟩, hunused, h⟩ := Except.bind_eq_ok.mp h
    obtain ⟨_, hcheck, h⟩ := Except.bind_eq_ok.mp h
    obtain ⟨_, hexp, h⟩ := Except.bind_eq_ok.mp h
    simp only at h
    split at h
    · cases h
    · rename_i hz
      obtain ⟨⟨x, buf3⟩, hx, h⟩ := Except.bind_eq_ok.mp h
      cases h
      obtain ⟨hbuf, hfin⟩ := recvElements_iff.mp hx
      have hzero : unused = 0 := BitVec.eq_of_toInt_eq (not_not.mp hz)
      refine ⟨?_, ⟨checkDim_eq_ok.mp hcheck, rfl, hfin⟩, checkExpectedDim_eq_ok.mp hexp⟩
      rw [getmsgint16_iff.mp hdim, getmsgint16_iff.mp hunused, hbuf, hzero]
      simp only [vector_send, List.append_assoc]
  · intro h
    obtain ⟨rfl, hok, ht⟩ := h
    refine Except.bind_eq_ok.mpr ⟨(v.dim, pq_sendint16 v.unused ++ (sendElements v.x ++ rest)),
      getmsgint16_iff.mpr ?_, Except.bind_eq_ok.mpr ⟨(v.unused, sendElements v.x ++ rest), getmsgint16_iff.mpr rfl,
        Except.bind_eq_ok.mpr ⟨(), checkDim_eq_ok.mpr hok.dim, Except.bind_eq_ok.mpr ⟨(), checkExpectedDim_eq_ok.mpr ht, ?_⟩⟩⟩⟩
    · simp only [vector_send, List.append_assoc]
    · simp only
      rw [if_neg (fun h => h (by rw [hok.unused]; rfl))]
      refine Except.bind_eq_ok.mpr ⟨(⟨v.x, v.length_eq⟩, rest), recvElements_iff.mpr ⟨rfl, hok.finite⟩, ?_⟩
      exact congrArg (fun w => Except.ok (w, rest)) (ext rfl hok.unused.symm rfl)

/-- One half and minus two, sent and read back. -/
example : vector_recv (vector_send ⟨2, 0, [0x3f000000, 0xc0000000], rfl⟩) 2 =
    .ok (⟨2, 0, [0x3f000000, 0xc0000000], rfl⟩, []) := rfl

end Vector

end Pgvec
