/-
  File:      Pgvec/Vector/Text.lean
  Subject:   THE TEXT OF A VECTOR (`vector.c`): `vector_in` and `vector_out`.

  A C string is the list of its characters; what is read at the end of the list is the terminator. The
  two conversions of one float are taken from outside (`FloatText`): `float_to_shortest_decimal_bufn` of
  the server's own library and `strtof` of the C library.

  * `vectorOut`, `vectorOutBuffer` -- what `vector_out` writes;
  * `vectorIn` -- the parser with its error paths; `elementsLoop` is its `for` loop;
  * `FloatText.Exact` -- what is known of the two conversions;
  * **`vectorIn_vectorOut`** -- the buffer is large enough and the text is read back.
-/
import Mathlib

namespace Pgvec.Vector

/-- `VECTOR_MAX_DIM`. -/
def VECTOR_MAX_DIM : Nat := 16000

/-- `FLOAT_SHORTEST_DECIMAL_LEN`. -/
def FLOAT_SHORTEST_DECIMAL_LEN : Nat := 16

/-- The conversions between a float and its text. `strtof` answers with the value, the number of
    characters it consumed and whether it set `errno` to `ERANGE`. -/
structure FloatText (F : Type) where
  float_to_shortest_decimal_bufn : F → List Char
  strtof : List Char → F × Nat × Bool
  isnan : F → Bool
  isinf : F → Bool

/-- The error codes used. -/
inductive ErrCode where
  | ERRCODE_DATA_EXCEPTION
  | ERRCODE_PROGRAM_LIMIT_EXCEEDED
  | ERRCODE_INVALID_TEXT_REPRESENTATION
  | ERRCODE_NUMERIC_VALUE_OUT_OF_RANGE
  | ERRCODE_PROTOCOL_VIOLATION
  deriving DecidableEq, Repr

/-- What `ereport(ERROR, …)` reports. -/
structure Report where
  errcode : ErrCode
  errmsg : String
  errdetail : Option String
  deriving DecidableEq, Repr

variable {F : Type}

/-! ## 1. The checks -/

/-- `CheckExpectedDim`. -/
def CheckExpectedDim (typmod dim : Int) : Except Report Unit :=
  if typmod ≠ -1 ∧ typmod ≠ dim then
    .error ⟨.ERRCODE_DATA_EXCEPTION,
      "expected " ++ toString typmod ++ " dimensions, not " ++ toString dim, none⟩
  else .ok ()

def tooFewDimensions : Report :=
  ⟨.ERRCODE_DATA_EXCEPTION, "vector must have at least 1 dimension", none⟩

def tooManyDimensions : Report :=
  ⟨.ERRCODE_PROGRAM_LIMIT_EXCEEDED,
    "vector cannot have more than " ++ toString VECTOR_MAX_DIM ++ " dimensions", none⟩

/-- `CheckDim`. -/
def CheckDim (dim : Int) : Except Report Unit :=
  if dim < 1 then .error tooFewDimensions
  else if (VECTOR_MAX_DIM : Int) < dim then .error tooManyDimensions
  else .ok ()

/-- `CheckElement`. -/
def CheckElement (io : FloatText F) (value : F) : Except Report Unit :=
  if io.isnan value then .error ⟨.ERRCODE_DATA_EXCEPTION, "NaN not allowed in vector", none⟩
  else if io.isinf value then
    .error ⟨.ERRCODE_DATA_EXCEPTION, "infinite value not allowed in vector", none⟩
  else .ok ()

/-- Neither NaN nor infinite. -/
def FloatText.Finite (io : FloatText F) (f : F) : Prop := io.isnan f = false ∧ io.isinf f = false

theorem checkDim_eq_ok {dim : Int} : CheckDim dim = .ok () ↔ 1 ≤ dim ∧ dim ≤ VECTOR_MAX_DIM := by
  unfold CheckDim
  split
  · refine ⟨fun h => (nomatch h), fun h => ?_⟩
    omega
  · split
    · refine ⟨fun h => (nomatch h), fun h => ?_⟩
      omega
    · exact ⟨fun _ => by omega, fun _ => rfl⟩

theorem checkExpectedDim_eq_ok {typmod dim : Int} :
    CheckExpectedDim typmod dim = .ok () ↔ typmod = -1 ∨ typmod = dim := by
  unfold CheckExpectedDim
  split
  · refine ⟨fun h => (nomatch h), fun h => ?_⟩
    omega
  · exact ⟨fun _ => by omega, fun _ => rfl⟩

theorem checkElement_eq_ok {io : FloatText F} {val : F} : CheckElement io val = .ok () ↔ io.Finite val := by
  unfold CheckElement FloatText.Finite
  cases io.isnan val <;> cases io.isinf val <;> simp

/-! ## 2. `vector_in` -/

/-- `vector_isspace`. -/
def vector_isspace (ch : Char) : Bool :=
  ch == ' ' || ch == '\t' || ch == '\n' || ch == '\r' || ch == '\x0b' || ch == '\x0c'

/-- `while (vector_isspace(*pt)) pt++`. -/
def skipSpace (pt : List Char) : List Char := pt.dropWhile vector_isspace

/-- `*pt`. -/
def current (pt : List Char) : Char := pt.headD '\x00'

def invalidSyntax (lit : List Char) (errdetail : Option String) : Report :=
  ⟨.ERRCODE_INVALID_TEXT_REPRESENTATION,
    "invalid input syntax for type vector: \"" ++ String.ofList lit ++ "\"", errdetail⟩

/-- The `for` loop of `vector_in`: `n` more elements fit, `x` are those read so far. -/
def elementsLoop (io : FloatText F) (lit : List Char) :
    Nat → List F → List Char → Except Report (List F × List Char)
  | 0, _, _ => .error tooManyDimensions
  | n + 1, x, pt =>
      let pt := skipSpace pt
      -- check for empty string like float4in
      if current pt = '\x00' then .error (invalidSyntax lit none)
      else
        let (val, consumed, erange) := io.strtof pt
        if consumed = 0 then .error (invalidSyntax lit none)
        -- check for range error like float4in
        else if erange ∧ io.isinf val then
          .error ⟨.ERRCODE_NUMERIC_VALUE_OUT_OF_RANGE,
            "\"" ++ String.ofList (pt.take consumed) ++ "\" is out of range for type vector", none⟩
        else do
          CheckElement io val
          let x := x ++ [val]
          let pt := skipSpace (pt.drop consumed)
          if current pt = ',' then elementsLoop io lit n x (pt.drop 1)
          else if current pt = ']' then return (x, pt.drop 1)
          else .error (invalidSyntax lit none)

/-- **`vector_in`.** -/
def vectorIn (io : FloatText F) (lit : List Char) (typmod : Int) : Except Report (List F) :=
  let pt := skipSpace lit
  if current pt ≠ '[' then
    .error (invalidSyntax lit (some "Vector contents must start with \"[\"."))
  else
    let pt := skipSpace (pt.drop 1)
    if current pt = ']' then .error tooFewDimensions
    else do
      let (x, pt) ← elementsLoop io lit VECTOR_MAX_DIM [] pt
      -- only whitespace is allowed after the closing brace
      let pt := skipSpace pt
      if current pt ≠ '\x00' then .error (invalidSyntax lit (some "Junk after closing right brace."))
      else
        CheckDim x.length
        CheckExpectedDim typmod x.length
        return x

/-! ## 3. `vector_out` -/

/-- The elements, separated by commas. -/
def outElements (io : FloatText F) : List F → List Char
  | [] => []
  | [f] => io.float_to_shortest_decimal_bufn f
  | f :: g :: v => io.float_to_shortest_decimal_bufn f ++ ',' :: outElements io (g :: v)

/-- **`vector_out`.** -/
def vectorOut (io : FloatText F) (v : List F) : List Char := '[' :: (outElements io v ++ [']'])

/-- The bytes `vector_out` writes, the terminator included. -/
def vectorOutBuffer (io : FloatText F) (v : List F) : List Char := vectorOut io v ++ ['\x00']

/-- The bytes `vector_out` allocates. -/
def vectorOutSize (dim : Nat) : Nat := FLOAT_SHORTEST_DECIMAL_LEN * dim + 2

/-! ## 4. The round trip -/

/-- **What is known of the two conversions**: a finite float is written in at most
    `FLOAT_SHORTEST_DECIMAL_LEN - 1` characters, none of which ends a number in the text of a vector, and
    `strtof` reads exactly these before a comma or a bracket, and gives the float back. -/
structure FloatText.Exact (io : FloatText F) : Prop where
  nonempty : ∀ f, io.Finite f → io.float_to_shortest_decimal_bufn f ≠ []
  length : ∀ f, io.Finite f →
    (io.float_to_shortest_decimal_bufn f).length ≤ FLOAT_SHORTEST_DECIMAL_LEN - 1
  plain : ∀ f, io.Finite f → ∀ c ∈ io.float_to_shortest_decimal_bufn f,
    c ≠ ',' ∧ c ≠ ']' ∧ vector_isspace c = false ∧ c ≠ '\x00'
  strtof : ∀ f, io.Finite f → ∀ c rest, c = ',' ∨ c = ']' →
    (io.strtof (io.float_to_shortest_decimal_bufn f ++ c :: rest)).1 = f ∧
      (io.strtof (io.float_to_shortest_decimal_bufn f ++ c :: rest)).2.1 =
        (io.float_to_shortest_decimal_bufn f).length

section RoundTrip

variable {io : FloatText F}

/-- What a number is followed by is not skipped. -/
theorem skipSpace_cons {c : Char} {rest : List Char} (h : vector_isspace c = false) :
    skipSpace (c :: rest) = c :: rest := by
  simp only [skipSpace, List.dropWhile_cons, h, Bool.false_eq_true, if_false]

/-- The text of a number starts with a character of its own. -/
theorem text_cons (h : io.Exact) {f : F} (hf : io.Finite f) : ∃ c cs,
    io.float_to_shortest_decimal_bufn f = c :: cs ∧ c ≠ ',' ∧ c ≠ ']' ∧ vector_isspace c = false ∧
      c ≠ '\x00' := by
  cases ht : io.float_to_shortest_decimal_bufn f with
  | nil => exact absurd ht (h.nonempty f hf)
  | cons c cs => exact ⟨c, cs, rfl, h.plain f hf c (by rw [ht]; exact List.mem_cons_self)⟩

/-- **One round of the loop**: a number and what ends it. -/
theorem elementsLoop_step (h : io.Exact) (lit : List Char) (n : Nat) (x : List F) {f : F}
    (hf : io.Finite f) {c : Char} (hc : c = ',' ∨ c = ']') (rest : List Char) :
    elementsLoop io lit (n + 1) x (io.float_to_shortest_decimal_bufn f ++ c :: rest) =
      if c = ',' then elementsLoop io lit n (x ++ [f]) rest else .ok (x ++ [f], rest) := by
  obtain ⟨h1, h2⟩ := h.strtof f hf c rest hc
  obtain ⟨d, ds, ht, _, _, hsp, h0⟩ := text_cons h hf
  have hskip : skipSpace (io.float_to_shortest_decimal_bufn f ++ c :: rest) =
      io.float_to_shortest_decimal_bufn f ++ c :: rest := by
    rw [ht]
    exact skipSpace_cons hsp
  have hcur : current (io.float_to_shortest_decimal_bufn f ++ c :: rest) ≠ '\x00' := by
    rw [ht]
    exact h0
  have hlen : (io.float_to_shortest_decimal_bufn f).length ≠ 0 := by
    rw [ht]
    exact Nat.succ_ne_zero _
  have hdrop : skipSpace ((io.float_to_shortest_decimal_bufn f ++ c :: rest).drop
      (io.float_to_shortest_decimal_bufn f).length) = c :: rest := by
    rw [List.drop_left]
    refine skipSpace_cons ?_
    rcases hc with rfl | rfl <;> rfl
  generalize hr : io.strtof (io.float_to_shortest_decimal_bufn f ++ c :: rest) = r at h1 h2
  obtain ⟨val, consumed, erange⟩ := r
  simp only at h1 h2
  subst h1 h2
  rw [elementsLoop]
  simp only [hskip, hcur, hr, hlen, hf.2, checkElement_eq_ok.mpr hf, hdrop, if_false, and_false,
    Bool.false_eq_true]
  rcases hc with rfl | rfl <;> rfl

/-- **The loop reads the elements back.** -/
theorem elementsLoop_outElements (h : io.Exact) (lit rest : List Char) :
    ∀ (v : List F) (n : Nat) (x : List F), v ≠ [] → (∀ f ∈ v, io.Finite f) → v.length ≤ n →
      elementsLoop io lit n x (outElements io v ++ ']' :: rest) = .ok (x ++ v, rest)
  | [], _, _, hne, _, _ => absurd rfl hne
  | _, 0, _, hne, _, hn => absurd (List.length_eq_zero_iff.mp (Nat.le_zero.mp hn)) hne
  | [f], n + 1, x, _, hfin, _ => by
      rw [outElements, elementsLoop_step h lit n x (hfin f List.mem_cons_self) (Or.inr rfl)]
      rfl
  | f :: g :: v, n + 1, x, _, hfin, hn => by
      rw [outElements, List.append_assoc, List.cons_append,
        elementsLoop_step h lit n x (hfin f List.mem_cons_self) (Or.inl rfl), if_pos rfl,
        elementsLoop_outElements h lit rest (g :: v) n (x ++ [f]) (List.cons_ne_nil g v)
          (fun y hy => hfin y (List.mem_cons_of_mem _ hy)) (Nat.le_of_succ_le_succ hn),
        List.append_assoc]
      rfl

/-- The text of the elements starts with a character of a number. -/
theorem outElements_cons (h : io.Exact) : ∀ {v : List F}, v ≠ [] → (∀ f ∈ v, io.Finite f) →
    ∃ c cs, outElements io v = c :: cs ∧ c ≠ ']' ∧ vector_isspace c = false
  | [], hne, _ => absurd rfl hne
  | [f], _, hfin => by
      obtain ⟨c, cs, ht, _, h2, h3, _⟩ := text_cons h (hfin f List.mem_cons_self)
      exact ⟨c, cs, ht, h2, h3⟩
  | f :: g :: v, _, hfin => by
      obtain ⟨c, cs, ht, _, h2, h3, _⟩ := text_cons h (hfin f List.mem_cons_self)
      exact ⟨c, cs ++ ',' :: outElements io (g :: v), by rw [outElements, ht]; rfl, h2, h3⟩

/-- Every element takes its text and one character more, but for the last one. -/
theorem length_outElements (h : io.Exact) : ∀ {v : List F}, v ≠ [] → (∀ f ∈ v, io.Finite f) →
    (outElements io v).length + 1 ≤ FLOAT_SHORTEST_DECIMAL_LEN * v.length
  | [], hne, _ => absurd rfl hne
  | [f], _, hfin => by
      have := h.length f (hfin f List.mem_cons_self)
      simp only [outElements, FLOAT_SHORTEST_DECIMAL_LEN, List.length_singleton] at this ⊢
      omega
  | f :: g :: v, _, hfin => by
      have h1 := h.length f (hfin f List.mem_cons_self)
      have h2 := length_outElements h (List.cons_ne_nil g v)
        fun y hy => hfin y (List.mem_cons_of_mem _ hy)
      simp only [outElements, List.length_append, List.length_cons, FLOAT_SHORTEST_DECIMAL_LEN]
        at h1 h2 ⊢
      omega

/-- **What `vector_out` writes fits into its buffer and is read back by `vector_in`.** -/
theorem vectorIn_vectorOut (h : io.Exact) {v : List F} (hmin : 1 ≤ v.length)
    (hmax : v.length ≤ VECTOR_MAX_DIM) (hfin : ∀ f ∈ v, io.Finite f) {typmod : Int}
    (ht : typmod = -1 ∨ typmod = v.length) :
    (vectorOutBuffer io v).length ≤ vectorOutSize v.length ∧
      vectorIn io (vectorOut io v) typmod = .ok v := by
  have hne : v ≠ [] := by
    rintro rfl
    exact Nat.not_succ_le_zero 0 hmin
  constructor
  · have := length_outElements h hne hfin
    simp only [vectorOutBuffer, vectorOut, vectorOutSize, List.length_append, List.length_cons,
      List.length_nil]
    omega
  · obtain ⟨c, cs, hcs, hc, hsp⟩ := outElements_cons h hne hfin
    have hskip : skipSpace (outElements io v ++ [']']) = outElements io v ++ [']'] := by
      rw [hcs]
      exact skipSpace_cons hsp
    have hcur : current (outElements io v ++ [']']) ≠ ']' := by
      rw [hcs]
      exact hc
    have hloop := elementsLoop_outElements h (vectorOut io v) [] v VECTOR_MAX_DIM [] hne hfin hmax
    have hdim : CheckDim v.length = .ok () := checkDim_eq_ok.mpr ⟨by omega, by omega⟩
    have hexp : CheckExpectedDim typmod v.length = .ok () := checkExpectedDim_eq_ok.mpr ht
    have hstart : skipSpace (vectorOut io v) = vectorOut io v := skipSpace_cons rfl
    have hhead : current (vectorOut io v) = '[' := rfl
    have htail : (vectorOut io v).drop 1 = outElements io v ++ [']'] := rfl
    unfold vectorIn
    simp only [hstart, hhead, htail, hskip, hcur, ne_eq, not_true_eq_false, if_false]
    rw [hloop]
    show (do
      CheckDim v.length
      CheckExpectedDim typmod v.length
      return v : Except Report (List F)) = .ok v
    rw [hdim, hexp]
    rfl

end RoundTrip

/-- The number a character stands for. -/
def digitValue (c : Char) : Nat := c.toNat - '0'.toNat

/-- Floats that are one decimal digit: `strtof` takes the digits in front. -/
def digitText : FloatText (Fin 10) where
  float_to_shortest_decimal_bufn f := [Char.ofNat ('0'.toNat + f)]
  strtof s :=
    let digits := s.takeWhile Char.isDigit
    (Fin.ofNat 10 (digits.foldl (fun n c => 10 * n + digitValue c) 0), digits.length, false)
  isnan _ := false
  isinf _ := false

theorem digitText_exact : digitText.Exact where
  nonempty _ _ := List.cons_ne_nil _ _
  length _ _ := Nat.succ_le_succ (Nat.zero_le 14)
  plain f _ c hc := by
    have hdigit : ∀ f : Fin 10, Char.ofNat ('0'.toNat + f) ≠ ',' ∧ Char.ofNat ('0'.toNat + f) ≠ ']' ∧
        vector_isspace (Char.ofNat ('0'.toNat + f)) = false ∧
        Char.ofNat ('0'.toNat + f) ≠ '\x00' := by decide
    rw [List.mem_singleton.mp hc]
    exact hdigit f
  strtof f _ c rest hc := by
    have hdigit : ∀ f : Fin 10, (Char.ofNat ('0'.toNat + f)).isDigit = true ∧
        Fin.ofNat 10 (10 * 0 + digitValue (Char.ofNat ('0'.toNat + f))) = f := by decide
    have hend : c.isDigit = false := by rcases hc with rfl | rfl <;> rfl
    have htake : List.takeWhile Char.isDigit ([Char.ofNat ('0'.toNat + f)] ++ c :: rest) =
        [Char.ofNat ('0'.toNat + f)] := by
      simp only [List.cons_append, List.nil_append, List.takeWhile_cons, (hdigit f).1, hend, if_true,
        Bool.false_eq_true, if_false]
    simp only [digitText, htake]
    exact ⟨(hdigit f).2, trivial⟩

/-- The vector of 3, 1 and 4. -/
theorem vectorIn_vectorOut_digits :
    (vectorOutBuffer digitText [3, 1, 4]).length ≤ vectorOutSize [(3 : Fin 10), 1, 4].length ∧
      vectorIn digitText (vectorOut digitText [3, 1, 4]) 3 = .ok [3, 1, 4] :=
  vectorIn_vectorOut digitText_exact (by decide) (by decide) (fun _ _ => ⟨rfl, rfl⟩) (Or.inr rfl)

end Pgvec.Vector
