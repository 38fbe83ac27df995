/-
  File:      Pgvec/Vector/Grammar.lean
  Subject:   WHICH TEXTS `vector_in` ACCEPTS.

  The grammar is stated on its own: white space, a bracket, numbers with commas between them, a bracket,
  white space. What a number is comes from outside (`FloatText.Scans`): `strtof` takes the longest prefix
  that is the text of a number.

  * `Elements`, `VectorText` -- the grammar, with the components a text stands for;
  * `vector_in_memory` -- the function with its array `x` and its counter `dim`; a write past the array is
    `none`; **`vector_in_memory_eq`** -- there is none, and the result is that of `vectorIn`;
  * `elementsLoop_sound`, `elementsLoop_complete` -- the loop against the grammar;
  * **`vector_in_iff`** -- acceptance is the grammar and the expected dimension.
-/
import Mathlib.Data.List.TakeWhile
import Pgvec.Vector.Text

namespace Pgvec.Vector

variable {F : Type}

/-! ## 1. The grammar -/

/-- White space and nothing else. -/
def Spaces (s : List Char) : Prop := ∀ c ∈ s, vector_isspace c = true

/-- **`strtof` is a longest-prefix scanner** for the texts of `number`. No such text is empty or holds white
    space, a comma, a closing bracket or the terminator. -/
structure FloatText.Scans (io : FloatText F) (number : List Char → Option F) : Prop where
  nonempty : ∀ t f, number t = some f → t ≠ []
  plain : ∀ t f, number t = some f → ∀ c ∈ t, vector_isspace c = false ∧ c ≠ ',' ∧ c ≠ ']' ∧ c ≠ '\x00'
  /-- What is consumed is a number, the longest one. -/
  consumed : ∀ s, vector_isspace (current s) = false → (io.strtof s).2.1 ≠ 0 →
    (io.strtof s).2.1 ≤ s.length ∧ number (s.take (io.strtof s).2.1) = some (io.strtof s).1
  longest : ∀ s t f, vector_isspace (current s) = false → number t = some f → t <+: s →
    t.length ≤ (io.strtof s).2.1

/-- **The text of the components**, separated by single commas. -/
inductive Elements (io : FloatText F) (number : List Char → Option F) : List F → List Char → Prop where
  | last {pre t post : List Char} {f : F} : Spaces pre → number t = some f → io.Finite f → Spaces post →
      Elements io number [f] (pre ++ t ++ post)
  | more {pre t post rest : List Char} {f : F} {v : List F} : Spaces pre → number t = some f → io.Finite f →
      Spaces post → Elements io number v rest → Elements io number (f :: v) (pre ++ t ++ post ++ ',' :: rest)

/-- **The text of a vector.** -/
def VectorText (io : FloatText F) (number : List Char → Option F) (v : List F) (lit : List Char) : Prop :=
  ∃ pre body post, Spaces pre ∧ Elements io number v body ∧ Spaces post ∧
    lit = pre ++ '[' :: (body ++ ']' :: post)

/-! ## 2. One round of the loop -/

/-- The round of the loop up to `x[dim++] = val`, and the white space after the number. -/
def readElement (io : FloatText F) (lit pt : List Char) : Except Report (F × List Char) :=
  let pt := skipSpace pt
  if current pt = '\x00' then .error (invalidSyntax lit none)
  else
    let r := io.strtof pt
    if r.2.1 = 0 then .error (invalidSyntax lit none)
    else if r.2.2 ∧ io.isinf r.1 then
      .error ⟨.ERRCODE_NUMERIC_VALUE_OUT_OF_RANGE,
        "\"" ++ String.ofList (pt.take r.2.1) ++ "\" is out of range for type vector", none⟩
    else
      match CheckElement io r.1 with
      | .error e => .error e
      | .ok _ => .ok (r.1, skipSpace (pt.drop r.2.1))

variable {io : FloatText F} {lit : List Char}

theorem elementsLoop_succ (n : Nat) (x : List F) (pt : List Char) :
    elementsLoop io lit (n + 1) x pt =
      match readElement io lit pt with
      | .error e => .error e
      | .ok (val, pt) =>
          if current pt = ',' then elementsLoop io lit n (x ++ [val]) (pt.drop 1)
          else if current pt = ']' then .ok (x ++ [val], pt.drop 1)
          else .error (invalidSyntax lit none) := by
  rw [elementsLoop, readElement]
  generalize io.strtof (skipSpace pt) = r
  obtain ⟨val, consumed, erange⟩ := r
  simp only
  split
  · rfl
  · split
    · rfl
    · split
      · rfl
      · cases CheckElement io val with
        | error e => rfl
        | ok u => rfl

theorem skipSpace_length (pt : List Char) : (skipSpace pt).length ≤ pt.length :=
  (List.dropWhile_sublist _).length_le

/-- **A round reads a number** when the scanner consumes something and the value is finite. -/
theorem readElement_eq_ok {pt rest : List Char} {val : F} : readElement io lit pt = .ok (val, rest) ↔
    current (skipSpace pt) ≠ '\x00' ∧ (io.strtof (skipSpace pt)).1 = val ∧
      (io.strtof (skipSpace pt)).2.1 ≠ 0 ∧ io.Finite val ∧
      skipSpace ((skipSpace pt).drop (io.strtof (skipSpace pt)).2.1) = rest := by
  unfold readElement
  simp only
  generalize io.strtof (skipSpace pt) = r
  obtain ⟨val', consumed, erange⟩ := r
  simp only
  split
  · rename_i hcur
    exact ⟨fun h => (nomatch h), fun h => absurd hcur h.1⟩
  · rename_i hcur
    split
    · rename_i hz
      exact ⟨fun h => (nomatch h), fun h => absurd hz h.2.2.1⟩
    · rename_i hz
      split
      · rename_i hrange
        refine ⟨fun h => (nomatch h), fun h => ?_⟩
        have hinf := h.2.2.2.1.2
        rw [← h.2.1, hrange.2] at hinf
        cases hinf
      · cases hc : CheckElement io val' with
        | error e =>
            refine ⟨fun h => (nomatch h), fun h => ?_⟩
            have hfin := checkElement_eq_ok.mpr h.2.2.2.1
            rw [← h.2.1, hc] at hfin
            cases hfin
        | ok u =>
            have hfin := checkElement_eq_ok.mp hc
            constructor
            · intro h
              cases h
              exact ⟨hcur, rfl, hz, hfin, rfl⟩
            · intro h
              rw [h.2.1, h.2.2.2.2]

/-- A round that reads a number consumes at least one character. -/
theorem readElement_length {pt rest : List Char} {val : F} (h : readElement io lit pt = .ok (val, rest)) :
    rest.length < pt.length := by
  obtain ⟨hcur, _, hpos, _, hrest⟩ := readElement_eq_ok.mp h
  have hne : skipSpace pt ≠ [] := by
    intro e
    exact hcur (by rw [e]; rfl)
  have h1 := skipSpace_length ((skipSpace pt).drop (io.strtof (skipSpace pt)).2.1)
  have h2 := skipSpace_length pt
  have h3 := List.length_pos_iff.mpr hne
  rw [hrest, List.length_drop] at h1
  omega

/-! ## 3. The array -/

/-- `x[dim++] = val`; `none` past the end of the array. -/
def storeElement (x : List F) (dim : Nat) (val : F) : Option (List F) :=
  if dim < x.length then some (x.set dim val) else none

/-- The `for` loop of `vector_in` on the array `x` and the counter `dim`. -/
def elementsLoopMemory (io : FloatText F) (lit : List Char) (x : List F) (dim : Nat) (pt : List Char) :
    Option (Except Report (List F × Nat × List Char)) :=
  if dim = VECTOR_MAX_DIM then some (.error tooManyDimensions)
  else
    match _h : readElement io lit pt with
    | .error e => some (.error e)
    | .ok (val, rest) =>
        match storeElement x dim val with
        | none => none
        | some x =>
            if current rest = ',' then elementsLoopMemory io lit x (dim + 1) (rest.drop 1)
            else if current rest = ']' then some (.ok (x, dim + 1, rest.drop 1))
            else some (.error (invalidSyntax lit none))
termination_by pt.length
decreasing_by
  rw [List.length_drop]
  have := readElement_length _h
  omega

/-- **`vector_in` on its array**; `x` is what the array holds before. -/
def vector_in_memory (io : FloatText F) (lit : List Char) (typmod : Int) (x : List F) :
    Option (Except Report (List F)) :=
  let pt := skipSpace lit
  if current pt ≠ '[' then
    some (.error (invalidSyntax lit (some "Vector contents must start with \"[\".")))
  else
    let pt := skipSpace (pt.drop 1)
    if current pt = ']' then some (.error tooFewDimensions)
    else
      match elementsLoopMemory io lit x 0 pt with
      | none => none
      | some (.error e) => some (.error e)
      | some (.ok (x, dim, pt)) => some do
          let pt := skipSpace pt
          if current pt ≠ '\x00' then .error (invalidSyntax lit (some "Junk after closing right brace."))
          else
            CheckDim dim
            CheckExpectedDim typmod dim
            return x.take dim

/-- **The array holds what was read**: its first entries are the components so far. -/
theorem elementsLoopMemory_eq (io : FloatText F) (lit : List Char) (n : Nat) :
    ∀ (x : List F) (dim : Nat) (pt : List Char), x.length = VECTOR_MAX_DIM → dim + n = VECTOR_MAX_DIM →
      match elementsLoop io lit n (x.take dim) pt with
      | .error e => elementsLoopMemory io lit x dim pt = some (.error e)
      | .ok (v, rest) =>
          ∃ x', elementsLoopMemory io lit x dim pt = some (.ok (x', v.length, rest)) ∧ x'.take v.length = v := by
  induction n with
  | zero =>
      intro x dim pt _ hdim
      rw [elementsLoopMemory, elementsLoop, if_pos (by omega)]
  | succ n ih =>
      intro x dim pt hx hdim
      rw [elementsLoopMemory, elementsLoop_succ, if_neg (by omega)]
      cases h : readElement io lit pt with
      | error e => rfl
      | ok r =>
          obtain ⟨val, rest⟩ := r
          have hlt : dim < x.length := by omega
          have htake : (x.set dim val).take (dim + 1) = x.take dim ++ [val] := by
            rw [List.take_add_one, List.take_set_of_le (Nat.le_refl dim), List.getElem?_set_self hlt]
            rfl
          have hlen : (x.take dim ++ [val]).length = dim + 1 := by
            rw [List.length_append, List.length_take, List.length_singleton]
            omega
          simp only [storeElement, hlt, if_true]
          by_cases hc : current rest = ','
          · rw [if_pos hc, if_pos hc, ← htake]
            exact ih _ _ _ (by rw [List.length_set]; exact hx) (by omega)
          · rw [if_neg hc, if_neg hc]
            by_cases hb : current rest = ']'
            · rw [if_pos hb, if_pos hb]
              exact ⟨x.set dim val, by rw [hlen], by rw [hlen]; exact htake⟩
            · rw [if_neg hb, if_neg hb]

/-- **No write goes past the array**, whatever it held before. -/
theorem vector_in_memory_eq (typmod : Int) {x : List F} (hx : x.length = VECTOR_MAX_DIM) :
    vector_in_memory io lit typmod x = some (vectorIn io lit typmod) := by
  unfold vector_in_memory vectorIn
  simp only
  split
  · rfl
  · split
    · rfl
    · have h := elementsLoopMemory_eq io lit VECTOR_MAX_DIM x 0
        (skipSpace ((skipSpace lit).drop 1)) hx (Nat.zero_add _)
      rw [List.take_zero] at h
      cases hr : elementsLoop io lit VECTOR_MAX_DIM [] (skipSpace ((skipSpace lit).drop 1)) with
      | error e =>
          rw [hr] at h
          simp only at h
          rw [h]
          rfl
      | ok r =>
          rw [hr] at h
          obtain ⟨x', h1, h2⟩ := h
          rw [h1]
          simp only [h2]
          rfl

/-! ## 4. The loop and the grammar -/

variable {number : List Char → Option F}

theorem spaces_takeWhile (s : List Char) : Spaces (s.takeWhile vector_isspace) := by
  have h := List.all_takeWhile (p := vector_isspace) (l := s)
  exact List.all_eq_true.mp h

theorem skipSpace_append {pre s : List Char} (h : Spaces pre) : skipSpace (pre ++ s) = skipSpace s := by
  unfold skipSpace
  induction pre with
  | nil => rfl
  | cons c pre ih =>
      rw [List.cons_append, List.dropWhile_cons, if_pos (h c List.mem_cons_self)]
      exact ih fun d hd => h d (List.mem_cons_of_mem c hd)

theorem current_skipSpace (s : List Char) : vector_isspace (current (skipSpace s)) = false := by
  induction s with
  | nil => rfl
  | cons c s ih =>
      unfold skipSpace
      rw [List.dropWhile_cons]
      split
      · exact ih
      · rename_i h
        exact Bool.eq_false_iff.mpr h

/-- **What a round reads**: white space, a number, white space. -/
theorem readElement_sound (h : io.Scans number) {pt rest : List Char} {val : F}
    (hr : readElement io lit pt = .ok (val, rest)) : ∃ pre t post, Spaces pre ∧ number t = some val ∧
      io.Finite val ∧ Spaces post ∧ pt = pre ++ t ++ post ++ rest := by
  obtain ⟨_, hval, hpos, hfin, hrest⟩ := readElement_eq_ok.mp hr
  obtain ⟨_, hnum⟩ := h.consumed _ (current_skipSpace pt) hpos
  rw [hval] at hnum
  refine ⟨pt.takeWhile vector_isspace, _,
    ((skipSpace pt).drop (io.strtof (skipSpace pt)).2.1).takeWhile vector_isspace, spaces_takeWhile _, hnum,
    hfin, spaces_takeWhile _, ?_⟩
  calc pt = pt.takeWhile vector_isspace ++ skipSpace pt := List.takeWhile_append_dropWhile.symm
    _ = pt.takeWhile vector_isspace ++ ((skipSpace pt).take (io.strtof (skipSpace pt)).2.1 ++
          (skipSpace pt).drop (io.strtof (skipSpace pt)).2.1) := by rw [List.take_append_drop]
    _ = _ := by
      rw [← hrest, List.append_assoc, List.append_assoc]
      exact congrArg _ (congrArg _ List.takeWhile_append_dropWhile.symm)

/-- A character that ends a number. -/
theorem number_stops (h : io.Scans number) {t t' post rest : List Char} {f' : F} {c : Char}
    (ht' : number t' = some f') (hpost : Spaces post) (hc : c = ',' ∨ c = ']')
    (hp : t' <+: t ++ (post ++ c :: rest)) : t'.length ≤ t.length := by
  by_contra hlt
  -- the character after `t` would belong to the number
  have hmem : ∀ d, (post ++ c :: rest).head? = some d → d ∈ t' := by
    intro d hd
    obtain ⟨s, hs⟩ := hp
    have h1 : (t' ++ s)[t.length]? = some d := by
      rw [hs, List.getElem?_append_right (Nat.le_refl _), Nat.sub_self, ← List.head?_eq_getElem?]
      exact hd
    rw [List.getElem?_append_left (by omega)] at h1
    exact List.mem_of_getElem? h1
  cases post with
  | nil =>
      have := h.plain t' f' ht' c (hmem c rfl)
      rcases hc with rfl | rfl
      · exact this.2.1 rfl
      · exact this.2.2.1 rfl
  | cons d post =>
      have := h.plain t' f' ht' d (hmem d rfl)
      rw [hpost d List.mem_cons_self] at this
      exact Bool.noConfusion this.1

/-- **A number between white space is read**, up to the comma or the bracket behind it. -/
theorem readElement_complete (h : io.Scans number) {pre t post rest : List Char} {f : F} {c : Char}
    (hpre : Spaces pre) (ht : number t = some f) (hfin : io.Finite f) (hpost : Spaces post)
    (hc : c = ',' ∨ c = ']') : readElement io lit (pre ++ t ++ post ++ c :: rest) = .ok (f, c :: rest) := by
  have hskip : skipSpace (pre ++ t ++ post ++ c :: rest) = t ++ (post ++ c :: rest) := by
    rw [List.append_assoc, List.append_assoc, skipSpace_append hpre]
    cases t with
    | nil => exact absurd rfl (h.nonempty [] f ht)
    | cons d t => exact skipSpace_cons (h.plain _ f ht d List.mem_cons_self).1
  have hcur := current_skipSpace (pre ++ t ++ post ++ c :: rest)
  rw [hskip] at hcur
  have hlong := h.longest _ t f hcur ht (List.prefix_append t _)
  have hpos : 0 < t.length := List.length_pos_iff.mpr (h.nonempty t f ht)
  obtain ⟨hle, hnum⟩ := h.consumed _ hcur (by omega)
  have hshort := number_stops h hnum hpost hc (List.take_prefix _ _)
  rw [List.length_take] at hshort
  have hlen : (io.strtof (t ++ (post ++ c :: rest))).2.1 = t.length := by omega
  rw [hlen, List.take_left, ht] at hnum
  refine readElement_eq_ok.mpr ?_
  rw [hskip, hlen, List.drop_left, skipSpace_append hpost]
  refine ⟨?_, (Option.some.inj hnum).symm, by omega, hfin, skipSpace_cons ?_⟩
  · cases t with
    | nil => exact absurd rfl (h.nonempty [] f ht)
    | cons d t => exact (h.plain _ f ht d List.mem_cons_self).2.2.2
  · rcases hc with rfl | rfl <;> rfl

theorem current_eq {s : List Char} {c : Char} (hc : c ≠ '\x00') : current s = c ↔ s = c :: s.drop 1 := by
  cases s with
  | nil => exact ⟨fun h => absurd h.symm hc, fun h => (nomatch h)⟩
  | cons d s =>
      constructor
      · rintro rfl
        rfl
      · intro h
        exact (List.cons.inj h).1

/-- **The loop accepts texts of the grammar only.** -/
theorem elementsLoop_sound (h : io.Scans number) (n : Nat) : ∀ {x v : List F} {pt rest : List Char},
    elementsLoop io lit n x pt = .ok (v, rest) →
      ∃ u body, v = x ++ u ∧ Elements io number u body ∧ u.length ≤ n ∧ pt = body ++ ']' :: rest := by
  induction n with
  | zero =>
      intro x v pt rest hl
      cases hl
  | succ n ih =>
      intro x v pt rest hl
      rw [elementsLoop_succ] at hl
      cases hr : readElement io lit pt with
      | error e =>
          rw [hr] at hl
          cases hl
      | ok r =>
          obtain ⟨val, rest'⟩ := r
          obtain ⟨pre, t, post, hpre, hnum, hfin, hpost, hpt⟩ := readElement_sound h hr
          rw [hr] at hl
          simp only at hl
          split at hl
          · rename_i hc
            obtain ⟨u, body, hv, hu, hlen, he⟩ := ih hl
            rw [(current_eq (by decide)).mp hc, he] at hpt
            refine ⟨val :: u, pre ++ t ++ post ++ ',' :: body, ?_, .more hpre hnum hfin hpost hu,
              Nat.succ_le_succ hlen, ?_⟩
            · rw [hv, List.append_assoc]
              rfl
            · rw [hpt, List.append_assoc (pre ++ t ++ post)]
              rfl
          · split at hl
            · rename_i hb
              cases hl
              exact ⟨[val], pre ++ t ++ post, rfl, .last hpre hnum hfin hpost, Nat.succ_le_succ (Nat.zero_le n),
                by rw [← (current_eq (by decide)).mp hb]; exact hpt⟩
            · cases hl

/-- **The loop accepts every text of the grammar** that fits. -/
theorem elementsLoop_complete (h : io.Scans number) {u : List F} {body : List Char}
    (hu : Elements io number u body) (rest : List Char) : ∀ (n : Nat) (x : List F), u.length ≤ n →
      elementsLoop io lit n x (body ++ ']' :: rest) = .ok (x ++ u, rest) := by
  induction hu with
  | last hpre hnum hfin hpost =>
      intro n x hn
      obtain ⟨m, rfl⟩ : ∃ m, n = m + 1 := ⟨n - 1, by rw [List.length_singleton] at hn; omega⟩
      rw [elementsLoop_succ, readElement_complete h hpre hnum hfin hpost (Or.inr rfl)]
      rfl
  | more hpre hnum hfin hpost _ ih =>
      intro n x hn
      obtain ⟨m, rfl⟩ : ∃ m, n = m + 1 := ⟨n - 1, by rw [List.length_cons] at hn; omega⟩
      rw [List.append_assoc, List.cons_append, elementsLoop_succ,
        readElement_complete h hpre hnum hfin hpost (Or.inl rfl)]
      simp only [current, List.headD_cons, if_true, List.drop_succ_cons, List.drop_zero]
      rw [ih m _ (Nat.le_of_succ_le_succ hn), List.append_assoc]
      rfl

/-! ## 5. `vector_in` -/

theorem skipSpace_skipSpace (s : List Char) : skipSpace (skipSpace s) = skipSpace s := by
  have h := current_skipSpace s
  cases hs : skipSpace s with
  | nil => rfl
  | cons c t =>
      rw [hs] at h
      exact skipSpace_cons h

theorem elementsLoop_skipSpace (io : FloatText F) (lit : List Char) (n : Nat) (x : List F) (pt : List Char) :
    elementsLoop io lit (n + 1) x (skipSpace pt) = elementsLoop io lit (n + 1) x pt := by
  have hr : readElement io lit (skipSpace pt) = readElement io lit pt := by
    rw [readElement, readElement, skipSpace_skipSpace]
  rw [elementsLoop_succ, elementsLoop_succ, hr]

/-- The first element does not start with the closing bracket. -/
theorem Elements.head (h : io.Scans number) {v : List F} {body rest : List Char}
    (hb : Elements io number v body) : current (skipSpace (body ++ rest)) ≠ ']' := by
  have hstart : ∀ {pre t s : List Char} {f : F}, Spaces pre → number t = some f →
      current (skipSpace (pre ++ (t ++ s))) ≠ ']' := by
    intro pre t s f hpre ht
    rw [skipSpace_append hpre]
    cases t with
    | nil => exact absurd rfl (h.nonempty [] f ht)
    | cons d t =>
        have hd := h.plain _ f ht d List.mem_cons_self
        rw [List.cons_append, skipSpace_cons hd.1]
        exact hd.2.2.1
  cases hb with
  | last h1 h2 _ _ =>
      rw [List.append_assoc, List.append_assoc]
      exact hstart h1 h2
  | more h1 h2 _ _ _ =>
      rw [List.append_assoc, List.append_assoc, List.append_assoc]
      exact hstart h1 h2

theorem Elements.length_pos {v : List F} {body : List Char} (h : Elements io number v body) :
    1 ≤ v.length := by
  cases h with
  | last => exact Nat.le_refl 1
  | more => exact Nat.succ_le_succ (Nat.zero_le _)

/-- The steps of `vector_in`. -/
theorem vectorIn_eq_ok {typmod : Int} {v : List F} : vectorIn io lit typmod = .ok v ↔
    current (skipSpace lit) = '[' ∧ current (skipSpace ((skipSpace lit).drop 1)) ≠ ']' ∧
      ∃ rest, elementsLoop io lit VECTOR_MAX_DIM [] ((skipSpace lit).drop 1) = .ok (v, rest) ∧
        current (skipSpace rest) = '\x00' ∧ (1 ≤ v.length ∧ v.length ≤ VECTOR_MAX_DIM) ∧
        (typmod = -1 ∨ typmod = v.length) := by
  have hskip := elementsLoop_skipSpace io lit 15999 [] ((skipSpace lit).drop 1)
  unfold vectorIn
  simp only
  rw [show VECTOR_MAX_DIM = 15999 + 1 from rfl, hskip]
  split
  · rename_i h0
    exact ⟨fun h => (nomatch h), fun h => absurd h.1 h0⟩
  · rename_i h0
    split
    · rename_i h1
      exact ⟨fun h => (nomatch h), fun h => absurd h1 h.2.1⟩
    · rename_i h1
      cases hr : elementsLoop io lit (15999 + 1) [] ((skipSpace lit).drop 1) with
      | error e =>
          refine ⟨fun h => (nomatch h), fun h => ?_⟩
          obtain ⟨rest, hrest, _⟩ := h.2.2
          cases hrest
      | ok r =>
          obtain ⟨x, rest⟩ := r
          show (if current (skipSpace rest) ≠ '\x00' then
              .error (invalidSyntax lit (some "Junk after closing right brace."))
            else CheckDim x.length >>= fun _ => CheckExpectedDim typmod x.length >>= fun _ => .ok x :
              Except Report (List F)) = .ok v ↔ _
          have hiff : (current (skipSpace rest) = '\x00' ∧ (1 ≤ x.length ∧ x.length ≤ VECTOR_MAX_DIM) ∧
              (typmod = -1 ∨ typmod = x.length) ∧ x = v) ↔ (current (skipSpace lit) = '[' ∧
                current (skipSpace ((skipSpace lit).drop 1)) ≠ ']' ∧
                ∃ rest', (Except.ok (x, rest) : Except Report (List F × List Char)) = .ok (v, rest') ∧
                  current (skipSpace rest') = '\x00' ∧ (1 ≤ v.length ∧ v.length ≤ 15999 + 1) ∧
                  (typmod = -1 ∨ typmod = v.length)) := by
            constructor
            · intro h
              obtain ⟨h2, h3, h4, rfl⟩ := h
              exact ⟨not_not.mp h0, h1, rest, rfl, h2, h3, h4⟩
            · intro h
              obtain ⟨_, _, rest', he, h2, h3, h4⟩ := h
              cases he
              exact ⟨h2, h3, h4, rfl⟩
          rw [← hiff]
          split
          · rename_i h2
            exact ⟨fun h => (nomatch h), fun h => absurd h.1 h2⟩
          · rename_i h2
            cases hd : CheckDim x.length with
            | error e =>
                refine ⟨fun h => (nomatch h), fun h => ?_⟩
                rw [checkDim_eq_ok.mpr ⟨Int.ofNat_le.mpr h.2.1.1, Int.ofNat_le.mpr h.2.1.2⟩] at hd
                cases hd
            | ok u =>
                cases he : CheckExpectedDim typmod x.length with
                | error e =>
                    refine ⟨fun h => (nomatch h), fun h => ?_⟩
                    rw [checkExpectedDim_eq_ok.mpr h.2.2.1] at he
                    cases he
                | ok u' =>
                    constructor
                    · intro h
                      cases h
                      obtain ⟨h3, h4⟩ := checkDim_eq_ok.mp hd
                      exact ⟨not_not.mp h2, ⟨Int.ofNat_le.mp h3, Int.ofNat_le.mp h4⟩,
                        checkExpectedDim_eq_ok.mp he, rfl⟩
                    · intro h
                      rw [h.2.2.2]
                      rfl

/-- **`vector_in` never writes past its array, and it accepts exactly the texts of the grammar** with at most
    `VECTOR_MAX_DIM` components, as many as `typmod` says; the result is what the text stands for. -/
theorem vector_in_iff (h : io.Scans number) (hlit : '\x00' ∉ lit) (typmod : Int) :
    (∀ x : List F, x.length = VECTOR_MAX_DIM →
      vector_in_memory io lit typmod x = some (vectorIn io lit typmod)) ∧
    ∀ v, vectorIn io lit typmod = .ok v ↔ VectorText io number v lit ∧ v.length ≤ VECTOR_MAX_DIM ∧
      (typmod = -1 ∨ typmod = v.length) := by
  refine ⟨fun x hx => vector_in_memory_eq typmod hx, fun v => ?_⟩
  rw [vectorIn_eq_ok]
  constructor
  · intro hin
    obtain ⟨h0, _, rest, hloop, hend, hlen, ht⟩ := hin
    refine ⟨?_, hlen.2, ht⟩
    obtain ⟨u, body, hv, hu, _, hs⟩ := elementsLoop_sound h _ hloop
    rw [List.nil_append] at hv
    subst hv
    have h1 : lit = lit.takeWhile vector_isspace ++ '[' :: (body ++ ']' :: rest) := by
      rw [← hs, ← (current_eq (by decide)).mp h0]
      exact List.takeWhile_append_dropWhile.symm
    -- nothing but white space is left, since there is no terminator inside
    have hrest : Spaces rest := by
      cases hr : skipSpace rest with
      | nil => exact List.dropWhile_eq_nil_iff.mp hr
      | cons c t =>
          rw [hr] at hend
          have hc : c ∈ rest := (List.dropWhile_sublist vector_isspace).subset (by
            show c ∈ skipSpace rest
            rw [hr]
            exact List.mem_cons_self)
          refine absurd ?_ hlit
          rw [h1, ← show c = '\x00' from hend]
          exact List.mem_append_right _ (List.mem_cons_of_mem _ (List.mem_append_right _
            (List.mem_cons_of_mem _ hc)))
    exact ⟨lit.takeWhile vector_isspace, body, rest, spaces_takeWhile _, hu, hrest, h1⟩
  · intro hg
    obtain ⟨⟨pre, body, post, hpre, hbody, hpost, rfl⟩, hlen, ht⟩ := hg
    have hskip : skipSpace (pre ++ '[' :: (body ++ ']' :: post)) = '[' :: (body ++ ']' :: post) := by
      rw [skipSpace_append hpre]
      exact skipSpace_cons rfl
    have hend : skipSpace post = [] := by
      have := skipSpace_append (s := []) hpost
      rwa [List.append_nil] at this
    rw [hskip]
    exact ⟨rfl, hbody.head h, post, elementsLoop_complete h hbody post _ [] hlen, by rw [hend]; rfl,
      ⟨hbody.length_pos, hlen⟩, ht⟩

/-- The texts that `digitText` scans: digits. -/
def digitNumber (t : List Char) : Option (Fin 10) :=
  if t ≠ [] ∧ t.all Char.isDigit then
    some ⟨t.foldl (fun n c => 10 * n + digitValue c) 0 % 10, Nat.mod_lt _ (Nat.succ_pos 9)⟩
  else none

theorem digitNumber_eq_some {t : List Char} {f : Fin 10} (h : digitNumber t = some f) :
    t ≠ [] ∧ ∀ c ∈ t, c.isDigit = true := by
  unfold digitNumber at h
  split at h
  · rename_i ht
    exact ⟨ht.1, List.all_eq_true.mp ht.2⟩
  · cases h

theorem digitText_scans : digitText.Scans digitNumber where
  nonempty t f h := (digitNumber_eq_some h).1
  plain t f h c hc := by
    have hd := (digitNumber_eq_some h).2 c hc
    refine ⟨Bool.eq_false_iff.mpr fun hs => ?_, ?_, ?_, ?_⟩
    · simp only [vector_isspace, Bool.or_eq_true, beq_iff_eq] at hs
      rcases hs with ((((rfl | rfl) | rfl) | rfl) | rfl) | rfl <;> exact absurd hd (by decide)
    · rintro rfl
      exact absurd hd (by decide)
    · rintro rfl
      exact absurd hd (by decide)
    · rintro rfl
      exact absurd hd (by decide)
  consumed s _ hpos := by
    have hlen : (digitText.strtof s).2.1 = (s.takeWhile Char.isDigit).length := rfl
    have htake : s.take (s.takeWhile Char.isDigit).length = s.takeWhile Char.isDigit :=
      List.prefix_iff_eq_take.mp (List.takeWhile_prefix _) |>.symm
    rw [hlen] at hpos ⊢
    refine ⟨(List.takeWhile_prefix _).length_le, ?_⟩
    rw [htake, digitNumber, if_pos ⟨fun e => hpos (by rw [e]; rfl), List.all_takeWhile⟩]
    rfl
  longest s t f _ ht hp := by
    obtain ⟨r, rfl⟩ := hp
    have hall := (digitNumber_eq_some ht).2
    show t.length ≤ ((t ++ r).takeWhile Char.isDigit).length
    rw [List.takeWhile_append_of_pos hall, List.length_append]
    exact Nat.le_add_right _ _

/-- A text with white space everywhere. -/
theorem vector_in_iff_digits : (∀ x : List (Fin 10), x.length = VECTOR_MAX_DIM →
      vector_in_memory digitText [' ', '[', '4', ' ', ',', '\t', '2', ']', '\n'] 2 x =
        some (vectorIn digitText [' ', '[', '4', ' ', ',', '\t', '2', ']', '\n'] 2)) ∧
    ∀ v, vectorIn digitText [' ', '[', '4', ' ', ',', '\t', '2', ']', '\n'] 2 = .ok v ↔
      VectorText digitText digitNumber v [' ', '[', '4', ' ', ',', '\t', '2', ']', '\n'] ∧
        v.length ≤ VECTOR_MAX_DIM ∧ ((2 : Int) = -1 ∨ (2 : Int) = v.length) :=
  vector_in_iff digitText_scans (by decide) 2

end Pgvec.Vector
