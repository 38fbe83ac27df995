/-
  File:      Pgvec/Common/Simple8b.lean
  Subject:   SIMPLE-8B (`src/backend/lib/integerset.c`): increasing integers packed into one 64-bit word, by
             the differences between them.

  Words are numbers below `2 ^ 64`; `diff64` is the subtraction of the code with its wrap-around. An array
  argument is a list, read with `getD`.

  * `selectMode_spec` -- the mode chosen is wide enough for all it packs;
  * `packLoop_spec` -- the word packed is the differences as the digits of a number;
  * `decodeLoop_spec`, `containsLoop_spec` -- the two readers of such a number;
  * **`simple8b_spec`** -- what is encoded is decoded, and is found.
-/
import Mathlib.Data.Nat.Digits.Lemmas
import Mathlib.Data.Nat.Bitwise

namespace Pgvec.Intset

/-! ## 1. The code -/

/-- `SIMPLE8B_MAX_VALUES_PER_CODEWORD`. -/
def SIMPLE8B_MAX_VALUES_PER_CODEWORD : Nat := 240

/-- `struct simple8b_mode`. -/
structure simple8b_mode where
  bits_per_int : Nat
  num_ints : Nat
  deriving DecidableEq, Inhabited, Repr

/-- The last entry is the sentinel. -/
def simple8b_modes : List simple8b_mode :=
  [⟨0, 240⟩, ⟨0, 120⟩, ⟨1, 60⟩, ⟨2, 30⟩, ⟨3, 20⟩, ⟨4, 15⟩, ⟨5, 12⟩, ⟨6, 10⟩, ⟨7, 8⟩, ⟨8, 7⟩, ⟨10, 6⟩, ⟨12, 5⟩,
    ⟨15, 4⟩, ⟨20, 3⟩, ⟨30, 2⟩, ⟨60, 1⟩, ⟨0, 0⟩]

def bitsOf (selector : Nat) : Nat := (simple8b_modes.getD selector ⟨0, 0⟩).bits_per_int

def nintsOf (selector : Nat) : Nat := (simple8b_modes.getD selector ⟨0, 0⟩).num_ints

def EMPTY_CODEWORD : Nat := 0x0FFFFFFFFFFFFFFF

/-- `a - b - 1` on `uint64`. -/
def diff64 (a b : Nat) : Nat := (a + (2 ^ 64 - 1) - b) % 2 ^ 64

/-- The modes pack no more than fits into 60 bits, and get wider. -/
theorem modes_ok : ∀ s < 16, bitsOf s * nintsOf s ≤ 60 ∧ 0 < nintsOf s ∧ nintsOf s ≤ 240 ∧
    (s + 1 < 16 → bitsOf s ≤ bitsOf (s + 1)) := by
  decide

theorem lt_of_nintsOf {s i : Nat} (h : i < nintsOf s) : s < 16 := by
  by_contra hs
  have hzero : nintsOf s = 0 := by
    obtain rfl | hs := Nat.eq_or_lt_of_le (Nat.le_of_not_lt hs)
    · rfl
    · unfold nintsOf
      rw [List.getD_eq_default _ _ (show simple8b_modes.length ≤ s from hs)]
  omega

theorem nintsOf_le (s : Nat) : nintsOf s ≤ 240 := by
  rcases Nat.eq_zero_or_pos (nintsOf s) with h | h
  · omega
  · exact (modes_ok s (lt_of_nintsOf h)).2.2.1

/-- The loop of `simple8b_encode` that selects the mode; `i` deltas are accepted. -/
def selectMode (ints : List Nat) (selector i diff last_val : Nat) : Nat :=
  if 1 <<< bitsOf selector ≤ diff then
    -- too large, step up to next mode; we might already have accepted enough deltas for it
    if nintsOf (selector + 1) ≤ i then selector + 1
    else selectMode ints (selector + 1) i diff last_val
  else
    if nintsOf selector ≤ i + 1 then selector
    else selectMode ints selector (i + 1) (diff64 (ints.getD (i + 1) 0) last_val) (ints.getD (i + 1) 0)
termination_by (16 - selector, 240 - i)
decreasing_by
  · rename_i _ h
    have := lt_of_nintsOf (Nat.lt_of_not_le h)
    exact Prod.Lex.left _ _ (by omega)
  · rename_i _ h
    have := nintsOf_le selector
    exact Prod.Lex.right _ (by omega)

/-- The loop that shifts the differences in, the last one first. -/
def packLoop (ints : List Nat) (bits : Nat) : Nat → Nat → Nat
  | 0, codeword => codeword
  | i + 1, codeword =>
      packLoop ints bits i (((codeword ||| diff64 (ints.getD (i + 1) 0) (ints.getD i 0)) <<< bits) % 2 ^ 64)

/-- **`simple8b_encode`**: the codeword and `*num_encoded`. -/
def simple8b_encode (ints : List Nat) (base : Nat) : Nat × Nat :=
  let selector := selectMode ints 0 0 (diff64 (ints.getD 0 0) base) (ints.getD 0 0)
  let nints := nintsOf selector
  let bits := bitsOf selector
  if nints = 0 then (EMPTY_CODEWORD, 0)
  else
    let codeword :=
      if 0 < bits then packLoop ints bits (nints - 1) 0 ||| diff64 (ints.getD 0 0) base else 0
    (codeword ||| (selector <<< 60) % 2 ^ 64, nints)

def decodeLoop (mask bits : Nat) : Nat → Nat → Nat → List Nat
  | 0, _, _ => []
  | n + 1, codeword, curr_value =>
      let curr_value := (curr_value + (1 + (codeword &&& mask))) % 2 ^ 64
      curr_value :: decodeLoop mask bits n (codeword >>> bits) curr_value

/-- **`simple8b_decode`**: the integers decoded. -/
def simple8b_decode (codeword base : Nat) : List Nat :=
  let selector := codeword >>> 60
  if codeword = EMPTY_CODEWORD then []
  else decodeLoop ((1 <<< bitsOf selector) - 1) (bitsOf selector) (nintsOf selector) codeword base

def containsLoop (mask bits key : Nat) : Nat → Nat → Nat → Bool
  | 0, _, _ => false
  | n + 1, codeword, curr_value =>
      let curr_value := (curr_value + (1 + (codeword &&& mask))) % 2 ^ 64
      if key ≤ curr_value then decide (curr_value = key)
      else containsLoop mask bits key n (codeword >>> bits) curr_value

/-- **`simple8b_contains`**. -/
def simple8b_contains (codeword key base : Nat) : Bool :=
  let selector := codeword >>> 60
  let nints := nintsOf selector
  let bits := bitsOf selector
  if codeword = EMPTY_CODEWORD then false
  else if bits = 0 then decide ((key + 2 ^ 64 - base) % 2 ^ 64 ≤ nints)
  else containsLoop ((1 <<< bits) - 1) bits key nints codeword base

/-! ## 2. Differences -/

/-- The differences of the code, minus one. -/
def deltas : Nat → List Nat → List Nat
  | _, [] => []
  | base, v :: vs => (v - base - 1) :: deltas v vs

/-- The integers that differences stand for. -/
def sums : Nat → List Nat → List Nat
  | _, [] => []
  | base, d :: ds => (base + (1 + d)) :: sums (base + (1 + d)) ds

/-- Increasing words above `base`. -/
def Above (base : Nat) (vs : List Nat) : Prop := (base :: vs).Pairwise (· < ·) ∧ ∀ v ∈ vs, v < 2 ^ 64

theorem Above.tail {base v : Nat} {vs : List Nat} (h : Above base (v :: vs)) : Above v vs :=
  ⟨(List.pairwise_cons.mp h.1).2, fun w hw => h.2 w (List.mem_cons_of_mem v hw)⟩

theorem Above.lt {base v : Nat} {vs : List Nat} (h : Above base vs) (hv : v ∈ vs) : base < v :=
  (List.pairwise_cons.mp h.1).1 v hv

theorem Above.take {base : Nat} {vs : List Nat} (h : Above base vs) (n : Nat) : Above base (vs.take n) := by
  refine ⟨?_, fun v hv => h.2 v (List.mem_of_mem_take hv)⟩
  exact h.1.sublist ((List.take_sublist n vs).cons_cons base)

theorem diff64_eq {a b : Nat} (h : b < a) (ha : a < 2 ^ 64) : diff64 a b = a - b - 1 := by
  unfold diff64
  have hsum : a + (2 ^ 64 - 1) - b = (a - b - 1) + 2 ^ 64 := by omega
  rw [hsum, Nat.add_mod_right]
  exact Nat.mod_eq_of_lt (by omega)

@[simp] theorem length_deltas : ∀ (base : Nat) (vs : List Nat), (deltas base vs).length = vs.length
  | _, [] => rfl
  | _, v :: vs => congrArg (· + 1) (length_deltas v vs)

theorem deltas_take : ∀ (base : Nat) (vs : List Nat) (n : Nat), deltas base (vs.take n) = (deltas base vs).take n
  | _, [], _ => by simp [deltas]
  | _, _ :: _, 0 => rfl
  | base, v :: vs, n + 1 => congrArg ((v - base - 1) :: ·) (deltas_take v vs n)

theorem deltas_zero {base : Nat} {vs : List Nat} (h : Above base vs) (hlen : 0 < vs.length) :
    (deltas base vs).getD 0 0 = diff64 (vs.getD 0 0) base := by
  cases vs with
  | nil => cases hlen
  | cons v vs => exact (diff64_eq (h.lt List.mem_cons_self) (h.2 v List.mem_cons_self)).symm

theorem deltas_succ : ∀ {base : Nat} {vs : List Nat}, Above base vs → ∀ {i : Nat}, i + 1 < vs.length →
    (deltas base vs).getD (i + 1) 0 = diff64 (vs.getD (i + 1) 0) (vs.getD i 0)
  | _, _ :: _, h, 0, hi => deltas_zero h.tail (Nat.lt_of_succ_lt_succ hi)
  | _, _ :: _, h, _ + 1, hi => deltas_succ h.tail (Nat.lt_of_succ_lt_succ hi)

theorem sums_deltas : ∀ {base : Nat} {vs : List Nat}, Above base vs → sums base (deltas base vs) = vs
  | _, [], _ => rfl
  | base, v :: vs, h => by
      have hv : base + (1 + (v - base - 1)) = v := by
        have := h.lt List.mem_cons_self
        omega
      show (base + (1 + (v - base - 1))) :: sums (base + (1 + (v - base - 1))) (deltas v vs) = v :: vs
      rw [hv, sums_deltas h.tail]

theorem base_lt_of_mem_sums : ∀ {ds : List Nat} {base v : Nat}, v ∈ sums base ds → base < v
  | d :: ds, base, v, h => by
      rcases List.mem_cons.mp h with rfl | h
      · omega
      · have := base_lt_of_mem_sums h
        omega

/-! ## 3. The mode -/

/-- **The mode selected** is wide enough for every difference it packs: all that was accepted on the way
    fits into the mode tried at that moment, and the modes get wider. -/
theorem selectMode_spec {base : Nat} {ints : List Nat} (h : Above base ints) (hlen : 240 ≤ ints.length) :
    ∀ (selector i diff last_val : Nat), i < nintsOf selector → diff = (deltas base ints).getD i 0 →
      last_val = ints.getD i 0 → (∀ j, j < i → (deltas base ints).getD j 0 < 2 ^ bitsOf selector) →
      ∀ j, j < nintsOf (selectMode ints selector i diff last_val) →
        (deltas base ints).getD j 0 < 2 ^ bitsOf (selectMode ints selector i diff last_val) := by
  intro selector i diff last_val
  induction selector, i, diff, last_val using selectMode.induct ints with
  | case1 selector i diff last_val hbig hfull =>
      intro hi _ _ hacc j hj
      rw [selectMode, if_pos hbig, if_pos hfull] at hj ⊢
      have hsel := lt_of_nintsOf hj
      have hwide := (modes_ok selector (by omega)).2.2.2 hsel
      exact Nat.lt_of_lt_of_le (hacc j (by omega)) (Nat.pow_le_pow_right (by decide) hwide)
  | case2 selector i diff last_val hbig hfull ih =>
      intro hi hdiff hlast hacc
      have hnext := Nat.lt_of_not_le hfull
      have hsel := lt_of_nintsOf hnext
      have hwide := (modes_ok selector (by omega)).2.2.2 hsel
      rw [selectMode, if_pos hbig, if_neg hfull]
      refine ih hnext hdiff hlast fun j hj => ?_
      exact Nat.lt_of_lt_of_le (hacc j hj) (Nat.pow_le_pow_right (by decide) hwide)
  | case3 selector i diff last_val hbig hfull =>
      intro hi hdiff _ hacc j hj
      rw [selectMode, if_neg hbig, if_pos hfull] at hj ⊢
      rw [Nat.shiftLeft_eq, one_mul] at hbig
      rcases Nat.lt_or_eq_of_le (show j ≤ i by omega) with hlt | rfl
      · exact hacc j hlt
      · omega
  | case4 selector i diff last_val hbig hfull ih =>
      intro hi hdiff hlast hacc
      rw [selectMode, if_neg hbig, if_neg hfull]
      rw [Nat.shiftLeft_eq, one_mul] at hbig
      have hnints := nintsOf_le selector
      refine ih (by omega) ?_ rfl fun j hj => ?_
      · rw [deltas_succ h (by omega), hlast]
      · rcases Nat.lt_or_eq_of_le (show j ≤ i by omega) with hlt | rfl
        · exact hacc j hlt
        · omega

/-! ## 4. The word -/

/-- The low bits and what is above them. -/
theorem or_eq_add {bits c d : Nat} (hd : d < 2 ^ bits) : (2 ^ bits * c) ||| d = 2 ^ bits * c + d :=
  (Nat.two_pow_add_eq_or_of_lt hd c).symm

theorem and_mask {bits : Nat} (c : Nat) : c &&& ((1 <<< bits) - 1) = c % 2 ^ bits := by
  rw [Nat.shiftLeft_eq, one_mul]
  exact Nat.and_two_pow_sub_one_eq_mod c bits

/-- Digits of so many bits. -/
theorem ofDigits_lt {bits : Nat} : ∀ {ds : List Nat}, (∀ d ∈ ds, d < 2 ^ bits) →
    Nat.ofDigits (2 ^ bits) ds < 2 ^ (bits * ds.length)
  | [], _ => Nat.two_pow_pos _
  | d :: ds, hds => by
      have hd := hds d List.mem_cons_self
      have ih := ofDigits_lt fun e he => hds e (List.mem_cons_of_mem d he)
      calc Nat.ofDigits (2 ^ bits) (d :: ds)
          = d + 2 ^ bits * Nat.ofDigits (2 ^ bits) ds := Nat.ofDigits_cons
        _ < 2 ^ bits * (Nat.ofDigits (2 ^ bits) ds + 1) := by
            rw [Nat.mul_succ]
            omega
        _ ≤ 2 ^ bits * 2 ^ (bits * ds.length) := Nat.mul_le_mul_left _ ih
        _ = 2 ^ (bits * (d :: ds).length) := by
            rw [← Nat.pow_add, List.length_cons, Nat.mul_succ, Nat.add_comm]

/-- Digits of no bits. -/
theorem eq_replicate_zero {ds : List Nat} (h : ∀ d ∈ ds, d < 2 ^ 0) : ds = List.replicate ds.length 0 :=
  List.eq_replicate_of_mem fun d hd => Nat.lt_one_iff.mp (h d hd)

/-- **What the loop packs** is the differences as digits, the first one lowest: before the round of `i` the
    word holds those from `i` on, with room for one more below them. -/
theorem packLoop_spec (ints : List Nat) {ds : List Nat} {bits : Nat} (hfit : bits * ds.length ≤ 60)
    (hds : ∀ d ∈ ds, d < 2 ^ bits)
    (hdiff : ∀ i, i + 1 < ds.length → ds.getD (i + 1) 0 = diff64 (ints.getD (i + 1) 0) (ints.getD i 0)) :
    ∀ (i : Nat), i < ds.length →
      packLoop ints bits i (2 ^ bits * Nat.ofDigits (2 ^ bits) (ds.drop (i + 1))) =
        2 ^ bits * Nat.ofDigits (2 ^ bits) (ds.drop 1)
  | 0, _ => rfl
  | i + 1, hi => by
      have hd := hds _ (List.getElem_mem hi)
      have hget : ds.getD (i + 1) 0 = ds[i + 1] := List.getD_eq_getElem _ _ hi
      have hcons : Nat.ofDigits (2 ^ bits) (ds.drop (i + 1)) =
          2 ^ bits * Nat.ofDigits (2 ^ bits) (ds.drop (i + 1 + 1)) + ds[i + 1] := by
        rw [List.drop_eq_getElem_cons hi, Nat.ofDigits_cons]
        exact Nat.add_comm _ _
      have hlt : 2 ^ bits * Nat.ofDigits (2 ^ bits) (ds.drop (i + 1)) < 2 ^ 64 := by
        have hpow := ofDigits_lt fun d (hd : d ∈ ds.drop (i + 1)) => hds d (List.mem_of_mem_drop hd)
        rw [List.length_drop] at hpow
        calc 2 ^ bits * Nat.ofDigits (2 ^ bits) (ds.drop (i + 1))
            < 2 ^ bits * 2 ^ (bits * (ds.length - (i + 1))) := Nat.mul_lt_mul_of_pos_left hpow (Nat.two_pow_pos _)
          _ = 2 ^ (bits + bits * (ds.length - (i + 1))) := (Nat.pow_add _ _ _).symm
          _ ≤ 2 ^ 64 := by
              refine Nat.pow_le_pow_right (by decide) ?_
              have hsub : bits + bits * (ds.length - (i + 1)) = bits * (1 + (ds.length - (i + 1))) := by ring
              rw [hsub]
              have hmul : bits * (1 + (ds.length - (i + 1))) ≤ bits * ds.length :=
                Nat.mul_le_mul_left _ (by omega)
              omega
      have ih := packLoop_spec ints hfit hds hdiff i (by omega)
      rw [packLoop, ← hdiff i hi, hget, or_eq_add hd, ← hcons, Nat.shiftLeft_eq, Nat.mul_comm _ (2 ^ bits),
        Nat.mod_eq_of_lt hlt]
      exact ih

/-- The lowest digit of a number, and the rest. -/
theorem digit_split {bits d T : Nat} (hd : d < 2 ^ bits) (ds : List Nat) :
    (Nat.ofDigits (2 ^ bits) (d :: ds) + 2 ^ (bits * (d :: ds).length) * T) % 2 ^ bits = d ∧
    (Nat.ofDigits (2 ^ bits) (d :: ds) + 2 ^ (bits * (d :: ds).length) * T) >>> bits =
      Nat.ofDigits (2 ^ bits) ds + 2 ^ (bits * ds.length) * T := by
  have hsplit : Nat.ofDigits (2 ^ bits) (d :: ds) + 2 ^ (bits * (d :: ds).length) * T =
      d + 2 ^ bits * (Nat.ofDigits (2 ^ bits) ds + 2 ^ (bits * ds.length) * T) := by
    rw [Nat.ofDigits_cons, List.length_cons, Nat.mul_succ, Nat.pow_add]
    ring
  rw [hsplit, Nat.shiftRight_eq_div_pow, Nat.add_mul_mod_self_left, Nat.add_mul_div_left _ _ (Nat.two_pow_pos _),
    Nat.mod_eq_of_lt hd, Nat.div_eq_of_lt hd, Nat.zero_add]
  exact ⟨rfl, rfl⟩

/-- **Reading the digits back**, whatever is above them. -/
theorem decodeLoop_spec {bits T : Nat} : ∀ (ds : List Nat) (curr : Nat), (∀ d ∈ ds, d < 2 ^ bits) →
    (∀ v ∈ sums curr ds, v < 2 ^ 64) →
    decodeLoop ((1 <<< bits) - 1) bits ds.length (Nat.ofDigits (2 ^ bits) ds + 2 ^ (bits * ds.length) * T) curr =
      sums curr ds
  | [], _, _, _ => rfl
  | d :: ds, curr, hds, hsum => by
      obtain ⟨hlow, hhigh⟩ := digit_split (T := T) (hds d List.mem_cons_self) ds
      have hcurr : (curr + (1 + d)) % 2 ^ 64 = curr + (1 + d) := Nat.mod_eq_of_lt (hsum _ List.mem_cons_self)
      have ih := decodeLoop_spec (T := T) ds (curr + (1 + d)) (fun e he => hds e (List.mem_cons_of_mem d he))
        fun v hv => hsum v (List.mem_cons_of_mem _ hv)
      rw [List.length_cons, decodeLoop, and_mask, ← List.length_cons (a := d), hlow, hhigh, hcurr]
      exact congrArg ((curr + (1 + d)) :: ·) ih

/-- **Looking for a key** among the digits. -/
theorem containsLoop_spec {bits T k : Nat} : ∀ (ds : List Nat) (curr : Nat), (∀ d ∈ ds, d < 2 ^ bits) →
    (∀ v ∈ sums curr ds, v < 2 ^ 64) →
    containsLoop ((1 <<< bits) - 1) bits k ds.length
      (Nat.ofDigits (2 ^ bits) ds + 2 ^ (bits * ds.length) * T) curr = decide (k ∈ sums curr ds)
  | [], _, _, _ => rfl
  | d :: ds, curr, hds, hsum => by
      obtain ⟨hlow, hhigh⟩ := digit_split (T := T) (hds d List.mem_cons_self) ds
      have hcurr : (curr + (1 + d)) % 2 ^ 64 = curr + (1 + d) := Nat.mod_eq_of_lt (hsum _ List.mem_cons_self)
      have ih := containsLoop_spec (T := T) (k := k) ds (curr + (1 + d))
        (fun e he => hds e (List.mem_cons_of_mem d he)) fun v hv => hsum v (List.mem_cons_of_mem _ hv)
      rw [List.length_cons, containsLoop, and_mask, ← List.length_cons (a := d), hlow, hhigh, hcurr, ih]
      have hrest : ∀ v ∈ sums (curr + (1 + d)) ds, curr + (1 + d) < v := fun v hv => base_lt_of_mem_sums hv
      show (if k ≤ curr + (1 + d) then decide (curr + (1 + d) = k)
        else decide (k ∈ sums (curr + (1 + d)) ds)) = decide (k ∈ (curr + (1 + d)) :: sums (curr + (1 + d)) ds)
      by_cases hkey : k ≤ curr + (1 + d)
      · rw [if_pos hkey]
        refine decide_eq_decide.mpr ⟨fun h => h ▸ List.mem_cons_self, fun h => ?_⟩
        rcases List.mem_cons.mp h with h | h
        · exact h.symm
        · have := hrest k h
          omega
      · rw [if_neg hkey]
        refine decide_eq_decide.mpr ⟨List.mem_cons_of_mem _, fun h => ?_⟩
        rcases List.mem_cons.mp h with h | h
        · omega
        · exact h

/-- A run of consecutive integers. -/
theorem mem_sums_zero : ∀ (n base key : Nat), key ∈ sums base (List.replicate n 0) ↔ base < key ∧ key ≤ base + n
  | 0, base, key => by
      show key ∈ [] ↔ _
      simp only [List.not_mem_nil, false_iff]
      omega
  | n + 1, base, key => by
      show key ∈ (base + (1 + 0)) :: sums (base + (1 + 0)) (List.replicate n 0) ↔ _
      rw [List.mem_cons, mem_sums_zero n]
      omega

/-! ## 5. The round trip -/

section Word

variable {base : Nat} {ints : List Nat} {selector : Nat}

/-- The digits of a mode. -/
theorem length_packed (base selector : Nat) (hlen : 240 ≤ ints.length) :
    ((deltas base ints).take (nintsOf selector)).length = nintsOf selector := by
  have := nintsOf_le selector
  rw [List.length_take, length_deltas]
  omega

theorem packed_lt
    (hwide : ∀ j, j < nintsOf selector → (deltas base ints).getD j 0 < 2 ^ bitsOf selector) :
    ∀ d ∈ (deltas base ints).take (nintsOf selector), d < 2 ^ bitsOf selector := by
  intro d hd
  obtain ⟨j, hj, rfl⟩ := List.mem_iff_getElem.mp hd
  rw [List.length_take] at hj
  have hlt := hwide j (by omega)
  rw [List.getD_eq_getElem _ _ (by omega)] at hlt
  rwa [List.getElem_take]

/-- The word of a mode: the digits, and the selector in the top four bits. -/
theorem encode_word (h : Above base ints) (hlen : 240 ≤ ints.length) (hsel : selector < 16)
    (hwide : ∀ j, j < nintsOf selector → (deltas base ints).getD j 0 < 2 ^ bitsOf selector) :
    (if 0 < bitsOf selector then
        packLoop ints (bitsOf selector) (nintsOf selector - 1) 0 ||| diff64 (ints.getD 0 0) base
      else 0) = Nat.ofDigits (2 ^ bitsOf selector) ((deltas base ints).take (nintsOf selector)) := by
  obtain ⟨hfit, hpos, hmax, -⟩ := modes_ok selector hsel
  have hdslen := length_packed base selector hlen
  have hlt := packed_lt hwide
  generalize hds : (deltas base ints).take (nintsOf selector) = ds at hdslen hlt ⊢
  have hget : ∀ j, j < nintsOf selector → ds.getD j 0 = (deltas base ints).getD j 0 := by
    intro j hj
    rw [← hds, List.getD_eq_getElem?_getD, List.getElem?_take_of_lt hj, ← List.getD_eq_getElem?_getD]
  obtain ⟨d, rest, rfl⟩ : ∃ d rest, ds = d :: rest := List.exists_cons_of_length_pos (by omega)
  by_cases hbits : 0 < bitsOf selector
  · have hpack := packLoop_spec ints (by rwa [hdslen]) hlt (fun i hi => by
      rw [hget _ (by omega), deltas_succ h (by omega)]) (nintsOf selector - 1) (by omega)
    have hdrop : (d :: rest).drop (nintsOf selector - 1 + 1) = [] := List.drop_eq_nil_of_le (by omega)
    rw [hdrop, Nat.ofDigits_nil, Nat.mul_zero] at hpack
    have hfirst : diff64 (ints.getD 0 0) base = d := by
      rw [← deltas_zero h (by omega), ← hget 0 hpos]
      rfl
    rw [if_pos hbits, hpack, hfirst, or_eq_add (hlt d List.mem_cons_self), Nat.ofDigits_cons]
    exact Nat.add_comm _ _
  · have hzero : bitsOf selector = 0 := by omega
    rw [if_neg hbits]
    rw [hzero] at hlt ⊢
    rw [eq_replicate_zero hlt]
    exact Nat.ofDigits_replicate_zero.symm

/-- What a codeword is read as, by both readers: its selector, and that it is not the empty one. -/
theorem encode_selector {bits n T P : Nat} (hfit : bits * n ≤ 60) (hP : P < 2 ^ (bits * n)) (hT : T < 16)
    (hrun : T = 0 → bits = 0) :
    (P ||| (T <<< 60) % 2 ^ 64) = P + 2 ^ (bits * n) * (2 ^ (60 - bits * n) * T) ∧
    (P ||| (T <<< 60) % 2 ^ 64) >>> 60 = T ∧ (P ||| (T <<< 60) % 2 ^ 64) ≠ EMPTY_CODEWORD := by
  have hP60 : P < 2 ^ 60 := Nat.lt_of_lt_of_le hP (Nat.pow_le_pow_right (by decide) hfit)
  have hword : (P ||| (T <<< 60) % 2 ^ 64) = 2 ^ 60 * T + P := by
    rw [Nat.shiftLeft_eq, Nat.mul_comm T, Nat.mod_eq_of_lt (by omega), Nat.or_comm]
    exact or_eq_add hP60
  have hpow : 2 ^ (bits * n) * (2 ^ (60 - bits * n) * T) = 2 ^ 60 * T := by
    rw [← Nat.mul_assoc, ← Nat.pow_add, Nat.add_sub_cancel' hfit]
  rw [hword, hpow, Nat.shiftRight_eq_div_pow]
  refine ⟨Nat.add_comm _ _, by omega, ?_⟩
  have hempty : EMPTY_CODEWORD = 2 ^ 60 - 1 := by decide
  rw [hempty]
  rcases Nat.eq_zero_or_pos T with rfl | hpos
  · rw [hrun rfl, Nat.zero_mul] at hP
    omega
  · omega

/-- The encoder never takes more than it was promised. -/
theorem simple8b_encode_le (ints : List Nat) (base : Nat) :
    (simple8b_encode ints base).2 ≤ SIMPLE8B_MAX_VALUES_PER_CODEWORD := by
  unfold simple8b_encode
  dsimp only
  split
  · exact Nat.zero_le _
  · exact nintsOf_le _

/-- **What is encoded** is decoded, and the search in the codeword finds it and nothing else. -/
theorem simple8b_spec (h : Above base ints) (hlen : 240 ≤ ints.length) :
    simple8b_decode (simple8b_encode ints base).1 base = ints.take (simple8b_encode ints base).2 ∧
    ∀ key, base < key → key < 2 ^ 64 →
      simple8b_contains (simple8b_encode ints base).1 key base =
        decide (key ∈ ints.take (simple8b_encode ints base).2) := by
  have hmode := selectMode_spec h hlen 0 0 (diff64 (ints.getD 0 0) base) (ints.getD 0 0) (by decide)
    (deltas_zero h (by omega)).symm rfl (fun j hj => absurd hj (Nat.not_lt_zero j))
  generalize hs : selectMode ints 0 0 (diff64 (ints.getD 0 0) base) (ints.getD 0 0) = selector at hmode
  by_cases hnone : nintsOf selector = 0
  · have henc : simple8b_encode ints base = (EMPTY_CODEWORD, 0) := by
      unfold simple8b_encode
      rw [hs]
      exact if_pos hnone
    rw [henc]
    refine ⟨?_, fun key _ _ => ?_⟩
    · unfold simple8b_decode
      rw [if_pos rfl]
      rfl
    · unfold simple8b_contains
      rw [if_pos rfl]
      rfl
  · have hsel : selector < 16 := lt_of_nintsOf (Nat.pos_of_ne_zero hnone)
    obtain ⟨hfit, hpos, hmax, -⟩ := modes_ok selector hsel
    have hword := encode_word h hlen hsel hmode
    have hnums : sums base ((deltas base ints).take (nintsOf selector)) = ints.take (nintsOf selector) := by
      rw [← deltas_take]
      exact sums_deltas (h.take _)
    have hdslen := length_packed base selector hlen
    have hlt := packed_lt hmode
    generalize (deltas base ints).take (nintsOf selector) = ds at hword hnums hdslen hlt
    have hdigits := ofDigits_lt hlt
    rw [hdslen] at hdigits
    obtain ⟨hval, hshift, hne⟩ := encode_selector hfit hdigits hsel fun hfirst => by rw [hfirst]; rfl
    have henc : simple8b_encode ints base =
        (Nat.ofDigits (2 ^ bitsOf selector) ds ||| (selector <<< 60) % 2 ^ 64, nintsOf selector) := by
      unfold simple8b_encode
      rw [hs]
      dsimp only
      rw [if_neg hnone, hword]
    have hsum : ∀ v ∈ sums base ds, v < 2 ^ 64 := by
      rw [hnums]
      exact fun v hv => h.2 v (List.mem_of_mem_take hv)
    rw [henc]
    dsimp only
    refine ⟨?_, fun key hkey hkey64 => ?_⟩
    · unfold simple8b_decode
      dsimp only
      rw [if_neg hne, hshift, hval, ← hdslen, decodeLoop_spec ds base hlt hsum, hnums, hdslen]
    · unfold simple8b_contains
      dsimp only
      rw [if_neg hne, hshift]
      by_cases hbits : bitsOf selector = 0
      · rw [hbits] at hlt
        rw [if_pos hbits, ← hnums, eq_replicate_zero hlt, hdslen]
        refine decide_eq_decide.mpr ?_
        rw [mem_sums_zero, show key + 2 ^ 64 - base = (key - base) + 2 ^ 64 by omega, Nat.add_mod_right,
          Nat.mod_eq_of_lt (by omega)]
        omega
      · rw [if_neg hbits, hval, ← hdslen, containsLoop_spec ds base hlt hsum, hnums, hdslen]

end Word

end Pgvec.Intset
