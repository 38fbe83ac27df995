/-
  File:      Pgvec/Lib/BitWords.lean
  Subject:   SETS OF NUMBERS AS THE BITS OF A LIST OF WORDS.

  Word `i` holds the members from `w * i` on. Read as one number, the list is the sum of `2 ^ x` over its
  members: so the order of such numbers is the colexicographic order of the sets.

  * `mem_members` -- which bit stands for a member; `members_eq_of_word` and what follows it -- the set behind
    a list whose words are combined one by one;
  * `Trimmed`, `eq_of_members` -- without a last zero word a list is determined by its set;
  * `value_lt_value_iff` -- the order; `card_below` -- members counted word by word.
-/
import Mathlib.Combinatorics.Colex
import Mathlib.Data.Nat.Bitwise
import Mathlib.Tactic.Ring

namespace Pgvec.BitWords

variable {w : Nat}

/-! ## 1. One word -/

/-- The numbers of the bits that are one. -/
def bits (b : BitVec w) : Finset Nat := {i ∈ Finset.range w | b.getLsbD i = true}

theorem mem_bits {b : BitVec w} {i : Nat} : i ∈ bits b ↔ b.getLsbD i = true := by
  refine ⟨fun h => (Finset.mem_filter.mp h).2, fun h => Finset.mem_filter.mpr ⟨Finset.mem_range.mpr ?_, h⟩⟩
  exact BitVec.lt_of_getLsbD h

@[simp] theorem getLsbD_zero (j : Nat) : (0 : BitVec w).getLsbD j = false := BitVec.getLsbD_zero

theorem exists_bit {b : BitVec w} (h : b ≠ 0) : ∃ i < w, b.getLsbD i = true := by
  by_contra hn
  push Not at hn
  refine h (BitVec.eq_of_getLsbD_eq fun i hi => ?_)
  rw [Bool.eq_false_iff.mpr (hn i hi)]
  simp

theorem bits_eq_empty {b : BitVec w} : bits b = ∅ ↔ b = 0 := by
  refine ⟨fun h => ?_, fun h => ?_⟩
  · by_contra hb
    obtain ⟨i, -, hi⟩ := exists_bit hb
    exact absurd (mem_bits.mpr hi) (h ▸ Finset.notMem_empty i)
  · subst h
    exact Finset.eq_empty_of_forall_notMem fun i hi => by simpa using mem_bits.mp hi

theorem getLsbD_one_shiftLeft {i : Nat} (hi : i < w) (j : Nat) :
    (1#w <<< i).getLsbD j = decide (i = j) := by
  rw [← BitVec.twoPow_eq, BitVec.getLsbD_twoPow]
  simp [hi]

/-- The ones from some bit on. -/
theorem getLsbD_not_low {l : Nat} (hl : l < w) (j : Nat) :
    (~~~(1#w <<< l - 1#w)).getLsbD j = decide (l ≤ j ∧ j < w) := by
  have hlt : 2 ^ l < 2 ^ w := Nat.pow_lt_pow_right (by decide) hl
  have hone : 1 < 2 ^ w := Nat.one_lt_two_pow (by omega)
  have hpos := Nat.two_pow_pos l
  have hnat : (1#w <<< l - 1#w).toNat = 2 ^ l - 1 := by
    rw [BitVec.toNat_sub_of_le, ← BitVec.twoPow_eq, BitVec.toNat_twoPow, BitVec.toNat_ofNat, Nat.mod_eq_of_lt hlt,
      Nat.mod_eq_of_lt hone]
    rw [BitVec.le_def, ← BitVec.twoPow_eq, BitVec.toNat_twoPow, BitVec.toNat_ofNat, Nat.mod_eq_of_lt hlt,
      Nat.mod_eq_of_lt hone]
    exact hpos
  rw [BitVec.getLsbD_not, BitVec.getLsbD, hnat, Nat.testBit_two_pow_sub_one]
  by_cases hj : j < w <;> by_cases hlj : j < l <;> simp [hj, hlj, Nat.not_le.mpr, Nat.not_lt.mp]

/-- The ones up to some bit. -/
theorem getLsbD_allOnes_shift {u : Nat} (hu : u < w) (j : Nat) :
    (BitVec.allOnes w >>> (w - (u + 1))).getLsbD j = decide (j ≤ u) := by
  rw [BitVec.getLsbD_ushiftRight, BitVec.getLsbD_allOnes]
  exact decide_eq_decide.mpr (by omega)

theorem getLsbD_allOnes_shiftLeft (l j : Nat) :
    (BitVec.allOnes w <<< l).getLsbD j = decide (l ≤ j ∧ j < w) := by
  rw [BitVec.getLsbD_shiftLeft, BitVec.getLsbD_allOnes]
  have : j < w → j - l < w := by omega
  grind

/-- The lowest one, as `x & -x` isolates it. -/
theorem and_neg_eq {b : BitVec w} (h : b ≠ 0) : b &&& -b = 1#w <<< b.ctz.toNat := by
  have hlow := BitVec.getLsbD_true_ctz_of_ne_zero h
  have hlt := BitVec.lt_of_getLsbD hlow
  refine BitVec.eq_of_getLsbD_eq fun j hj => ?_
  rw [BitVec.getLsbD_and, BitVec.getLsbD_neg, getLsbD_one_shiftLeft hlt]
  rcases Nat.lt_trichotomy j b.ctz.toNat with hlj | hlj | hlj
  · rw [BitVec.getLsbD_false_of_lt_ctz hlj]
    simp
    omega
  · have hnone : ¬∃ k < j, b.getLsbD k = true := by
      intro ⟨k, hk, hb⟩
      rw [BitVec.getLsbD_false_of_lt_ctz (hlj ▸ hk)] at hb
      exact Bool.false_ne_true hb
    subst hlj
    simp [hlow, hj, hnone]
  · have hsome : ∃ k < j, b.getLsbD k = true := ⟨_, hlj, hlow⟩
    simp only [hsome, decide_true]
    have : ¬b.ctz.toNat = j := by omega
    cases b.getLsbD j <;> simp [this, hj]

theorem bits_one_shiftLeft {i : Nat} (hi : i < w) : bits (1#w <<< i) = {i} := by
  ext j
  rw [mem_bits, getLsbD_one_shiftLeft hi, Finset.mem_singleton, decide_eq_true_eq, eq_comm]

/-- `x & -x` differs from `x` where `x` has a second one. -/
theorem and_neg_ne_iff {b : BitVec w} (h : b ≠ 0) : b &&& -b ≠ b ↔ 1 < (bits b).card := by
  have hlow := BitVec.getLsbD_true_ctz_of_ne_zero h
  have hlt := BitVec.lt_of_getLsbD hlow
  rw [and_neg_eq h]
  have hmem : b.ctz.toNat ∈ bits b := mem_bits.mpr hlow
  refine ⟨fun hne => ?_, fun hcard heq => ?_⟩
  · refine Finset.one_lt_card.mpr ?_
    by_contra hall
    push Not at hall
    refine hne (BitVec.eq_of_getLsbD_eq fun j _ => ?_)
    rw [getLsbD_one_shiftLeft hlt]
    cases hj : b.getLsbD j with
    | true => exact decide_eq_true (hall _ hmem _ (mem_bits.mpr hj))
    | false =>
        refine decide_eq_false fun hk => ?_
        rw [hk, hj] at hlow
        exact Bool.false_ne_true hlow
  · rw [← heq, bits_one_shiftLeft hlt, Finset.card_singleton] at hcard
    exact Nat.lt_irrefl 1 hcard

theorem cpopNatRec_eq_card (b : BitVec w) (n : Nat) :
    b.cpopNatRec n 0 = {i ∈ Finset.range n | b.getLsbD i = true}.card := by
  induction n with
  | zero => rfl
  | succ n ih =>
      rw [BitVec.cpopNatRec_succ, BitVec.cpopNatRec_eq, ih, Finset.range_add_one, Finset.filter_insert]
      split_ifs with h
      · rw [Finset.card_insert_of_notMem fun hn => Finset.notMem_range_self (Finset.mem_filter.mp hn).1]
        simp [h]
      · simp [h]

theorem cpop_eq_card (b : BitVec w) : b.cpop.toNat = (bits b).card := by
  rw [BitVec.toNat_cpop, cpopNatRec_eq_card, bits]

/-! ## 2. A list of words -/

/-- The `i`-th word; there is nothing behind the last one. -/
def word (ws : List (BitVec w)) (i : Nat) : BitVec w := ws.getD i 0

theorem word_of_le {ws : List (BitVec w)} {i : Nat} (h : ws.length ≤ i) : word ws i = 0 := by
  rw [word, List.getD_eq_default _ _ h]

theorem lt_of_word_ne {ws : List (BitVec w)} {i : Nat} (h : word ws i ≠ 0) : i < ws.length := by
  by_contra hn
  exact h (word_of_le (by omega))

theorem word_cons_zero (b : BitVec w) (ws : List (BitVec w)) : word (b :: ws) 0 = b := rfl

theorem word_cons_succ (b : BitVec w) (ws : List (BitVec w)) (i : Nat) : word (b :: ws) (i + 1) = word ws i := rfl

theorem word_take (ws : List (BitVec w)) (n i : Nat) : word (ws.take n) i = if i < n then word ws i else 0 := by
  simp only [word, List.getD_eq_getElem?_getD, List.getElem?_take]
  split_ifs <;> rfl

theorem word_drop (ws : List (BitVec w)) (n i : Nat) : word (ws.drop n) i = word ws (n + i) := by
  simp only [word, List.getD_eq_getElem?_getD, List.getElem?_drop]

theorem word_append_replicate (ws : List (BitVec w)) (n i : Nat) : word (ws ++ List.replicate n 0) i = word ws i := by
  simp only [word, List.getD_eq_getElem?_getD]
  rcases Nat.lt_or_ge i ws.length with h | h
  · rw [List.getElem?_append_left h]
  · rw [List.getElem?_append_right h, List.getElem?_eq_none h, List.getElem?_replicate]
    split_ifs <;> rfl

theorem word_modify {ws : List (BitVec w)} {n : Nat} (h : n < ws.length) (f : BitVec w → BitVec w) (i : Nat) :
    word (ws.modify n f) i = if i = n then f (word ws i) else word ws i := by
  simp only [word, List.getD_eq_getElem?_getD, List.getElem?_modify]
  split_ifs with h1 h2 h2
  · subst h1
    rw [List.getElem?_eq_getElem h]
    rfl
  · exact absurd h1.symm h2
  · exact absurd h2.symm h1
  · simp

/-- Two lists of one length, with the same words, are one list. -/
theorem eq_of_word {a b : List (BitVec w)} (hlen : a.length = b.length) (h : ∀ i < a.length, word a i = word b i) :
    a = b := by
  refine List.ext_getElem hlen fun i hi hi' => ?_
  have := h i hi
  rwa [word, word, List.getD_eq_getElem _ _ hi, List.getD_eq_getElem _ _ hi'] at this

/-- The words as one number. -/
def value : List (BitVec w) → Nat
  | [] => 0
  | b :: ws => b.toNat + 2 ^ w * value ws

theorem testBit_value (hw : 0 < w) (ws : List (BitVec w)) :
    ∀ x, (value ws).testBit x = (word ws (x / w)).getLsbD (x % w) := by
  induction ws with
  | nil => intro x; simp [value, word]
  | cons b ws ih =>
      intro x
      rw [value, Nat.add_comm, Nat.testBit_two_pow_mul_add _ b.isLt]
      split_ifs with hx
      · rw [Nat.div_eq_of_lt hx, Nat.mod_eq_of_lt hx, word_cons_zero]
        rfl
      · have hdiv : x / w = (x - w) / w + 1 := Nat.div_eq_sub_div hw (by omega)
        have hmod : x % w = (x - w) % w := Nat.mod_eq_sub_mod (by omega)
        rw [ih, hdiv, hmod, word_cons_succ]

/-- **The set that a list of words stands for.** -/
def members (ws : List (BitVec w)) : Finset Nat := (value ws).bitIndices.toFinset

theorem mem_members (hw : 0 < w) {ws : List (BitVec w)} {x : Nat} :
    x ∈ members ws ↔ (word ws (x / w)).getLsbD (x % w) = true := by
  rw [members, List.mem_toFinset, Nat.mem_bitIndices, testBit_value hw]

theorem mem_members_mul (hw : 0 < w) {ws : List (BitVec w)} {i j : Nat} (hj : j < w) :
    w * i + j ∈ members ws ↔ (word ws i).getLsbD j = true := by
  rw [mem_members hw, Nat.mul_add_div hw, Nat.div_eq_of_lt hj, Nat.mul_add_mod, Nat.mod_eq_of_lt hj, Nat.add_zero]

theorem lt_of_mem (hw : 0 < w) {ws : List (BitVec w)} {x : Nat} (h : x ∈ members ws) : x < w * ws.length := by
  have hlt : x / w < ws.length := by
    refine lt_of_word_ne fun h0 => ?_
    rw [mem_members hw, h0] at h
    simp at h
  have := Nat.div_add_mod x w
  have := Nat.mod_lt x hw
  calc x < w * (x / w) + w := by omega
    _ = w * (x / w + 1) := (Nat.mul_succ w (x / w)).symm
    _ ≤ w * ws.length := Nat.mul_le_mul_left w hlt

/-- Two words agree where the lists have the same members. -/
theorem word_eq_of_members (hw : 0 < w) {a b : List (BitVec w)} (h : members a = members b) (i : Nat) :
    word a i = word b i := by
  refine BitVec.eq_of_getLsbD_eq fun j hj => Bool.eq_iff_iff.mpr ?_
  rw [← mem_members_mul hw hj, ← mem_members_mul hw hj, h]

theorem members_eq_empty (hw : 0 < w) {ws : List (BitVec w)} (h : ∀ i, word ws i = 0) : members ws = ∅ := by
  refine Finset.eq_empty_of_forall_notMem fun x hx => ?_
  rw [mem_members hw, h] at hx
  simp at hx

/-! ### Words combined one by one -/

section Combine

variable (hw : 0 < w) {a b r : List (BitVec w)}

include hw

theorem members_or (h : ∀ i, word r i = word a i ||| word b i) : members r = members a ∪ members b := by
  ext x
  rw [Finset.mem_union, mem_members hw, mem_members hw, mem_members hw, h, BitVec.getLsbD_or, Bool.or_eq_true]

theorem members_and (h : ∀ i, word r i = word a i &&& word b i) : members r = members a ∩ members b := by
  ext x
  rw [Finset.mem_inter, mem_members hw, mem_members hw, mem_members hw, h, BitVec.getLsbD_and, Bool.and_eq_true]

theorem members_and_not (h : ∀ i, word r i = word a i &&& ~~~word b i) : members r = members a \ members b := by
  ext x
  rw [Finset.mem_sdiff, mem_members hw, mem_members hw, mem_members hw, h, BitVec.getLsbD_and, Bool.and_eq_true,
    BitVec.getLsbD_not, decide_eq_true (Nat.mod_lt x hw), Bool.true_and, Bool.not_eq_true']
  simp

theorem members_congr (h : ∀ i, word r i = word a i) : members r = members a := by
  ext x
  rw [mem_members hw, mem_members hw, h]

/-- No word of `a` has a one that `b` has not. -/
theorem members_subset_iff : members a ⊆ members b ↔ ∀ i, word a i &&& ~~~word b i = 0 := by
  refine ⟨fun h i => BitVec.eq_of_getLsbD_eq fun j hj => ?_, fun h x hx => ?_⟩
  · rw [BitVec.getLsbD_and, BitVec.getLsbD_not, getLsbD_zero]
    have := @h (w * i + j)
    rw [mem_members_mul hw hj, mem_members_mul hw hj] at this
    cases hb : (word a i).getLsbD j
    · rfl
    · simp [this hb]
  · rw [mem_members hw] at hx ⊢
    have := congrArg (·.getLsbD (x % w)) (h (x / w))
    simp only [BitVec.getLsbD_and, BitVec.getLsbD_not, hx, decide_eq_true (Nat.mod_lt x hw), getLsbD_zero,
      Bool.true_and, Bool.not_eq_false'] at this
    exact this

theorem disjoint_iff : Disjoint (members a) (members b) ↔ ∀ i, word a i &&& word b i = 0 := by
  rw [Finset.disjoint_left]
  refine ⟨fun h i => BitVec.eq_of_getLsbD_eq fun j hj => ?_, fun h x hx hx' => ?_⟩
  · have := @h (w * i + j)
    rw [mem_members_mul hw hj, mem_members_mul hw hj] at this
    rw [BitVec.getLsbD_and, getLsbD_zero]
    cases ha : (word a i).getLsbD j
    · rfl
    · simp [this ha]
  · rw [mem_members hw] at hx hx'
    have := congrArg (·.getLsbD (x % w)) (h (x / w))
    simp [hx, hx'] at this

end Combine

/-! ## 3. Lists without a last zero word -/

/-- There is a last word, and it is not zero. -/
def Trimmed (ws : List (BitVec w)) : Prop := 0 < ws.length ∧ word ws (ws.length - 1) ≠ 0

theorem trimmed_of_length {ws : List (BitVec w)} {n : Nat} (hlen : ws.length = n + 1) (h : word ws n ≠ 0) :
    Trimmed ws := by
  refine ⟨by omega, ?_⟩
  rwa [hlen]

theorem trimmed_take {ws : List (BitVec w)} {n : Nat} (h : word ws n ≠ 0) : Trimmed (ws.take (n + 1)) := by
  have := lt_of_word_ne h
  refine trimmed_of_length (n := n) (by rw [List.length_take]; omega) ?_
  rwa [word_take, if_pos n.lt_succ_self]

theorem Trimmed.nonempty (hw : 0 < w) {ws : List (BitVec w)} (h : Trimmed ws) : (members ws).Nonempty := by
  obtain ⟨j, hj, hbit⟩ := exists_bit h.2
  exact ⟨_, (mem_members_mul hw hj).mpr hbit⟩

/-- No other list of words stands for the members of one that is longer and trimmed. -/
theorem Trimmed.not_subset (hw : 0 < w) {a b : List (BitVec w)} (ha : Trimmed a) (hlen : b.length < a.length) :
    ¬members a ⊆ members b := by
  intro hsub
  have h0 := (members_subset_iff hw).mp hsub (a.length - 1)
  have hb : word b (a.length - 1) = 0 := word_of_le (by omega)
  rw [hb] at h0
  refine ha.2 ?_
  simpa using h0

theorem eq_of_members (hw : 0 < w) {a b : List (BitVec w)} (ha : Trimmed a) (hb : Trimmed b)
    (h : members a = members b) : a = b := by
  refine eq_of_word ?_ fun i _ => word_eq_of_members hw h i
  rcases Nat.lt_trichotomy a.length b.length with hlt | heq | hgt
  · exact absurd h.ge (hb.not_subset hw hlt)
  · exact heq
  · exact absurd h.le (ha.not_subset hw hgt)

/-! ## 4. The order -/

theorem value_take_succ (ws : List (BitVec w)) :
    ∀ n, value (ws.take (n + 1)) = value (ws.take n) + 2 ^ (w * n) * (word ws n).toNat := by
  induction ws with
  | nil => intro n; simp [value, word]
  | cons b ws ih =>
      intro n
      cases n with
      | zero => simp [value, word_cons_zero]
      | succ n =>
          rw [List.take_succ_cons, List.take_succ_cons, value, value, ih n, word_cons_succ, Nat.mul_succ, Nat.pow_add]
          ring

theorem value_take_lt (ws : List (BitVec w)) (n : Nat) : value (ws.take n) < 2 ^ (w * n) := by
  induction n with
  | zero => simp [value]
  | succ n ih =>
      have hb := (word ws n).isLt
      rw [value_take_succ, Nat.mul_succ, Nat.pow_add]
      calc value (ws.take n) + 2 ^ (w * n) * (word ws n).toNat
          < 2 ^ (w * n) + 2 ^ (w * n) * (word ws n).toNat := by omega
        _ = 2 ^ (w * n) * ((word ws n).toNat + 1) := by ring
        _ ≤ 2 ^ (w * n) * 2 ^ w := Nat.mul_le_mul_left _ hb

theorem value_lt (ws : List (BitVec w)) : value ws < 2 ^ (w * ws.length) := by
  have := value_take_lt ws ws.length
  rwa [List.take_length] at this

/-- The order of the first words is decided by the last of them in which the lists differ. -/
theorem value_take_lt_of_word {a b : List (BitVec w)} {n : Nat} (h : (word a n).toNat < (word b n).toNat) :
    value (a.take (n + 1)) < value (b.take (n + 1)) := by
  have ha := value_take_lt a n
  rw [value_take_succ, value_take_succ]
  calc value (a.take n) + 2 ^ (w * n) * (word a n).toNat
      < 2 ^ (w * n) + 2 ^ (w * n) * (word a n).toNat := by omega
    _ = 2 ^ (w * n) * ((word a n).toNat + 1) := by ring
    _ ≤ 2 ^ (w * n) * (word b n).toNat := Nat.mul_le_mul_left _ h
    _ ≤ value (b.take n) + 2 ^ (w * n) * (word b n).toNat := Nat.le_add_left _ _

theorem value_lt_of_length {a b : List (BitVec w)} (hb : Trimmed b) (h : a.length < b.length) : value a < value b := by
  have hne : (word b (b.length - 1)).toNat ≠ 0 := fun h0 => hb.2 (BitVec.eq_of_toNat_eq h0)
  have hlast := value_take_succ b (b.length - 1)
  rw [show b.length - 1 + 1 = b.length by omega, List.take_length] at hlast
  calc value a < 2 ^ (w * a.length) := value_lt a
    _ ≤ 2 ^ (w * (b.length - 1)) := Nat.pow_le_pow_right (by decide) (Nat.mul_le_mul_left _ (by omega))
    _ ≤ 2 ^ (w * (b.length - 1)) * (word b (b.length - 1)).toNat := Nat.le_mul_of_pos_right _ (by omega)
    _ ≤ value b := by omega

/-- **The order of the numbers is the colexicographic order of the sets.** -/
theorem value_lt_value_iff {a b : List (BitVec w)} :
    value a < value b ↔ toColex (members a) < toColex (members b) :=
  (Finset.orderIsoColex.lt_iff_lt (x := value a) (y := value b)).symm

/-! ## 5. Members counted -/

/-- The members below word `n`, counted word by word. -/
theorem card_below_words (hw : 0 < w) (ws : List (BitVec w)) (n : Nat) :
    {x ∈ members ws | x < w * n}.card = ∑ i ∈ Finset.range n, (bits (word ws i)).card := by
  induction n with
  | zero => simp
  | succ n ih =>
      rw [Finset.sum_range_succ, ← ih, ← Finset.card_map (addLeftEmbedding (w * n)) (s := bits (word ws n)),
        ← Finset.card_union_of_disjoint]
      · congr 1
        ext x
        rw [Finset.mem_union, Finset.mem_filter, Finset.mem_filter, Finset.mem_map, Nat.mul_succ]
        refine ⟨fun ⟨hx, hlt⟩ => ?_, fun h => ?_⟩
        · rcases Nat.lt_or_ge x (w * n) with hxn | hxn
          · exact .inl ⟨hx, hxn⟩
          · obtain ⟨j, rfl⟩ := Nat.exists_eq_add_of_le hxn
            exact .inr ⟨j, mem_bits.mpr ((mem_members_mul hw (by omega)).mp hx), rfl⟩
        · rcases h with ⟨hx, hlt⟩ | ⟨j, hj, rfl⟩
          · exact ⟨hx, by omega⟩
          · have hbit := mem_bits.mp hj
            have hjw := BitVec.lt_of_getLsbD hbit
            exact ⟨(mem_members_mul hw hjw).mpr hbit, by rw [addLeftEmbedding_apply]; omega⟩
      · refine Finset.disjoint_left.mpr fun x hx hx' => ?_
        obtain ⟨j, -, rfl⟩ := Finset.mem_map.mp hx'
        have := (Finset.mem_filter.mp hx).2
        rw [addLeftEmbedding_apply] at this
        omega

/-- The members below some bit of word `n`. -/
theorem card_below (hw : 0 < w) (ws : List (BitVec w)) (n : Nat) {j : Nat} (hj : j < w) :
    {x ∈ members ws | x < w * n + j}.card =
      ∑ i ∈ Finset.range n, (bits (word ws i)).card + (bits (word ws n &&& (1#w <<< j - 1#w))).card := by
  have hlow : ∀ k, (1#w <<< j - 1#w).getLsbD k = decide (k < j) := by
    intro k
    have := getLsbD_not_low hj k
    rw [BitVec.getLsbD_not] at this
    have hk : k < w ∨ (1#w <<< j - 1#w).getLsbD k = false := by
      rcases Nat.lt_or_ge k w with hk | hk
      · exact .inl hk
      · exact .inr (BitVec.getLsbD_of_ge _ _ hk)
    grind
  rw [← card_below_words hw, ← Finset.card_map (addLeftEmbedding (w * n)) (s := bits (_ &&& _)),
    ← Finset.card_union_of_disjoint]
  · congr 1
    ext x
    rw [Finset.mem_union, Finset.mem_filter, Finset.mem_filter, Finset.mem_map]
    simp only [mem_bits, BitVec.getLsbD_and, hlow, Bool.and_eq_true, decide_eq_true_eq, addLeftEmbedding_apply]
    refine ⟨fun ⟨hx, hlt⟩ => ?_, fun h => ?_⟩
    · rcases Nat.lt_or_ge x (w * n) with hxn | hxn
      · exact .inl ⟨hx, hxn⟩
      · obtain ⟨k, rfl⟩ := Nat.exists_eq_add_of_le hxn
        exact .inr ⟨k, ⟨(mem_members_mul hw (by omega)).mp hx, by omega⟩, rfl⟩
    · rcases h with ⟨hx, hlt⟩ | ⟨k, ⟨hbit, hk⟩, rfl⟩
      · exact ⟨hx, by omega⟩
      · exact ⟨(mem_members_mul hw (by omega)).mpr hbit, by omega⟩
  · refine Finset.disjoint_left.mpr fun x hx hx' => ?_
    obtain ⟨k, -, rfl⟩ := Finset.mem_map.mp hx'
    have := (Finset.mem_filter.mp hx).2
    rw [addLeftEmbedding_apply] at this
    omega

end Pgvec.BitWords
