/-
  File:      Pgvec/Nodes/BitmapsetQueries.lean
  Subject:   WHAT BITMAPSETS ANSWER (`src/backend/nodes/bitmapset.c`), and every run of the operations on them.

  Each query, on arrays that stand for sets (`Holds`), is the question about the sets. The order of
  `bms_compare` is the colexicographic one: the highest member that is in one set only decides.

  `bms_next_member` adds one to `prevbit` first. At `INT_MAX` that wraps, and it reads a word far in front of
  the array: so the loop over a set that holds `INT_MAX` does not end as its comment says.

  * `SetTerm`, `SetTerm.eval_holds` -- every term of the operations is carried out, and stands for its meaning;
  * `Agrees` -- the answers are the finite-set ones; **`agrees_iff`** -- when;  `iteration_leaves_array`.
-/
import Pgvec.Nodes.BitmapsetFacts
import Mathlib

namespace Pgvec.Bms

open Pgvec.BitWords BMS_Comparison BMS_Membership

variable {a b c : Bitmapset} {A B C : Finset Nat} {as bs ws : List bitmapword}

/-! ## 1. Two sets -/

theorem equalLoop_iff (as bs : List bitmapword) (h : as.length = bs.length) : equalLoop as bs = true ↔ as = bs := by
  fun_induction equalLoop as bs with
  | case1 a as b bs hne => exact iff_of_false Bool.false_ne_true fun h => hne (List.cons_eq_cons.mp h).1
  | case2 a as b bs heq ih => rw [ih (by simpa using h), not_not.mp heq, List.cons_eq_cons, and_iff_right rfl]
  | case3 as bs hno =>
      cases as with
      | nil => exact iff_of_true rfl (List.length_eq_zero_iff.mp h.symm).symm
      | cons a as =>
          cases bs with
          | nil => cases h
          | cons b bs => exact absurd rfl (hno a as b bs rfl)

theorem Holds.unique (ha : Holds a A) (hb : Holds b B) : A = B ↔ a = b := by
  cases ha with
  | null =>
      cases hb with
      | null => exact iff_of_true rfl rfl
      | words hb => exact iff_of_false (hb.nonempty (by decide)).ne_empty.symm nofun
  | words ha =>
      cases hb with
      | null => exact iff_of_false (ha.nonempty (by decide)).ne_empty nofun
      | words hb => exact ⟨fun h => congrArg some (eq_of_members (by decide) ha hb h), fun h => by cases h; rfl⟩

theorem equal_iff (ha : Holds a A) (hb : Holds b B) : bms_equal a b = true ↔ A = B := by
  rw [ha.unique hb]
  cases a with
  | none => cases b <;> simp [bms_equal]
  | some as =>
      cases b with
      | none => simp [bms_equal]
      | some bs =>
          rw [bms_equal, Option.some.injEq]
          split_ifs with hlen
          · exact iff_of_false (by simp) fun h => hlen (congrArg List.length h)
          · exact equalLoop_iff as bs (not_not.mp hlen)

/-- The answer of a comparator. -/
def comparison {α : Type} [LT α] [DecidableLT α] (x y : α) : Int := if x < y then -1 else if y < x then 1 else 0

/-- From word `n - 1` down, as the numbers of the first `n` words compare. -/
theorem compareLoop_eq (as bs : List bitmapword) (n : Nat) :
    compareLoop as bs n = comparison (value (as.take n)) (value (bs.take n)) := by
  induction n with
  | zero => rfl
  | succ n ih =>
      rw [compareLoop, show wordAt = word from rfl]
      rcases Nat.lt_trichotomy (word as n).toNat (word bs n).toNat with hlt | heq | hgt
      · have hv := value_take_lt_of_word hlt
        rw [if_pos fun h => absurd (congrArg BitVec.toNat h) (by exact hlt.ne), if_neg, comparison, if_pos hv]
        exact fun h => absurd (BitVec.lt_def.mp h) (by exact hlt.asymm)
      · rw [if_neg (not_not.mpr (BitVec.eq_of_toNat_eq heq)), ih, comparison, comparison, value_take_succ, value_take_succ,
          heq]
        simp only [Nat.add_lt_add_iff_right]
      · have hv := value_take_lt_of_word hgt
        rw [if_pos fun h => absurd (congrArg BitVec.toNat h) (by exact hgt.ne'), if_pos (BitVec.lt_def.mpr hgt),
          comparison, if_neg hv.asymm, if_pos hv]

/-- **`bms_compare`** is the colexicographic order. -/
theorem compare_eq (ha : Holds a A) (hb : Holds b B) : bms_compare a b = comparison (toColex A) (toColex B) := by
  have hempty : ∀ {S : Finset Nat}, S.Nonempty → toColex ∅ < toColex S := by
    intro S hS
    rw [Finset.Colex.toColex_lt_toColex_iff_exists_forall_lt]
    obtain ⟨x, hx⟩ := hS
    exact ⟨x, hx, Finset.notMem_empty x, fun y hy => absurd hy (Finset.notMem_empty y)⟩
  cases ha with
  | null =>
      cases hb with
      | null => rw [comparison, if_neg (lt_irrefl _), if_neg (lt_irrefl _), bms_compare]
      | words hb => rw [comparison, if_pos (hempty (hb.nonempty (by decide))), bms_compare]
  | @words as ha =>
      cases hb with
      | null =>
          have hlt := hempty (ha.nonempty (by decide))
          rw [comparison, if_neg hlt.asymm, if_pos hlt, bms_compare]
      | @words bs hb =>
          have hvalue : comparison (toColex (members as)) (toColex (members bs)) = comparison (value as) (value bs) := by
            simp only [comparison, value_lt_value_iff]
          rw [hvalue, bms_compare]
          split_ifs with hlen hgt
          · have hlt := value_lt_of_length ha hgt
            rw [comparison, if_neg hlt.asymm, if_pos hlt]
          · rw [comparison, if_pos (value_lt_of_length hb (by omega))]
          · rw [compareLoop_eq, List.take_length, not_not.mp hlen, List.take_length]

/-- `bms_is_subset` asks the opposite of `bms_nonempty_difference`. -/
theorem isSubsetLoop_eq (as bs : List bitmapword) : isSubsetLoop as bs = !nonemptyDifferenceLoop as bs := by
  fun_induction isSubsetLoop as bs with
  | case1 a as b bs hne => rw [nonemptyDifferenceLoop, if_pos hne, Bool.not_true]
  | case2 a as b bs heq ih => rw [nonemptyDifferenceLoop, if_neg heq, ih]
  | case3 as bs hno =>
      cases as with
      | nil => rfl
      | cons a as =>
          cases bs with
          | nil => rfl
          | cons b bs => exact absurd rfl (hno a as b bs rfl)

theorem is_subset_eq (a b : Bitmapset) : bms_is_subset a b = !bms_nonempty_difference a b := by
  cases a with
  | none => rfl
  | some as =>
      cases b with
      | none => rfl
      | some bs =>
          rw [bms_is_subset, bms_nonempty_difference]
          split_ifs
          · rfl
          · exact isSubsetLoop_eq as bs

theorem is_subset_iff (ha : Holds a A) (hb : Holds b B) : bms_is_subset a b = true ↔ A ⊆ B := by
  rw [is_subset_eq, Bool.not_eq_true', ← Bool.not_eq_true, nonempty_difference_iff ha hb, Finset.sdiff_nonempty, not_not]

/-- The answer about inclusion: `extra1` says that the first has a member that the second has not. -/
def inclusion (extra1 extra2 : Bool) : BMS_Comparison :=
  if extra1 ∧ extra2 then BMS_DIFFERENT
  else if extra1 then BMS_SUBSET2
  else if extra2 then BMS_SUBSET1
  else BMS_EQUAL

/-- The loop of `bms_subset_compare` asks both questions at once about the words in common. -/
theorem subsetCompareLoop_eq (as bs : List bitmapword) (result : BMS_Comparison) :
    result ≠ BMS_DIFFERENT →
    (subsetCompareLoop as bs result).getD BMS_DIFFERENT =
      inclusion (nonemptyDifferenceLoop as bs || decide (result = BMS_SUBSET2))
        (nonemptyDifferenceLoop bs as || decide (result = BMS_SUBSET1)) := by
  fun_induction subsetCompareLoop as bs result with
  | case1 a as b bs result h =>
      intro _
      rw [nonemptyDifferenceLoop, if_pos h.1, h.2]
      simp [inclusion]
  | case2 a as b bs result h1 r h2 =>
      intro _
      have hextra : (nonemptyDifferenceLoop (a :: as) (b :: bs) || decide (result = BMS_SUBSET2)) = true := by
        rw [nonemptyDifferenceLoop, Bool.or_eq_true, decide_eq_true_eq]
        by_cases ha : a &&& ~~~b ≠ 0
        · exact .inl (if_pos ha)
        · exact .inr (by rw [← h2.2]; exact (if_neg ha).symm)
      rw [hextra, nonemptyDifferenceLoop, if_pos h2.1]
      rfl
  | case3 a as b bs result h1 r h2 ih =>
      intro hres
      rw [nonemptyDifferenceLoop, nonemptyDifferenceLoop]
      by_cases ha : a &&& ~~~b ≠ 0
      · have hr : r = BMS_SUBSET2 := if_pos ha
        have hb : ¬b &&& ~~~a ≠ 0 := fun hb => h2 ⟨hb, hr⟩
        have hres1 : result ≠ BMS_SUBSET1 := fun he => h1 ⟨ha, he⟩
        rw [if_neg hb, hr] at ih
        rw [if_neg hb, hr, ih nofun, if_pos ha, if_neg hb]
        simp [hres1]
      · have hr : r = result := if_neg ha
        rw [hr] at ih h2 ⊢
        by_cases hb : b &&& ~~~a ≠ 0
        · have hres2 : result ≠ BMS_SUBSET2 := fun he => h2 ⟨hb, he⟩
          rw [if_pos hb] at ih
          rw [if_pos hb, ih nofun, if_neg ha, if_pos hb]
          simp [hres2]
        · rw [if_neg hb] at ih
          rw [if_neg hb, ih hres, if_neg ha, if_neg hb]
  | case4 as bs result hno =>
      intro hres
      have hnone : nonemptyDifferenceLoop as bs = false ∧ nonemptyDifferenceLoop bs as = false := by
        cases as with
        | nil => cases bs <;> exact ⟨rfl, rfl⟩
        | cons a as =>
            cases bs with
            | nil => exact ⟨rfl, rfl⟩
            | cons b bs => exact absurd rfl (hno a as b bs rfl)
      rw [hnone.1, hnone.2]
      cases result with
      | BMS_EQUAL => rfl
      | BMS_SUBSET1 => rfl
      | BMS_SUBSET2 => rfl
      | BMS_DIFFERENT => exact absurd rfl hres

theorem subsetCompareLoop_ne (as bs : List bitmapword) (result : BMS_Comparison) :
    result ≠ BMS_DIFFERENT → subsetCompareLoop as bs result ≠ some BMS_DIFFERENT := by
  fun_induction subsetCompareLoop as bs result with
  | case1 => exact fun _ => nofun
  | case2 => exact fun _ => nofun
  | case3 a as b bs result h1 r h2 ih =>
      intro hres
      refine ih ?_
      have hr : r ≠ BMS_DIFFERENT := by
        by_cases ha : a &&& ~~~b ≠ 0
        · exact (if_pos ha).trans_ne nofun
        · exact (if_neg ha).trans_ne hres
      split_ifs
      · exact nofun
      · exact hr
  | case4 as bs result hno => exact fun hres h => hres (Option.some.inj h)

theorem subset_compare_eq (a b : Bitmapset) :
    bms_subset_compare a b = inclusion (bms_nonempty_difference a b) (bms_nonempty_difference b a) := by
  cases a with
  | none => cases b <;> rfl
  | some as =>
      cases b with
      | none => rfl
      | some bs =>
          have hloop := subsetCompareLoop_eq as bs BMS_EQUAL nofun
          have hne := subsetCompareLoop_ne as bs BMS_EQUAL nofun
          rw [decide_eq_false nofun, decide_eq_false nofun, Bool.or_false, Bool.or_false] at hloop
          rw [bms_subset_compare, bms_nonempty_difference, bms_nonempty_difference]
          cases hr : subsetCompareLoop as bs BMS_EQUAL with
          | none =>
              rw [hr, Option.getD_none] at hloop
              have hboth : nonemptyDifferenceLoop as bs = true ∧ nonemptyDifferenceLoop bs as = true := by
                rw [inclusion] at hloop
                split_ifs at hloop with h
                exact h
              rw [hboth.1, hboth.2]
              split_ifs <;> rfl
          | some result =>
              rw [hr, Option.getD_some] at hloop
              rw [hr] at hne
              generalize nonemptyDifferenceLoop as bs = p at hloop ⊢
              generalize nonemptyDifferenceLoop bs as = q at hloop ⊢
              subst hloop
              rcases Nat.lt_trichotomy as.length bs.length with hlt | heq | hgt
              · cases p <;> cases q <;> simp_all [inclusion, hlt.not_gt]
              · cases p <;> cases q <;> simp_all [inclusion]
              · cases p <;> cases q <;> simp_all [inclusion, hgt.not_gt]

/-- **`bms_subset_compare`** compares by inclusion. -/
theorem subset_compare_iff (ha : Holds a A) (hb : Holds b B) :
    bms_subset_compare a b =
      if A = B then BMS_EQUAL else if A ⊆ B then BMS_SUBSET1 else if B ⊆ A then BMS_SUBSET2 else BMS_DIFFERENT := by
  have h1 := nonempty_difference_iff ha hb
  have h2 := nonempty_difference_iff hb ha
  rw [Finset.sdiff_nonempty] at h1 h2
  rw [subset_compare_eq, inclusion]
  by_cases hAB : A ⊆ B <;> by_cases hBA : B ⊆ A
  · simp [h1, h2, hAB.antisymm hBA]
  · have hne : A ≠ B := fun h => hBA h.ge
    simp [h1, h2, hAB, hBA, hne]
  · have hne : A ≠ B := fun h => hAB h.le
    simp [h1, h2, hAB, hBA, hne]
  · have hne : A ≠ B := fun h => hAB h.le
    simp [h1, h2, hAB, hBA, hne]

theorem overlapLoop_iff (as bs : List bitmapword) :
    overlapLoop as bs = true ↔ ∃ i, word as i &&& word bs i ≠ 0 := by
  fun_induction overlapLoop as bs with
  | case1 a as b bs hne => exact iff_of_true rfl ⟨0, hne⟩
  | case2 a as b bs heq ih =>
      rw [ih]
      refine ⟨fun ⟨i, hi⟩ => ⟨i + 1, hi⟩, fun ⟨i, hi⟩ => ?_⟩
      cases i with
      | zero => exact absurd hi heq
      | succ i => exact ⟨i, hi⟩
  | case3 as bs hno =>
      refine iff_of_false Bool.false_ne_true fun ⟨i, hi⟩ => hi ?_
      cases as with
      | nil => simp [word]
      | cons a as =>
          cases bs with
          | nil => simp [word]
          | cons b bs => exact absurd rfl (hno a as b bs rfl)

theorem overlap_iff (ha : Holds a A) (hb : Holds b B) : bms_overlap a b = true ↔ (A ∩ B).Nonempty := by
  cases ha with
  | null => simp [bms_overlap]
  | words ha =>
      cases hb with
      | null => simp [bms_overlap]
      | words hb =>
          rw [bms_overlap, overlapLoop_iff, ← Finset.not_disjoint_iff_nonempty_inter, disjoint_iff (by decide), not_forall]

/-! ## 2. Counting -/

/-- The members, counted over the words. -/
def total (ws : List bitmapword) : Nat := (ws.map fun w => (bits w).card).sum

theorem sum_range_card (ws : List bitmapword) (n : Nat) :
    ∑ i ∈ Finset.range n, (bits (word ws i)).card = total (ws.take n) := by
  induction ws generalizing n with
  | nil =>
      rw [List.take_nil]
      refine Finset.sum_eq_zero fun i _ => ?_
      rw [word_of_le (Nat.zero_le i), Finset.card_eq_zero, bits_eq_empty]
  | cons w ws ih =>
      cases n with
      | zero => rfl
      | succ n => rw [Finset.sum_range_succ', List.take_succ_cons, total, List.map_cons, List.sum_cons, ← total, ← ih,
          Nat.add_comm]; rfl

theorem card_members (ws : List bitmapword) : (members ws).card = total ws := by
  have h := card_below_words (by decide) ws ws.length
  rw [sum_range_card, List.take_length, Finset.filter_true_of_mem fun x hx => lt_of_mem (by decide) hx] at h
  exact h

theorem total_cons (w : bitmapword) (ws : List bitmapword) : total (w :: ws) = (bits w).card + total ws := rfl

theorem popcountLoop_eq (ws : List bitmapword) : ∀ result, popcountLoop ws result = result + total ws := by
  induction ws with
  | nil => exact fun result => rfl
  | cons w ws ih =>
      intro result
      rw [popcountLoop, ih, total_cons]
      split_ifs with h
      · rw [bmw_popcount, cpop_eq_card, Nat.add_assoc]
      · rw [bits_eq_empty.mpr (not_not.mp h), Finset.card_empty, Nat.zero_add]

theorem has_multiple_ones_iff {w : bitmapword} (h : w ≠ 0) : HAS_MULTIPLE_ONES w = true ↔ 1 < (bits w).card := by
  rw [HAS_MULTIPLE_ONES, bne_iff_ne, RIGHTMOST_ONE, and_neg_ne_iff h]

/-- The answer for a number of members. -/
def membershipOf (n : Nat) : BMS_Membership :=
  if n = 0 then BMS_EMPTY_SET else if n = 1 then BMS_SINGLETON else BMS_MULTIPLE

theorem membershipLoop_eq (ws : List bitmapword) : ∀ n ≤ 1, membershipLoop ws (membershipOf n) = membershipOf (n + total ws) := by
  induction ws with
  | nil => exact fun n _ => rfl
  | cons w ws ih =>
      intro n hn
      rw [membershipLoop, total_cons]
      split_ifs with hw hmany
      · have hpos : 0 < (bits w).card := Finset.card_pos.mpr (Finset.nonempty_iff_ne_empty.mpr (mt bits_eq_empty.mp hw))
        have htwo : 1 < n + ((bits w).card + total ws) := by
          rcases hmany with h | h
          · have : n ≠ 0 := fun h0 => h (by rw [h0]; rfl)
            omega
          · have := (has_multiple_ones_iff hw).mp h
            omega
        rw [membershipOf, if_neg (by omega), if_neg (by omega)]
      · have hpos : 0 < (bits w).card := Finset.card_pos.mpr (Finset.nonempty_iff_ne_empty.mpr (mt bits_eq_empty.mp hw))
        have hn0 : n = 0 := by
          by_contra h0
          exact hmany (.inl (by rw [membershipOf, if_neg h0, if_pos (by omega)]; nofun))
        have hone : ¬1 < (bits w).card := fun h => hmany (.inr ((has_multiple_ones_iff hw).mpr h))
        have := ih 1 (by omega)
        rw [show membershipOf 1 = BMS_SINGLETON from rfl] at this
        rw [this]
        congr 1
        omega
      · rw [ih n hn, bits_eq_empty.mpr (not_not.mp hw), Finset.card_empty, Nat.zero_add]

theorem membership_eq (ha : Holds a A) : bms_membership a = membershipOf A.card := by
  cases ha with
  | null => rfl
  | @words ws ha =>
      have := membershipLoop_eq ws 0 (by omega)
      rwa [Nat.zero_add, ← card_members] at this

theorem is_member_eq (ha : Holds a A) (x : Nat) : bms_is_member x a = .ok (decide (x ∈ A)) := by
  rw [bms_is_member.eq_def, if_neg (by omega)]
  cases ha with
  | null => simp
  | @words ws ha =>
      simp only [wordnum_natCast, bitnum_natCast]
      have hx : x ∈ members ws ↔ (word ws (x / 64)).getLsbD (x % 64) = true := mem_members (by decide)
      split_ifs with hlen
      · refine congrArg Except.ok (decide_eq_false fun h => ?_).symm
        rw [hx, word_of_le hlen, getLsbD_zero] at h
        exact Bool.false_ne_true h
      · refine congrArg Except.ok (Bool.eq_iff_iff.mpr ?_)
        rw [bne_iff_ne, decide_eq_true_eq, hx]
        have hbit : ∀ j, (wordAt ws (x / 64) &&& 1#64 <<< (x % 64)).getLsbD j =
            ((word ws (x / 64)).getLsbD j && decide (x % 64 = j)) := by
          intro j
          rw [BitVec.getLsbD_and, getLsbD_one_shiftLeft (by omega)]
          rfl
        refine ⟨fun hne => ?_, fun h h0 => ?_⟩
        · obtain ⟨j, -, hj⟩ := exists_bit hne
          rw [hbit, Bool.and_eq_true, decide_eq_true_eq] at hj
          rw [hj.2]
          exact hj.1
        · have := hbit (x % 64)
          rw [h0, h, getLsbD_zero] at this
          simp at this

theorem int32_eq {x : Int} (h0 : 0 ≤ x) (h : x ≤ INT_MAX) : int32 x = x := by
  rw [INT_MAX] at h
  rw [int32, Int.bmod_eq_of_le (by omega) (by omega)]

/-- **`bms_member_index`** counts the members below. -/
theorem member_index_eq (ha : Holds a A) (x : Nat) (hx : (x : Int) ≤ INT_MAX) :
    bms_member_index a x = .ok (if x ∈ A then ({y ∈ A | y < x}.card : Int) else -1) := by
  rw [bms_member_index, is_member_eq ha]
  by_cases hmem : x ∈ A
  · have hcard : {y ∈ A | y < x}.card ≤ x := by
      refine (Finset.card_le_card (t := Finset.range x) fun y hy => ?_).trans_eq (Finset.card_range x)
      exact Finset.mem_range.mpr (Finset.mem_filter.mp hy).2
    cases ha with
    | null => exact absurd hmem (Finset.notMem_empty x)
    | @words ws ha =>
        have h := card_below (by decide) ws (x / 64) (j := x % 64) (by omega)
        rw [Nat.div_add_mod, sum_range_card] at h
        have hindex : popcountLoop (((some ws : Bitmapset).getD []).take (WORDNUM x).toNat) 0 +
            bmw_popcount (wordAt ((some ws : Bitmapset).getD []) (WORDNUM x).toNat &&&
              (1#64 <<< (BITNUM x).toNat - 1#64)) = {y ∈ members ws | y < x}.card := by
          rw [Option.getD_some, wordnum_natCast, bitnum_natCast, popcountLoop_eq, bmw_popcount, cpop_eq_card, h,
            Nat.zero_add]
          rfl
        simp only [hmem, decide_true, if_true, Bool.not_true, pure, Except.pure, bind, Except.bind, hindex]
        rw [int32_eq (by omega) (by omega)]
        rfl
  · simp only [hmem, decide_false, if_false, Bool.not_false, pure, Except.pure, bind, Except.bind]
    rfl

/-! ## 3. The next and the previous member -/

/-- The smallest member above `prevbit`, or -2. -/
def IsNextMember (A : Finset Nat) (prevbit r : Int) : Prop :=
  (∃ x ∈ A, r = x ∧ prevbit < x ∧ ∀ y ∈ A, prevbit < y → x ≤ y) ∨ r = -2 ∧ ∀ y ∈ A, ¬prevbit < (y : Int)

/-- What counts as below `prevbit` for `bms_prev_member`: everything, for -1. -/
def Below (prevbit : Int) (x : Nat) : Prop := prevbit = -1 ∨ (x : Int) < prevbit

/-- The largest member below `prevbit`, or -2. -/
def IsPrevMember (A : Finset Nat) (prevbit r : Int) : Prop :=
  (∃ x ∈ A, r = x ∧ Below prevbit x ∧ ∀ y ∈ A, Below prevbit y → y ≤ x) ∨ r = -2 ∧ ∀ y ∈ A, ¬Below prevbit y

/-- A set whose members are `int`s. -/
def InRange (A : Finset Nat) : Prop := ∀ x ∈ A, (x : Int) ≤ INT_MAX

theorem Holds.nwords_le (h : Holds (some ws) A) (hA : InRange A) : 0 < ws.length ∧ 64 * ws.length ≤ 2 ^ 31 := by
  cases h with
  | words htrim =>
      obtain ⟨j, hj, hbit⟩ := exists_bit htrim.2
      have := hA _ ((mem_members_mul (by decide) hj).mpr hbit)
      have hpos := htrim.1
      rw [INT_MAX] at this
      refine ⟨hpos, ?_⟩
      omega

/-- The mask of the word at which a loop begins, all ones for the others. -/
def maskAt (k : Nat) (mask : bitmapword) (i : Nat) : bitmapword := if i = k then mask else BitVec.allOnes 64

/-- Either no word from `k` on has a bit, or the first that has one is reached. -/
theorem nextLoop_spec (all : List bitmapword) (ws : List bitmapword) : ∀ (k : Nat) (mask : bitmapword), ws = all.drop k →
    (∀ i, k ≤ i → word all i &&& maskAt k mask i = 0) ∧ nextLoop ws k mask = -2 ∨
    ∃ n, k ≤ n ∧ word all n &&& maskAt k mask n ≠ 0 ∧ (∀ i, k ≤ i → i < n → word all i &&& maskAt k mask i = 0) ∧
      nextLoop ws k mask = int32 (n * 64 + (word all n &&& maskAt k mask n).ctz.toNat : Nat) := by
  induction ws with
  | nil =>
      intro k mask hws
      refine .inl ⟨fun i hi => ?_, rfl⟩
      rw [word_of_le]
      · exact BitVec.zero_and
      · have := List.drop_eq_nil_iff.mp hws.symm
        omega
  | cons w ws ih =>
      intro k mask hws
      have hw : word all k = w := by
        have := word_drop all k 0
        rw [← hws, word_cons_zero, Nat.add_zero] at this
        exact this.symm
      have htail : ws = all.drop (k + 1) := by rw [← List.tail_drop, ← hws, List.tail_cons]
      have hk : maskAt k mask k = mask := if_pos rfl
      have hmask : ∀ i, k < i → maskAt k mask i = maskAt (k + 1) (BitVec.allOnes 64) i := by
        intro i hi
        rw [maskAt, if_neg (by omega), maskAt, ite_self]
      rw [nextLoop]
      split_ifs with hne
      · refine .inr ⟨k, le_rfl, by rwa [hw, hk], fun i h1 h2 => by omega, ?_⟩
        rw [hw, hk]
        rfl
      · have hzero : word all k &&& maskAt k mask k = 0 := by
          rw [hw, hk]
          exact not_not.mp hne
        rcases ih (k + 1) (BitVec.allOnes 64) htail with ⟨hz, he⟩ | ⟨n, hn, hbit, hz, he⟩
        · refine .inl ⟨fun i hi => ?_, he⟩
          rcases Nat.eq_or_lt_of_le hi with rfl | hlt
          · exact hzero
          · rw [hmask i hlt]
            exact hz i hlt
        · refine .inr ⟨n, by omega, by rwa [hmask n hn], fun i hi hin => ?_, by rw [hmask n hn]; exact he⟩
          rcases Nat.eq_or_lt_of_le hi with rfl | hlt
          · exact hzero
          · rw [hmask i hlt]
            exact hz i hlt hin

/-- **`bms_next_member`** in front of `INT_MAX`. -/
theorem next_member_spec (ha : Holds a A) (hA : InRange A) {prevbit : Int} (h0 : -1 ≤ prevbit) (h : prevbit < INT_MAX) :
    ∃ r, bms_next_member a prevbit = some r ∧ IsNextMember A prevbit r := by
  obtain ⟨p, hp⟩ := Int.eq_ofNat_of_zero_le (show 0 ≤ prevbit + 1 by omega)
  have hlt : ∀ y : Nat, prevbit < y ↔ p ≤ y := fun y => by omega
  have hpmax : (p : Int) ≤ INT_MAX := by omega
  cases ha with
  | null => exact ⟨-2, rfl, .inr ⟨rfl, fun y hy => absurd hy (Finset.notMem_empty y)⟩⟩
  | @words ws ha =>
      refine ⟨nextLoop (ws.drop (p / 64)) (p / 64) (BitVec.allOnes 64 <<< (p % 64)), ?_, ?_⟩
      · rw [bms_next_member.eq_def]
        simp only
        rw [hp, int32_eq (by omega) hpmax, if_neg, wordnum_natCast, bitnum_natCast]
        rw [WORDNUM, BITS_PER_BITMAPWORD, ← Int.ofNat_tdiv]
        omega
      · -- the bits the loop looks at are those of the members from `p` on
        have hbit : ∀ i j, j < 64 → p / 64 ≤ i →
            ((word ws i &&& maskAt (p / 64) (BitVec.allOnes 64 <<< (p % 64)) i).getLsbD j = true ↔
              64 * i + j ∈ members ws ∧ p ≤ 64 * i + j) := by
          intro i j hj hi
          rw [mem_members_mul (by decide) hj, BitVec.getLsbD_and, Bool.and_eq_true]
          refine and_congr_right' ?_
          rw [maskAt]
          split_ifs with heq
          · rw [getLsbD_allOnes_shiftLeft, decide_eq_true_eq]
            omega
          · rw [BitVec.getLsbD_allOnes, decide_eq_true hj]
            exact iff_of_true rfl (by omega)
        have hmem : ∀ y ∈ members ws, p ≤ y →
            (word ws (y / 64) &&& maskAt (p / 64) (BitVec.allOnes 64 <<< (p % 64)) (y / 64)).getLsbD (y % 64) = true := by
          intro y hy hpy
          refine (hbit _ _ (Nat.mod_lt y (by decide)) (Nat.div_le_div_right hpy)).mpr ?_
          rw [Nat.div_add_mod]
          exact ⟨hy, hpy⟩
        rcases nextLoop_spec ws _ (p / 64) (BitVec.allOnes 64 <<< (p % 64)) rfl with ⟨hz, he⟩ | ⟨n, hn, hne, hz, he⟩
        · refine .inr ⟨he, fun y hy hpy => ?_⟩
          have := hmem y hy ((hlt y).mp hpy)
          rw [hz _ (Nat.div_le_div_right ((hlt y).mp hpy)), getLsbD_zero] at this
          exact Bool.false_ne_true this
        · have hlow := BitVec.getLsbD_true_ctz_of_ne_zero hne
          have hfound := (hbit n _ (BitVec.lt_of_getLsbD hlow) hn).mp hlow
          rw [Nat.mul_comm 64 n] at hfound
          refine .inl ⟨_, hfound.1, ?_, (hlt _).mpr hfound.2, fun y hy hpy => ?_⟩
          · rw [he, int32_eq (Int.natCast_nonneg _) (hA _ hfound.1)]
          · have hy' := hmem y hy ((hlt y).mp hpy)
            have hny : n ≤ y / 64 := by
              by_contra hlt'
              rw [hz _ (Nat.div_le_div_right ((hlt y).mp hpy)) (by omega), getLsbD_zero] at hy'
              exact Bool.false_ne_true hy'
            rcases Nat.eq_or_lt_of_le hny with heq | hgt
            · have : (word ws n &&& maskAt (p / 64) (BitVec.allOnes 64 <<< (p % 64)) n).ctz.toNat ≤ y % 64 := by
                by_contra hlt'
                rw [← heq, BitVec.getLsbD_false_of_lt_ctz (by omega)] at hy'
                exact Bool.false_ne_true hy'
              omega
            · have := BitVec.lt_of_getLsbD hlow
              omega

/-- At `INT_MAX` the word read is not one of the array. -/
theorem next_member_INT_MAX (ws : List bitmapword) : bms_next_member (some ws) INT_MAX = none := by
  rw [bms_next_member.eq_def]
  exact if_pos (by decide)

theorem prevLoop_spec (ws : List bitmapword) (k : Nat) : ∀ mask : bitmapword,
    (∀ i, i < k → word ws i &&& maskAt (k - 1) mask i = 0) ∧ prevLoop ws k mask = -2 ∨
    ∃ n, n < k ∧ word ws n &&& maskAt (k - 1) mask n ≠ 0 ∧
      (∀ i, n < i → i < k → word ws i &&& maskAt (k - 1) mask i = 0) ∧
      prevLoop ws k mask = int32 (n * 64 + (63 - (word ws n &&& maskAt (k - 1) mask n).clz.toNat) : Nat) := by
  induction k with
  | zero => exact fun mask => .inl ⟨fun i hi => absurd hi (Nat.not_lt_zero i), rfl⟩
  | succ k ih =>
      intro mask
      have hk : maskAt k mask k = mask := if_pos rfl
      have hmask : ∀ i, i < k → maskAt k mask i = maskAt (k - 1) (BitVec.allOnes 64) i := by
        intro i hi
        rw [maskAt, if_neg (by omega), maskAt, ite_self]
      rw [prevLoop, Nat.add_sub_cancel]
      split_ifs with hne
      · refine .inr ⟨k, k.lt_succ_self, by rwa [hk], fun i h1 h2 => by omega, ?_⟩
        rw [hk]
        rfl
      · have hzero : word ws k &&& maskAt k mask k = 0 := by
          rw [hk]
          exact not_not.mp hne
        rcases ih (BitVec.allOnes 64) with ⟨hz, he⟩ | ⟨n, hn, hbit, hz, he⟩
        · refine .inl ⟨fun i hi => ?_, he⟩
          rcases Nat.eq_or_lt_of_le (Nat.lt_succ_iff.mp hi) with rfl | hlt
          · exact hzero
          · rw [hmask i hlt]
            exact hz i hlt
        · refine .inr ⟨n, by omega, by rwa [hmask n hn], fun i hi hik => ?_, by rw [hmask n hn]; exact he⟩
          rcases Nat.eq_or_lt_of_le (Nat.lt_succ_iff.mp hik) with rfl | hlt
          · exact hzero
          · rw [hmask i hlt]
            exact hz i hi hlt

/-- The highest one of a word. -/
theorem highest_bit {w : bitmapword} (h : w ≠ 0) :
    w.getLsbD (63 - w.clz.toNat) = true ∧ ∀ j, w.getLsbD j = true → j ≤ 63 - w.clz.toNat := by
  refine ⟨BitVec.getLsbD_true_clz_of_ne_zero (by decide) h, fun j hj => ?_⟩
  have hlt := BitVec.toNat_lt_two_pow_sub_clz (x := w)
  have hle := Nat.ge_two_pow_of_testBit hj
  have := (Nat.pow_lt_pow_iff_right (by decide : 1 < 2)).mp (lt_of_le_of_lt hle hlt)
  omega

/-- The bit at which `bms_prev_member` begins: the highest of the array for -1, also where `nwords * 64` wraps. -/
theorem prev_start {n : Nat} (hn : 0 < n) (hmax : 64 * n ≤ 2 ^ 31) :
    int32 (int32 (n * BITS_PER_BITMAPWORD) - 1) = (64 * n - 1 : Nat) := by
  have hcast : ((n : Int) * BITS_PER_BITMAPWORD) - 1 = (64 * n - 1 : Nat) := by
    rw [BITS_PER_BITMAPWORD]
    omega
  rw [int32, int32, Int.bmod_sub_bmod, hcast]
  exact int32_eq (by omega) (by rw [INT_MAX]; omega)

/-- **`bms_prev_member`**, not further up than one above the highest bit of the array. -/
theorem prev_member_spec (ha : Holds a A) (hA : InRange A) {prevbit : Int} (h0 : -1 ≤ prevbit)
    (h : prevbit ≤ 64 * (a.getD []).length) (hint : prevbit ≤ INT_MAX) :
    ∃ r, bms_prev_member a prevbit = some r ∧ IsPrevMember A prevbit r := by
  cases ha with
  | null => exact ⟨-2, by rw [bms_prev_member], .inr ⟨rfl, fun y hy => absurd hy (Finset.notMem_empty y)⟩⟩
  | @words ws ha =>
      obtain ⟨hpos, hmax⟩ := (Holds.words ha).nwords_le hA
      by_cases hzero : prevbit = 0
      · refine ⟨-2, by rw [bms_prev_member.eq_def]; exact if_pos hzero, .inr ⟨rfl, fun y _ hy => ?_⟩⟩
        rcases hy with hy | hy <;> omega
      · -- the highest bit that counts
        obtain ⟨p, hp, hplt, hbelow⟩ : ∃ p : Nat,
            (if prevbit = -1 then int32 (int32 (ws.length * BITS_PER_BITMAPWORD) - 1) else int32 (prevbit - 1)) = p ∧
            p < 64 * ws.length ∧ ∀ y ∈ members ws, Below prevbit y ↔ y ≤ p := by
          by_cases hneg : prevbit = -1
          · refine ⟨64 * ws.length - 1, by rw [if_pos hneg, prev_start hpos hmax], by omega, fun y hy => ?_⟩
            have := lt_of_mem (by decide) hy
            exact iff_of_true (.inl hneg) (by omega)
          · obtain ⟨p, hp⟩ := Int.eq_ofNat_of_zero_le (show 0 ≤ prevbit - 1 by omega)
            rw [Option.getD_some] at h
            refine ⟨p, by rw [if_neg hneg, hp, int32_eq (by omega) (by omega)], by omega, fun y _ => ?_⟩
            rw [Below, or_iff_right hneg]
            omega
        refine ⟨prevLoop ws (p / 64 + 1) (BitVec.allOnes 64 >>> (64 - (p % 64 + 1))), ?_, ?_⟩
        · rw [bms_prev_member.eq_def]
          simp only
          have hw : WORDNUM p = (p / 64 : Nat) := by rw [WORDNUM, BITS_PER_BITMAPWORD, ← Int.ofNat_tdiv]
          have hb : BITNUM p = (p % 64 : Nat) := by rw [BITNUM, BITS_PER_BITMAPWORD, ← Int.ofNat_tmod]
          rw [if_neg hzero, hp, hw, hb, if_neg (by omega)]
          rfl
        · have hbit : ∀ i j, j < 64 → i ≤ p / 64 →
              ((word ws i &&& maskAt (p / 64) (BitVec.allOnes 64 >>> (64 - (p % 64 + 1))) i).getLsbD j = true ↔
                64 * i + j ∈ members ws ∧ 64 * i + j ≤ p) := by
            intro i j hj hi
            rw [mem_members_mul (by decide) hj, BitVec.getLsbD_and, Bool.and_eq_true]
            refine and_congr_right' ?_
            rw [maskAt]
            split_ifs with heq
            · rw [getLsbD_allOnes_shift (by omega), decide_eq_true_eq]
              omega
            · rw [BitVec.getLsbD_allOnes, decide_eq_true hj]
              exact iff_of_true rfl (by omega)
          have hmem : ∀ y ∈ members ws, y ≤ p →
              (word ws (y / 64) &&& maskAt (p / 64) (BitVec.allOnes 64 >>> (64 - (p % 64 + 1))) (y / 64)).getLsbD
                (y % 64) = true := by
            intro y hy hpy
            refine (hbit _ _ (Nat.mod_lt y (by decide)) (Nat.div_le_div_right hpy)).mpr ?_
            rw [Nat.div_add_mod]
            exact ⟨hy, hpy⟩
          have hspec := prevLoop_spec ws (p / 64 + 1) (BitVec.allOnes 64 >>> (64 - (p % 64 + 1)))
          simp only [Nat.add_sub_cancel] at hspec
          rcases hspec with ⟨hz, he⟩ | ⟨n, hn, hne, hz, he⟩
          · refine .inr ⟨he, fun y hy hpy => ?_⟩
            have hle := (hbelow y hy).mp hpy
            have := hmem y hy hle
            rw [hz _ (Nat.lt_succ_iff.mpr (Nat.div_le_div_right hle)), getLsbD_zero] at this
            exact Bool.false_ne_true this
          · obtain ⟨hhigh, hlast⟩ := highest_bit hne
            have hfound := (hbit n _ (BitVec.lt_of_getLsbD hhigh) (by omega)).mp hhigh
            rw [Nat.mul_comm 64 n] at hfound
            refine .inl ⟨_, hfound.1, ?_, (hbelow _ hfound.1).mpr hfound.2, fun y hy hpy => ?_⟩
            · rw [he]
              exact int32_eq (Int.natCast_nonneg _) (hA _ hfound.1)
            · have hle := (hbelow y hy).mp hpy
              have hy' := hmem y hy hle
              have hny : y / 64 ≤ n := by
                by_contra hlt'
                rw [hz _ (by omega) (Nat.lt_succ_iff.mpr (Nat.div_le_div_right hle)), getLsbD_zero] at hy'
                exact Bool.false_ne_true hy'
              rcases Nat.eq_or_lt_of_le hny with heq | hlt
              · rw [heq] at hy'
                have := hlast _ hy'
                omega
              · omega

/-! ## 4. Every sequence of the operations -/

/-- A member: an `int` that is not negative. -/
abbrev Member := { x : Nat // (x : Int) ≤ INT_MAX }

/-- The ways to come to a set: from NULL, by the operations that build sets. -/
inductive SetTerm where
  | null
  | make_singleton (x : Member)
  | copy (s : SetTerm)
  | union (s t : SetTerm)
  | intersect (s t : SetTerm)
  | difference (s t : SetTerm)
  | add_member (s : SetTerm) (x : Member)
  | del_member (s : SetTerm) (x : Member)
  | add_members (s t : SetTerm)
  | replace_members (s t : SetTerm)
  | add_range (s : SetTerm) (lower : Member) (upper : { u : Int // u ≤ INT_MAX })
  | int_members (s t : SetTerm)
  | del_members (s t : SetTerm)
  | join (s t : SetTerm)

/-- What the operations make. -/
def SetTerm.eval : SetTerm → Except String Bitmapset
  | .null => return none
  | .make_singleton x => bms_make_singleton x.1
  | .copy s => return bms_copy (← s.eval)
  | .union s t => return bms_union (← s.eval) (← t.eval)
  | .intersect s t => return bms_intersect (← s.eval) (← t.eval)
  | .difference s t => return bms_difference (← s.eval) (← t.eval)
  | .add_member s x => do bms_add_member (← s.eval) x.1
  | .del_member s x => do bms_del_member (← s.eval) x.1
  | .add_members s t => return bms_add_members (← s.eval) (← t.eval)
  | .replace_members s t => return bms_replace_members (← s.eval) (← t.eval)
  | .add_range s lower upper => do bms_add_range (← s.eval) lower.1 upper.1
  | .int_members s t => return bms_int_members (← s.eval) (← t.eval)
  | .del_members s t => return bms_del_members (← s.eval) (← t.eval)
  | .join s t => return bms_join (← s.eval) (← t.eval)

/-- What they mean. -/
noncomputable def SetTerm.meaning : SetTerm → Finset Nat
  | .null => ∅
  | .make_singleton x => {x.1}
  | .copy s => s.meaning
  | .union s t => s.meaning ∪ t.meaning
  | .intersect s t => s.meaning ∩ t.meaning
  | .difference s t => s.meaning \ t.meaning
  | .add_member s x => insert x.1 s.meaning
  | .del_member s x => s.meaning.erase x.1
  | .add_members s t => s.meaning ∪ t.meaning
  | .replace_members _ t => t.meaning
  | .add_range s lower upper => s.meaning ∪ (Finset.Icc (lower.1 : Int) upper.1).image Int.toNat
  | .int_members s t => s.meaning ∩ t.meaning
  | .del_members s t => s.meaning \ t.meaning
  | .join s t => s.meaning ∪ t.meaning

/-- The range of `bms_add_range`, which is empty where `upper < lower`. -/
theorem holds_add_range_int (ha : Holds a A) (l : Nat) (u : Int) :
    ∃ r, bms_add_range a l u = .ok r ∧ Holds r (A ∪ (Finset.Icc (l : Int) u).image Int.toNat) := by
  by_cases h : u < l
  · refine ⟨a, by rw [bms_add_range, if_pos h], ?_⟩
    rwa [Finset.Icc_eq_empty (by omega), Finset.image_empty, Finset.union_empty]
  · obtain ⟨n, rfl⟩ := Int.eq_ofNat_of_zero_le (show 0 ≤ u by omega)
    have hset : (Finset.Icc (l : Int) n).image Int.toNat = Finset.Icc l n := by
      ext x
      rw [Finset.mem_image, Finset.mem_Icc]
      refine ⟨fun h => ?_, fun hx => ⟨x, Finset.mem_Icc.mpr (by omega), Int.toNat_natCast x⟩⟩
      obtain ⟨y, hy, hyx⟩ := h
      have := Finset.mem_Icc.mp hy
      omega
    rw [hset]
    exact holds_add_range ha l n (by omega)

/-- **Every term is carried out, and its array stands for its meaning.** -/
theorem SetTerm.eval_holds (s : SetTerm) : ∃ a, s.eval = .ok a ∧ Holds a s.meaning := by
  induction s with
  | null => exact ⟨none, rfl, .null⟩
  | make_singleton x => exact holds_make_singleton x.1
  | copy s ih =>
      obtain ⟨a, ha, hA⟩ := ih
      exact ⟨a, by rw [eval, ha]; rfl, hA⟩
  | union s t ihs iht =>
      obtain ⟨⟨a, ha, hA⟩, b, hb, hB⟩ := And.intro ihs iht
      exact ⟨_, by rw [eval, ha, hb]; rfl, holds_union hA hB⟩
  | intersect s t ihs iht =>
      obtain ⟨⟨a, ha, hA⟩, b, hb, hB⟩ := And.intro ihs iht
      exact ⟨_, by rw [eval, ha, hb]; rfl, holds_intersect hA hB⟩
  | difference s t ihs iht =>
      obtain ⟨⟨a, ha, hA⟩, b, hb, hB⟩ := And.intro ihs iht
      exact ⟨_, by rw [eval, ha, hb]; rfl, holds_difference hA hB⟩
  | add_member s x ih =>
      obtain ⟨a, ha, hA⟩ := ih
      obtain ⟨r, hr, hR⟩ := holds_add_member hA x.1
      exact ⟨r, by rw [eval, ha]; exact hr, hR⟩
  | del_member s x ih =>
      obtain ⟨a, ha, hA⟩ := ih
      obtain ⟨r, hr, hR⟩ := holds_del_member hA x.1
      exact ⟨r, by rw [eval, ha]; exact hr, hR⟩
  | add_members s t ihs iht =>
      obtain ⟨⟨a, ha, hA⟩, b, hb, hB⟩ := And.intro ihs iht
      exact ⟨_, by rw [eval, ha, hb]; rfl, holds_add_members hA hB⟩
  | replace_members s t ihs iht =>
      obtain ⟨⟨a, ha, hA⟩, b, hb, hB⟩ := And.intro ihs iht
      exact ⟨_, by rw [eval, ha, hb]; rfl, holds_replace_members hA hB⟩
  | add_range s lower upper ih =>
      obtain ⟨a, ha, hA⟩ := ih
      obtain ⟨r, hr, hR⟩ := holds_add_range_int hA lower.1 upper.1
      exact ⟨r, by rw [eval, ha]; exact hr, hR⟩
  | int_members s t ihs iht =>
      obtain ⟨⟨a, ha, hA⟩, b, hb, hB⟩ := And.intro ihs iht
      exact ⟨_, by rw [eval, ha, hb]; rfl, holds_int_members hA hB⟩
  | del_members s t ihs iht =>
      obtain ⟨⟨a, ha, hA⟩, b, hb, hB⟩ := And.intro ihs iht
      exact ⟨_, by rw [eval, ha, hb]; rfl, holds_del_members hA hB⟩
  | join s t ihs iht =>
      obtain ⟨⟨a, ha, hA⟩, b, hb, hB⟩ := And.intro ihs iht
      exact ⟨_, by rw [eval, ha, hb]; rfl, by rw [bms_join_eq]; exact holds_add_members hA hB⟩

theorem SetTerm.meaning_inRange (s : SetTerm) : InRange s.meaning := by
  induction s with
  | null => exact fun x hx => absurd hx (Finset.notMem_empty x)
  | make_singleton x => exact fun y hy => Finset.mem_singleton.mp hy ▸ x.2
  | copy s ih => exact ih
  | replace_members s t _ ih => exact ih
  | add_member s x ih =>
      intro y hy
      rcases Finset.mem_insert.mp hy with rfl | hy
      · exact x.2
      · exact ih y hy
  | del_member s x ih => exact fun y hy => ih y (Finset.mem_of_mem_erase hy)
  | union s t ihs iht | add_members s t ihs iht | join s t ihs iht =>
      exact fun y hy => (Finset.mem_union.mp hy).elim (ihs y) (iht y)
  | intersect s t ihs _ | int_members s t ihs _ => exact fun y hy => ihs y (Finset.mem_inter.mp hy).1
  | difference s t ihs _ | del_members s t ihs _ => exact fun y hy => ihs y (Finset.mem_sdiff.mp hy).1
  | add_range s lower upper ih =>
      intro y hy
      rcases Finset.mem_union.mp hy with hy | hy
      · exact ih y hy
      · obtain ⟨z, hz, rfl⟩ := Finset.mem_image.mp hy
        have := Finset.mem_Icc.mp hz
        have := upper.2
        omega

/-! ## 5. The answers -/

/-- NULL exactly for the empty set, else no last zero word; and the members are those of the set. -/
structure Canonical (a : Bitmapset) (A : Finset Nat) : Prop where
  null_iff : a = none ↔ A = ∅
  last_word : ∀ ws ∈ a, 0 < ws.length ∧ wordAt ws (ws.length - 1) ≠ 0
  mem_iff : ∀ x, x ∈ A ↔ (wordAt (a.getD []) (x / 64)).getLsbD (x % 64) = true

/-- The arrays `a`, `b`, `c` are the sets `A`, `B`, `C`, and every query about them answers for the sets. The
    queries about one member, and the two that iterate, are asked with `x`, `next` and `prev`. -/
structure Agrees (a b c : Bitmapset) (A B C : Finset Nat) (x : Nat) (next prev : Int) : Prop where
  canonical : Canonical a A
  equal : bms_equal a b = true ↔ A = B
  compare_zero : bms_compare a b = 0 ↔ A = B
  compare_lt : bms_compare a b < 0 ↔ toColex A < toColex B
  compare_antisymm : bms_compare b a = -bms_compare a b
  compare_trans : bms_compare a b ≤ 0 → bms_compare b c ≤ 0 → bms_compare a c ≤ 0
  is_subset : bms_is_subset a b = true ↔ A ⊆ B
  subset_compare : bms_subset_compare a b =
    if A = B then BMS_EQUAL else if A ⊆ B then BMS_SUBSET1 else if B ⊆ A then BMS_SUBSET2 else BMS_DIFFERENT
  overlap : bms_overlap a b = true ↔ (A ∩ B).Nonempty
  nonempty_difference : bms_nonempty_difference a b = true ↔ (A \ B).Nonempty
  membership : bms_membership a =
    if A.card = 0 then BMS_EMPTY_SET else if A.card = 1 then BMS_SINGLETON else BMS_MULTIPLE
  is_member : bms_is_member x a = .ok (decide (x ∈ A))
  member_index : bms_member_index a x = .ok (if x ∈ A then ({y ∈ A | y < x}.card : Int) else -1)
  next_member : ∃ r, bms_next_member a next = some r ∧ IsNextMember A next r
  prev_member : ∃ r, bms_prev_member a prev = some r ∧ IsPrevMember A prev r

theorem Holds.canonical (h : Holds a A) : Canonical a A := by
  cases h with
  | null => exact ⟨iff_of_true rfl rfl, nofun, fun x => by simp [wordAt]⟩
  | words h =>
      refine ⟨iff_of_false nofun (h.nonempty (by decide)).ne_empty, fun ws hws => ?_, fun x => mem_members (by decide)⟩
      obtain rfl := Option.some.inj hws
      exact h

section Comparison

variable {α : Type} [LinearOrder α] (x y z : α)

theorem comparison_zero : comparison x y = 0 ↔ x = y := by
  rw [comparison]
  rcases lt_trichotomy x y with h | h | h
  · simp [h, h.ne]
  · simp [h]
  · simp [h, h.not_gt, h.ne']

theorem comparison_lt : comparison x y < 0 ↔ x < y := by
  rw [comparison]
  rcases lt_trichotomy x y with h | h | h
  · simp [h]
  · simp [h]
  · simp [h, h.not_gt]

theorem comparison_antisymm : comparison y x = -comparison x y := by
  rw [comparison, comparison]
  rcases lt_trichotomy x y with h | h | h
  · simp [h, h.not_gt]
  · simp [h]
  · simp [h, h.not_gt]

theorem comparison_nonpos : comparison x y ≤ 0 ↔ x ≤ y := by
  rw [le_iff_lt_or_eq, comparison_lt, comparison_zero, le_iff_lt_or_eq]

end Comparison

/-- **The answers are those for the sets, except where `bms_next_member` is asked from `INT_MAX` on.** -/
theorem agrees_iff (s t u : SetTerm) (x : Member) (next prev : Int) (hnext : -1 ≤ next ∧ next ≤ INT_MAX)
    (hprev : -1 ≤ prev ∧ prev ≤ INT_MAX) :
    ∃ a b c, s.eval = .ok a ∧ t.eval = .ok b ∧ u.eval = .ok c ∧
      (prev ≤ 64 * (a.getD []).length →
        (Agrees a b c s.meaning t.meaning u.meaning x.1 next prev ↔ ¬(a ≠ none ∧ next = INT_MAX))) := by
  obtain ⟨a, ha, hA⟩ := s.eval_holds
  obtain ⟨b, hb, hB⟩ := t.eval_holds
  obtain ⟨c, hc, hC⟩ := u.eval_holds
  refine ⟨a, b, c, ha, hb, hc, fun hin => ⟨fun h hbad => ?_, fun hok => ?_⟩⟩
  · obtain ⟨r, hr, -⟩ := h.next_member
    obtain ⟨ws, rfl⟩ := Option.ne_none_iff_exists'.mp hbad.1
    rw [hbad.2, next_member_INT_MAX] at hr
    cases hr
  · have hnext' : ∃ r, bms_next_member a next = some r ∧ IsNextMember s.meaning next r := by
      rcases lt_or_eq_of_le hnext.2 with hlt | heq
      · exact next_member_spec hA s.meaning_inRange hnext.1 hlt
      · have hnull : a = none := by
          by_contra hne
          exact hok ⟨hne, heq⟩
        subst hnull
        rw [hA.eq_empty]
        exact ⟨-2, rfl, .inr ⟨rfl, fun y hy => absurd hy (Finset.notMem_empty y)⟩⟩
    have hcompare := compare_eq hA hB
    exact {
      canonical := hA.canonical
      equal := equal_iff hA hB
      compare_zero := by rw [hcompare, comparison_zero, toColex_inj]
      compare_lt := by rw [hcompare, comparison_lt]
      compare_antisymm := by rw [hcompare, compare_eq hB hA, comparison_antisymm]
      compare_trans := by
        rw [hcompare, compare_eq hB hC, compare_eq hA hC, comparison_nonpos, comparison_nonpos, comparison_nonpos]
        exact le_trans
      is_subset := is_subset_iff hA hB
      subset_compare := subset_compare_iff hA hB
      overlap := overlap_iff hA hB
      nonempty_difference := nonempty_difference_iff hA hB
      membership := membership_eq hA
      is_member := is_member_eq hA x.1
      member_index := member_index_eq hA x.1 x.2
      next_member := hnext'
      prev_member := prev_member_spec hA s.meaning_inRange hprev.1 hin hprev.2 }

/-- A range over a word boundary, after the only member of the fourth word has been deleted. -/
def acrossWords : SetTerm :=
  .del_member (.add_range (.make_singleton ⟨200, by decide⟩) ⟨62, by decide⟩ ⟨66, by decide⟩) ⟨200, by decide⟩

/-- Its members in the first word, as a difference that drops the words behind. -/
def firstWord : SetTerm :=
  .difference (.add_range .null ⟨62, by decide⟩ ⟨130, by decide⟩) (.add_range .null ⟨64, by decide⟩ ⟨130, by decide⟩)

/-- **Both sides of the condition**: from 63 the next member is in the next word; from `INT_MAX` the call leaves
    the array. -/
theorem agrees_across_words : ∃ a b c, acrossWords.eval = .ok a ∧ firstWord.eval = .ok b ∧
    SetTerm.eval (.join firstWord (.make_singleton ⟨130, by decide⟩)) = .ok c ∧
    a = some [0xC000000000000000, 7] ∧ b = some [0xC000000000000000] ∧
    Agrees a b c {62, 63, 64, 65, 66} {62, 63} {62, 63, 130} 64 63 64 ∧
    ¬ Agrees a b c {62, 63, 64, 65, 66} {62, 63} {62, 63, 130} 64 INT_MAX 64 := by
  have hA : acrossWords.meaning = {62, 63, 64, 65, 66} := by
    ext x
    simp only [acrossWords, SetTerm.meaning, Finset.mem_erase, Finset.mem_union, Finset.mem_singleton,
      Finset.mem_image, Finset.mem_Icc, Finset.mem_insert]
    refine ⟨fun h => ?_, fun h => ⟨by omega, Or.inr ⟨x, by omega, Int.toNat_natCast x⟩⟩⟩
    obtain ⟨hne, h | ⟨y, hy, rfl⟩⟩ := h <;> omega
  have hB : firstWord.meaning = {62, 63} := by
    ext x
    simp only [firstWord, SetTerm.meaning, Finset.mem_sdiff, Finset.mem_union, Finset.notMem_empty, false_or,
      Finset.mem_image, Finset.mem_Icc, Finset.mem_insert, Finset.mem_singleton]
    refine ⟨fun ⟨⟨y, hy, hyx⟩, hno⟩ => ?_, fun h => ⟨⟨x, by omega, Int.toNat_natCast x⟩, fun ⟨y, hy, hyx⟩ => ?_⟩⟩
    · by_contra hne
      exact hno ⟨y, by omega, hyx⟩
    · omega
  have hC : SetTerm.meaning (.join firstWord (.make_singleton ⟨130, by decide⟩)) = {62, 63, 130} := by
    rw [SetTerm.meaning, SetTerm.meaning, hB]
    rfl
  have heval : acrossWords.eval = .ok (some [0xC000000000000000, 7]) := by decide +kernel
  have heval' : firstWord.eval = .ok (some [0xC000000000000000]) := by decide +kernel
  obtain ⟨a, b, c, ha, hb, hc, hgood⟩ := agrees_iff acrossWords firstWord
    (.join firstWord (.make_singleton ⟨130, by decide⟩)) ⟨64, by decide⟩ 63 64 (by decide) (by decide)
  obtain ⟨a', b', c', ha', hb', hc', hbad⟩ := agrees_iff acrossWords firstWord
    (.join firstWord (.make_singleton ⟨130, by decide⟩)) ⟨64, by decide⟩ INT_MAX 64 (by decide) (by decide)
  rw [heval] at ha ha'
  rw [heval'] at hb hb'
  rw [hc] at hc'
  cases ha
  cases ha'
  cases hb
  cases hb'
  cases hc'
  rw [hA, hB, hC] at hgood hbad
  exact ⟨_, _, c, heval, heval', hc, rfl, rfl, (hgood (by decide)).mpr fun h => absurd h.2 (by decide),
    fun h => (hbad (by decide)).mp h ⟨nofun, rfl⟩⟩

/-- The loop `while ((x = bms_next_member(a, x)) >= 0)` over the set of `INT_MAX` reads in front of the array when
    it asks for what comes after it. -/
theorem iteration_leaves_array :
    ∃ a, SetTerm.eval (.make_singleton ⟨2 ^ 31 - 1, by decide⟩) = .ok a ∧
      ¬∃ r, bms_next_member a INT_MAX = some r ∧ IsNextMember {2 ^ 31 - 1} INT_MAX r := by
  obtain ⟨a, ha, hA⟩ := (SetTerm.make_singleton ⟨2 ^ 31 - 1, by decide⟩).eval_holds
  refine ⟨a, ha, fun ⟨r, hr, _⟩ => ?_⟩
  cases a with
  | none => exact absurd hA.eq_empty (Finset.singleton_ne_empty _)
  | some ws =>
      rw [next_member_INT_MAX] at hr
      cases hr

end Pgvec.Bms
