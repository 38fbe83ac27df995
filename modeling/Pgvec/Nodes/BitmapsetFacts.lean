/-
  File:      Pgvec/Nodes/BitmapsetFacts.lean
  Subject:   WHAT THE OPERATIONS THAT BUILD BITMAPSETS MAKE (`src/backend/nodes/bitmapset.c`).

  * `Holds a A` -- `a` stands for the set `A` and is canonical: NULL for no member, else no last zero word;
  * `holds_trimmed`, `holds_delTrimLoop` -- the two ways in which trailing zero words go away;
  * `holds_union` ... `holds_add_range` -- each operation, given `Holds` of its inputs.
-/
import Pgvec.Lib.BitWords
import Pgvec.Nodes.Bitmapset

namespace Pgvec.Bms

open Pgvec.BitWords

/-- **The array stands for the set**, and is canonical. -/
inductive Holds : Bitmapset → Finset Nat → Prop where
  | null : Holds none ∅
  | words {ws : List bitmapword} (trimmed : Trimmed ws) : Holds (some ws) (members ws)

variable {a b : Bitmapset} {A B : Finset Nat} {as bs ws : List bitmapword}

theorem Holds.of_members (h : Trimmed ws) (hA : members ws = A) : Holds (some ws) A := hA ▸ .words h

theorem Holds.eq_empty (h : Holds none A) : A = ∅ := by
  cases h with
  | null => rfl

theorem Holds.nonempty (h : Holds (some ws) A) : A.Nonempty := by
  cases h with
  | words htrim => exact htrim.nonempty (by decide)

/-! ## 1. The loops -/

theorem length_wordLoop (f : bitmapword → bitmapword → bitmapword) (as bs : List bitmapword) :
    (wordLoop f as bs).length = as.length := by
  fun_induction wordLoop f as bs with
  | case1 r as o bs ih => rw [List.length_cons, ih, List.length_cons]
  | case2 as => rfl
  | case3 o bs => rfl

theorem word_wordLoop (f : bitmapword → bitmapword → bitmapword) (as bs : List bitmapword) : ∀ i,
    word (wordLoop f as bs) i = if i < as.length ∧ i < bs.length then f (word as i) (word bs i) else word as i := by
  fun_induction wordLoop f as bs with
  | case1 r as o bs ih =>
      intro i
      cases i with
      | zero => simp [word_cons_zero]
      | succ i => simp [word_cons_succ, ih]
  | case2 as => simp
  | case3 o bs => simp

theorem word_or (h : bs.length ≤ as.length) (i : Nat) :
    word (wordLoop (· ||| ·) as bs) i = word as i ||| word bs i := by
  rw [word_wordLoop]
  split_ifs with hi
  · rfl
  · rcases Nat.lt_or_ge i bs.length with hb | hb
    · exact absurd ⟨by omega, hb⟩ hi
    · simp [word_of_le hb]

theorem word_andNot (as bs : List bitmapword) (i : Nat) :
    word (wordLoop andNot as bs) i = word as i &&& ~~~word bs i := by
  rw [word_wordLoop]
  split_ifs with hi
  · rfl
  · rcases Nat.lt_or_ge i as.length with ha | ha
    · have hb : bs.length ≤ i := by omega
      refine BitVec.eq_of_getLsbD_eq fun j hj => ?_
      rw [word_of_le hb, BitVec.getLsbD_and, BitVec.getLsbD_not, getLsbD_zero, decide_eq_true hj]
      exact (Bool.and_true _).symm
    · simp [word_of_le ha]

/-- The words in common, of an intersection. -/
theorem word_and (as bs : List bitmapword) (i : Nat) :
    word ((wordLoop (· &&& ·) as bs).take (min as.length bs.length)) i = word as i &&& word bs i := by
  rw [word_take, word_wordLoop]
  split_ifs with h1 h2
  · rfl
  · omega
  · rcases Nat.lt_or_ge i as.length with ha | ha
    · have hb : bs.length ≤ i := by omega
      simp [word_of_le hb]
    · simp [word_of_le ha]

/-- `lastnonzero` is the index of the last word that is not zero, or what it was. -/
theorem lastnonzeroLoop_spec (ws : List bitmapword) : ∀ (i : Nat) (l : Int),
    ((∀ j, word ws j = 0) ∧ lastnonzeroLoop ws i l = l) ∨
    (∃ n, word ws n ≠ 0 ∧ (∀ j, n < j → word ws j = 0) ∧ lastnonzeroLoop ws i l = (i + n : Nat)) := by
  induction ws with
  | nil => exact fun i l => .inl ⟨fun j => word_of_le (Nat.zero_le j), rfl⟩
  | cons w ws ih =>
      intro i l
      rw [lastnonzeroLoop]
      rcases ih (i + 1) (if w ≠ 0 then i else l) with ⟨hz, he⟩ | ⟨n, hn, hz, he⟩
      · by_cases hw : w = 0
        · refine .inl ⟨fun j => ?_, by rw [he, if_neg (not_not.mpr hw)]⟩
          cases j with
          | zero => exact hw
          | succ j => exact hz j
        · refine .inr ⟨0, hw, fun j hj => ?_, by rw [he, if_pos hw, Nat.add_zero]⟩
          obtain ⟨j, rfl⟩ := Nat.exists_eq_succ_of_ne_zero (Nat.pos_iff_ne_zero.mp hj)
          exact hz j
      · refine .inr ⟨n + 1, hn, fun j hj => ?_, by rw [he]; congr 1; omega⟩
        obtain ⟨j, rfl⟩ := Nat.exists_eq_succ_of_ne_zero (Nat.pos_iff_ne_zero.mp (Nat.zero_lt_of_lt hj))
        exact hz j (by omega)

theorem members_take {n : Nat} (h : ∀ j, n ≤ j → word ws j = 0) : members (ws.take n) = members ws := by
  refine members_congr (by decide) fun i => ?_
  rw [word_take]
  split_ifs with hi
  · rfl
  · exact (h i (by omega)).symm

/-- **The end of an intersection or a difference.** -/
theorem holds_trimmed (ws : List bitmapword) (k : Nat) :
    Holds (trimmed ws (lastnonzero (ws.take k))) (members (ws.take k)) := by
  rw [trimmed, lastnonzero]
  rcases lastnonzeroLoop_spec (ws.take k) 0 (-1) with ⟨hz, he⟩ | ⟨n, hn, hz, he⟩
  · rw [he, if_pos rfl, members_eq_empty (by decide) hz]
    exact .null
  · have hnk : n < k := by
      by_contra hk
      rw [word_take, if_neg hk] at hn
      exact hn rfl
    have htake : setNwords ws (((0 + n : Nat) : Int) + 1) = (ws.take k).take (n + 1) := by
      rw [setNwords, List.take_take, min_eq_left hnk]
      congr 1
      omega
    rw [he, if_neg (by omega), htake]
    exact .of_members (trimmed_take hn) (members_take fun j hj => hz j (by omega))

theorem holds_trimmed_all (ws : List bitmapword) : Holds (trimmed ws (lastnonzero ws)) (members ws) := by
  have := holds_trimmed ws ws.length
  rwa [List.take_length] at this

/-- **The end of a deletion.** -/
theorem holds_delTrimLoop (ws : List bitmapword) (n : Nat) (h : ∀ j, n ≤ j → word ws j = 0) :
    Holds (delTrimLoop ws n) (members ws) := by
  induction n with
  | zero =>
      rw [members_eq_empty (by decide) fun j => h j j.zero_le]
      exact .null
  | succ i ih =>
      rw [delTrimLoop]
      split_ifs with hi
      · exact .of_members (trimmed_take (n := i) hi) (members_take h)
      · refine ih fun j hj => ?_
        rcases Nat.eq_or_lt_of_le hj with rfl | hlt
        · exact not_not.mp hi
        · exact h j hlt

theorem length_enlarge (ws : List bitmapword) (n : Nat) : (enlarge ws n).length = max ws.length n := by
  rw [enlarge, List.length_append, List.length_replicate]
  omega

theorem word_enlarge (ws : List bitmapword) (n i : Nat) : word (enlarge ws n) i = word ws i :=
  word_append_replicate ws _ i

theorem length_fillLoop (n : Nat) : ∀ (k : Nat) (ws : List bitmapword), (fillLoop n k ws).length = ws.length := by
  induction n with
  | zero => exact fun _ _ => rfl
  | succ n ih =>
      intro k ws
      rw [fillLoop, ih, List.length_set]

theorem word_set {n : Nat} (h : n < ws.length) (v : bitmapword) (i : Nat) :
    word (ws.set n v) i = if i = n then v else word ws i := by
  rw [List.set_eq_modify, word_modify h]

theorem word_fillLoop (n : Nat) : ∀ (k : Nat) (ws : List bitmapword) (i : Nat), k + n ≤ ws.length →
    word (fillLoop n k ws) i = if k ≤ i ∧ i < k + n then BitVec.allOnes 64 else word ws i := by
  induction n with
  | zero =>
      intro k ws i _
      rw [fillLoop, if_neg (by omega)]
  | succ n ih =>
      intro k ws i hlen
      rw [fillLoop, ih _ _ _ (by rw [List.length_set]; omega), word_set (by omega)]
      split_ifs <;> first | rfl | omega

/-! ## 2. Two sets -/

theorem trimmed_wordLoop_or (h : bs.length ≤ as.length) (ha : Trimmed as) :
    Trimmed (wordLoop (· ||| ·) as bs) := by
  obtain ⟨j, hj, hbit⟩ := exists_bit ha.2
  refine ⟨by rw [length_wordLoop]; exact ha.1, fun h0 => ?_⟩
  rw [length_wordLoop, word_or h] at h0
  have := congrArg (·.getLsbD j) h0
  simp [hbit] at this

/-- The shorter input is united into the longer one. -/
theorem holds_or (h : bs.length ≤ as.length) (ha : Trimmed as) :
    Holds (some (wordLoop (· ||| ·) as bs)) (members as ∪ members bs) :=
  .of_members (trimmed_wordLoop_or h ha) (members_or (by decide) (word_or h))

theorem holds_union (ha : Holds a A) (hb : Holds b B) : Holds (bms_union a b) (A ∪ B) := by
  cases ha with
  | null => rwa [Finset.empty_union]
  | words ha =>
      cases hb with
      | null =>
          rw [Finset.union_empty]
          exact .words ha
      | words hb =>
          rw [bms_union]
          split_ifs with hlen
          · rw [Finset.union_comm]
            exact holds_or hlen hb
          · exact holds_or (by omega) ha

theorem holds_add_members (ha : Holds a A) (hb : Holds b B) : Holds (bms_add_members a b) (A ∪ B) := by
  cases ha with
  | null => rwa [Finset.empty_union]
  | words ha =>
      cases hb with
      | null =>
          rw [Finset.union_empty]
          exact .words ha
      | words hb =>
          rw [bms_add_members]
          split_ifs with hlen
          · rw [Finset.union_comm]
            exact holds_or (by omega) hb
          · exact holds_or (by omega) ha

/-- `bms_join` differs from `bms_add_members` in what it frees. -/
theorem bms_join_eq (a b : Bitmapset) : bms_join a b = bms_add_members a b := by
  cases a <;> cases b <;> rfl

theorem holds_intersect (ha : Holds a A) (hb : Holds b B) : Holds (bms_intersect a b) (A ∩ B) := by
  cases ha with
  | null =>
      rw [Finset.empty_inter]
      exact .null
  | words ha =>
      cases hb with
      | null =>
          rw [Finset.inter_empty]
          exact .null
      | @words bs hb =>
          rename_i as
          rw [bms_intersect]
          split_ifs with hlen
          · have hand : ∀ i, word (wordLoop (· &&& ·) as bs) i = word as i &&& word bs i := by
              intro i
              have := word_and as bs i
              rwa [min_eq_left hlen, ← length_wordLoop (· &&& ·) as bs, List.take_length] at this
            rw [← members_and (by decide) hand]
            exact holds_trimmed_all _
          · have hand : ∀ i, word (wordLoop (· &&& ·) bs as) i = word bs i &&& word as i := by
              intro i
              have := word_and bs as i
              rwa [min_eq_left (by omega), ← length_wordLoop (· &&& ·) bs as, List.take_length] at this
            rw [Finset.inter_comm, ← members_and (by decide) hand]
            exact holds_trimmed_all _

theorem holds_int_members (ha : Holds a A) (hb : Holds b B) : Holds (bms_int_members a b) (A ∩ B) := by
  cases ha with
  | null =>
      rw [Finset.empty_inter]
      exact .null
  | words ha =>
      cases hb with
      | null =>
          rw [Finset.inter_empty]
          exact .null
      | @words bs hb =>
          rename_i as
          rw [bms_int_members, ← members_and (by decide) (word_and as bs)]
          exact holds_trimmed _ _

/-- Where `a` has more words its last word stays. -/
theorem trimmed_wordLoop_andNot (h : bs.length < as.length) (ha : Trimmed as) : Trimmed (wordLoop andNot as bs) := by
  refine ⟨by rw [length_wordLoop]; exact ha.1, ?_⟩
  rw [length_wordLoop, word_wordLoop, if_neg (by omega)]
  exact ha.2

theorem holds_del_members (ha : Holds a A) (hb : Holds b B) : Holds (bms_del_members a b) (A \ B) := by
  cases ha with
  | null =>
      rw [Finset.empty_sdiff]
      exact .null
  | words ha =>
      cases hb with
      | null =>
          rw [Finset.sdiff_empty]
          exact .words ha
      | @words bs hb =>
          rename_i as
          rw [bms_del_members, ← members_and_not (by decide) (word_andNot as bs)]
          split_ifs with hlen
          · exact .words (trimmed_wordLoop_andNot hlen ha)
          · exact holds_trimmed_all _

theorem nonemptyDifferenceLoop_iff (as bs : List bitmapword) (h : as.length ≤ bs.length) :
    nonemptyDifferenceLoop as bs = true ↔ ∃ i, word as i &&& ~~~word bs i ≠ 0 := by
  fun_induction nonemptyDifferenceLoop as bs with
  | case1 a as b bs hne => exact iff_of_true rfl ⟨0, hne⟩
  | case2 a as b bs heq ih =>
      rw [ih (by simpa using h)]
      refine ⟨fun ⟨i, hi⟩ => ⟨i + 1, hi⟩, fun ⟨i, hi⟩ => ?_⟩
      cases i with
      | zero => exact absurd hi heq
      | succ i => exact ⟨i, hi⟩
  | case3 as bs hno =>
      have has : as = [] := by
        cases as with
        | nil => rfl
        | cons a as =>
            cases bs with
            | nil => simp at h
            | cons b bs => exact absurd rfl (hno a as b bs rfl)
      subst has
      refine iff_of_false Bool.false_ne_true fun ⟨i, hi⟩ => hi ?_
      simp [word]

theorem nonempty_difference_iff (ha : Holds a A) (hb : Holds b B) :
    bms_nonempty_difference a b = true ↔ (A \ B).Nonempty := by
  cases ha with
  | null => simp [bms_nonempty_difference]
  | words ha =>
      cases hb with
      | null =>
          rw [Finset.sdiff_empty]
          exact iff_of_true rfl (ha.nonempty (by decide))
      | words hb =>
          rw [Finset.sdiff_nonempty, bms_nonempty_difference]
          split_ifs with hlen
          · exact iff_of_true rfl (ha.not_subset (by decide) hlen)
          · rw [nonemptyDifferenceLoop_iff _ _ (by omega), members_subset_iff (by decide), not_forall]

theorem holds_difference (ha : Holds a A) (hb : Holds b B) : Holds (bms_difference a b) (A \ B) := by
  have hdel := holds_del_members ha hb
  have hne := nonempty_difference_iff ha hb
  cases ha with
  | null =>
      rw [Finset.empty_sdiff]
      exact .null
  | words ha =>
      cases hb with
      | null => exact hdel
      | @words bs hb =>
          rename_i as
          rw [bms_difference]
          rw [bms_del_members] at hdel
          cases hd : bms_nonempty_difference (some as) (some bs) with
          | false =>
              have hempty : ¬(members as \ members bs).Nonempty := by rw [← hne, hd]; exact Bool.false_ne_true
              rw [if_pos (by simp), Finset.not_nonempty_iff_eq_empty.mp hempty]
              exact .null
          | true =>
              rw [if_neg (by simp)]
              split_ifs at hdel ⊢ with hlen
              · exact hdel
              · rw [trimmed] at hdel
                split_ifs at hdel with hlast
                · -- no word is left, and still there is a difference
                  rw [hne, hdel.eq_empty] at hd
                  exact absurd hd Finset.not_nonempty_empty
                · exact hdel

theorem holds_replace_members (ha : Holds a A) (hb : Holds b B) : Holds (bms_replace_members a b) B := by
  cases ha with
  | null => exact hb
  | words ha =>
      cases hb with
      | null => exact .null
      | @words bs hb =>
          rename_i as
          rw [bms_replace_members]
          have hwords : ∀ as : List bitmapword, bs.length ≤ as.length →
              setNwords (wordLoop (fun _ w => w) as bs) bs.length = bs := by
            intro as hlen
            refine eq_of_word ?_ fun i hi => ?_
            · rw [setNwords, Int.toNat_natCast, List.length_take, length_wordLoop, min_eq_left hlen]
            · rw [setNwords, Int.toNat_natCast, List.length_take, length_wordLoop] at hi
              rw [setNwords, Int.toNat_natCast, word_take, if_pos (by omega), word_wordLoop, if_pos (by omega)]
          split_ifs with hlen
          · rw [hwords _ (by rw [length_enlarge]; omega)]
            exact .words hb
          · rw [hwords _ (by omega)]
            exact .words hb

/-! ## 3. One member -/

theorem wordnum_natCast (x : Nat) : (WORDNUM (x : Int)).toNat = x / 64 := by
  rw [WORDNUM, BITS_PER_BITMAPWORD, ← Int.ofNat_tdiv, Int.toNat_natCast]

theorem bitnum_natCast (x : Nat) : (BITNUM (x : Int)).toNat = x % 64 := by
  rw [BITNUM, BITS_PER_BITMAPWORD, ← Int.ofNat_tmod, Int.toNat_natCast]

/-- The word of the member has its bit in addition. -/
theorem members_insert {x : Nat} (h : ∀ i, word ws i = if i = x / 64 then word as i ||| 1#64 <<< (x % 64) else word as i) :
    members ws = insert x (members as) := by
  ext y
  rw [Finset.mem_insert, mem_members (by decide), mem_members (by decide), h]
  split_ifs with hy
  · rw [BitVec.getLsbD_or, getLsbD_one_shiftLeft (by omega), Bool.or_eq_true, decide_eq_true_eq, or_comm]
    exact or_congr ⟨fun _ => by omega, fun _ => by omega⟩ Iff.rfl
  · refine (or_iff_right fun hyx => ?_).symm
    exact hy (hyx ▸ rfl)

theorem members_erase {x : Nat}
    (h : ∀ i, word ws i = if i = x / 64 then word as i &&& ~~~(1#64 <<< (x % 64)) else word as i) :
    members ws = (members as).erase x := by
  ext y
  rw [Finset.mem_erase, mem_members (by decide), mem_members (by decide), h]
  split_ifs with hy
  · rw [BitVec.getLsbD_and, BitVec.getLsbD_not, getLsbD_one_shiftLeft (by omega), Bool.and_eq_true, and_comm]
    refine and_congr ?_ Iff.rfl
    simp only [decide_eq_true (Nat.mod_lt y (by decide : 64 > 0)), Bool.true_and, Bool.not_eq_true', decide_eq_false_iff_not]
    omega
  · refine (and_iff_right fun hyx => ?_).symm
    exact hy (hyx ▸ rfl)

/-- A bit set in the last word. -/
theorem trimmed_modify_or {n : Nat} {v : bitmapword} (hn : n < ws.length)
    (h : n = ws.length - 1 ∧ v ≠ 0 ∨ word ws (ws.length - 1) ≠ 0) : Trimmed (ws.modify n (· ||| v)) := by
  refine ⟨by rw [List.length_modify]; omega, fun h0 => ?_⟩
  rw [List.length_modify, word_modify hn] at h0
  have hor : ∀ {u v : bitmapword}, u ||| v = 0 → u = 0 ∧ v = 0 := by
    intro u v huv
    refine ⟨BitVec.eq_of_getLsbD_eq fun j _ => ?_, BitVec.eq_of_getLsbD_eq fun j _ => ?_⟩ <;>
      have := congrArg (·.getLsbD j) huv <;> simp_all
  split_ifs at h0 with hlast
  · rcases h with ⟨-, hv⟩ | hw
    · exact hv (hor h0).2
    · exact hw (hor h0).1
  · rcases h with ⟨hn', -⟩ | hw
    · exact hlast hn'.symm
    · exact hw h0

theorem one_shiftLeft_ne {i : Nat} (hi : i < 64) : 1#64 <<< i ≠ 0 := by
  intro h0
  have := congrArg (·.getLsbD i) h0
  simp only [getLsbD_one_shiftLeft hi] at this
  simp at this

/-- The array with which a member is added: long enough, and with the members that were there. -/
theorem enoughWords_spec (ha : Holds a A) (n : Nat) :
    members (enoughWords a n) = A ∧ n < (enoughWords a n).length ∧
      (n = (enoughWords a n).length - 1 ∨ word (enoughWords a n) ((enoughWords a n).length - 1) ≠ 0) := by
  cases ha with
  | null =>
      refine ⟨members_eq_empty (by decide) fun i => ?_, ?_, .inl ?_⟩
      · rw [enoughWords, ← List.nil_append (List.replicate _ _), word_append_replicate, word_of_le (Nat.zero_le i)]
      · rw [enoughWords, List.length_replicate]
        omega
      · rw [enoughWords, List.length_replicate]
        omega
  | @words as ha =>
      rw [enoughWords]
      split_ifs with h
      · refine ⟨members_congr (by decide) (word_enlarge as _), ?_⟩
        rw [length_enlarge]
        omega
      · exact ⟨rfl, by omega, .inr ha.2⟩

theorem holds_make_singleton (x : Nat) : ∃ r, bms_make_singleton x = .ok r ∧ Holds r {x} := by
  refine ⟨_, by rw [bms_make_singleton, if_neg (by omega)], ?_⟩
  rw [wordnum_natCast, bitnum_natCast, List.set_eq_modify]
  have hbit := one_shiftLeft_ne (i := x % 64) (by omega)
  have hzero : ∀ i, word (List.replicate (x / 64 + 1) (0 : bitmapword)) i = 0 := by
    intro i
    rw [← List.nil_append (List.replicate _ _), word_append_replicate, word_of_le (Nat.zero_le i)]
  have hword : ∀ i, word ((List.replicate (x / 64 + 1) (0 : bitmapword)).modify (x / 64) fun _ => 1#64 <<< (x % 64)) i =
      if i = x / 64 then 1#64 <<< (x % 64) else word (List.replicate (x / 64 + 1) (0 : bitmapword)) i :=
    word_modify (by rw [List.length_replicate]; omega) _
  refine .of_members ⟨by rw [List.length_modify, List.length_replicate]; omega, ?_⟩ ?_
  · rw [List.length_modify, List.length_replicate, hword, if_pos (by omega)]
    exact hbit
  · have hmem : members _ = insert x (members ([] : List bitmapword)) := members_insert fun i => by
      rw [hword, hzero]
      split_ifs <;> simp [word]
    exact hmem

theorem holds_add_member (ha : Holds a A) (x : Nat) : ∃ r, bms_add_member a x = .ok r ∧ Holds r (insert x A) := by
  cases ha with
  | null =>
      rw [bms_add_member, if_neg (by omega)]
      exact holds_make_singleton x
  | @words as ha =>
      refine ⟨_, by rw [bms_add_member, if_neg (by omega)], ?_⟩
      rw [wordnum_natCast, bitnum_natCast]
      obtain ⟨hmem, hlt, hlast⟩ := enoughWords_spec (.words ha) (x / 64)
      rw [← hmem]
      refine .of_members (trimmed_modify_or hlt ?_) (members_insert fun i => word_modify hlt _ i)
      exact hlast.imp_left fun h => ⟨h, one_shiftLeft_ne (by omega)⟩

theorem holds_del_member (ha : Holds a A) (x : Nat) : ∃ r, bms_del_member a x = .ok r ∧ Holds r (A.erase x) := by
  cases ha with
  | null => exact ⟨none, by rw [bms_del_member, if_neg (by omega)], by rw [Finset.erase_empty]; exact .null⟩
  | @words as ha =>
      rw [bms_del_member, if_neg (by omega), wordnum_natCast, bitnum_natCast]
      simp only
      split_ifs with hlen hlast
      · refine ⟨_, rfl, .of_members ha (Finset.erase_eq_of_notMem fun hx => ?_).symm⟩
        have := lt_of_mem (by decide) hx
        omega
      · refine ⟨_, rfl, ?_⟩
        have hword : ∀ i, word (as.modify (x / 64) (· &&& ~~~(1#64 <<< (x % 64)))) i =
            if i = x / 64 then word as i &&& ~~~(1#64 <<< (x % 64)) else word as i := word_modify (by omega) _
        rw [← members_erase hword]
        refine holds_delTrimLoop _ _ fun j hj => ?_
        rcases Nat.eq_or_lt_of_le hj with rfl | hlt
        · exact hlast.1
        · rw [List.length_modify] at hlast
          exact word_of_le (by rw [List.length_modify]; omega)
      · refine ⟨_, rfl, .of_members ⟨by rw [List.length_modify]; omega, fun h0 => ?_⟩
          (members_erase fun i => word_modify (by omega) _ i)⟩
        rw [List.length_modify] at h0 hlast
        by_cases heq : x / 64 = as.length - 1
        · exact hlast ⟨heq ▸ h0, heq⟩
        · rw [word_modify (by omega), if_neg (Ne.symm heq)] at h0
          exact ha.2 h0

/-! ## 4. A range of members -/

/-- A list whose words have the bits from `lower` to `upper` in addition. -/
theorem members_range {l u : Nat}
    (h : ∀ i j, j < 64 → ((word ws i).getLsbD j = true ↔
      (word as i).getLsbD j = true ∨ l ≤ 64 * i + j ∧ 64 * i + j ≤ u)) :
    members ws = members as ∪ Finset.Icc l u := by
  ext x
  rw [Finset.mem_union, Finset.mem_Icc, mem_members (by decide), mem_members (by decide),
    h _ _ (Nat.mod_lt x (by decide)), Nat.div_add_mod]

/-- **`bms_add_range`**: in one word, or in the first, the last and all words between them. -/
theorem holds_add_range (ha : Holds a A) (l u : Nat) (hlu : l ≤ u) :
    ∃ r, bms_add_range a l u = .ok r ∧ Holds r (A ∪ Finset.Icc l u) := by
  obtain ⟨hmem, hlen, hlast⟩ := enoughWords_spec ha (u / 64)
  have hlow := fun j => getLsbD_not_low (w := 64) (l := l % 64) (by omega) j
  have hhigh := fun j => getLsbD_allOnes_shift (w := 64) (u := u % 64) (by omega) j
  rw [bms_add_range, if_neg (by omega), if_neg (by omega)]
  simp only [wordnum_natCast, bitnum_natCast, BITS_PER_BITMAPWORD]
  rw [← hmem]
  generalize enoughWords a (u / 64) = ws at hlen hlast ⊢
  split_ifs with hword
  · refine ⟨_, rfl, .of_members (trimmed_modify_or (by omega) ?_) (members_range fun i j hj => ?_)⟩
    · refine hlast.imp_left fun h => ⟨by omega, fun h0 => ?_⟩
      have := congrArg (·.getLsbD (u % 64)) h0
      simp only [BitVec.getLsbD_and, hlow, hhigh, getLsbD_zero, Bool.and_eq_false_iff, decide_eq_false_iff_not] at this
      omega
    · rw [word_modify (by omega)]
      split_ifs with hi
      · rw [BitVec.getLsbD_or, BitVec.getLsbD_and, hlow, hhigh, Bool.or_eq_true, Bool.and_eq_true, decide_eq_true_eq,
          decide_eq_true_eq]
        refine or_congr_right ?_
        omega
      · refine (or_iff_left ?_).symm
        omega
  · have hmid : u / 64 < (fillLoop (u / 64 - (l / 64 + 1)) (l / 64 + 1)
        (ws.modify (l / 64) (· ||| ~~~(1#64 <<< (l % 64) - 1#64)))).length := by
      rw [length_fillLoop, List.length_modify]
      exact hlen
    have hlw : l / 64 < u / 64 := lt_of_le_of_ne (Nat.div_le_div_right hlu) hword
    refine ⟨_, rfl, .of_members (trimmed_modify_or hmid ?_) (members_range fun i j hj => ?_)⟩
    · rw [length_fillLoop, List.length_modify, word_fillLoop _ _ _ _ (by rw [List.length_modify]; omega),
        if_neg (by omega), word_modify (by omega), if_neg (by omega)]
      refine hlast.imp_left fun h => ⟨h, fun h0 => ?_⟩
      have := congrArg (·.getLsbD 0) h0
      simp only [hhigh, getLsbD_zero, decide_eq_false_iff_not] at this
      exact this (Nat.zero_le _)
    · rw [word_modify hmid, word_fillLoop _ _ _ _ (by rw [List.length_modify]; omega), word_modify (by omega)]
      rcases Nat.lt_trichotomy i (u / 64) with hi | rfl | hi
      · rw [if_neg (by omega)]
        split_ifs with hfill hfirst
        · rw [BitVec.getLsbD_allOnes, decide_eq_true hj]
          exact iff_of_true rfl (.inr (by omega))
        · rw [BitVec.getLsbD_or, hlow, Bool.or_eq_true, decide_eq_true_eq]
          refine or_congr_right ?_
          omega
        · refine (or_iff_left ?_).symm
          omega
      · rw [if_pos rfl, if_neg (by omega), if_neg (by omega), BitVec.getLsbD_or, hhigh, Bool.or_eq_true,
          decide_eq_true_eq]
        refine or_congr_right ?_
        omega
      · rw [if_neg (by omega), if_neg (by omega), if_neg (by omega)]
        refine (or_iff_left ?_).symm
        omega

end Pgvec.Bms
