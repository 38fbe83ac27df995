/-
  File:      Pgvec/Lib/RobinHood.lean
  Subject:   ROBIN HOOD PLACES ON A CIRCLE.

  A circle of `n` places, some of them taken. Who takes a place wanted to be somewhere, and stands so many
  steps behind: the displacement. The rule is that of two neighbours the second one has at most one step
  more to go back than the first one.

  * `pos`, `gap` -- going on from a place, and the steps between two places;
  * `Ordered` -- the rule, for each pair of neighbours; `Ordered.rotate` -- it does not matter where the
    circle begins;
  * `Ordered.path` -- from where one wanted to be to where one is, every place is taken by one who is at
    least as far off as one passes; `Ordered.wanted_le` -- in the order of their places, they wanted to be
    in that order;
  * **`Ordered.insert`** -- taking a place, all from there to the next free one moving up;
    **`Ordered.erase`** -- leaving a place, all who are displaced moving back; `Ordered.set` -- taking a
    free place.
-/
import Mathlib.Data.Nat.Init
import Mathlib.Logic.Function.Basic
import Mathlib.Tactic.SplitIfs

namespace Pgvec.RobinHood

/-! ## 1. The circle -/

/-- The place `k` steps on from `s`. -/
def pos (n s k : Nat) : Nat := if s + k < n then s + k else s + k - n

/-- The steps from `o` to `b`. -/
def gap (n o b : Nat) : Nat := if o ≤ b then b - o else n + b - o

section Circle

variable {n s k i j o b : Nat}

theorem pos_lt (hs : s < n) (hk : k ≤ n) : pos n s k < n := by
  unfold pos
  split <;> omega

@[simp] theorem pos_zero (hs : s < n) : pos n s 0 = s := if_pos hs

theorem pos_self : pos n s n = s := by
  unfold pos
  split <;> omega

theorem pos_pos (hs : s < n) (h : i + j ≤ n) : pos n (pos n s i) j = pos n s (i + j) := by
  unfold pos
  split_ifs <;> omega

theorem pos_inj (hi : i < n) (hj : j < n) (h : pos n s i = pos n s j) : i = j := by
  unfold pos at h
  split_ifs at h <;> omega

theorem gap_lt (ho : o < n) (hb : b < n) : gap n o b < n := by
  unfold gap
  split <;> omega

theorem pos_gap (ho : o < n) (hb : b < n) : pos n o (gap n o b) = b := by
  unfold gap pos
  split_ifs <;> omega

theorem gap_pos (ho : o < n) (hk : k < n) : gap n o (pos n o k) = k := by
  unfold gap pos
  split_ifs <;> omega

theorem gap_pos_succ (ho : o < n) (hs : s < n) (hk : k < n) (h : gap n o (pos n s k) + 1 < n) :
    gap n o (pos n s (k + 1)) = gap n o (pos n s k) + 1 := by
  unfold gap pos at *
  split_ifs at h ⊢ <;> omega

theorem gap_pos_pred (ho : o < n) (hs : s < n) (hk : k < n) (h : 0 < gap n o (pos n s (k + 1))) :
    gap n o (pos n s (k + 1)) = gap n o (pos n s k) + 1 := by
  unfold gap pos at *
  split_ifs at h ⊢ <;> omega

theorem add_mod_eq_pos (hs : s < n) (hk : k ≤ n) : (s + k) % n = pos n s k := by
  unfold pos
  split
  · rename_i h
    exact Nat.mod_eq_of_lt h
  · rw [Nat.mod_eq_sub_mod (by omega), Nat.mod_eq_of_lt (by omega)]

end Circle

/-! ## 2. The rule -/

/-- Two neighbours: the second one is displaced by at most one more than the first one. -/
def Chained (x y : Option Nat) : Prop := ∀ d, y = some (d + 1) → ∃ d', x = some d' ∧ d ≤ d'

/-- **The rule** on the whole circle. -/
def Ordered (n : Nat) (F : Nat → Option Nat) : Prop := ∀ b, b < n → Chained (F b) (F (pos n b 1))

theorem chained_none (x : Option Nat) : Chained x none := fun d hd => by cases hd

theorem chained_zero (x : Option Nat) : Chained x (some 0) := fun d hd => by cases hd

/-- Behind a free place nobody is displaced. -/
theorem Chained.free {y : Option Nat} (h : Chained none y) : y = none ∨ y = some 0 := by
  match y, h with
  | none, _ => exact Or.inl rfl
  | some 0, _ => exact Or.inr rfl
  | some (d + 1), h =>
      obtain ⟨d', hd, -⟩ := h d rfl
      cases hd

theorem Chained.of_free {y : Option Nat} (h : y = none ∨ y = some 0) (x : Option Nat) : Chained x y := by
  rcases h with rfl | rfl
  · exact chained_none x
  · exact chained_zero x

section Rule

variable {n s : Nat} {F G G' : Nat → Option Nat}

/-- The circle may begin anywhere. -/
theorem Ordered.rotate (h : Ordered n F) (hs : s < n) : Ordered n fun k => F (pos n s k) := by
  intro k hk
  have hnext : pos n s (pos n k 1) = pos n (pos n s k) 1 := by
    unfold pos
    split_ifs <;> omega
  show Chained (F (pos n s k)) (F (pos n s (pos n k 1)))
  rw [hnext]
  exact h _ (pos_lt hs (Nat.le_of_lt hk))

theorem Ordered.of_rotate (hs : s < n) (h : Ordered n fun k => F (pos n s k)) : Ordered n F := by
  intro b hb
  have hk := h (gap n s b) (gap_lt hs hb)
  have hnext : pos n s (pos n (gap n s b) 1) = pos n b 1 := by
    unfold pos gap
    split_ifs <;> omega
  simp only [pos_gap hs hb, hnext] at hk
  exact hk

/-- The rule at two neighbours, counted from `s`. -/
theorem Ordered.at (h : Ordered n F) (hs : s < n) {k : Nat} (hk : k < n) :
    Chained (F (pos n s k)) (F (pos n s (k + 1))) := by
  rw [← pos_pos hs (show k + 1 ≤ n from hk)]
  exact h _ (pos_lt hs (Nat.le_of_lt hk))

/-- **The way from where one wanted to be**: every place is taken, by one who is at least as far off. -/
theorem Ordered.path (h : Ordered n F) (hs : s < n) {k d : Nat} (hk : k < n) (hF : F (pos n s k) = some d)
    (hd : k ≤ d) {i : Nat} (hi : i ≤ k) : ∃ d', F (pos n s i) = some d' ∧ i ≤ d' := by
  -- backwards from `k`
  induction hi using Nat.decreasingInduction with
  | self => exact ⟨d, hF, hd⟩
  | of_succ i hi ih =>
      obtain ⟨d', hF', hd'⟩ := ih
      obtain ⟨e, rfl⟩ : ∃ e, d' = e + 1 := ⟨d' - 1, by omega⟩
      obtain ⟨d'', hF'', hle⟩ := h.at hs (by omega) e hF'
      exact ⟨d'', hF'', by omega⟩

/-- From a place that is free or taken by one who wanted it, nobody reaches back over it. -/
theorem Ordered.le_of_start (h : Ordered n F) (hs : s < n) (hstart : F s = none ∨ F s = some 0) {k d : Nat}
    (hk : k < n) (hF : F (pos n s k) = some d) : d ≤ k := by
  induction k generalizing d with
  | zero =>
      rw [pos_zero hs] at hF
      rcases hstart with h0 | h0
      · rw [hF] at h0
        cases h0
      · rw [hF] at h0
        cases h0
        exact Nat.le_refl 0
  | succ k ih =>
      cases d with
      | zero => exact Nat.zero_le _
      | succ d =>
          obtain ⟨d', hF', hle⟩ := h.at hs (Nat.lt_of_succ_lt hk) d hF
          have hd' := ih (Nat.lt_of_succ_lt hk) hF'
          omega

/-- Whoever stands further on wanted a place that is not in front. -/
theorem Ordered.wanted_le (h : Ordered n F) (hs : s < n) {a k x y : Nat} (hak : a ≤ k) (hk : k < n)
    (hx : F (pos n s a) = some x) (hy : F (pos n s k) = some y) : a - x ≤ k - y := by
  induction hak generalizing y with
  | refl =>
      rw [hx] at hy
      cases hy
      exact Nat.le_refl _
  | step hak ih =>
      rename_i k
      have hak : a ≤ k := hak
      cases y with
      | zero => omega
      | succ y =>
          obtain ⟨y', hy', hle⟩ := h.at hs (Nat.lt_of_succ_lt hk) y hy
          have hrest := ih (Nat.lt_of_succ_lt hk) hy'
          omega

/-! ## 3. Taking and leaving a place -/

/-- **Taking a place**: all from there to the next free place move up by one. The circle begins where the new
    one wanted to be. -/
theorem Ordered.insert (h : Ordered n G) {k m : Nat} (hkm : k ≤ m) (hm : m < n)
    (hpassed : ∀ i, i < k → ∃ d, G i = some d ∧ i ≤ d) (htaken : ∀ i, k ≤ i → i < m → ∃ d, G i = some d)
    (hfree : G m = none) (hless : k < m → ∀ d, G k = some d → d < k)
    (hlow : ∀ i, i < k → G' i = G i) (hnew : G' k = some k)
    (hmoved : ∀ i, k ≤ i → i < m → G' (i + 1) = (G i).map (· + 1)) (hhigh : ∀ i, m < i → i < n → G' i = G i) :
    Ordered n G' := by
  have hnext : ∀ i, i + 1 < n → pos n i 1 = i + 1 := fun i hi => if_pos hi
  have hlast : pos n (n - 1) 1 = 0 := by
    unfold pos
    split <;> omega
  intro b hb
  have hc := h b hb
  by_cases hbl : b = n - 1
  · -- the last place and the first one
    subst hbl
    rw [hlast] at hc ⊢
    by_cases hk0 : k = 0
    · subst hk0
      rw [hnew]
      exact chained_zero _
    · rw [hlow 0 (by omega)]
      by_cases hmn : m = n - 1
      · rw [← hmn, hfree] at hc
        exact Chained.of_free hc.free _
      · rw [hhigh (n - 1) (by omega) hb]
        exact hc
  · rw [hnext b (by omega)] at hc ⊢
    rcases Nat.lt_trichotomy (b + 1) k with hlt | rfl | hgt
    · rw [hlow b (by omega), hlow (b + 1) hlt]
      exact hc
    · -- in front of the new one
      obtain ⟨d, hd, hle⟩ := hpassed b (Nat.lt_succ_self b)
      rw [hlow b (Nat.lt_succ_self b), hnew, hd]
      intro e he
      obtain rfl : b = e := by simpa using he
      exact ⟨d, rfl, hle⟩
    · rcases Nat.lt_trichotomy b m with hbm | rfl | hbm
      · -- two that move up, or the new one and the first that moves up
        obtain ⟨y, hy⟩ := htaken b (by omega) hbm
        rw [hmoved b (by omega) hbm, hy]
        by_cases hbk : b = k
        · subst hbk
          have hlt := hless hbm y hy
          rw [hnew]
          intro e he
          obtain rfl : y = e := by simpa using he
          exact ⟨b, rfl, Nat.le_of_lt hlt⟩
        · obtain ⟨i, rfl⟩ : ∃ i, b = i + 1 := ⟨b - 1, by omega⟩
          obtain ⟨x, hx⟩ := htaken i (by omega) (by omega)
          have hci := h i (by omega)
          rw [hnext i hb, hx, hy] at hci
          rw [hmoved i (by omega) (by omega), hx]
          intro e he
          obtain rfl : y = e := by simpa using he
          refine ⟨x + 1, rfl, ?_⟩
          cases y with
          | zero => exact Nat.zero_le _
          | succ y =>
              obtain ⟨x', hx', hle⟩ := hci y rfl
              obtain rfl : x = x' := by simpa using hx'
              omega
      · -- behind the place that was free
        rw [hfree] at hc
        rw [hhigh (b + 1) (Nat.lt_succ_self b) (by omega)]
        exact Chained.of_free hc.free _
      · rw [hhigh b hbm hb, hhigh (b + 1) (by omega) (by omega)]
        exact hc

/-- **Leaving a place**: all behind it that are displaced move back by one. The circle begins at that place. -/
theorem Ordered.erase (h : Ordered n G) {j d0 : Nat} (hj : j + 1 < n) (hfirst : G 0 = some d0)
    (hback : ∀ i, i < j → ∃ d, G (i + 1) = some (d + 1)) (hstop : G (j + 1) = none ∨ G (j + 1) = some 0)
    (hmoved : ∀ i, i < j → G' i = (G (i + 1)).map (· - 1)) (hfree : G' j = none)
    (hhigh : ∀ i, j < i → i < n → G' i = G i) : Ordered n G' := by
  have hnext : ∀ i, i + 1 < n → pos n i 1 = i + 1 := fun i hi => if_pos hi
  have hlast : pos n (n - 1) 1 = 0 := by
    unfold pos
    split <;> omega
  intro b hb
  have hc := h b hb
  by_cases hbl : b = n - 1
  · subst hbl
    rw [hlast, hfirst] at hc
    rw [hlast, hhigh (n - 1) (by omega) hb]
    by_cases hj0 : j = 0
    · subst hj0
      rw [hfree]
      exact chained_none _
    · -- the one that moves to the first place is not more displaced than the one who left
      obtain ⟨d, hd⟩ := hback 0 (by omega)
      have hc0 := h 0 (by omega)
      rw [hnext 0 (by omega), hd, hfirst] at hc0
      obtain ⟨d', hd', hle⟩ := hc0 d rfl
      obtain rfl : d0 = d' := by simpa using hd'
      rw [hmoved 0 (by omega), hd]
      intro e he
      obtain rfl : d = e + 1 := by simpa using he
      obtain ⟨e', rfl⟩ : ∃ e', d0 = e' + 1 := ⟨d0 - 1, by omega⟩
      obtain ⟨x, hx, hle'⟩ := hc e' rfl
      exact ⟨x, hx, by omega⟩
  · rw [hnext b (by omega)] at hc ⊢
    rcases Nat.lt_trichotomy (b + 1) j with hlt | rfl | hgt
    · -- two that move back
      obtain ⟨x, hx⟩ := hback b (by omega)
      obtain ⟨y, hy⟩ := hback (b + 1) hlt
      have hci := h (b + 1) (by omega)
      rw [hnext (b + 1) (by omega), hx, hy] at hci
      obtain ⟨x', hx', hle⟩ := hci y rfl
      obtain rfl : x + 1 = x' := by simpa using hx'
      rw [hmoved b (by omega), hmoved (b + 1) hlt, hx, hy]
      intro e he
      obtain rfl : y = e + 1 := by simpa using he
      exact ⟨x, rfl, by omega⟩
    · rw [hfree]
      exact chained_none _
    · by_cases hbj : b = j
      · subst hbj
        rw [hhigh (b + 1) (Nat.lt_succ_self b) hj]
        exact Chained.of_free hstop _
      · rw [hhigh b (by omega) hb, hhigh (b + 1) (by omega) (by omega)]
        exact hc

/-- **Taking a free place**: the one in front is at least as far off, but for one step. -/
theorem Ordered.set (h : Ordered n F) {p k : Nat} (hn : 1 < n) (hfree : F p = none)
    (hprev : ∀ q, q < n → pos n q 1 = p → Chained (F q) (some k)) :
    Ordered n (Function.update F p (some k)) := by
  intro b hb
  have hne : pos n b 1 ≠ b := by
    unfold pos
    split <;> omega
  by_cases hnextp : pos n b 1 = p
  · have hbp : b ≠ p := fun he => hne (hnextp.trans he.symm)
    rw [hnextp, Function.update_self, Function.update_of_ne hbp]
    exact hprev b hb hnextp
  · rw [Function.update_of_ne hnextp]
    by_cases hbp : b = p
    · have hc := h b hb
      rw [hbp, hfree] at hc
      rw [hbp]
      exact Chained.of_free hc.free _
    · rw [Function.update_of_ne hbp]
      exact h b hb

end Rule

end Pgvec.RobinHood
