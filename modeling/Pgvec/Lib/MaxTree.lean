/-
  File:      Pgvec/Lib/MaxTree.lean
  Subject:   A MAXIMUM TREE IN AN ARRAY: node `x` has the children `2 x + 1` and `2 x + 2`, the first `k`
             nodes are inner ones, and the nodes from `k` up to `n` are the leaves.

  An array of `n` nodes is a function; nodes from `n` on are not there and count as the least value.
  Nothing here knows what the values are: any linear order with a least element.

  * `childMax` -- the larger of a node's children;
  * `Tree` -- every inner node is the larger of its children; `TreeBut` -- every inner node but one;
  * `Tree.set_leaf`, `TreeBut.fix`, `TreeBut.done` -- how a change of a leaf climbs: after each node is
    set to the larger of its children only its parent can be wrong;
  * **`Tree.le_root`** -- no node is above the root; **`Tree.exists_leaf`** -- the root is the value of a
    leaf; `Tree.root_eq` -- so trees with the same leaves have the same root;
  * `Below` -- a node lies some levels below another one; **`Tree.le_above`** -- no node is above a node it
    lies below.
-/
import Mathlib

namespace MaxTree

/-- The parent of a node; the root is its own parent. -/
def parentof (x : Nat) : Nat := (x - 1) / 2

theorem parentof_lt {x : Nat} (h : 0 < x) : parentof x < x := by
  unfold parentof
  omega

variable {α : Type} [LinearOrder α] [OrderBot α] {n k : Nat} {f g : Nat → α} {x y : Nat} {v : α}

/-- The value of a node that may be missing. -/
def node (n : Nat) (f : Nat → α) (x : Nat) : α := if x < n then f x else ⊥

/-- The larger of the two children. -/
def childMax (n : Nat) (f : Nat → α) (x : Nat) : α := max (node n f (2 * x + 1)) (node n f (2 * x + 2))

/-- **The tree**: every inner node is the larger of its children. -/
def Tree (n k : Nat) (f : Nat → α) : Prop := ∀ x < k, f x = childMax n f x

/-- Every inner node but `y` is the larger of its children. -/
def TreeBut (n k : Nat) (f : Nat → α) (y : Nat) : Prop := ∀ x < k, x ≠ y → f x = childMax n f x

theorem childMax_congr (h : ∀ y, y = 2 * x + 1 ∨ y = 2 * x + 2 → f y = g y) :
    childMax n f x = childMax n g x := by
  unfold childMax node
  rw [h _ (Or.inl rfl), h _ (Or.inr rfl)]

/-- Setting a node changes the children of its parent only. -/
theorem childMax_update (hy : y ≠ parentof x) :
    childMax n (Function.update f x v) y = childMax n f y := by
  refine childMax_congr fun z hz => Function.update_of_ne ?_ v f
  unfold parentof at hy
  omega

theorem childMax_update_root (y : Nat) : childMax n (Function.update f 0 v) y = childMax n f y :=
  childMax_congr fun z hz => Function.update_of_ne (by omega) v f

/-! ## 1. A change climbs -/

/-- A leaf is changed: only its parent can be wrong. -/
theorem Tree.set_leaf (h : Tree n k f) (hx : k ≤ x) :
    TreeBut n k (Function.update f x v) (parentof x) := by
  intro y hy hne
  rw [Function.update_of_ne (by omega), childMax_update hne]
  exact h y hy

/-- The wrong node is right already. -/
theorem TreeBut.done (h : TreeBut n k f x) (hx : f x = childMax n f x) : Tree n k f := by
  intro y hy
  by_cases e : y = x
  · rw [e]
    exact hx
  · exact h y hy e

/-- The wrong node is set: now only its parent can be wrong. -/
theorem TreeBut.fix (h : TreeBut n k f x) (h0 : 0 < x) :
    TreeBut n k (Function.update f x (childMax n f x)) (parentof x) := by
  intro y hy hne
  by_cases e : y = x
  · subst e
    rw [Function.update_self, childMax_update hne]
  · rw [Function.update_of_ne e, childMax_update hne]
    exact h y hy e

/-- The wrong node is the root and is set. -/
theorem TreeBut.fix_root (h : TreeBut n k f 0) : Tree n k (Function.update f 0 (childMax n f 0)) := by
  intro y hy
  rw [childMax_update_root]
  by_cases e : y = 0
  · rw [e, Function.update_self]
  · rw [Function.update_of_ne e]
    exact h y hy e

/-! ## 2. The root and the leaves -/

theorem le_childMax (h0 : 0 < x) (hx : x < n) : f x ≤ childMax n f (parentof x) := by
  unfold childMax node parentof
  have hc : x = 2 * ((x - 1) / 2) + 1 ∨ x = 2 * ((x - 1) / 2) + 2 := by omega
  rcases hc with hc | hc
  · rw [← hc, if_pos hx]
    exact le_max_left _ _
  · rw [← hc, if_pos hx]
    exact le_max_right _ _

/-- **No node is above the root.** -/
theorem Tree.le_root (h : Tree n k f) (hk : n ≤ 2 * k + 1) (hx : x < n) : f x ≤ f 0 := by
  induction x using Nat.strong_induction_on with
  | _ x ih =>
      by_cases h0 : x = 0
      · rw [h0]
      · have hp : parentof x < x := parentof_lt (by omega)
        calc f x ≤ childMax n f (parentof x) := le_childMax (by omega) hx
          _ = f (parentof x) := (h _ (by unfold parentof; omega)).symm
          _ ≤ f 0 := ih _ hp (by omega)

/-- An inner node that is above the least value has a child with its value. -/
theorem Tree.exists_child (h : Tree n k f) (hx : x < k) (hv : ⊥ < v) (hle : v ≤ f x) :
    (2 * x + 1 < n ∧ v ≤ f (2 * x + 1)) ∨ (2 * x + 2 < n ∧ v ≤ f (2 * x + 2)) := by
  rw [h x hx, childMax, le_max_iff] at hle
  unfold node at hle
  refine hle.imp (fun hl => ?_) (fun hl => ?_)
  · split at hl
    · exact ⟨‹_›, hl⟩
    · exact absurd (lt_of_lt_of_le hv hl) (lt_irrefl _)
  · split at hl
    · exact ⟨‹_›, hl⟩
    · exact absurd (lt_of_lt_of_le hv hl) (lt_irrefl _)

/-- **A value that a node reaches is reached by a leaf.** -/
theorem Tree.exists_leaf (h : Tree n k f) (hv : ⊥ < v) (hx : x < n) (hle : v ≤ f x) :
    ∃ y, k ≤ y ∧ y < n ∧ v ≤ f y := by
  -- the children have larger numbers, so the distance to `n` goes down
  induction hd : n - x using Nat.strong_induction_on generalizing x with
  | _ d ih =>
      by_cases hk : k ≤ x
      · exact ⟨x, hk, hx, hle⟩
      · rcases h.exists_child (by omega) hv hle with ⟨hc, hl⟩ | ⟨hc, hl⟩
        · exact ih _ (by omega) hc hl rfl
        · exact ih _ (by omega) hc hl rfl

/-- The root of a tree is at most the root of another one that has its leaves. -/
theorem Tree.root_le (h : Tree n k f) (h' : Tree n k g) (hk : n ≤ 2 * k + 1) (hn : 0 < n)
    (hl : ∀ x, k ≤ x → x < n → f x = g x) : f 0 ≤ g 0 := by
  by_cases h0 : ⊥ < f 0
  · obtain ⟨y, hy, hyn, hle⟩ := h.exists_leaf h0 hn le_rfl
    rw [hl y hy hyn] at hle
    exact hle.trans (h'.le_root hk hyn)
  · rw [not_bot_lt_iff.mp h0]
    exact bot_le

/-- **Trees with the same leaves have the same root.** -/
theorem Tree.root_eq (h : Tree n k f) (h' : Tree n k g) (hk : n ≤ 2 * k + 1) (hn : 0 < n)
    (hl : ∀ x, k ≤ x → x < n → f x = g x) : f 0 = g 0 :=
  le_antisymm (h.root_le h' hk hn hl) (h'.root_le h hk hn fun x hx hxn => (hl x hx hxn).symm)

/-! ## 3. Subtrees -/

/-- Node `y` lies `j` levels below node `x`: counted from 1, the parent is half. -/
def Below (j x y : Nat) : Prop := (y + 1) / 2 ^ j = x + 1

/-- One level further up. -/
theorem Below.up {j x : Nat} (h : Below (j + 1) x y) : ∃ z, Below j z y ∧ 0 < z ∧ parentof z = x := by
  unfold Below at h
  rw [pow_succ, ← Nat.div_div_eq_div_mul] at h
  refine ⟨(y + 1) / 2 ^ j - 1, ?_, ?_, ?_⟩
  · unfold Below
    omega
  · omega
  · unfold parentof
    omega

theorem Below.le {j : Nat} (h : Below j x y) : x ≤ y := by
  have hle := Nat.div_le_self (y + 1) (2 ^ j)
  unfold Below at h
  omega

/-- The nodes `j` levels below `x`. -/
theorem below_iff {j : Nat} : Below j x y ↔ (x + 1) * 2 ^ j ≤ y + 1 ∧ y + 1 < (x + 2) * 2 ^ j := by
  rw [Below, Nat.div_eq_iff (Nat.two_pow_pos j)]
  have h : (x + 2) * 2 ^ j = (x + 1) * 2 ^ j + 2 ^ j := Nat.succ_mul (x + 1) (2 ^ j)
  have hpos := Nat.two_pow_pos j
  omega

/-- **No node is above a node it lies below.** -/
theorem Tree.le_above (h : Tree n k f) (hk : n ≤ 2 * k + 1) (hy : y < n) {j : Nat} (hb : Below j x y) :
    f y ≤ f x := by
  induction j generalizing x with
  | zero =>
      have e : y = x := by
        unfold Below at hb
        omega
      rw [e]
  | succ j ih =>
      obtain ⟨z, hz, hpos, hp⟩ := hb.up
      have hzn : z < n := lt_of_le_of_lt hz.le hy
      have hx : x < k := by
        rw [← hp]
        unfold parentof
        omega
      calc f y ≤ f z := ih hz
        _ ≤ childMax n f (parentof z) := le_childMax hpos hzn
        _ = f x := by rw [hp, h x hx]

end MaxTree
