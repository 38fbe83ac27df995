/-
  File:      Pgvec/Lib/Cells.lean
  Subject:   A PIECE OF MEMORY WITH AN END: reading and writing that fail outside of it. Names nothing of any
             program.

  * `poke`, `read` -- the accesses; `At` -- some cells stand at an address;
  * `at_poke`, `getElem?_poke_out`, `At.congr` -- what a write leaves; `poke_blank` -- writing from the front on;
  * `leBytes`, `leNat` -- a number as bytes, the lowest first.
-/
import Mathlib.Data.List.Basic
import Mathlib.Tactic.Ring

namespace Pgvec.Cells

variable {α : Type} {m m' : List α} {xs ys : List α} {p q n : Nat}

/-! ## 1. Accesses -/

/-- The cells from an address on are written, if they are all there. -/
def poke (m : List α) (p : Nat) (xs : List α) : Option (List α) :=
  if p + xs.length ≤ m.length then some (m.take p ++ xs ++ m.drop (p + xs.length)) else none

/-- The `n` cells from an address on. -/
def read (m : List α) (p n : Nat) : Option (List α) :=
  if p + n ≤ m.length then some ((m.drop p).take n) else none

/-- These cells stand at the address. -/
def At (m : List α) (p : Nat) (xs : List α) : Prop := p + xs.length ≤ m.length ∧ ∀ k < xs.length, m[p + k]? = xs[k]?

theorem read_eq (h : At m p xs) : read m p xs.length = some xs := by
  rw [read, if_pos h.1]
  refine congrArg some (List.ext_getElem? fun k => ?_)
  rw [List.getElem?_take, List.getElem?_drop]
  split_ifs with hk
  · exact h.2 k hk
  · exact (List.getElem?_eq_none (by omega)).symm

theorem At.head {x : α} (h : At m p (x :: xs)) : m[p]? = some x := by
  have := h.2 0 (by simp)
  simpa using this

theorem At.get {k : Nat} (h : At m p xs) (hk : k < xs.length) : m[p + k]? = some xs[k] := by
  rw [h.2 k hk, List.getElem?_eq_getElem hk]

theorem at_append : At m p (xs ++ ys) ↔ At m p xs ∧ At m (p + xs.length) ys := by
  simp only [At, List.length_append]
  refine ⟨fun h => ⟨⟨by omega, fun k hk => ?_⟩, by omega, fun k hk => ?_⟩, fun ⟨h1, h2⟩ => ⟨by omega, fun k hk => ?_⟩⟩
  · rw [h.2 k (by omega), List.getElem?_append_left hk]
  · have := h.2 (xs.length + k) (by omega)
    rwa [List.getElem?_append_right (by omega), Nat.add_sub_cancel_left, ← Nat.add_assoc] at this
  · rcases Nat.lt_or_ge k xs.length with h | h
    · rw [h1.2 k h, List.getElem?_append_left h]
    · obtain ⟨j, rfl⟩ := Nat.exists_eq_add_of_le h
      rw [← Nat.add_assoc, h2.2 j (by omega), List.getElem?_append_right (by omega), Nat.add_sub_cancel_left]

theorem at_self : At xs 0 xs := ⟨by omega, fun k _ => by rw [Nat.zero_add]⟩

theorem At.congr (h : At m p xs) (hlen : m.length ≤ m'.length)
    (hm : ∀ a, p ≤ a → a < p + xs.length → m'[a]? = m[a]?) : At m' p xs :=
  ⟨h.1.trans hlen, fun k hk => by rw [hm _ (by omega) (by omega), h.2 k hk]⟩

theorem poke_eq (m : List α) (p : Nat) (xs : List α) (h : p + xs.length ≤ m.length) :
    ∃ m', poke m p xs = some m' ∧ m'.length = m.length := by
  refine ⟨_, if_pos h, ?_⟩
  rw [List.length_append, List.length_append, List.length_take, List.length_drop]
  omega

theorem poke_fits (h : poke m p xs = some m') : p + xs.length ≤ m.length := by
  rw [poke] at h
  split_ifs at h with hle
  exact hle

theorem getElem?_poke (h : poke m p xs = some m') (a : Nat) :
    m'[a]? = if p ≤ a ∧ a < p + xs.length then xs[a - p]? else m[a]? := by
  have hle := poke_fits h
  rw [poke, if_pos hle] at h
  obtain rfl := Option.some.inj h
  have hp : (m.take p).length = p := by rw [List.length_take]; omega
  rcases Nat.lt_or_ge a p with ha | ha
  · rw [if_neg (by omega), List.append_assoc, List.getElem?_append_left (by omega), List.getElem?_take, if_pos ha]
  · rcases Nat.lt_or_ge a (p + xs.length) with hb | hb
    · rw [if_pos ⟨ha, hb⟩, List.append_assoc, List.getElem?_append_right (by omega),
        List.getElem?_append_left (by omega), hp]
    · rw [if_neg (by omega), List.getElem?_append_right (by rw [List.length_append]; omega), List.length_append, hp,
        List.getElem?_drop]
      congr 1
      omega

theorem getElem?_poke_out (h : poke m p xs = some m') {a : Nat} (ha : a < p ∨ p + xs.length ≤ a) : m'[a]? = m[a]? := by
  rw [getElem?_poke h, if_neg (by omega)]

theorem length_poke (h : poke m p xs = some m') : m'.length = m.length := by
  obtain ⟨m'', h', hlen⟩ := poke_eq m p xs (poke_fits h)
  rw [h] at h'
  rw [Option.some.inj h', hlen]

theorem at_poke (h : poke m p xs = some m') : At m' p xs := by
  refine ⟨by rw [length_poke h]; exact poke_fits h, fun k hk => ?_⟩
  rw [getElem?_poke h, if_pos (by omega), Nat.add_sub_cancel_left]

/-- Cells away from a write stay. -/
theorem At.poke (h : At m p xs) (hp : poke m q ys = some m') (hapart : p + xs.length ≤ q ∨ q + ys.length ≤ p) :
    At m' p xs :=
  h.congr (length_poke hp).ge fun _ _ _ => getElem?_poke_out hp (by omega)

/-- A write behind what is written, perhaps after a gap, into cells that are all blank. -/
theorem poke_blank (xs ys : List α) (x : α) (n gap : Nat) (h : gap + ys.length ≤ n) :
    poke (xs ++ List.replicate n x) (xs.length + gap) ys =
      some (xs ++ List.replicate gap x ++ ys ++ List.replicate (n - gap - ys.length) x) := by
  rw [poke, if_pos (by rw [List.length_append, List.length_replicate]; omega)]
  have htake : (xs ++ List.replicate n x).take (xs.length + gap) = xs ++ List.replicate gap x := by
    rw [List.take_length_add_append, List.take_replicate, min_eq_left (by omega)]
  have hdrop : (xs ++ List.replicate n x).drop (xs.length + gap + ys.length) =
      List.replicate (n - gap - ys.length) x := by
    rw [Nat.add_assoc, List.drop_length_add_append, List.drop_replicate, Nat.sub_sub]
  rw [htake, hdrop]

/-! ## 2. Numbers as bytes -/

/-- The `k` lowest bytes of a number, the lowest first. -/
def leBytes : Nat → Nat → List UInt8
  | 0, _ => []
  | k + 1, n => UInt8.ofNat n :: leBytes k (n / 256)

/-- The number of some bytes, the lowest first. -/
def leNat : List UInt8 → Nat
  | [] => 0
  | b :: bs => b.toNat + 256 * leNat bs

@[simp] theorem length_leBytes (k n : Nat) : (leBytes k n).length = k := by
  induction k generalizing n with
  | zero => rfl
  | succ k ih => rw [leBytes, List.length_cons, ih]

theorem leNat_leBytes (k n : Nat) : leNat (leBytes k n) = n % 256 ^ k := by
  induction k generalizing n with
  | zero => rw [Nat.pow_zero, Nat.mod_one]; rfl
  | succ k ih =>
      have hsplit : n % (256 * 256 ^ k) = n % 256 + 256 * (n / 256 % 256 ^ k) := Nat.mod_mul
      rw [leBytes, leNat, ih, UInt8.toNat_ofNat', Nat.pow_succ' (m := 256), hsplit]

end Pgvec.Cells
