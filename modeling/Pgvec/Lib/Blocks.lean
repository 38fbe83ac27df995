/-
  File:      Pgvec/Lib/Blocks.lean
  Subject:   BLOCKS OF CELLS IN A MEMORY: copying them, and packing them against a ceiling. Names nothing
             of any program.

  A memory is a function from addresses to cells of any type.

  * `copy`, `move`, `store`, `slice` -- `memcpy` from another memory, `memmove` within one, writing and
    reading a list; `copy_add`, `move_add` -- when two adjacent copies are one;
  * `Block`, `Apart`, `Within` -- where a block lies; `total_le`, `total_eq` -- blocks that do not overlap
    take no more than the room they lie in, and all of it when they leave no gap;
  * `pack` -- the blocks one after the other, each directly below the one before;
  * **`pack_copy`**, **`pack_move`** -- what packing leaves in memory, from a copy of the blocks, or in
    place when the blocks come in descending order.
-/
import Mathlib

namespace Blocks

variable {α : Type}

/-! ## 1. Copying -/

/-- `len` cells of `src`, from `start` on, to `dst`. -/
def copy (src : Nat → α) (dst start len : Nat) (m : Nat → α) : Nat → α := fun a =>
  if dst ≤ a ∧ a < dst + len then src (a - dst + start) else m a

/-- `len` cells from `start` on to `dst`; the two ranges may overlap. -/
def move (dst start len : Nat) (m : Nat → α) : Nat → α := copy m dst start len m

/-- The cells of a list, from `dst` on. -/
def store (m : Nat → α) (dst : Nat) (xs : List α) : Nat → α := fun a =>
  if dst ≤ a then xs.getD (a - dst) (m a) else m a

/-- `len` cells from `start` on. -/
def slice (m : Nat → α) (start len : Nat) : List α := (List.range len).map fun k => m (start + k)

variable {src m m' : Nat → α} {dst start len a x n l u h : Nat} {xs : List α}

theorem copy_in (hx : x < len) : copy src dst start len m (dst + x) = src (start + x) := by
  unfold copy
  rw [if_pos ⟨by omega, by omega⟩]
  congr 1
  omega

theorem copy_out (ha : a < dst ∨ dst + len ≤ a) : copy src dst start len m a = m a := by
  unfold copy
  rw [if_neg (by omega)]

@[simp] theorem copy_zero : copy src dst start 0 m = m := by
  funext a
  exact copy_out (by omega)

theorem move_in (hx : x < len) : move dst start len m (dst + x) = m (start + x) := copy_in hx

theorem move_out (ha : a < dst ∨ dst + len ≤ a) : move dst start len m a = m a := copy_out ha

@[simp] theorem move_zero : move dst start 0 m = m := copy_zero

/-- Two adjacent copies are one. -/
theorem copy_add : copy src u h (l + n) m = copy src u h l (copy src (u + l) (h + l) n m) := by
  funext a
  unfold copy
  by_cases h1 : u ≤ a ∧ a < u + l
  · rw [if_pos h1, if_pos ⟨h1.1, by omega⟩]
  · rw [if_neg h1]
    by_cases h2 : u + l ≤ a ∧ a < u + l + n
    · rw [if_pos h2, if_pos ⟨by omega, by omega⟩]
      congr 1
      omega
    · rw [if_neg h2, if_neg (by omega)]

/-- A move to where the cells are. -/
@[simp] theorem move_self : move dst dst len m = m := by
  funext a
  unfold move copy
  split
  · congr 1
    omega
  · rfl

/-- Two adjacent moves are one, when the upper one goes first and does not go down. -/
theorem move_add (hu : h ≤ u) : move u h (l + n) m = move u h l (move (u + l) (h + l) n m) := by
  have hadd : move u h (l + n) m = copy m u h l (move (u + l) (h + l) n m) := copy_add
  rw [hadd]
  funext a
  by_cases h1 : u ≤ a ∧ a < u + l
  · obtain ⟨x, rfl⟩ := Nat.exists_eq_add_of_le h1.1
    rw [copy_in (by omega), move_in (by omega), move_out (by omega)]
  · exact (copy_out (by omega)).trans (move_out (by omega)).symm

theorem store_in (hx : x < xs.length) : store m dst xs (dst + x) = xs[x] := by
  unfold store
  rw [if_pos (by omega), Nat.add_sub_cancel_left, List.getD_eq_getElem]

theorem store_zero (hx : x < xs.length) : store m 0 xs x = xs[x] := by
  have h0 : store m 0 xs (0 + x) = xs[x] := store_in hx
  rwa [Nat.zero_add] at h0

theorem store_out (ha : a < dst ∨ dst + xs.length ≤ a) : store m dst xs a = m a := by
  unfold store
  rcases ha with ha | ha
  · rw [if_neg (by omega)]
  · rw [if_pos (by omega), List.getD_eq_default]
    omega

@[simp] theorem length_slice : (slice m start len).length = len := by
  simp only [slice, List.length_map, List.length_range]

theorem slice_congr (hm : ∀ x < len, m' (u + x) = m (start + x)) : slice m' u len = slice m start len := by
  unfold slice
  refine List.map_congr_left fun x hx => hm x (List.mem_range.mp hx)

theorem slice_store : slice (store m dst xs) dst xs.length = xs := by
  refine List.ext_getElem length_slice fun i h1 h2 => ?_
  simp only [slice, List.getElem_map, List.getElem_range]
  exact store_in h2

/-- A list written behind another one. -/
theorem store_append {ys : List α} : store (store m dst xs) (dst + xs.length) ys = store m dst (xs ++ ys) := by
  funext a
  by_cases h1 : a < dst + xs.length
  · rw [store_out (Or.inl h1)]
    unfold store
    split
    · rw [List.getD_append _ _ _ _ (by omega)]
    · rfl
  · have hnew : store m dst (xs ++ ys) a = ys.getD (a - dst - xs.length) (m a) := by
      unfold store
      rw [if_pos (by omega), List.getD_append_right _ _ _ _ (by omega)]
    have hout : store m dst xs a = m a := store_out (Or.inr (Nat.le_of_not_lt h1))
    rw [hnew, ← hout]
    show (if dst + xs.length ≤ a then ys.getD (a - (dst + xs.length)) (store m dst xs a) else _) = _
    rw [if_pos (Nat.le_of_not_lt h1), Nat.sub_sub]

@[simp] theorem store_nil : store m dst [] = m := by
  funext a
  exact store_out (by rw [List.length_nil]; omega)

/-- A copy writes what it has read. -/
theorem copy_eq_store : copy src dst start len m = store m dst (slice src start len) := by
  funext a
  by_cases h : dst ≤ a ∧ a < dst + len
  · obtain ⟨x, rfl⟩ := Nat.exists_eq_add_of_le h.1
    have hx : x < len := by omega
    rw [copy_in hx, store_in (by rw [length_slice]; exact hx)]
    simp only [slice, List.getElem_map, List.getElem_range]
  · rw [copy_out (by omega), store_out (by rw [length_slice]; omega)]

/-! ## 2. Where blocks lie -/

/-- A block: its first address and its length. -/
structure Block where
  start : Nat
  len : Nat
  deriving DecidableEq, Repr

/-- Two blocks do not overlap. -/
def Apart (b c : Block) : Prop := b.start + b.len ≤ c.start ∨ c.start + c.len ≤ b.start

/-- The block lies between two addresses. -/
def Within (lo hi : Nat) (b : Block) : Prop := lo ≤ b.start ∧ b.start + b.len ≤ hi

/-- The address is one of the block's. -/
def Block.Has (b : Block) (a : Nat) : Prop := b.start ≤ a ∧ a < b.start + b.len

instance (b c : Block) : Decidable (Apart b c) := inferInstanceAs (Decidable (_ ∨ _))

instance (lo hi : Nat) (b : Block) : Decidable (Within lo hi b) := inferInstanceAs (Decidable (_ ∧ _))

instance (b : Block) (a : Nat) : Decidable (b.Has a) := inferInstanceAs (Decidable (_ ∧ _))

theorem Apart.symm {b c : Block} (hbc : Apart b c) : Apart c b := Or.comm.mp hbc

/-- The room the blocks take. -/
def total (bs : List Block) : Nat := (bs.map (·.len)).sum

@[simp] theorem total_nil : total [] = 0 := rfl

@[simp] theorem total_cons (b : Block) (bs : List Block) : total (b :: bs) = b.len + total bs := rfl

/-- The addresses of the blocks. -/
def cells (bs : List Block) : Finset Nat := bs.toFinset.biUnion fun b => Finset.Ico b.start (b.start + b.len)

theorem mem_cells {bs : List Block} : a ∈ cells bs ↔ ∃ b ∈ bs, b.Has a := by
  simp only [cells, Finset.mem_biUnion, List.mem_toFinset, Finset.mem_Ico]
  exact Iff.rfl

theorem cells_cons (b : Block) (bs : List Block) :
    cells (b :: bs) = Finset.Ico b.start (b.start + b.len) ∪ cells bs := by
  unfold cells
  rw [List.toFinset_cons, Finset.biUnion_insert]

/-- **Blocks that do not overlap have as many addresses as their lengths add up to.** -/
theorem card_cells {bs : List Block} (hp : bs.Pairwise Apart) : (cells bs).card = total bs := by
  induction bs with
  | nil => rfl
  | cons b bs ih =>
      rw [List.pairwise_cons] at hp
      rw [cells_cons, Finset.card_union_of_disjoint, Nat.card_Ico, ih hp.2, total_cons]
      · omega
      · rw [Finset.disjoint_left]
        intro a ha hc
        obtain ⟨c, hcm, h1, h2⟩ := mem_cells.mp hc
        rw [Finset.mem_Ico] at ha
        rcases hp.1 c hcm with hd | hd <;> omega

variable {bs : List Block} {lo hi : Nat}

theorem cells_subset (hw : ∀ b ∈ bs, Within lo hi b) : cells bs ⊆ Finset.Ico lo hi := by
  intro a ha
  obtain ⟨b, hb, h1, h2⟩ := mem_cells.mp ha
  obtain ⟨h3, h4⟩ := hw b hb
  exact Finset.mem_Ico.mpr ⟨by omega, by omega⟩

theorem total_le (hp : bs.Pairwise Apart) (hw : ∀ b ∈ bs, Within lo hi b) : total bs ≤ hi - lo := by
  rw [← card_cells hp, ← Nat.card_Ico]
  exact Finset.card_le_card (cells_subset hw)

theorem total_eq (hp : bs.Pairwise Apart) (hw : ∀ b ∈ bs, Within lo hi b)
    (hc : ∀ a, lo ≤ a → a < hi → ∃ b ∈ bs, b.Has a) : total bs = hi - lo := by
  rw [← card_cells hp, ← Nat.card_Ico]
  congr 1
  refine Finset.Subset.antisymm (cells_subset hw) fun a ha => ?_
  rw [Finset.mem_Ico] at ha
  exact mem_cells.mpr (hc a ha.1 ha.2)

/-! ## 3. Packing -/

/-- The blocks one after the other, the first below `top` and each directly below the one before. -/
def pack (cp : Nat → Nat → Nat → (Nat → α) → Nat → α) : Nat → List Block → (Nat → α) → Nat → α
  | _, [], m => m
  | top, b :: bs, m => pack cp (top - b.len) bs (cp (top - b.len) b.start b.len m)

/-- What packing is for: each block of `m` is in `m'`, the first below `top` and each directly below the
    one before. -/
def Packed (m m' : Nat → α) : Nat → List Block → Prop
  | _, [] => True
  | top, b :: bs => (∀ x < b.len, m' (top - b.len + x) = m (b.start + x)) ∧ Packed m m' (top - b.len) bs

/-- The blocks come in descending order below `top`. -/
def Descending : Nat → List Block → Prop
  | _, [] => True
  | top, b :: bs => b.start + b.len ≤ top ∧ Descending b.start bs

theorem Descending.mono {top top' : Nat} (ht : top ≤ top') : Descending top bs → Descending top' bs := by
  cases bs with
  | nil => exact id
  | cons b bs => exact fun hd => ⟨hd.1.trans ht, hd.2⟩

theorem Descending.below {top : Nat} : ∀ {bs : List Block}, Descending top bs →
    ∀ b ∈ bs, b.start + b.len ≤ top
  | [], _, _, hb => absurd hb List.not_mem_nil
  | c :: bs, hd, b, hb => by
      rcases List.mem_cons.mp hb with rfl | hb
      · exact hd.1
      · have := Descending.below hd.2 b hb
        have := hd.1
        omega

theorem Descending.total_le : ∀ {bs : List Block} {top : Nat}, Descending top bs → total bs ≤ top
  | [], _, _ => Nat.zero_le _
  | b :: bs, top, hd => by
      have := Descending.total_le hd.2
      have := hd.1
      rw [total_cons]
      omega

/-- Blocks in descending order of their first addresses that do not overlap. -/
theorem descending_of_sorted {top : Nat} : ∀ {bs : List Block}, bs.Pairwise Apart →
    bs.Pairwise (fun b c => c.start < b.start) → (∀ b ∈ bs, b.start + b.len ≤ top) → Descending top bs
  | [], _, _, _ => trivial
  | b :: bs, hp, hs, hw => by
      rw [List.pairwise_cons] at hp hs
      refine ⟨hw b List.mem_cons_self, descending_of_sorted hp.2 hs.2 fun c hc => ?_⟩
      rcases hp.1 c hc with hd | hd
      · have := hs.1 c hc
        omega
      · exact hd

theorem Packed.congr {m1 m2 m' : Nat → α} : ∀ {bs : List Block} {top : Nat}, Packed m1 m' top bs →
    (∀ b ∈ bs, ∀ x < b.len, m2 (b.start + x) = m1 (b.start + x)) → Packed m2 m' top bs
  | [], _, _, _ => trivial
  | b :: _, _, hp, hm =>
      ⟨fun x hx => (hp.1 x hx).trans (hm b List.mem_cons_self x hx).symm,
        hp.2.congr fun c hc => hm c (List.mem_cons_of_mem _ hc)⟩

/-- **Packing from a copy.** -/
theorem pack_copy : ∀ (bs : List Block) (top : Nat) (m : Nat → α), total bs ≤ top →
    Packed src (pack (copy src) top bs m) top bs ∧
      ∀ a, a < top - total bs ∨ top ≤ a → pack (copy src) top bs m a = m a
  | [], _, _, _ => ⟨trivial, fun _ _ => rfl⟩
  | b :: bs, top, m, ht => by
      rw [total_cons] at ht
      obtain ⟨h1, h2⟩ := pack_copy bs (top - b.len) (copy src (top - b.len) b.start b.len m) (by omega)
      unfold pack
      refine ⟨⟨fun x hx => ?_, h1⟩, fun a ha => ?_⟩
      · rw [h2 _ (Or.inr (by omega)), copy_in hx]
      · rw [total_cons] at ha
        rw [h2 a (by omega), copy_out (by omega)]

/-- **Packing in place**, from the top down: a block is moved before anything is written over it. -/
theorem pack_move : ∀ (bs : List Block) (top : Nat) (m : Nat → α), Descending top bs →
    Packed m (pack move top bs m) top bs ∧
      ∀ a, a < top - total bs ∨ top ≤ a → pack move top bs m a = m a
  | [], _, _, _ => ⟨trivial, fun _ _ => rfl⟩
  | b :: bs, top, m, hd => by
      have hle := hd.total_le
      have hnext : b.start ≤ top - b.len := by
        have := hd.1
        omega
      obtain ⟨h1, h2⟩ := pack_move bs (top - b.len) (move (top - b.len) b.start b.len m) (hd.2.mono hnext)
      unfold pack
      rw [total_cons] at hle
      refine ⟨⟨fun x hx => ?_, h1.congr fun c hc x hx => ?_⟩, fun a ha => ?_⟩
      · rw [h2 _ (Or.inr (by omega)), move_in hx]
      · -- the blocks that follow are below the cells just written
        have := hd.2.below c hc
        exact (move_out (by omega)).symm
      · rw [total_cons] at ha
        rw [h2 a (by omega), move_out (by omega)]

end Blocks
