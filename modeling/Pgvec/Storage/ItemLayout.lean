/-
  File:      Pgvec/Storage/ItemLayout.lean
  Subject:   THE LAYOUT OF AN INDEX PAGE, and what adding, deleting and replacing one item makes of it.

  * `Tiled` -- items of positive length at aligned offsets, without overlap and without a gap;
    `Tiled.shift`, `Tiled.read_shift` -- what moving the items below one of them keeps;
  * `itemIds`, `contents` -- the line pointers of a page, and the items they read;
  * `Layout` -- the header makes sense and the items tile the item area; `Layout.upper` -- so `pd_upper`
    follows from the contents; `layout_init` -- a fresh page;
  * **`PageIndexTupleDelete_layout`**, **`PageIndexTupleOverwrite_layout`**,
    **`PageAddItemExtended_layout`** -- one call keeps the layout and deletes, replaces or inserts in the
    list of contents.
-/
import Pgvec.Storage.Bufpage

namespace Pgvec.Storage.Bufpage

open Blocks

/-! ## 1. Tiling -/

/-- Where an item lies, its padding included. -/
def ItemIdData.block (itemId : ItemIdData) : Block := ⟨itemId.lp_off, MAXALIGN itemId.lp_len⟩

/-- The bytes of an item. -/
def read (bytes : Nat → UInt8) (itemId : ItemIdData) : List UInt8 := slice bytes itemId.lp_off itemId.lp_len

/-- **The items tile the area** from `lo` to `hi`. -/
structure Tiled (lo hi : Nat) (ids : List ItemIdData) : Prop where
  len : ∀ x ∈ ids, 0 < x.lp_len
  aligned : ∀ x ∈ ids, x.lp_off = MAXALIGN x.lp_off
  within : ∀ x ∈ ids, Within lo hi x.block
  apart : ids.Pairwise fun x y => Apart x.block y.block
  covered : ∀ a, lo ≤ a → a < hi → ∃ x ∈ ids, x.block.Has a

variable {lo hi : Nat} {ids ids' rest : List ItemIdData} {x : ItemIdData} {bytes : Nat → UInt8}

/-- The order of the line pointers does not matter. -/
theorem Tiled.perm (h : Tiled lo hi ids) (hp : ids.Perm ids') : Tiled lo hi ids' where
  len := fun x hx => h.len x (hp.mem_iff.mpr hx)
  aligned := fun x hx => h.aligned x (hp.mem_iff.mpr hx)
  within := fun x hx => h.within x (hp.mem_iff.mpr hx)
  apart := hp.pairwise h.apart fun {_ _} hxy => hxy.symm
  covered := by
    intro a h1 h2
    obtain ⟨x, hx, ha⟩ := h.covered a h1 h2
    exact ⟨x, hp.mem_iff.mp hx, ha⟩

/-- The items take the whole area. -/
theorem Tiled.total (h : Tiled lo hi ids) : total (ids.map (·.block)) = hi - lo := by
  refine total_eq (List.pairwise_map.mpr h.apart) (fun b hb => ?_) fun a h1 h2 => ?_
  · obtain ⟨x, hx, rfl⟩ := List.mem_map.mp hb
    exact h.within x hx
  · obtain ⟨x, hx, ha⟩ := h.covered a h1 h2
    exact ⟨_, List.mem_map_of_mem hx, ha⟩

/-- The item is below another one or above it. -/
theorem Tiled.below_or_above (h : Tiled lo hi (x :: rest)) {y : ItemIdData} (hy : y ∈ rest) :
    (y.lp_off ≤ x.lp_off ∧ y.lp_off + MAXALIGN y.lp_len ≤ x.lp_off) ∨
      (x.lp_off < y.lp_off ∧ x.lp_off + MAXALIGN x.lp_len ≤ y.lp_off) := by
  have hx := le_maxalign x.lp_len
  have hpos := h.len x List.mem_cons_self
  rcases (List.pairwise_cons.mp h.apart).1 y hy with ha | ha
  · have ha : x.lp_off + MAXALIGN x.lp_len ≤ y.lp_off := ha
    exact Or.inr ⟨by omega, ha⟩
  · have ha : y.lp_off + MAXALIGN y.lp_len ≤ x.lp_off := ha
    exact Or.inl ⟨by omega, ha⟩

/-- The line pointer after the items up to `offset` moved by `d`. -/
def shifted (offset : Nat) (d : Int) (y : ItemIdData) : ItemIdData :=
  if y.lp_off ≤ offset then { y with lp_off := (y.lp_off + d).toNat } else y

/-- What is left of a tiling when the items below one of them move by `d`, and it is taken out. -/
structure Shifted (lo hi : Nat) (x : ItemIdData) (d : Int) (rest : List ItemIdData) : Prop where
  len : ∀ y ∈ rest, 0 < y.lp_len
  aligned : ∀ y ∈ rest, y.lp_off = MAXALIGN y.lp_off
  within : ∀ y ∈ rest, Within (lo + d).toNat hi y.block
  clear : ∀ y ∈ rest, y.lp_off + MAXALIGN y.lp_len ≤ (x.lp_off + d).toNat ∨
    x.lp_off + MAXALIGN x.lp_len ≤ y.lp_off
  apart : rest.Pairwise fun x y => Apart x.block y.block
  covered : ∀ a, (lo + d).toNat ≤ a → a < hi →
    (x.lp_off + d).toNat ≤ a ∧ a < x.lp_off + MAXALIGN x.lp_len ∨ ∃ y ∈ rest, y.block.Has a

theorem maxalign_of_eq {n : Nat} (h : n % 8 = 0) : n = MAXALIGN n := by
  unfold MAXALIGN
  omega

theorem maxalign_mod (n : Nat) : MAXALIGN n % 8 = 0 := by
  unfold MAXALIGN
  omega

theorem mod_of_aligned {n : Nat} (h : n = MAXALIGN n) : n % 8 = 0 := by
  rw [h]
  exact maxalign_mod n

/-- **Moving the items below one of them**, by no more than its own room. -/
theorem Tiled.shift (h : Tiled lo hi (x :: rest)) {d : Int} (hlo : 0 ≤ (lo : Int) + d) (h8 : d % 8 = 0)
    (hd : d ≤ MAXALIGN x.lp_len) : Shifted lo hi x d (rest.map (shifted x.lp_off d)) := by
  have hxw : Within lo hi x.block := h.within x List.mem_cons_self
  obtain ⟨hx1, hx2⟩ : lo ≤ x.lp_off ∧ x.lp_off + MAXALIGN x.lp_len ≤ hi := hxw
  -- where an item is afterwards
  have hcase : ∀ y ∈ rest, (y.lp_off + MAXALIGN y.lp_len ≤ x.lp_off ∧ lo ≤ y.lp_off ∧
        shifted x.lp_off d y = { y with lp_off := (y.lp_off + d).toNat }) ∨
      (x.lp_off + MAXALIGN x.lp_len ≤ y.lp_off ∧ y.lp_off + MAXALIGN y.lp_len ≤ hi ∧
        shifted x.lp_off d y = y) := by
    intro y hy
    obtain ⟨hw1, hw2⟩ : lo ≤ y.lp_off ∧ y.lp_off + MAXALIGN y.lp_len ≤ hi :=
      h.within y (List.mem_cons_of_mem _ hy)
    rcases h.below_or_above hy with ⟨h1, h2⟩ | ⟨h1, h2⟩
    · exact Or.inl ⟨h2, hw1, if_pos h1⟩
    · exact Or.inr ⟨h2, hw2, if_neg (by omega)⟩
  constructor
  · intro z hz
    obtain ⟨y, hy, rfl⟩ := List.mem_map.mp hz
    have hl := h.len y (List.mem_cons_of_mem _ hy)
    rcases hcase y hy with ⟨_, _, e⟩ | ⟨_, _, e⟩
    · rw [e]
      exact hl
    · rw [e]
      exact hl
  · intro z hz
    obtain ⟨y, hy, rfl⟩ := List.mem_map.mp hz
    have hal := h.aligned y (List.mem_cons_of_mem _ hy)
    rcases hcase y hy with ⟨_, _, e⟩ | ⟨_, _, e⟩
    · rw [e]
      have := mod_of_aligned hal
      exact maxalign_of_eq (by simp only; omega)
    · rw [e]
      exact hal
  · intro z hz
    obtain ⟨y, hy, rfl⟩ := List.mem_map.mp hz
    rcases hcase y hy with ⟨h1, h2, e⟩ | ⟨h1, h2, e⟩
    · rw [e]
      simp only [Within, ItemIdData.block]
      omega
    · rw [e]
      simp only [Within, ItemIdData.block]
      omega
  · intro z hz
    obtain ⟨y, hy, rfl⟩ := List.mem_map.mp hz
    rcases hcase y hy with ⟨h1, h2, e⟩ | ⟨h1, h2, e⟩
    · rw [e]
      simp only
      omega
    · rw [e]
      exact Or.inr h1
  · rw [List.pairwise_map]
    refine List.Pairwise.imp_of_mem (fun {y z} hy hz hyz => ?_) (List.pairwise_cons.mp h.apart).2
    have hyz : y.lp_off + MAXALIGN y.lp_len ≤ z.lp_off ∨ z.lp_off + MAXALIGN z.lp_len ≤ y.lp_off := hyz
    rcases hcase y hy with ⟨h1, h2, e1⟩ | ⟨h1, h2, e1⟩ <;>
      rcases hcase z hz with ⟨h3, h4, e2⟩ | ⟨h3, h4, e2⟩ <;>
      rw [e1, e2] <;> simp only [Apart, ItemIdData.block] <;> omega
  · intro a h1 h2
    by_cases hup : x.lp_off + MAXALIGN x.lp_len ≤ a
    · -- above the item nothing moved
      obtain ⟨y, hy, ha⟩ := h.covered a (by omega) h2
      have ha : y.lp_off ≤ a ∧ a < y.lp_off + MAXALIGN y.lp_len := ha
      rcases List.mem_cons.mp hy with rfl | hy
      · omega
      · refine Or.inr ⟨_, List.mem_map_of_mem hy, ?_⟩
        rcases hcase y hy with ⟨h3, h4, e⟩ | ⟨h3, h4, e⟩
        · omega
        · rw [e]
          exact ha
    · by_cases hmid : (x.lp_off + d).toNat ≤ a
      · exact Or.inl ⟨hmid, by omega⟩
      · -- below it the cell was covered before the move
        obtain ⟨y, hy, ha⟩ := h.covered (a - d).toNat (by omega) (by omega)
        have ha : y.lp_off ≤ (a - d).toNat ∧ (a - d).toNat < y.lp_off + MAXALIGN y.lp_len := ha
        rcases List.mem_cons.mp hy with rfl | hy
        · omega
        · refine Or.inr ⟨_, List.mem_map_of_mem hy, ?_⟩
          rcases hcase y hy with ⟨h3, h4, e⟩ | ⟨h3, h4, e⟩
          · rw [e]
            simp only [Block.Has, ItemIdData.block]
            omega
          · omega

/-- The item is gone, and its room with it. -/
theorem Shifted.tiled (h : Shifted lo hi x (MAXALIGN x.lp_len) rest) : Tiled (lo + MAXALIGN x.lp_len) hi rest := by
  have hlo : ((lo : Int) + (MAXALIGN x.lp_len : Nat)).toNat = lo + MAXALIGN x.lp_len := by omega
  refine ⟨h.len, h.aligned, fun y hy => hlo ▸ h.within y hy, h.apart, fun a h1 h2 => ?_⟩
  rcases h.covered a (by omega) h2 with ha | ha
  · omega
  · exact ha

/-- Another item takes its room, or what is left of it. -/
theorem Shifted.tiled_cons {d : Int} (h : Shifted lo hi x d rest) {z : ItemIdData} (hlen : 0 < z.lp_len)
    (hoff : z.lp_off = (x.lp_off + d).toNat) (hal : z.lp_off % 8 = 0)
    (hend : z.lp_off + MAXALIGN z.lp_len = x.lp_off + MAXALIGN x.lp_len)
    (hw : Within (lo + d).toNat hi z.block) : Tiled (lo + d).toNat hi (z :: rest) where
  len := List.forall_mem_cons.mpr ⟨hlen, h.len⟩
  aligned := List.forall_mem_cons.mpr ⟨maxalign_of_eq hal, h.aligned⟩
  within := List.forall_mem_cons.mpr ⟨hw, h.within⟩
  apart := by
    refine List.pairwise_cons.mpr ⟨fun y hy => ?_, h.apart⟩
    have hc := h.clear y hy
    simp only [Apart, ItemIdData.block]
    omega
  covered := by
    intro a h1 h2
    rcases h.covered a h1 h2 with ha | ⟨y, hy, ha⟩
    · refine ⟨z, List.mem_cons_self, ?_⟩
      simp only [Block.Has, ItemIdData.block]
      omega
    · exact ⟨y, List.mem_cons_of_mem _ hy, ha⟩

/-- The items below one of them read the same after their bytes moved with them. -/
theorem Tiled.read_shift (h : Tiled lo hi (x :: rest)) {d : Int} (hlo : 0 ≤ (lo : Int) + d)
    (hd : d ≤ MAXALIGN x.lp_len) {y : ItemIdData} (hy : y ∈ rest) :
    read (move (lo + d).toNat lo (x.lp_off - lo) bytes) (shifted x.lp_off d y) = read bytes y := by
  have hxw : lo ≤ x.lp_off := (h.within x List.mem_cons_self).1
  have hyw : lo ≤ y.lp_off := (h.within y (List.mem_cons_of_mem _ hy)).1
  have hl := le_maxalign y.lp_len
  rcases h.below_or_above hy with ⟨h1, h2⟩ | ⟨h1, h2⟩
  · unfold shifted
    rw [if_pos h1]
    refine slice_congr fun k hk => ?_
    have hk : k < y.lp_len := hk
    have e : (y.lp_off + d).toNat + k = (lo + d).toNat + (y.lp_off - lo + k) := by omega
    simp only
    rw [e, move_in (by omega)]
    congr 1
    omega
  · unfold shifted
    rw [if_neg (by omega)]
    refine slice_congr fun k hk => ?_
    exact move_out (Or.inr (by omega))

/-! ## 2. The layout of a page -/

/-- The line pointers of a page. -/
def itemIds (page : Page) : List ItemIdData := (List.range (PageGetMaxOffsetNumber page)).map page.pd_linp

/-- **The contents**: the items at the offset numbers from 1 on. -/
def contents (page : Page) : List (List UInt8) :=
  (List.range' FirstOffsetNumber (PageGetMaxOffsetNumber page)).map (PageGetItem page)

/-- **The layout**: the header makes sense, the line pointer array ends at `pd_lower`, and the items tile
    the item area. -/
structure Layout (page : Page) : Prop where
  lower : page.pd_lower = SizeOfPageHeaderData + sizeofItemIdData * PageGetMaxOffsetNumber page
  lower_le : page.pd_lower ≤ page.pd_upper
  upper_le : page.pd_upper ≤ page.pd_special
  special_le : page.pd_special ≤ BLCKSZ
  special : page.pd_special = MAXALIGN page.pd_special
  tiled : Tiled page.pd_upper page.pd_special (itemIds page)

theorem contents_eq (page : Page) : contents page = (itemIds page).map (read page.bytes) := by
  unfold contents itemIds
  rw [List.range'_eq_map_range, List.map_map, List.map_map]
  refine List.map_congr_left fun i _ => ?_
  simp only [Function.comp, FirstOffsetNumber, PageGetItem, PageGetItemId, read, Nat.add_sub_cancel_left]

/-- The same through the offset numbers. -/
theorem itemIds_eq (page : Page) :
    itemIds page = (List.range' 1 (PageGetMaxOffsetNumber page)).map (PageGetItemId page) := by
  unfold itemIds
  rw [List.range'_eq_map_range, List.map_map]
  refine List.map_congr_left fun i _ => ?_
  simp only [Function.comp, PageGetItemId, Nat.add_sub_cancel_left]

@[simp] theorem length_itemIds (page : Page) : (itemIds page).length = PageGetMaxOffsetNumber page := by
  simp only [itemIds, List.length_map, List.length_range]

@[simp] theorem length_contents (page : Page) : (contents page).length = PageGetMaxOffsetNumber page := by
  rw [contents_eq, List.length_map, length_itemIds]

theorem itemIds_getElem {page : Page} {i : Nat} (h : i < (itemIds page).length) :
    (itemIds page)[i] = page.pd_linp i := by
  simp only [itemIds, List.getElem_map, List.getElem_range]

theorem maxOffset_of_lower {page : Page} {n : Nat}
    (h : page.pd_lower = SizeOfPageHeaderData + sizeofItemIdData * n) : PageGetMaxOffsetNumber page = n := by
  unfold PageGetMaxOffsetNumber
  rw [h]
  unfold SizeOfPageHeaderData sizeofItemIdData
  split <;> omega

variable {page : Page}

theorem Layout.pointers (h : Layout page) : ¬ CorruptedPagePointers page := by
  have h1 := h.lower
  have h2 := h.lower_le
  have h3 := h.upper_le
  have h4 := h.special_le
  unfold CorruptedPagePointers
  omega

theorem Layout.header (h : Layout page) : ¬ CorruptedHeader page := by
  intro hc
  rcases hc with hc | hc
  · exact h.pointers hc
  · exact hc h.special

theorem Layout.linePointer (h : Layout page) (hx : x ∈ itemIds page) :
    ¬ CorruptedLinePointer page x.lp_off x.lp_len := by
  obtain ⟨h1, h2⟩ : page.pd_upper ≤ x.lp_off ∧ x.lp_off + MAXALIGN x.lp_len ≤ page.pd_special :=
    h.tiled.within x hx
  have h3 := le_maxalign x.lp_len
  intro hc
  rcases hc with hc | hc | hc
  · omega
  · omega
  · exact hc (h.tiled.aligned x hx)

/-- The bit fields of the line pointers hold what is in them. -/
theorem Layout.fields (h : Layout page) (hx : x ∈ itemIds page) : x.lp_off < 2 ^ 15 ∧ x.lp_len < 2 ^ 15 := by
  obtain ⟨h1, h2⟩ : page.pd_upper ≤ x.lp_off ∧ x.lp_off + MAXALIGN x.lp_len ≤ page.pd_special :=
    h.tiled.within x hx
  have h3 := le_maxalign x.lp_len
  have h4 := h.special_le
  unfold BLCKSZ at h4
  omega

/-- Every offset number has a line pointer that makes sense. -/
theorem Layout.linePointers (h : Layout page) : ∀ o ∈ List.range' 1 (PageGetMaxOffsetNumber page),
    ¬ CorruptedLinePointer page (PageGetItemId page o).lp_off (PageGetItemId page o).lp_len := by
  intro o ho
  refine h.linePointer ?_
  rw [itemIds_eq]
  exact List.mem_map_of_mem ho

/-- The room the items of a list take. -/
def room (items : List (List UInt8)) : Nat := (items.map fun item => MAXALIGN item.length).sum

/-- **`pd_upper` follows from the contents.** -/
theorem Layout.upper (h : Layout page) : page.pd_upper + room (contents page) = page.pd_special := by
  have ht := h.tiled.total
  have hr : room (contents page) = total ((itemIds page).map (·.block)) := by
    rw [contents_eq]
    simp only [room, total, List.map_map]
    congr 1
    refine List.map_congr_left fun x _ => ?_
    simp only [Function.comp, read, length_slice, ItemIdData.block]
  have := h.upper_le
  omega

/-- **A fresh page.** -/
theorem layout_init {specialSize : Nat} (hs : SizeOfPageHeaderData + MAXALIGN specialSize < BLCKSZ) :
    Layout (PageInit BLCKSZ specialSize) ∧ contents (PageInit BLCKSZ specialSize) = [] := by
  have hmax : PageGetMaxOffsetNumber (PageInit BLCKSZ specialSize) = 0 := if_pos (Nat.le_refl _)
  have h8 := maxalign_mod specialSize
  have hids : itemIds (PageInit BLCKSZ specialSize) = [] := by
    unfold itemIds
    rw [hmax]
    rfl
  refine ⟨⟨?_, ?_, Nat.le_refl _, Nat.sub_le _ _, ?_, ?_⟩, ?_⟩
  · rw [hmax]
    rfl
  · simp only [PageInit]
    omega
  · simp only [PageInit]
    refine maxalign_of_eq ?_
    unfold BLCKSZ at *
    omega
  · rw [hids]
    exact ⟨fun _ hx => absurd hx List.not_mem_nil, fun _ hx => absurd hx List.not_mem_nil,
      fun _ hx => absurd hx List.not_mem_nil, List.Pairwise.nil, fun a h1 h2 => absurd h1 (Nat.not_le.mpr h2)⟩
  · rw [contents_eq, hids]
    rfl

/-! ## 3. `PageIndexTupleDelete` -/

/-- The loop over the offsets, at one line pointer. -/
theorem moveOffsets_of_lt {nline i offset : Nat} {d : Int} {linp : Nat → ItemIdData} {moved : ItemIdData → Bool}
    (hi : i < nline) (hm : moved (linp i) = decide ((linp i).lp_off ≤ offset)) :
    moveOffsets nline moved d linp i = shifted offset d (linp i) := by
  unfold moveOffsets shifted
  simp only [hi, true_and, hm, decide_eq_true_eq]

/-- The item at an offset number, and the others. -/
theorem Layout.pick (h : Layout page) {offnum : Nat} (h0 : offnum ≠ 0)
    (hn : offnum ≤ PageGetMaxOffsetNumber page) : PageGetItemId page offnum ∈ itemIds page ∧
      Tiled page.pd_upper page.pd_special
        (PageGetItemId page offnum :: (itemIds page).eraseIdx (offnum - 1)) := by
  have hk : offnum - 1 < (itemIds page).length := by
    rw [length_itemIds]
    omega
  have hx : PageGetItemId page offnum = (itemIds page)[offnum - 1] := (itemIds_getElem hk).symm
  rw [hx]
  exact ⟨List.getElem_mem hk, h.tiled.perm (List.getElem_cons_eraseIdx_perm hk).symm⟩

section Delete

variable {k : Nat} (offset size : Nat)

theorem maxOffset_deleteTuple (h : Layout page) (hk : k < PageGetMaxOffsetNumber page) :
    PageGetMaxOffsetNumber (deleteTuple page k (PageGetMaxOffsetNumber page) offset size) =
      PageGetMaxOffsetNumber page - 1 := by
  have hlow := h.lower
  unfold SizeOfPageHeaderData sizeofItemIdData at hlow
  refine maxOffset_of_lower ?_
  simp only [deleteTuple, SizeOfPageHeaderData, sizeofItemIdData]
  omega

/-- What `PageIndexTupleDelete` leaves of the line pointers. -/
theorem itemIds_deleteTuple (h : Layout page) (hk : k < PageGetMaxOffsetNumber page) :
    itemIds (deleteTuple page k (PageGetMaxOffsetNumber page) offset size) =
      ((itemIds page).eraseIdx k).map (shifted offset (MAXALIGN size)) := by
  have hlow := h.lower
  unfold SizeOfPageHeaderData sizeofItemIdData at hlow
  have hlen : k < (itemIds page).length := by rwa [length_itemIds]
  refine List.ext_getElem ?_ fun i h1 h2 => ?_
  · rw [length_itemIds, maxOffset_deleteTuple offset size h hk, List.length_map, List.length_eraseIdx_of_lt hlen,
      length_itemIds]
  · have hi : i < PageGetMaxOffsetNumber page - 1 := by rwa [length_itemIds, maxOffset_deleteTuple offset size h hk] at h1
    have hcount : (page.pd_lower - (SizeOfPageHeaderData + sizeofItemIdData * (k + 1))) / sizeofItemIdData =
        PageGetMaxOffsetNumber page - (k + 1) := by
      unfold SizeOfPageHeaderData sizeofItemIdData
      omega
    rw [itemIds_getElem, List.getElem_map, List.getElem_eraseIdx]
    simp only [deleteTuple, hcount, itemIds_getElem]
    rw [if_neg (by unfold SizeOfPageHeaderData sizeofItemIdData; omega), moveOffsets_of_lt hi rfl]
    congr 1
    split
    · exact move_out (Or.inl ‹_›)
    · obtain ⟨j, rfl⟩ := Nat.exists_eq_add_of_le (Nat.not_lt.mp ‹_›)
      rw [move_in (by omega)]
      congr 1
      omega

/-- What it leaves of the bytes. -/
theorem bytes_deleteTuple {nline : Nat} : (deleteTuple page k nline offset size).bytes =
    move (page.pd_upper + (MAXALIGN size : Int)).toNat page.pd_upper (offset - page.pd_upper) page.bytes := by
  have e : ((page.pd_upper : Int) + (MAXALIGN size : Nat)).toNat = page.pd_upper + MAXALIGN size := by omega
  rw [e]
  simp only [deleteTuple]
  split
  · rfl
  · rw [show offset - page.pd_upper = 0 by omega, move_zero]

end Delete

/-- **`PageIndexTupleDelete`** of an item that is there. -/
theorem PageIndexTupleDelete_layout (h : Layout page) {offnum : Nat} (h0 : offnum ≠ 0)
    (hn : offnum ≤ PageGetMaxOffsetNumber page) :
    ∃ q, PageIndexTupleDelete page offnum = (.ok (), q) ∧ Layout q ∧
      contents q = (contents page).eraseIdx (offnum - 1) ∧ q.pd_special = page.pd_special ∧
      q.pd_flags = page.pd_flags := by
  obtain ⟨hmem, htiled⟩ := h.pick h0 hn
  have hk : offnum - 1 < PageGetMaxOffsetNumber page := by omega
  have hmax := maxOffset_deleteTuple (PageGetItemId page offnum).lp_off (PageGetItemId page offnum).lp_len h hk
  have hids := itemIds_deleteTuple (PageGetItemId page offnum).lp_off (PageGetItemId page offnum).lp_len h hk
  have hdel : PageIndexTupleDelete page offnum = (.ok (), deleteTuple page (offnum - 1)
      (PageGetMaxOffsetNumber page) (PageGetItemId page offnum).lp_off (PageGetItemId page offnum).lp_len) := by
    unfold PageIndexTupleDelete
    rw [if_neg h.header]
    simp only
    rw [if_neg (by omega), if_neg (h.linePointer hmem)]
  generalize PageGetItemId page offnum = x at hmem htiled hmax hids hdel
  obtain ⟨hw1, hw2⟩ : page.pd_upper ≤ x.lp_off ∧ x.lp_off + MAXALIGN x.lp_len ≤ page.pd_special :=
    h.tiled.within _ hmem
  have h8 := maxalign_mod x.lp_len
  have hlow := h.lower
  have hle := h.lower_le
  unfold SizeOfPageHeaderData sizeofItemIdData at hlow
  refine ⟨_, hdel, ⟨?_, ?_, ?_, h.special_le, h.special, ?_⟩, ?_, rfl, rfl⟩
  · rw [hmax]
    simp only [deleteTuple, SizeOfPageHeaderData, sizeofItemIdData]
    omega
  · simp only [deleteTuple]
    omega
  · simp only [deleteTuple]
    omega
  · rw [hids]
    exact (htiled.shift (by omega) (by omega) (Int.le_refl _)).tiled
  · rw [contents_eq, hids, contents_eq, List.eraseIdx_map, List.map_map, bytes_deleteTuple]
    refine List.map_congr_left fun y hy => ?_
    exact htiled.read_shift (by omega) (Int.le_refl _) hy

/-! ## 4. `PageIndexTupleOverwrite` -/

section Overwrite

variable {offnum oldsize n : Nat} {newtup : List UInt8} {d : Int} (offset : Nat)

theorem shifted_zero (y : ItemIdData) : shifted offset 0 y = y := by
  unfold shifted
  split
  · rw [show ((y.lp_off : Int) + 0).toNat = y.lp_off by omega]
  · rfl

/-- What `PageIndexTupleOverwrite` does not touch. -/
theorem header_overwriteTuple :
    (overwriteTuple page offnum newtup n offset oldsize).pd_lower = page.pd_lower ∧
    (overwriteTuple page offnum newtup n offset oldsize).pd_special = page.pd_special ∧
    (overwriteTuple page offnum newtup n offset oldsize).pd_flags = page.pd_flags := by
  unfold overwriteTuple
  simp only [PageSetItemId]
  split <;> exact ⟨rfl, rfl, rfl⟩

variable (hd : d = (MAXALIGN oldsize : Int) - MAXALIGN newtup.length)

include hd

theorem upper_overwriteTuple :
    (overwriteTuple page offnum newtup n offset oldsize).pd_upper = (page.pd_upper + d).toNat := by
  unfold overwriteTuple
  simp only [← hd, PageSetItemId]
  split
  · rfl
  · rw [show d = 0 by omega]
    omega

/-- What `PageIndexTupleOverwrite` leaves of the bytes. -/
theorem bytes_overwriteTuple : (overwriteTuple page offnum newtup n offset oldsize).bytes =
    store (move (page.pd_upper + d).toNat page.pd_upper (offset - page.pd_upper) page.bytes)
      (offset + d).toNat newtup := by
  unfold overwriteTuple
  simp only [← hd]
  split
  · rfl
  · rw [show d = 0 by omega, show ((page.pd_upper : Int) + 0).toNat = page.pd_upper by omega, move_self]

/-- What it leaves of the line pointers. -/
theorem itemIds_overwriteTuple (h : Layout page) :
    ∃ z : ItemIdData, z.lp_off = (offset + d).toNat ∧ z.lp_len = newtup.length ∧
      itemIds (overwriteTuple page offnum newtup (PageGetMaxOffsetNumber page) offset oldsize) =
        ((itemIds page).map (shifted offset d)).set (offnum - 1) z := by
  have hmax : PageGetMaxOffsetNumber (overwriteTuple page offnum newtup (PageGetMaxOffsetNumber page) offset
      oldsize) = PageGetMaxOffsetNumber page := by
    unfold overwriteTuple PageGetMaxOffsetNumber
    simp only [PageSetItemId]
    split <;> rfl
  -- the line pointers before the last assignment
  obtain ⟨linp, hlinp, hq⟩ : ∃ linp : Nat → ItemIdData,
      (∀ i < PageGetMaxOffsetNumber page, linp i = shifted offset d (page.pd_linp i)) ∧
      (overwriteTuple page offnum newtup (PageGetMaxOffsetNumber page) offset oldsize).pd_linp =
        Function.update linp (offnum - 1)
          { linp (offnum - 1) with lp_off := (offset + d).toNat, lp_len := newtup.length } := by
    unfold overwriteTuple
    simp only [← hd, PageSetItemId, PageGetItemId]
    split
    · refine ⟨_, fun i hi => moveOffsets_of_lt hi ?_, rfl⟩
      have hlen : i < (itemIds page).length := by rwa [length_itemIds]
      have hpos := h.tiled.len _ (List.getElem_mem hlen)
      rw [itemIds_getElem] at hpos
      simp only [ItemIdHasStorage, Nat.pos_iff_ne_zero.mp hpos, ne_eq, not_false_eq_true, true_and]
    · refine ⟨page.pd_linp, fun i _ => ?_, rfl⟩
      rw [show d = 0 by omega, shifted_zero]
  refine ⟨{ linp (offnum - 1) with lp_off := (offset + d).toNat, lp_len := newtup.length }, rfl, rfl,
    List.ext_getElem ?_ fun i h1 h2 => ?_⟩
  · rw [length_itemIds, hmax, List.length_set, List.length_map, length_itemIds]
  · have hi : i < PageGetMaxOffsetNumber page := by rwa [length_itemIds, hmax] at h1
    rw [itemIds_getElem, hq, List.getElem_set, Function.update_apply]
    by_cases he : i = offnum - 1
    · rw [if_pos he, if_pos he.symm]
    · rw [if_neg he, if_neg (Ne.symm he), List.getElem_map, itemIds_getElem]
      exact hlinp i hi

end Overwrite

/-- **`PageIndexTupleOverwrite`** of an item that is there, when there is room. -/
theorem PageIndexTupleOverwrite_layout (h : Layout page) {offnum : Nat} (h0 : offnum ≠ 0)
    (hn : offnum ≤ PageGetMaxOffsetNumber page) {newtup : List UInt8} (hpos : 0 < newtup.length)
    (hroom : MAXALIGN newtup.length ≤
      MAXALIGN (PageGetItemId page offnum).lp_len + (page.pd_upper - page.pd_lower)) :
    ∃ q, PageIndexTupleOverwrite page offnum newtup = (.ok true, q) ∧ Layout q ∧
      contents q = (contents page).set (offnum - 1) newtup ∧ q.pd_special = page.pd_special ∧
      q.pd_flags = page.pd_flags := by
  obtain ⟨hmem, htiled⟩ := h.pick h0 hn
  have hk : offnum - 1 < (itemIds page).length := by
    rw [length_itemIds]
    omega
  obtain ⟨x, hx⟩ : ∃ x, PageGetItemId page offnum = x := ⟨_, rfl⟩
  obtain ⟨d, hd⟩ : ∃ d : Int, d = (MAXALIGN x.lp_len : Int) - MAXALIGN newtup.length := ⟨_, rfl⟩
  have hover : PageIndexTupleOverwrite page offnum newtup = (.ok true, overwriteTuple page offnum newtup
      (PageGetMaxOffsetNumber page) x.lp_off x.lp_len) := by
    unfold PageIndexTupleOverwrite
    rw [if_neg h.header]
    simp only
    rw [if_neg (by omega), if_neg (h.linePointer hmem), if_neg (by omega), hx]
  rw [hx] at hmem htiled hroom
  obtain ⟨hw1, hw2⟩ : page.pd_upper ≤ x.lp_off ∧ x.lp_off + MAXALIGN x.lp_len ≤ page.pd_special :=
    h.tiled.within _ hmem
  have hlow := h.lower
  have hle := h.lower_le
  have h8 := maxalign_mod x.lp_len
  have h8' := maxalign_mod newtup.length
  have hxo := mod_of_aligned (h.tiled.aligned x hmem)
  have hnl := le_maxalign newtup.length
  have hlo : 0 ≤ (page.pd_upper : Int) + d := by omega
  have hsh := htiled.shift hlo (by omega) (by omega)
  obtain ⟨z, hzo, hzl, hids⟩ := itemIds_overwriteTuple x.lp_off hd h
  have hmax : PageGetMaxOffsetNumber (overwriteTuple page offnum newtup (PageGetMaxOffsetNumber page) x.lp_off
      x.lp_len) = PageGetMaxOffsetNumber page := by
    rw [← length_itemIds, hids, List.length_set, List.length_map, length_itemIds]
  obtain ⟨hlower, hspecial, hflags⟩ :=
    @header_overwriteTuple page offnum x.lp_len (PageGetMaxOffsetNumber page) newtup x.lp_off
  have hupper : (overwriteTuple page offnum newtup (PageGetMaxOffsetNumber page) x.lp_off x.lp_len).pd_upper =
      (page.pd_upper + d).toNat := upper_overwriteTuple x.lp_off hd
  have hset : (((itemIds page).map (shifted x.lp_off d)).set (offnum - 1) z).Perm
      (z :: ((itemIds page).eraseIdx (offnum - 1)).map (shifted x.lp_off d)) := by
    rw [← List.eraseIdx_map]
    exact List.set_perm_cons_eraseIdx (by rwa [List.length_map]) z
  refine ⟨_, hover, ⟨?_, ?_, ?_, ?_, ?_, ?_⟩, ?_, hspecial, hflags⟩
  · rw [hmax, hlower]
    exact hlow
  · rw [hlower, hupper]
    omega
  · rw [hupper, hspecial]
    omega
  · rw [hspecial]
    exact h.special_le
  · rw [hspecial]
    exact h.special
  · rw [hupper, hspecial, hids]
    refine Tiled.perm (hsh.tiled_cons ?_ hzo ?_ ?_ ?_) hset.symm
    · omega
    · omega
    · rw [hzl]
      omega
    · simp only [Within, ItemIdData.block, hzl]
      omega
  · rw [contents_eq, contents_eq, hids, bytes_overwriteTuple x.lp_off hd]
    refine List.ext_getElem (by simp only [List.length_map, List.length_set]) fun i h1 h2 => ?_
    simp only [List.getElem_map, List.getElem_set]
    split
    · unfold read
      rw [hzo, hzl]
      exact slice_store
    · -- the other items do not lie where the new one is written
      rename_i hne
      have hil : i < (itemIds page).length := by simpa only [List.length_map, List.length_set] using h1
      have hy : (itemIds page)[i] ∈ (itemIds page).eraseIdx (offnum - 1) :=
        List.mem_eraseIdx_iff_getElem.mpr ⟨i, hil, fun he => hne he.symm, rfl⟩
      have hclear := hsh.clear _ (List.mem_map_of_mem hy)
      have hyl := le_maxalign (shifted x.lp_off d (itemIds page)[i]).lp_len
      rw [← htiled.read_shift hlo (by omega) hy]
      refine slice_congr fun k hk => ?_
      exact store_out (by omega)

/-! ## 5. `PageAddItemExtended` -/

/-- The offset number the item gets when there is room: one that is not valid counts as none. -/
def targetOffset (n o : Nat) : Nat := if OffsetNumberIsValid o then o else OffsetNumberNext n

theorem targetOffset_pos {n o : Nat} : targetOffset n o ≠ 0 := by
  unfold targetOffset OffsetNumberNext
  split
  · rename_i hv
    exact hv.1
  · omega

/-- Another item below the others. -/
theorem Tiled.cons (h : Tiled lo hi ids) {z : ItemIdData} (hle : lo ≤ hi) (hlen : 0 < z.lp_len)
    (hal : z.lp_off % 8 = 0) (hend : z.lp_off + MAXALIGN z.lp_len = lo) : Tiled z.lp_off hi (z :: ids) where
  len := List.forall_mem_cons.mpr ⟨hlen, h.len⟩
  aligned := List.forall_mem_cons.mpr ⟨maxalign_of_eq hal, h.aligned⟩
  within := by
    refine List.forall_mem_cons.mpr ⟨⟨Nat.le_refl _, hend.le.trans hle⟩, fun y hy => ?_⟩
    obtain ⟨h1, h2⟩ := h.within y hy
    exact ⟨by omega, h2⟩
  apart := by
    refine List.pairwise_cons.mpr ⟨fun y hy => Or.inl ?_, h.apart⟩
    exact hend.le.trans (h.within y hy).1
  covered := by
    intro a h1 h2
    by_cases ha : lo ≤ a
    · obtain ⟨y, hy, hh⟩ := h.covered a ha h2
      exact ⟨y, List.mem_cons_of_mem _ hy, hh⟩
    · exact ⟨z, List.mem_cons_self, h1, by simp only [ItemIdData.block]; omega⟩

/-- An item that lies above what is written reads the same. -/
theorem read_store {item : List UInt8} {dst : Nat} {y : ItemIdData} (hy : dst + item.length ≤ y.lp_off) :
    read (store bytes dst item) y = read bytes y :=
  slice_congr fun _ _ => store_out (Or.inr (by omega))

section Add

variable {item : List UInt8} {o : Nat}

/-- `PageAddItemExtended` without flags, while the hint says that no line pointer is unused. -/
theorem PageAddItemExtended_eq (h : Layout page) (hfree : ¬ PageHasFreeLinePointers page) :
    PageAddItemExtended page item o 0 =
      placeItem page item (targetOffset (PageGetMaxOffsetNumber page) o)
        (OffsetNumberNext (PageGetMaxOffsetNumber page))
        (decide (targetOffset (PageGetMaxOffsetNumber page) o <
          OffsetNumberNext (PageGetMaxOffsetNumber page))) 0 := by
  unfold PageAddItemExtended
  rw [if_neg h.pointers]
  unfold selectOffsetNumber targetOffset
  simp only [Nat.zero_and, ne_eq, not_true_eq_false, if_false]
  by_cases hv : OffsetNumberIsValid o
  · simp only [if_pos hv]
  · simp only [if_neg hv, if_neg hfree, Nat.lt_irrefl, decide_false]

/-- **`PageAddItemExtended`** refuses: beyond the end, or no room. -/
theorem PageAddItemExtended_refused (h : Layout page) (hfree : ¬ PageHasFreeLinePointers page)
    (hno : targetOffset (PageGetMaxOffsetNumber page) o > PageGetMaxOffsetNumber page + 1 ∨
      page.pd_lower + sizeofItemIdData + MAXALIGN item.length > page.pd_upper) :
    PageAddItemExtended page item o 0 = (.ok InvalidOffsetNumber, page) := by
  rw [PageAddItemExtended_eq h hfree]
  unfold placeItem OffsetNumberNext
  generalize targetOffset (PageGetMaxOffsetNumber page) o = t at hno ⊢
  by_cases ht : t > 1 + PageGetMaxOffsetNumber page
  · rw [if_pos ht]
  · rw [if_neg ht, if_neg (by simp only [Nat.zero_and]; omega)]
    have hend : t = 1 + PageGetMaxOffsetNumber page ∨ decide (t < 1 + PageGetMaxOffsetNumber page) = true := by
      simp only [decide_eq_true_eq]
      omega
    simp only [if_pos hend]
    rw [if_pos (by omega)]

/-- The page with the item at index `k`, when `n` items were on it. -/
def placed (page : Page) (item : List UInt8) (k n upper : Nat) : Page :=
  { page with
    pd_linp := Function.update
      (if decide (k < n) = true then move (k + 1) k (n - k) page.pd_linp else page.pd_linp) k
      (normalItemId upper item.length)
    bytes := store page.bytes upper item
    pd_lower := page.pd_lower + sizeofItemIdData
    pd_upper := upper }

variable {k n upper : Nat}

theorem placeItem_eq (hk : k ≤ n) (hupper : page.pd_upper = upper + MAXALIGN item.length)
    (hroom : page.pd_lower + sizeofItemIdData ≤ upper) :
    placeItem page item (k + 1) (OffsetNumberNext n) (decide (k + 1 < OffsetNumberNext n)) 0 =
      (.ok (k + 1), placed page item k n upper) := by
  unfold placeItem OffsetNumberNext placed
  have hu : ((page.pd_upper : Int) - (MAXALIGN item.length : Nat)).toNat = upper := by omega
  have hsh : k + 1 = 1 + n ∨ decide (k < n) = true := by
    simp only [decide_eq_true_eq]
    omega
  have hlt : decide (k + 1 < 1 + n) = decide (k < n) := decide_eq_decide.mpr (by omega)
  have hcount : 1 + n - (k + 1) = n - k := by omega
  rw [if_neg (by omega), if_neg (by simp only [Nat.zero_and]; omega)]
  simp only [hlt, if_pos hsh, hu, hcount, Nat.add_sub_cancel]
  rw [if_neg (by omega)]

theorem maxOffset_placed (item : List UInt8) (k upper : Nat) (h : Layout page)
    (hn : PageGetMaxOffsetNumber page = n) :
    PageGetMaxOffsetNumber (placed page item k n upper) = n + 1 := by
  have hlow := h.lower
  rw [hn] at hlow
  refine maxOffset_of_lower ?_
  simp only [placed, hlow, SizeOfPageHeaderData, sizeofItemIdData]
  omega

/-- The line pointers are those from before, with the new one among them. -/
theorem itemIds_placed (item : List UInt8) (upper : Nat) (h : Layout page)
    (hn : PageGetMaxOffsetNumber page = n) (hk : k ≤ n) :
    itemIds (placed page item k n upper) = (itemIds page).insertIdx k (normalItemId upper item.length) := by
  have hmax := maxOffset_placed item k upper h hn
  refine List.ext_getElem ?_ fun i h1 h2 => ?_
  · rw [length_itemIds, hmax, List.length_insertIdx, length_itemIds, hn, if_pos hk]
  · have hi : i < n + 1 := by rwa [length_itemIds, hmax] at h1
    rw [itemIds_getElem, List.getElem_insertIdx]
    simp only [placed, itemIds_getElem, Function.update_apply]
    by_cases hik : i < k
    · rw [dif_pos hik, if_neg (by omega)]
      split
      · exact move_out (Or.inl (by omega))
      · rfl
    · rw [dif_neg hik]
      by_cases he : i = k
      · rw [if_pos he, dif_pos he]
      · rw [if_neg he, dif_neg he, if_pos (by simp only [decide_eq_true_eq]; omega)]
        obtain ⟨j, rfl⟩ := Nat.exists_eq_add_of_le (show k + 1 ≤ i by omega)
        rw [move_in (by omega)]
        congr 1
        omega

theorem Layout.upper_aligned (h : Layout page) : page.pd_upper % 8 = 0 := by
  have h1 := h.upper
  have h2 : room (contents page) % 8 = 0 := by
    refine Nat.mod_eq_zero_of_dvd (List.dvd_sum fun m hm => ?_)
    obtain ⟨c, _, rfl⟩ := List.mem_map.mp hm
    exact Nat.dvd_of_mod_eq_zero (maxalign_mod _)
  have h3 := mod_of_aligned h.special
  omega

/-- **`PageAddItemExtended`** accepts: the item is inserted, or appended. -/
theorem PageAddItemExtended_layout (h : Layout page) (hfree : ¬ PageHasFreeLinePointers page)
    (hpos : 0 < item.length) (hend : targetOffset (PageGetMaxOffsetNumber page) o ≤ PageGetMaxOffsetNumber page + 1)
    (hroom : page.pd_lower + sizeofItemIdData + MAXALIGN item.length ≤ page.pd_upper) :
    ∃ q, PageAddItemExtended page item o 0 = (.ok (targetOffset (PageGetMaxOffsetNumber page) o), q) ∧
      Layout q ∧
      contents q = (contents page).insertIdx (targetOffset (PageGetMaxOffsetNumber page) o - 1) item ∧
      q.pd_special = page.pd_special ∧ q.pd_flags = page.pd_flags := by
  rw [PageAddItemExtended_eq h hfree]
  have ht0 : targetOffset (PageGetMaxOffsetNumber page) o ≠ 0 := targetOffset_pos
  generalize targetOffset (PageGetMaxOffsetNumber page) o = t at hend ht0 ⊢
  obtain ⟨k, rfl⟩ : ∃ k, t = k + 1 := ⟨t - 1, by omega⟩
  obtain ⟨n, hn⟩ : ∃ n, PageGetMaxOffsetNumber page = n := ⟨_, rfl⟩
  obtain ⟨upper, hupper⟩ : ∃ upper, page.pd_upper = upper + MAXALIGN item.length :=
    ⟨page.pd_upper - MAXALIGN item.length, by omega⟩
  have hk : k ≤ n := by omega
  have hids := itemIds_placed item upper h hn hk
  have hlen : k ≤ (itemIds page).length := by rwa [length_itemIds, hn]
  have hlow := h.lower
  have hle := h.upper_le
  have h8 := maxalign_mod item.length
  have h8' := h.upper_aligned
  refine ⟨placed page item k n upper, ?_, ⟨?_, ?_, ?_, h.special_le, h.special, ?_⟩, ?_, rfl, rfl⟩
  · rw [hn, placeItem_eq hk hupper (by omega)]
  · rw [maxOffset_placed item k upper h hn]
    simp only [placed]
    rw [hlow, hn]
    exact (Nat.add_assoc _ _ _).trans (congrArg _ (Nat.mul_succ _ _).symm)
  · simp only [placed]
    omega
  · simp only [placed]
    omega
  · have hnew : Tiled (normalItemId upper item.length).lp_off page.pd_special
        (normalItemId upper item.length :: itemIds page) :=
      h.tiled.cons hle hpos (by simp only [normalItemId]; omega) hupper.symm
    rw [hids]
    exact hnew.perm (List.perm_insertIdx _ _ hlen).symm
  · have hnew : read (store page.bytes upper item) (normalItemId upper item.length) = item := slice_store
    have hnl := le_maxalign item.length
    have hold : (itemIds page).map (read (store page.bytes upper item)) = (itemIds page).map (read page.bytes) :=
      List.map_congr_left fun y hy => read_store (by
        have : page.pd_upper ≤ y.lp_off := (h.tiled.within y hy).1
        omega)
    have hbytes : (placed page item k n upper).bytes = store page.bytes upper item := rfl
    rw [contents_eq, hids, contents_eq, List.map_insertIdx, hbytes, hnew, hold, Nat.add_sub_cancel]

end Add

end Pgvec.Storage.Bufpage
