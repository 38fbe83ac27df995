/-
  File:      Pgvec/Storage/Page.lean
  Subject:   A PAGE OF ITEMS (`src/backend/storage/page/bufpage.c`), at the level of its line
             pointers: which item stands at which offset number, how long it is, and how much
             room `pd_lower` and `pd_upper` leave.

  A page is its list of items with their lengths. `pd_lower` ends the line pointer array and
  `pd_upper` starts the item area: both follow from the list, and the field `fits` is the page
  check `pd_lower <= pd_upper`, so a page that overflows cannot be built. Where an item's bytes
  lie inside the item area is not modelled here; nothing below reads it.

  * `PageAddItem` -- `PageAddItemExtended` with no offset number and no flags: append or refuse;
  * `PageIndexTupleOverwrite` -- replace one item by another that may have another size;
  * `PageGetFreeSpace`, `PageGetExactFreeSpace` -- the two free-space counts;
  * `modifyItem` -- change an item in place (same length);
  * `pageAddItem_isSome`, `overwrite_isSome` -- exactly when there is room.
-/
import Mathlib

namespace Pgvec.Storage

/-- Size of a disk block. -/
def BLCKSZ : Nat := 8192

/-- `SizeOfPageHeaderData`. -/
def SizeOfPageHeaderData : Nat := 24

/-- `sizeof(ItemIdData)`: one line pointer. -/
def sizeofItemIdData : Nat := 4

/-- Round up to a multiple of eight. -/
def MAXALIGN (n : Nat) : Nat := (n + 7) / 8 * 8

theorem le_maxalign (n : Nat) : n ≤ MAXALIGN n := by
  unfold MAXALIGN
  omega

theorem maxalign_maxalign (n : Nat) : MAXALIGN (MAXALIGN n) = MAXALIGN n := by
  unfold MAXALIGN
  omega

/-- An item on a page: its contents and the length its line pointer records (`lp_len`). -/
structure PageItem (ι : Type) where
  item : ι
  lp_len : Nat
  deriving DecidableEq, Repr

variable {ι : Type}

/-- The room a list of items takes in the item area. -/
def usedSpace (items : List (PageItem ι)) : Nat := (items.map fun i => MAXALIGN i.lp_len).sum

theorem usedSpace_append (xs ys : List (PageItem ι)) :
    usedSpace (xs ++ ys) = usedSpace xs + usedSpace ys := by
  simp only [usedSpace, List.map_append, List.sum_append]

/-- **A page**: its items in the order of their offset numbers, the end of the item area, and the
    check that line pointers and items do not run into each other. -/
structure Page (ι : Type) where
  items : List (PageItem ι)
  pd_special : Nat
  fits : SizeOfPageHeaderData + sizeofItemIdData * items.length + usedSpace items ≤ pd_special

namespace Page

@[ext] theorem ext {p q : Page ι} (h : p.items = q.items) (hs : p.pd_special = q.pd_special) :
    p = q := by
  cases p
  cases q
  cases h
  cases hs
  rfl

instance [DecidableEq ι] : DecidableEq (Page ι) := fun p q =>
  decidable_of_iff (p.items = q.items ∧ p.pd_special = q.pd_special)
    ⟨fun h => Page.ext h.1 h.2, fun h => by subst h; exact ⟨rfl, rfl⟩⟩

/-- End of the line pointer array. -/
def pd_lower (p : Page ι) : Nat := SizeOfPageHeaderData + sizeofItemIdData * p.items.length

/-- Start of the item area. -/
def pd_upper (p : Page ι) : Nat := p.pd_special - usedSpace p.items

/-- `PageGetMaxOffsetNumber`. -/
def PageGetMaxOffsetNumber (p : Page ι) : Nat := p.items.length

/-- `PageGetItem` of `PageGetItemId`: offset numbers start at one. -/
def PageGetItem (p : Page ι) : Nat → Option ι
  | 0 => none
  | n + 1 => (p.items[n]?).map (·.item)

/-- `ItemIdGetLength` of `PageGetItemId`. -/
def ItemIdGetLength (p : Page ι) : Nat → Option Nat
  | 0 => none
  | n + 1 => (p.items[n]?).map (·.lp_len)

/-- `PageGetFreeSpace`: the free room, less the line pointer a new item needs. -/
def PageGetFreeSpace (p : Page ι) : Nat :=
  if p.pd_upper - p.pd_lower < sizeofItemIdData then 0
  else p.pd_upper - p.pd_lower - sizeofItemIdData

/-- `PageGetExactFreeSpace`: the free room. -/
def PageGetExactFreeSpace (p : Page ι) : Nat := p.pd_upper - p.pd_lower

theorem fits' (p : Page ι) : p.pd_lower + usedSpace p.items ≤ p.pd_special := p.fits

theorem lower_le_upper (p : Page ι) : p.pd_lower ≤ p.pd_upper := by
  have h := p.fits'
  unfold pd_upper
  omega

end Page

open Page

/-- `PageInit`: no items, and the special space cut off the end of the page. -/
def PageInit (specialSize : Nat) (h : SizeOfPageHeaderData ≤ BLCKSZ - MAXALIGN specialSize) :
    Page ι where
  items := []
  pd_special := BLCKSZ - MAXALIGN specialSize
  fits := by simpa [usedSpace] using h

/-- `PageAddItem` with `InvalidOffsetNumber`: the item goes to the first offset number not in use
    (line pointers are never freed on these pages), or there is no room and nothing changes. -/
def PageAddItem (p : Page ι) (item : ι) (size : Nat) : Option (Page ι × Nat) :=
  if h : p.pd_lower + sizeofItemIdData + MAXALIGN size ≤ p.pd_upper then
    some (⟨p.items ++ [⟨item, size⟩], p.pd_special, by
      have := p.fits'
      simp only [pd_upper, pd_lower] at h this
      simp only [List.length_append, List.length_singleton, usedSpace_append]
      simp only [usedSpace, List.map_cons, List.map_nil, List.sum_cons, List.sum_nil] at h this ⊢
      unfold sizeofItemIdData at *
      omega⟩, p.items.length + 1)
  else none

theorem usedSpace_set (xs : List (PageItem ι)) (n : Nat) (y x : PageItem ι)
    (h : xs[n]? = some x) :
    usedSpace (xs.set n y) + MAXALIGN x.lp_len = usedSpace xs + MAXALIGN y.lp_len := by
  induction xs generalizing n with
  | nil => simp at h
  | cons a xs ih =>
      cases n with
      | zero =>
          simp only [List.getElem?_cons_zero, Option.some.injEq] at h
          subst h
          simp only [List.set_cons_zero, usedSpace, List.map_cons, List.sum_cons]
          omega
      | succ n =>
          have h' : xs[n]? = some x := by simpa using h
          have := ih n h'
          simp only [List.set_cons_succ, usedSpace, List.map_cons, List.sum_cons] at this ⊢
          omega

/-- `PageIndexTupleOverwrite`: the item at an existing offset number is replaced; `ok none` is the
    answer `false` (the free space does not suffice), an error the complaint about the number. -/
def PageIndexTupleOverwrite (p : Page ι) (offnum : Nat) (newtup : ι) (newsize : Nat) :
    Except String (Option (Page ι)) :=
  match offnum with
  | 0 => .error "invalid index offnum"
  | n + 1 =>
      match hx : p.items[n]? with
      | none => .error "invalid index offnum"
      | some x =>
          if h : MAXALIGN newsize ≤ MAXALIGN x.lp_len + (p.pd_upper - p.pd_lower) then
            .ok (some ⟨p.items.set n ⟨newtup, newsize⟩, p.pd_special, by
              have h1 := usedSpace_set p.items n ⟨newtup, newsize⟩ x hx
              have h2 := p.fits'
              simp only [pd_upper, pd_lower] at h h2
              simp only [List.length_set] at h1 ⊢
              omega⟩)
          else .ok none

theorem usedSpace_modify (xs : List (PageItem ι)) (n : Nat) (f : ι → ι) :
    usedSpace (xs.modify n fun i => { i with item := f i.item }) = usedSpace xs := by
  induction xs generalizing n with
  | nil => simp
  | cons a xs ih =>
      cases n with
      | zero => simp [usedSpace]
      | succ n =>
          have := ih n
          simp only [List.modify_succ_cons, usedSpace, List.map_cons, List.sum_cons] at this ⊢
          omega

/-- Change an item in place; its length and everything else stay. -/
def modifyItem (p : Page ι) (offnum : Nat) (f : ι → ι) : Page ι :=
  match offnum with
  | 0 => p
  | n + 1 => ⟨p.items.modify n fun i => { i with item := f i.item }, p.pd_special, by
      rw [List.length_modify, usedSpace_modify]
      exact p.fits⟩

/-! ## 1. When there is room, and what is read afterwards -/

section Facts

variable {p q : Page ι} {x : ι} {size off n : Nat}

theorem pageAddItem_eq (h : PageAddItem p x size = some (q, off)) :
    q.items = p.items ++ [⟨x, size⟩] ∧ q.pd_special = p.pd_special ∧ off = p.items.length + 1 := by
  unfold PageAddItem at h
  split at h
  · cases h
    exact ⟨rfl, rfl, rfl⟩
  · cases h

/-- **An item fits exactly when the free space reaches its aligned size** (items are not empty). -/
theorem pageAddItem_isSome (hs : 0 < size) :
    (PageAddItem p x size).isSome ↔ MAXALIGN size ≤ PageGetFreeSpace p := by
  have h1 := p.lower_le_upper
  have h2 := le_maxalign size
  unfold PageAddItem PageGetFreeSpace
  split
  · rename_i h
    simp only [Option.isSome_some, true_iff]
    unfold sizeofItemIdData at h ⊢
    split <;> omega
  · rename_i h
    simp only [Option.isSome_none, Bool.false_eq_true, false_iff, Nat.not_le]
    unfold sizeofItemIdData at h ⊢
    split <;> omega

/-- What the exact free space is after an item was added. -/
theorem exactFree_add (h : PageAddItem p x size = some (q, off)) :
    PageGetExactFreeSpace q + sizeofItemIdData + MAXALIGN size = PageGetExactFreeSpace p := by
  have hroom : p.pd_lower + sizeofItemIdData + MAXALIGN size ≤ p.pd_upper := by
    unfold PageAddItem at h
    split at h
    · assumption
    · cases h
  obtain ⟨hi, hsp, _⟩ := pageAddItem_eq h
  have hu : usedSpace q.items = usedSpace p.items + MAXALIGN size := by
    rw [hi, usedSpace_append]
    simp [usedSpace]
  have hl : q.items.length = p.items.length + 1 := by rw [hi]; simp
  have hp := p.fits'
  simp only [PageGetExactFreeSpace, pd_upper, pd_lower, hu, hl, hsp] at hroom hp ⊢
  unfold sizeofItemIdData at *
  omega

theorem freeSpace_eq (p : Page ι) :
    PageGetFreeSpace p = PageGetExactFreeSpace p - sizeofItemIdData := by
  unfold PageGetFreeSpace PageGetExactFreeSpace
  split <;> omega

theorem overwrite_eq (h : PageIndexTupleOverwrite p off x size = .ok (some q)) :
    ∃ n y, off = n + 1 ∧ p.items[n]? = some y ∧ q.items = p.items.set n ⟨x, size⟩ ∧
      q.pd_special = p.pd_special := by
  unfold PageIndexTupleOverwrite at h
  split at h
  · cases h
  · rename_i n
    split at h
    · cases h
    · rename_i y hy
      split at h
      · cases h
        exact ⟨n, y, rfl, hy, rfl, rfl⟩
      · cases h

/-- **An overwrite goes through when old item and free space together have the room.** -/
theorem overwrite_isSome {y : PageItem ι} (hy : p.items[n]? = some y)
    (h : MAXALIGN size ≤ MAXALIGN y.lp_len + PageGetExactFreeSpace p) :
    ∃ q, PageIndexTupleOverwrite p (n + 1) x size = .ok (some q) := by
  unfold PageIndexTupleOverwrite
  split
  · rename_i e
    omega
  · rename_i m e
    have : n = m := by omega
    subst this
    split
    · rename_i hn
      rw [hy] at hn
      cases hn
    · rename_i z hz
      rw [hy] at hz
      cases hz
      rw [dif_pos (by simpa [PageGetExactFreeSpace] using h)]
      exact ⟨_, rfl⟩

theorem exactFree_overwrite {y : PageItem ι}
    (h : PageIndexTupleOverwrite p (n + 1) x size = .ok (some q)) (hy : p.items[n]? = some y) :
    PageGetExactFreeSpace q + MAXALIGN size = PageGetExactFreeSpace p + MAXALIGN y.lp_len := by
  obtain ⟨m, z, e, hz, hi, hsp⟩ := overwrite_eq h
  have : n = m := by omega
  subst this
  rw [hy] at hz
  cases hz
  have h1 := usedSpace_set p.items n ⟨x, size⟩ y hy
  have h2 := p.fits'
  have h3 := q.fits'
  have hl : q.items.length = p.items.length := by rw [hi]; simp
  rw [← hi] at h1
  simp only at h1
  simp only [PageGetExactFreeSpace, pd_upper, pd_lower, hl, hsp] at h2 h3 ⊢
  omega

end Facts

end Pgvec.Storage
