/-
  File:      Pgvec/Hnsw/Lookup.lean
  Subject:   WHAT IS AT AN INDEX TID after each way of writing to the index.

  `slot? t` is the item at `t` with its recorded length. Every write changes the slots it names and no
  other one; the metapage, the number of pages and the links between pages stay, unless the write is
  the one that changes them. `Same` collects what a write to items keeps.

  * `slot?_modifyItem`, `slot?_addItem`, `slot?_overwriteItem`, `slot?_append` -- one lemma for each write;
  * `item?_eq_slot?` and its variants carry them over to `item?`, `elem?` and `neigh?`.
-/
import Pgvec.Hnsw.Index

namespace Pgvec.Storage.Page

variable {ι : Type}

/-- The item at an offset number, with its recorded length. -/
def slot? (p : Page ι) : Nat → Option (PageItem ι)
  | 0 => none
  | n + 1 => p.items[n]?

theorem getItem_eq (p : Page ι) (n : Nat) : p.PageGetItem n = (p.slot? n).map (·.item) := by
  cases n <;> rfl

theorem slot?_eq_none {p : Page ι} {n : Nat} (h : p.items.length < n) : p.slot? n = none := by
  cases n with
  | zero => rfl
  | succ n => exact List.getElem?_eq_none (by omega)

theorem slot?_isSome {p : Page ι} {n : Nat} {x : PageItem ι} (h : p.slot? n = some x) :
    1 ≤ n ∧ n ≤ p.items.length := by
  cases n with
  | zero => cases h
  | succ n =>
      have := (List.getElem?_eq_some_iff.mp h).1
      omega

variable {p q : Page ι} {x : ι} {size off : Nat}

theorem slot?_add (h : PageAddItem p x size = some (q, off)) (n : Nat) :
    q.slot? n = if n = off then some ⟨x, size⟩ else p.slot? n := by
  obtain ⟨hi, _, ho⟩ := pageAddItem_eq h
  cases n with
  | zero => rw [if_neg (by omega)]; rfl
  | succ n =>
      simp only [slot?, hi, ho]
      split
      · rename_i e
        have : n = p.items.length := by omega
        subst this
        simp
      · rename_i e
        rcases Nat.lt_or_ge n p.items.length with hlt | hge
        · rw [List.getElem?_append_left hlt]
        · rw [List.getElem?_eq_none (by simp; omega), List.getElem?_eq_none (by omega)]

theorem slot?_overwrite (h : PageIndexTupleOverwrite p off x size = .ok (some q)) (n : Nat) :
    q.slot? n = if n = off then some ⟨x, size⟩ else p.slot? n := by
  obtain ⟨m, y, rfl, hy, hi, _⟩ := overwrite_eq h
  have hlt : m < p.items.length := (List.getElem?_eq_some_iff.mp hy).1
  cases n with
  | zero => rw [if_neg (by omega)]; rfl
  | succ n =>
      simp only [slot?, hi]
      rw [List.getElem?_set]
      by_cases e : m = n
      · subst e
        simp [hlt]
      · rw [if_neg e, if_neg (by omega)]

theorem slot?_modify (p : Page ι) (off : Nat) (f : ι → ι) (n : Nat) :
    (modifyItem p off f).slot? n =
      if n = off then (p.slot? n).map fun i => { i with item := f i.item } else p.slot? n := by
  cases off with
  | zero =>
      cases n with
      | zero => rfl
      | succ n => rw [if_neg (by omega)]; rfl
  | succ m =>
      cases n with
      | zero => rw [if_neg (by omega)]; rfl
      | succ n =>
          simp only [modifyItem, slot?, List.getElem?_modify]
          by_cases e : m = n
          · subst e
            simp
          · rw [if_neg (by omega : ¬ n + 1 = m + 1)]
            simp [e]

end Pgvec.Storage.Page

namespace Pgvec.Hnsw

open Storage

variable {V : Type}

/-! ## 1. Pages -/

namespace Index

theorem page?_pos {idx : Index V} {b : Nat} {p : HnswPage V} (h : idx.page? b = some p) :
    1 ≤ b ∧ b ≤ idx.pages.length := by
  cases b with
  | zero => cases h
  | succ b =>
      have := (List.getElem?_eq_some_iff.mp h).1
      omega

theorem page?_isSome {idx : Index V} {b : Nat} (h1 : 1 ≤ b) (h2 : b ≤ idx.pages.length) :
    ∃ p, idx.page? b = some p := by
  cases b with
  | zero => omega
  | succ b => exact ⟨_, List.getElem?_eq_getElem (by omega)⟩

theorem page?_setPage {idx : Index V} {b : Nat} {p q : HnswPage V} (h : idx.page? b = some p)
    (b' : Nat) : (idx.setPage b q).page? b' = if b' = b then some q else idx.page? b' := by
  cases b with
  | zero => cases h
  | succ b =>
      have hlt : b < idx.pages.length := (List.getElem?_eq_some_iff.mp h).1
      cases b' with
      | zero => rw [if_neg (by omega)]; rfl
      | succ b' =>
          simp only [setPage, page?, List.getElem?_set]
          by_cases e : b = b'
          · subst e
            simp [hlt]
          · rw [if_neg e, if_neg (by omega)]

@[simp] theorem setPage_metap (idx : Index V) (b : Nat) (q : HnswPage V) :
    (idx.setPage b q).metap = idx.metap := by
  cases b <;> rfl

@[simp] theorem setPage_length (idx : Index V) (b : Nat) (q : HnswPage V) :
    (idx.setPage b q).pages.length = idx.pages.length := by
  cases b with
  | zero => rfl
  | succ b => simp [setPage]

/-- The item at an index TID, with its recorded length. -/
def slot? (idx : Index V) (t : ItemPointer) : Option (PageItem (HnswItem V)) :=
  match idx.page? t.blkno with
  | none => none
  | some p => p.page.slot? t.offno

theorem item?_eq_slot? (idx : Index V) (t : ItemPointer) :
    idx.item? t = (idx.slot? t).map (·.item) := by
  unfold item? slot?
  cases idx.page? t.blkno with
  | none => rfl
  | some p => exact p.page.getItem_eq t.offno

theorem elem?_eq_some {idx : Index V} {t : ItemPointer} {e : HnswElementTuple V} :
    idx.elem? t = some e ↔ idx.item? t = some (.element e) := by
  unfold elem?
  cases h : idx.item? t with
  | none => simp
  | some it => cases it <;> simp

theorem neigh?_eq_some {idx : Index V} {t : ItemPointer} {n : HnswNeighborTuple} :
    idx.neigh? t = some n ↔ idx.item? t = some (.neighbor n) := by
  unfold neigh?
  cases h : idx.item? t with
  | none => simp
  | some it => cases it <;> simp

theorem elem?_congr {idx idx' : Index V} {t : ItemPointer} (h : idx'.item? t = idx.item? t) :
    idx'.elem? t = idx.elem? t := by
  unfold elem?
  rw [h]

end Index

/-! ## 2. What a write to items keeps -/

/-- The metapage, the number of pages, and the links between pages. -/
structure Same (idx idx' : Index V) : Prop where
  metap : idx'.metap = idx.metap
  length : idx'.pages.length = idx.pages.length
  next : ∀ b, (idx'.page? b).map (·.nextblkno) = (idx.page? b).map (·.nextblkno)
  special : ∀ b, (idx'.page? b).map (·.page.pd_special) = (idx.page? b).map (·.page.pd_special)

theorem Same.refl (idx : Index V) : Same idx idx := ⟨rfl, rfl, fun _ => rfl, fun _ => rfl⟩

theorem Same.trans {a b c : Index V} (h : Same a b) (h' : Same b c) : Same a c where
  metap := h'.metap.trans h.metap
  length := h'.length.trans h.length
  next x := (h'.next x).trans (h.next x)
  special x := (h'.special x).trans (h.special x)

theorem same_setPage {idx : Index V} {b : Nat} {p q : HnswPage V} (h : idx.page? b = some p)
    (hn : q.nextblkno = p.nextblkno) (hs : q.page.pd_special = p.page.pd_special) :
    Same idx (idx.setPage b q) where
  metap := Index.setPage_metap idx b q
  length := Index.setPage_length idx b q
  next b' := by
    rw [Index.page?_setPage h]
    split
    · rename_i e
      subst e
      rw [h]
      exact congrArg some hn
    · rfl
  special b' := by
    rw [Index.page?_setPage h]
    split
    · rename_i e
      subst e
      rw [h]
      exact congrArg some hs
    · rfl

namespace Index

variable {idx idx' : Index V} {t : ItemPointer} {it : HnswItem V} {size off b : Nat}

/-- Replacing a page changes the slots of that page. -/
theorem slot?_setPage {p q : HnswPage V} (h : idx.page? b = some p) (u : ItemPointer) :
    (idx.setPage b q).slot? u = if u.blkno = b then q.page.slot? u.offno else idx.slot? u := by
  unfold slot?
  rw [page?_setPage h]
  by_cases e : u.blkno = b
  · rw [if_pos e, if_pos e]
  · rw [if_neg e, if_neg e]

theorem slot?_of_page {p : HnswPage V} (h : idx.page? t.blkno = some p) :
    idx.slot? t = p.page.slot? t.offno := by
  unfold slot?
  rw [h]

theorem eq_iff_of_blkno {u t : ItemPointer} (h : u.blkno = t.blkno) :
    u = t ↔ u.offno = t.offno := by
  cases u
  cases t
  simp only [ItemPointer.mk.injEq] at h ⊢
  exact ⟨fun e => e.2, fun e => ⟨h, e⟩⟩

/-- **Changing an item in place.** -/
theorem slot?_modifyItem (f : HnswItem V → HnswItem V) (u : ItemPointer) :
    (idx.modifyItem t f).slot? u =
      if u = t then (idx.slot? u).map fun i => { i with item := f i.item } else idx.slot? u := by
  unfold modifyItem
  cases h : idx.page? t.blkno with
  | none =>
      by_cases e : u = t
      · subst e
        simp only [slot?, h, if_true, Option.map_none]
      · rw [if_neg e]
  | some p =>
      simp only
      rw [slot?_setPage h]
      by_cases e : u.blkno = t.blkno
      · have hp : idx.page? u.blkno = some p := by rw [e]; exact h
        rw [if_pos e, Page.slot?_modify, slot?_of_page hp]
        simp only [eq_iff_of_blkno e]
      · rw [if_neg e, if_neg fun h => e (by rw [h])]

theorem same_modifyItem (f : HnswItem V → HnswItem V) : Same idx (idx.modifyItem t f) := by
  unfold modifyItem
  cases h : idx.page? t.blkno with
  | none => exact .refl idx
  | some p =>
      refine same_setPage h rfl ?_
      show (Storage.modifyItem p.page t.offno f).pd_special = p.page.pd_special
      cases t.offno <;> rfl

theorem addItem_eq (h : idx.addItem b it size = some (idx', off)) :
    ∃ p q, idx.page? b = some p ∧ PageAddItem p.page it size = some (q, off) ∧
      idx' = idx.setPage b { p with page := q } := by
  unfold addItem at h
  split at h
  · cases h
  · rename_i p hp
    split at h
    · cases h
    · rename_i q o hq
      cases h
      exact ⟨p, q, hp, hq, rfl⟩

/-- **Putting an item at the end of a page.** -/
theorem slot?_addItem (h : idx.addItem b it size = some (idx', off)) (u : ItemPointer) :
    idx'.slot? u = if u = ⟨b, off⟩ then some ⟨it, size⟩ else idx.slot? u := by
  obtain ⟨p, q, hp, hq, rfl⟩ := addItem_eq h
  rw [slot?_setPage hp]
  by_cases e : u.blkno = b
  · subst e
    rw [if_pos rfl, Page.slot?_add hq, slot?_of_page hp]
    simp only [eq_iff_of_blkno (u := u) (t := ⟨u.blkno, off⟩) rfl]
  · rw [if_neg e, if_neg fun h => e (by rw [h])]

theorem same_addItem (h : idx.addItem b it size = some (idx', off)) : Same idx idx' := by
  obtain ⟨p, q, hp, hq, rfl⟩ := addItem_eq h
  exact same_setPage hp rfl (pageAddItem_eq hq).2.1

/-- The slot an item goes to was free. -/
theorem slot?_addItem_free (h : idx.addItem b it size = some (idx', off)) :
    idx.slot? ⟨b, off⟩ = none := by
  obtain ⟨p, q, hp, hq, rfl⟩ := addItem_eq h
  rw [slot?_of_page (t := ⟨b, off⟩) hp]
  exact Page.slot?_eq_none (by rw [(pageAddItem_eq hq).2.2]; exact Nat.lt_succ_self _)

theorem overwriteItem_eq (h : idx.overwriteItem t it size = .ok (some idx')) :
    ∃ p q, idx.page? t.blkno = some p ∧
      PageIndexTupleOverwrite p.page t.offno it size = .ok (some q) ∧
      idx' = idx.setPage t.blkno { p with page := q } := by
  unfold overwriteItem at h
  split at h
  · cases h
  · rename_i p hp
    split at h
    · cases h
    · cases h
    · rename_i q hq
      cases h
      exact ⟨p, q, hp, hq, rfl⟩

/-- **Overwriting an item.** -/
theorem slot?_overwriteItem (h : idx.overwriteItem t it size = .ok (some idx')) (u : ItemPointer) :
    idx'.slot? u = if u = t then some ⟨it, size⟩ else idx.slot? u := by
  obtain ⟨p, q, hp, hq, rfl⟩ := overwriteItem_eq h
  rw [slot?_setPage hp]
  by_cases e : u.blkno = t.blkno
  · have hp' : idx.page? u.blkno = some p := by rw [e]; exact hp
    rw [if_pos e, Page.slot?_overwrite hq, slot?_of_page hp']
    simp only [eq_iff_of_blkno e]
  · rw [if_neg e, if_neg fun h => e (by rw [h])]

theorem same_overwriteItem (h : idx.overwriteItem t it size = .ok (some idx')) : Same idx idx' := by
  obtain ⟨p, q, hp, hq, rfl⟩ := overwriteItem_eq h
  obtain ⟨_, _, _, _, _, hs⟩ := overwrite_eq hq
  exact same_setPage hp rfl hs

/-- An overwrite goes through when old item and free space have the room. -/
theorem overwriteItem_isSome (it : HnswItem V) (size : Nat) {p : HnswPage V} {x : PageItem (HnswItem V)}
    (hp : idx.page? t.blkno = some p) (hx : idx.slot? t = some x)
    (h : MAXALIGN size ≤ MAXALIGN x.lp_len + p.page.PageGetExactFreeSpace) :
    ∃ idx', idx.overwriteItem t it size = .ok (some idx') := by
  rw [slot?_of_page hp] at hx
  cases ho : t.offno with
  | zero =>
      rw [ho] at hx
      cases hx
  | succ n =>
      rw [ho] at hx
      obtain ⟨q, hq⟩ := overwrite_isSome (x := it) (n := n) hx h
      refine ⟨idx.setPage t.blkno { p with page := q }, ?_⟩
      unfold overwriteItem
      rw [hp, ho]
      simp only [hq]

end Index

/-! ## 3. A new page -/

section Append

variable {idx : Index V} {b : Nat} {p : HnswPage V}

/-- The pages after `HnswInsertAppendPage`. -/
theorem page?_append (h : idx.page? b = some p) (b' : Nat) :
    (HnswInsertAppendPage idx b).1.page? b' =
      if b' = b then some { p with nextblkno := some (idx.pages.length + 1) }
      else if b' = idx.pages.length + 1 then some HnswInitPage else idx.page? b' := by
  have hpos := Index.page?_pos h
  have hold : ∀ x : Nat, (⟨idx.metap, idx.pages ++ [HnswInitPage]⟩ : Index V).page? x =
      if x = idx.pages.length + 1 then some HnswInitPage else idx.page? x := by
    intro x
    cases x with
    | zero => rw [if_neg (by omega)]; rfl
    | succ x =>
        simp only [Index.page?]
        split
        · rename_i e
          have : x = idx.pages.length := by omega
          subst this
          simp
        · rename_i e
          rcases Nat.lt_or_ge x idx.pages.length with hlt | hge
          · rw [List.getElem?_append_left hlt]
          · rw [List.getElem?_eq_none (by simp; omega), List.getElem?_eq_none (by omega)]
  have hb : (⟨idx.metap, idx.pages ++ [HnswInitPage]⟩ : Index V).page? b = some p := by
    rw [hold, if_neg (by omega)]
    exact h
  unfold HnswInsertAppendPage
  simp only [hb]
  rw [Index.page?_setPage hb]
  split
  · rfl
  · exact hold b'

theorem append_blkno (idx : Index V) (b : Nat) :
    (HnswInsertAppendPage idx b).2 = idx.pages.length + 1 := by
  unfold HnswInsertAppendPage
  simp only
  split <;> rfl

theorem append_metap (idx : Index V) (b : Nat) : (HnswInsertAppendPage idx b).1.metap = idx.metap := by
  unfold HnswInsertAppendPage
  simp only
  split
  · rfl
  · simp

theorem append_length (idx : Index V) (b : Nat) :
    (HnswInsertAppendPage idx b).1.pages.length = idx.pages.length + 1 := by
  unfold HnswInsertAppendPage
  simp only
  split <;> simp

/-- **A new page holds nothing, and nothing else changes.** -/
theorem slot?_append (h : idx.page? b = some p) (u : ItemPointer) :
    (HnswInsertAppendPage idx b).1.slot? u = idx.slot? u := by
  unfold Index.slot?
  rw [page?_append h]
  by_cases e : u.blkno = b
  · rw [if_pos e, e, h]
  · rw [if_neg e]
    by_cases e' : u.blkno = idx.pages.length + 1
    · have hn : idx.page? u.blkno = none := by
        rw [e']
        exact List.getElem?_eq_none (Nat.le_refl _)
      rw [if_pos e', hn]
      show (HnswInitPage (V := V)).page.slot? u.offno = none
      cases u.offno <;> rfl
    · rw [if_neg e']

end Append

end Pgvec.Hnsw
