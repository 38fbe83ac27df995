/-
  File:      Pgvec/Storage/ItemStore.lean
  Subject:   THE ITEM STORE OF AN INDEX PAGE: whatever is added, deleted and replaced, the layout holds, and
             the contents are a list with insertions, deletions and replacements.

  * `Call`, `exec`, `run` -- the calls on a page; `Call.onList` -- the same on a list of items;
  * `Does` -- what one call does: its answer, the contents, and when it fails; `exec_does` -- every call;
  * `run_usable` -- every run; **`item_store`** -- from a fresh page;
  * `Represents` -- the page of bytes stands for a page of items of `Pgvec/Storage/Page.lean`;
    **`Represents.add`**, **`Represents.overwrite`** -- the operations of that page are those of the bytes.
-/
import Pgvec.Storage.ItemLayout

namespace Pgvec.Storage.Bufpage

open Blocks

variable {page : Page}

/-! ## 1. Calls -/

/-- A call; an item is added without flags. -/
inductive Call where
  | add (item : List UInt8) (offsetNumber : Nat)
  | delete (offnum : Nat)
  | overwrite (offnum : Nat) (newtup : List UInt8)

/-- The size of an item. -/
def SizeOk (item : List UInt8) : Prop := 1 ≤ item.length ∧ item.length ≤ BLCKSZ

/-- The sizes of the items of a call. -/
def Call.Ok : Call → Prop
  | .add item _ => SizeOk item
  | .delete _ => True
  | .overwrite _ newtup => SizeOk newtup

/-- What a call answers. -/
inductive Reply where
  | offsetNumber (o : Nat)
  | deleted
  | overwritten (done : Bool)
  | raised (e : ErrorData)
  deriving DecidableEq, Repr

/-- The call failed: it answers `InvalidOffsetNumber` or `false`, or it raises an error. -/
def Reply.Failed : Reply → Prop
  | .offsetNumber o => o = InvalidOffsetNumber
  | .deleted => False
  | .overwritten done => done = false
  | .raised _ => True

/-- The answer of a function as a reply. -/
def answer {α : Type} (f : α → Reply) : Result α → Reply × Page
  | (.ok a, page) => (f a, page)
  | (.error e, page) => (.raised e, page)

/-- The call on a page. -/
def exec (page : Page) : Call → Reply × Page
  | .add item offsetNumber => answer .offsetNumber (PageAddItemExtended page item offsetNumber 0)
  | .delete offnum => answer (fun _ => .deleted) (PageIndexTupleDelete page offnum)
  | .overwrite offnum newtup => answer .overwritten (PageIndexTupleOverwrite page offnum newtup)

/-- One call after the other. -/
def run (page : Page) (calls : List Call) : Page := calls.foldl (fun page c => (exec page c).2) page

/-- The room between the line pointers and the items. -/
def freeSpace (special : Nat) (items : List (List UInt8)) : Nat :=
  special - room items - (SizeOfPageHeaderData + sizeofItemIdData * items.length)

/-- **The call on a list of items**: insert or append, delete, replace. -/
def Call.onList (special : Nat) (items : List (List UInt8)) : Call → Reply × List (List UInt8)
  | .add item o =>
      if targetOffset items.length o > items.length + 1 ∨
          sizeofItemIdData + MAXALIGN item.length > freeSpace special items then
        (.offsetNumber InvalidOffsetNumber, items)
      else
        (.offsetNumber (targetOffset items.length o), items.insertIdx (targetOffset items.length o - 1) item)
  | .delete o =>
      if o = 0 ∨ o > items.length then (.raised (invalidIndexOffnum o), items)
      else (.deleted, items.eraseIdx (o - 1))
  | .overwrite o newtup =>
      if o = 0 ∨ o > items.length then (.raised (invalidIndexOffnum o), items)
      else if MAXALIGN newtup.length > MAXALIGN (items.getD (o - 1) []).length + freeSpace special items then
        (.overwritten false, items)
      else (.overwritten true, items.set (o - 1) newtup)

/-- The offset number is valid and beyond the end, or no item is there. -/
def Call.Beyond (page : Page) : Call → Prop
  | .add _ o => OffsetNumberIsValid o ∧ o > PageGetMaxOffsetNumber page + 1
  | .delete o => o = 0 ∨ o > PageGetMaxOffsetNumber page
  | .overwrite o _ => o = 0 ∨ o > PageGetMaxOffsetNumber page

/-- The free space does not suffice. -/
def Call.NoRoom (page : Page) : Call → Prop
  | .add item _ => page.pd_upper < page.pd_lower + sizeofItemIdData + MAXALIGN item.length
  | .delete _ => False
  | .overwrite o newtup =>
      MAXALIGN (PageGetItem page o).length + (page.pd_upper - page.pd_lower) < MAXALIGN newtup.length

/-! ## 2. One call -/

/-- The page is one of these: its layout is right and the hint says that no line pointer is unused. -/
structure Usable (special : Nat) (page : Page) : Prop where
  layout : Layout page
  special : page.pd_special = special
  flags : page.pd_flags = 0

theorem Usable.noHint {special : Nat} (h : Usable special page) : ¬ PageHasFreeLinePointers page := by
  unfold PageHasFreeLinePointers
  rw [h.flags]
  decide

theorem Layout.free (h : Layout page) : freeSpace page.pd_special (contents page) = page.pd_upper - page.pd_lower := by
  have h1 := h.upper
  have h2 := h.lower
  unfold freeSpace
  rw [length_contents]
  omega

theorem getD_contents {o : Nat} (h0 : o ≠ 0) (hn : o ≤ PageGetMaxOffsetNumber page) :
    (contents page).getD (o - 1) [] = PageGetItem page o := by
  have hlen : o - 1 < (contents page).length := by
    rw [length_contents]
    omega
  rw [List.getD_eq_getElem _ _ hlen]
  simp only [contents, List.getElem_map, List.getElem_range', FirstOffsetNumber]
  congr 1
  omega

theorem not_failed_target {n o : Nat} : ¬ (Reply.offsetNumber (targetOffset n o)).Failed := targetOffset_pos

theorem targetOffset_beyond {n o : Nat} : targetOffset n o > n + 1 ↔ OffsetNumberIsValid o ∧ o > n + 1 := by
  unfold targetOffset OffsetNumberNext
  split
  · rename_i hv
    exact ⟨fun h => ⟨hv, h⟩, fun h => h.2⟩
  · rename_i hv
    exact ⟨fun h => absurd h (by omega), fun h => absurd h.1 hv⟩

/-- **What one call does.** -/
structure Does (special : Nat) (page : Page) (c : Call) (r : Reply × Page) : Prop where
  usable : Usable special r.2
  reply : r.1 = (c.onList special (contents page)).1
  contents : contents r.2 = (c.onList special (contents page)).2
  unchanged : r.1.Failed → r.2 = page
  failed : r.1.Failed ↔ c.Beyond page ∨ c.NoRoom page

variable {special : Nat}

theorem does_add (h : Usable special page) {item : List UInt8} {o : Nat} (hitem : SizeOk item) :
    Does special page (.add item o) (exec page (.add item o)) := by
  have hl := h.layout
  have hfree := hl.free
  have hle := hl.lower_le
  obtain rfl := h.special
  by_cases hno : targetOffset (PageGetMaxOffsetNumber page) o > PageGetMaxOffsetNumber page + 1 ∨
      page.pd_lower + sizeofItemIdData + MAXALIGN item.length > page.pd_upper
  · have hex : exec page (.add item o) = (.offsetNumber InvalidOffsetNumber, page) := by
      simp only [exec, PageAddItemExtended_refused hl h.noHint hno, answer]
    have hlist : (Call.add item o).onList page.pd_special (contents page) =
        (.offsetNumber InvalidOffsetNumber, contents page) := by
      simp only [Call.onList, length_contents, hfree]
      exact if_pos (hno.imp id fun hr => by omega)
    rw [hex]
    refine ⟨h, by rw [hlist], by rw [hlist], fun _ => rfl, fun _ => ?_, fun _ => rfl⟩
    exact hno.imp targetOffset_beyond.mp id
  · obtain ⟨q, hq, hlq, hc, hs, hf⟩ := PageAddItemExtended_layout hl h.noHint hitem.1
      (Nat.not_lt.mp fun hb => hno (Or.inl hb)) (Nat.not_lt.mp fun hb => hno (Or.inr hb))
    have hex : exec page (.add item o) =
        (.offsetNumber (targetOffset (PageGetMaxOffsetNumber page) o), q) := by
      simp only [exec, hq, answer]
    have hlist : (Call.add item o).onList page.pd_special (contents page) =
        (.offsetNumber (targetOffset (PageGetMaxOffsetNumber page) o),
          (contents page).insertIdx (targetOffset (PageGetMaxOffsetNumber page) o - 1) item) := by
      simp only [Call.onList, length_contents, hfree]
      exact if_neg fun hb => hno (hb.imp id fun hr => by omega)
    rw [hex]
    refine ⟨⟨hlq, hs, hf.trans h.flags⟩, by rw [hlist], by rw [hlist]; exact hc,
      fun hfail => absurd hfail not_failed_target, fun hfail => absurd hfail not_failed_target, fun hb => ?_⟩
    exact absurd (hb.imp targetOffset_beyond.mpr id) hno

theorem does_delete (h : Usable special page) {o : Nat} : Does special page (.delete o) (exec page (.delete o)) := by
  have hl := h.layout
  by_cases hno : o = 0 ∨ o > PageGetMaxOffsetNumber page
  · have hex : exec page (.delete o) = (.raised (invalidIndexOffnum o), page) := by
      simp only [exec, PageIndexTupleDelete, if_neg hl.header, if_pos hno, answer]
    have hlist : (Call.delete o).onList special (contents page) = (.raised (invalidIndexOffnum o), contents page) := by
      simp only [Call.onList, length_contents, if_pos hno]
    rw [hex]
    exact ⟨h, by rw [hlist], by rw [hlist], fun _ => rfl, fun _ => Or.inl hno, fun _ => trivial⟩
  · obtain ⟨q, hq, hlq, hc, hs, hf⟩ := PageIndexTupleDelete_layout hl (fun h0 => hno (Or.inl h0))
      (Nat.not_lt.mp fun hb => hno (Or.inr hb))
    have hex : exec page (.delete o) = (.deleted, q) := by
      simp only [exec, hq, answer]
    have hlist : (Call.delete o).onList special (contents page) = (.deleted, (contents page).eraseIdx (o - 1)) := by
      simp only [Call.onList, length_contents, if_neg hno]
    rw [hex]
    exact ⟨⟨hlq, hs.trans h.special, hf.trans h.flags⟩, by rw [hlist], by rw [hlist]; exact hc,
      fun hfail => hfail.elim, fun hfail => hfail.elim, fun hb => absurd (hb.resolve_right id) hno⟩

theorem does_overwrite (h : Usable special page) {o : Nat} {newtup : List UInt8} (hitem : SizeOk newtup) :
    Does special page (.overwrite o newtup) (exec page (.overwrite o newtup)) := by
  have hl := h.layout
  have hfree := hl.free
  obtain rfl := h.special
  by_cases hno : o = 0 ∨ o > PageGetMaxOffsetNumber page
  · have hex : exec page (.overwrite o newtup) = (.raised (invalidIndexOffnum o), page) := by
      simp only [exec, PageIndexTupleOverwrite, if_neg hl.header, if_pos hno, answer]
    have hlist : (Call.overwrite o newtup).onList page.pd_special (contents page) =
        (.raised (invalidIndexOffnum o), contents page) := by
      simp only [Call.onList, length_contents, if_pos hno]
    rw [hex]
    exact ⟨h, by rw [hlist], by rw [hlist], fun _ => rfl, fun _ => Or.inl hno, fun _ => trivial⟩
  · have h0 : o ≠ 0 := fun h0 => hno (Or.inl h0)
    have hn : o ≤ PageGetMaxOffsetNumber page := Nat.not_lt.mp fun hb => hno (Or.inr hb)
    have hget := getD_contents h0 hn
    have hitemlen : (PageGetItem page o).length = (PageGetItemId page o).lp_len := length_slice
    by_cases hroom : MAXALIGN newtup.length >
        MAXALIGN (PageGetItemId page o).lp_len + (page.pd_upper - page.pd_lower)
    · have hex : exec page (.overwrite o newtup) = (.overwritten false, page) := by
        simp only [exec, PageIndexTupleOverwrite, if_neg hl.header, if_neg hno,
          if_neg (hl.linePointer (hl.pick h0 hn).1), if_pos hroom, answer]
      have hlist : (Call.overwrite o newtup).onList page.pd_special (contents page) =
          (.overwritten false, contents page) := by
        simp only [Call.onList, length_contents, if_neg hno, hget, hfree, hitemlen, if_pos hroom]
      rw [hex]
      refine ⟨h, by rw [hlist], by rw [hlist], fun _ => rfl, fun _ => Or.inr ?_, fun _ => rfl⟩
      simp only [Call.NoRoom, hitemlen]
      exact hroom
    · obtain ⟨q, hq, hlq, hc, hs, hf⟩ := PageIndexTupleOverwrite_layout hl h0 hn hitem.1 (Nat.not_lt.mp hroom)
      have hex : exec page (.overwrite o newtup) = (.overwritten true, q) := by
        simp only [exec, hq, answer]
      have hlist : (Call.overwrite o newtup).onList page.pd_special (contents page) =
          (.overwritten true, (contents page).set (o - 1) newtup) := by
        simp only [Call.onList, length_contents, if_neg hno, hget, hfree, hitemlen, if_neg hroom]
      rw [hex]
      refine ⟨⟨hlq, hs, hf.trans h.flags⟩, by rw [hlist], by rw [hlist]; exact hc,
        fun hfail => (nomatch hfail), fun hfail => (nomatch hfail), fun hb => ?_⟩
      simp only [Call.NoRoom, hitemlen] at hb
      exact (hb.elim hno hroom).elim

/-- **One call.** -/
theorem exec_does (h : Usable special page) {c : Call} (hc : c.Ok) : Does special page c (exec page c) := by
  cases c with
  | add item o => exact does_add h hc
  | delete o => exact does_delete h
  | overwrite o newtup => exact does_overwrite h hc

/-! ## 3. Runs -/

/-- **Every run.** -/
theorem run_usable : ∀ (calls : List Call) {page : Page}, Usable special page → (∀ c ∈ calls, c.Ok) →
    Usable special (run page calls) ∧
      contents (run page calls) = calls.foldl (fun items c => (c.onList special items).2) (contents page)
  | [], _, h, _ => ⟨h, rfl⟩
  | c :: calls, page, h, hc => by
      have hd := exec_does h (hc c List.mem_cons_self)
      obtain ⟨h1, h2⟩ := run_usable calls hd.usable fun c hm => hc c (List.mem_cons_of_mem _ hm)
      refine ⟨h1, ?_⟩
      rw [List.foldl_cons, ← hd.contents]
      exact h2

/-- **The item store**: after every run on a fresh page the layout holds and the contents are those of the
    list; the next call answers as on the list, leaves the page alone when it fails, and fails exactly when
    the offset number is beyond the end or the free space does not suffice. -/
theorem item_store (specialSize : Nat) (hs : SizeOfPageHeaderData + MAXALIGN specialSize < BLCKSZ)
    (calls : List Call) (hcalls : ∀ c ∈ calls, c.Ok) :
    Layout (run (PageInit BLCKSZ specialSize) calls) ∧
    contents (run (PageInit BLCKSZ specialSize) calls) =
      calls.foldl (fun items c => (c.onList (BLCKSZ - MAXALIGN specialSize) items).2) [] ∧
    ∀ c : Call, c.Ok → Does (BLCKSZ - MAXALIGN specialSize) (run (PageInit BLCKSZ specialSize) calls) c
      (exec (run (PageInit BLCKSZ specialSize) calls) c) := by
  obtain ⟨hlayout, hempty⟩ := layout_init hs
  obtain ⟨h1, h2⟩ := run_usable calls ⟨hlayout, rfl, rfl⟩ hcalls
  rw [hempty] at h2
  exact ⟨h1.layout, h2, fun c hc => exec_does h1 hc⟩

theorem item_store_two : contents (run (PageInit BLCKSZ 0) [.add [1, 2] 0, .add [3] 1]) = [[3], [1, 2]] := by
  have hok : ∀ c ∈ [Call.add [1, 2] 0, Call.add [3] 1], c.Ok := by
    intro c hc
    rcases List.mem_cons.mp hc with rfl | hc
    · exact ⟨by decide, by decide⟩
    · obtain rfl := List.mem_singleton.mp hc
      exact ⟨by decide, by decide⟩
  exact (item_store 0 (by decide) [.add [1, 2] 0, .add [3] 1] hok).2.1.trans (by decide)

/-- An offset number above `MaxOffsetNumber` is not refused, it counts as none; and to delete a missing item
    is an error, not a failure that is reported. -/
theorem add_beyond_max_offset :
    (¬ ∀ o, o ≠ InvalidOffsetNumber →
      ((exec (PageInit BLCKSZ 0) (.add [0] o)).1 = .offsetNumber InvalidOffsetNumber ↔
        o > PageGetMaxOffsetNumber (PageInit BLCKSZ 0) + 1 ∨ (Call.add [0] o).NoRoom (PageInit BLCKSZ 0))) ∧
    (exec (PageInit BLCKSZ 0) (.delete 1)).1 = .raised (invalidIndexOffnum 1) := by
  refine ⟨fun h => ?_, by decide⟩
  have hbeyond : (2049 : Nat) > PageGetMaxOffsetNumber (PageInit BLCKSZ 0) + 1 := by decide
  have hfail := (h 2049 (by decide)).mpr (Or.inl hbeyond)
  revert hfail
  decide

/-! ## 4. The pages of items -/

/-- The page of bytes stands for a page of items. -/
structure Represents (page : Page) (p : Storage.Page (List UInt8)) : Prop where
  usable : Usable p.pd_special page
  items : p.items = (contents page).map fun item => ⟨item, item.length⟩

theorem usedSpace_items (items : List (List UInt8)) :
    usedSpace (items.map fun item => (⟨item, item.length⟩ : PageItem (List UInt8))) = room items := by
  unfold usedSpace room
  rw [List.map_map]
  rfl

variable {p : Storage.Page (List UInt8)}

/-- `pd_lower` and `pd_upper` are what the page of items says. -/
theorem Represents.bounds (h : Represents page p) :
    p.pd_lower = page.pd_lower ∧ p.pd_upper = page.pd_upper ∧ p.items.length = PageGetMaxOffsetNumber page := by
  have hl := h.usable.layout
  have hlen : p.items.length = PageGetMaxOffsetNumber page := by
    rw [h.items, List.length_map, length_contents]
  have hu := hl.upper
  have hs := h.usable.special
  refine ⟨?_, ?_, hlen⟩
  · unfold Storage.Page.pd_lower
    rw [hl.lower, hlen]
  · unfold Storage.Page.pd_upper
    rw [h.items, usedSpace_items]
    omega

/-- **`PageAddItem` on the page of items** is `PageAddItemExtended` on the page of bytes. -/
theorem Represents.add (h : Represents page p) {item : List UInt8} (hitem : SizeOk item) :
    (Storage.PageAddItem p item item.length = none ∧
      PageAddItemExtended page item InvalidOffsetNumber 0 = (.ok InvalidOffsetNumber, page)) ∨
    ∃ p' o q, Storage.PageAddItem p item item.length = some (p', o) ∧
      PageAddItemExtended page item InvalidOffsetNumber 0 = (.ok o, q) ∧ Represents q p' := by
  obtain ⟨h1, h2, h3⟩ := h.bounds
  have hl := h.usable.layout
  have ht : targetOffset (PageGetMaxOffsetNumber page) InvalidOffsetNumber = PageGetMaxOffsetNumber page + 1 := by
    unfold targetOffset OffsetNumberNext
    rw [if_neg fun hv => hv.1 rfl, Nat.add_comm]
  unfold Storage.PageAddItem
  split
  · rename_i hroom
    rw [h1, h2] at hroom
    obtain ⟨q, hq, hlq, hc, hsq, hf⟩ := PageAddItemExtended_layout (o := InvalidOffsetNumber) hl h.usable.noHint
      hitem.1 (by rw [ht]) hroom
    rw [ht] at hq hc
    refine Or.inr ⟨_, _, q, rfl, by rw [hq, h3], ⟨hlq, hsq.trans h.usable.special, hf.trans h.usable.flags⟩, ?_⟩
    rw [hc, Nat.add_sub_cancel, ← length_contents, List.insertIdx_length_self, List.map_append, ← h.items]
    rfl
  · rename_i hroom
    rw [h1, h2] at hroom
    refine Or.inl ⟨rfl, PageAddItemExtended_refused hl h.usable.noHint (Or.inr (Nat.not_le.mp hroom))⟩

/-- **`PageIndexTupleOverwrite` on the page of items** is the one on the page of bytes. -/
theorem Represents.overwrite (h : Represents page p) (offnum : Nat) {newtup : List UInt8} (hitem : SizeOk newtup) :
    ((∃ e, Storage.PageIndexTupleOverwrite p offnum newtup newtup.length = .error e) ∧
      PageIndexTupleOverwrite page offnum newtup = (.error (invalidIndexOffnum offnum), page)) ∨
    (Storage.PageIndexTupleOverwrite p offnum newtup newtup.length = .ok none ∧
      PageIndexTupleOverwrite page offnum newtup = (.ok false, page)) ∨
    ∃ p' q, Storage.PageIndexTupleOverwrite p offnum newtup newtup.length = .ok (some p') ∧
      PageIndexTupleOverwrite page offnum newtup = (.ok true, q) ∧ Represents q p' := by
  obtain ⟨h1, h2, h3⟩ := h.bounds
  have hl := h.usable.layout
  have hmissing : offnum = 0 ∨ offnum > PageGetMaxOffsetNumber page →
      PageIndexTupleOverwrite page offnum newtup = (.error (invalidIndexOffnum offnum), page) := by
    intro hno
    unfold PageIndexTupleOverwrite
    rw [if_neg hl.header]
    exact if_pos hno
  unfold Storage.PageIndexTupleOverwrite
  split
  · exact Or.inl ⟨⟨_, rfl⟩, hmissing (Or.inl rfl)⟩
  · rename_i n
    split
    · rename_i hnone
      refine Or.inl ⟨⟨_, rfl⟩, hmissing (Or.inr ?_)⟩
      rw [← h3]
      exact Nat.lt_succ_of_le (List.getElem?_eq_none_iff.mp hnone)
    · rename_i x hx
      obtain ⟨hlt, hget⟩ := List.getElem?_eq_some_iff.mp hx
      have hn : n + 1 ≤ PageGetMaxOffsetNumber page := by rwa [h3] at hlt
      have hxlen : x.lp_len = (PageGetItemId page (n + 1)).lp_len := by
        rw [← hget]
        simp only [h.items, List.getElem_map, contents_eq, itemIds_getElem, Bufpage.read, length_slice]
        rfl
      split
      · rename_i hroom
        rw [h1, h2, hxlen] at hroom
        obtain ⟨q, hq, hlq, hc, hsq, hf⟩ := PageIndexTupleOverwrite_layout hl (Nat.succ_ne_zero n) hn hitem.1 hroom
        refine Or.inr (Or.inr ⟨_, q, rfl, hq, ⟨hlq, hsq.trans h.usable.special, hf.trans h.usable.flags⟩, ?_⟩)
        rw [hc, List.map_set, ← h.items]
        rfl
      · rename_i hroom
        rw [h1, h2, hxlen] at hroom
        refine Or.inr (Or.inl ⟨rfl, ?_⟩)
        unfold PageIndexTupleOverwrite
        rw [if_neg hl.header]
        simp only
        rw [if_neg (by omega), if_neg (hl.linePointer (hl.pick (Nat.succ_ne_zero n) hn).1)]
        exact if_pos (Nat.not_le.mp hroom)

end Pgvec.Storage.Bufpage
