/-
  File:      Pgvec/Storage/Bufpage.lean
  Subject:   THE ITEM PAGE, BYTE BY BYTE (`src/backend/storage/page/bufpage.c`): where the items of
             `Pgvec/Storage/Page.lean` lie, and the functions that add, delete, replace and compact them.

  A page is its header fields, its line pointer array and its bytes. The line pointers are entries of
  `pd_linp` from index 0 on, so entry `i` stands at byte `24 + 4 * i`; only the bytes from `pd_lower` on
  are data. An item's bytes are given as a list, so its `size` is the length of the list.

  An `ereport` leaves the page as it is at that point: a result is the answer or the error, and the page.
  `WARNING`s have no effect. The uninitialised buffer of `compactify_tuples` is the argument `scratch`.

  * `PageAddItemExtended` -- insert at an offset number, append, or reuse an unused line pointer;
  * `PageIndexTupleDelete`, `PageIndexTupleOverwrite` -- delete or replace one item of an index page;
  * `compactify_tuples` -- the three ways to close the gaps between items;
  * `PageRepairFragmentation` -- compact a heap page and cut off trailing unused line pointers;
  * `PageIndexMultiDelete` -- delete many items of an index page.
-/
import Pgvec.Lib.Blocks
import Pgvec.Storage.Page

namespace Pgvec.Storage.Bufpage

open Blocks

/-- `InvalidOffsetNumber`; the offset numbers of line pointers start at 1. -/
def InvalidOffsetNumber : Nat := 0

/-- `FirstOffsetNumber`. -/
def FirstOffsetNumber : Nat := 1

/-- `MaxOffsetNumber`. -/
def MaxOffsetNumber : Nat := BLCKSZ / sizeofItemIdData

/-- `OffsetNumberIsValid`. -/
def OffsetNumberIsValid (offsetNumber : Nat) : Prop :=
  offsetNumber ≠ InvalidOffsetNumber ∧ offsetNumber ≤ MaxOffsetNumber

instance (o : Nat) : Decidable (OffsetNumberIsValid o) := inferInstanceAs (Decidable (_ ∧ _))

/-- `OffsetNumberNext`. -/
def OffsetNumberNext (offsetNumber : Nat) : Nat := 1 + offsetNumber

/-- `MaxHeapTuplesPerPage`; `SizeofHeapTupleHeader` is 23. -/
def MaxHeapTuplesPerPage : Nat := (BLCKSZ - SizeOfPageHeaderData) / (MAXALIGN 23 + sizeofItemIdData)

/-- `MaxIndexTuplesPerPage`; `sizeof(IndexTupleData)` is 8. -/
def MaxIndexTuplesPerPage : Nat := (BLCKSZ - SizeOfPageHeaderData) / (MAXALIGN (8 + 1) + sizeofItemIdData)

/-! ## 1. Line pointers and pages -/

/-- The states of a line pointer. -/
inductive LpFlags where
  | LP_UNUSED
  | LP_NORMAL
  | LP_REDIRECT
  | LP_DEAD
  deriving DecidableEq, Repr

/-- A line pointer: where the item is, the state, and how long the item is. -/
structure ItemIdData where
  lp_off : Nat
  lp_flags : LpFlags
  lp_len : Nat
  deriving DecidableEq, Repr

/-- `ItemIdIsUsed`. -/
abbrev ItemIdIsUsed (itemId : ItemIdData) : Prop := itemId.lp_flags ≠ .LP_UNUSED

/-- `ItemIdHasStorage`. -/
abbrev ItemIdHasStorage (itemId : ItemIdData) : Prop := itemId.lp_len ≠ 0

/-- What `ItemIdSetUnused` leaves. -/
def unusedItemId : ItemIdData := ⟨0, .LP_UNUSED, 0⟩

/-- What `ItemIdSetNormal` leaves. -/
def normalItemId (off len : Nat) : ItemIdData := ⟨off, .LP_NORMAL, len⟩

/-- A page. -/
structure Page where
  pd_flags : BitVec 16
  pd_lower : Nat
  pd_upper : Nat
  pd_special : Nat
  pd_linp : Nat → ItemIdData
  bytes : Nat → UInt8

/-- `PD_HAS_FREE_LINES`. -/
def PD_HAS_FREE_LINES : BitVec 16 := 1

/-- `PageHasFreeLinePointers`. -/
def PageHasFreeLinePointers (page : Page) : Prop := page.pd_flags &&& PD_HAS_FREE_LINES ≠ 0

instance (page : Page) : Decidable (PageHasFreeLinePointers page) := inferInstanceAs (Decidable (_ ≠ _))

/-- `PageSetHasFreeLinePointers`. -/
def PageSetHasFreeLinePointers (page : Page) : Page :=
  { page with pd_flags := page.pd_flags ||| PD_HAS_FREE_LINES }

/-- `PageClearHasFreeLinePointers`. -/
def PageClearHasFreeLinePointers (page : Page) : Page :=
  { page with pd_flags := page.pd_flags &&& ~~~PD_HAS_FREE_LINES }

/-- `PageGetMaxOffsetNumber`. -/
def PageGetMaxOffsetNumber (page : Page) : Nat :=
  if page.pd_lower ≤ SizeOfPageHeaderData then 0
  else (page.pd_lower - SizeOfPageHeaderData) / sizeofItemIdData

/-- `PageGetItemId`. -/
def PageGetItemId (page : Page) (offsetNumber : Nat) : ItemIdData := page.pd_linp (offsetNumber - 1)

/-- Another line pointer at an offset number. -/
def PageSetItemId (page : Page) (offsetNumber : Nat) (itemId : ItemIdData) : Page :=
  { page with pd_linp := Function.update page.pd_linp (offsetNumber - 1) itemId }

/-- The bytes of the item at an offset number: `lp_len` bytes from `PageGetItem` on. -/
def PageGetItem (page : Page) (offsetNumber : Nat) : List UInt8 :=
  slice page.bytes (PageGetItemId page offsetNumber).lp_off (PageGetItemId page offsetNumber).lp_len

/-- `PageInit`. -/
def PageInit (pageSize specialSize : Nat) : Page where
  pd_flags := 0
  pd_lower := SizeOfPageHeaderData
  pd_upper := pageSize - MAXALIGN specialSize
  pd_special := pageSize - MAXALIGN specialSize
  pd_linp := fun _ => ⟨0, .LP_UNUSED, 0⟩
  bytes := fun _ => 0

/-! ## 2. Errors -/

/-- The levels of the errors below. -/
inductive Elevel where
  | ERROR
  | PANIC
  deriving DecidableEq, Repr

/-- An error that is raised. -/
structure ErrorData where
  elevel : Elevel
  message : String
  deriving DecidableEq, Repr

/-- The answer of a function or the error it raised, and the page it leaves. -/
abbrev Result (α : Type) : Type := Except ErrorData α × Page

/-- The page header does not make sense. -/
def CorruptedPagePointers (page : Page) : Prop :=
  page.pd_lower < SizeOfPageHeaderData ∨ page.pd_lower > page.pd_upper ∨
    page.pd_upper > page.pd_special ∨ page.pd_special > BLCKSZ

instance (page : Page) : Decidable (CorruptedPagePointers page) := inferInstanceAs (Decidable (_ ∨ _))

/-- The error about the page header. -/
def corruptedPagePointers (elevel : Elevel) (page : Page) : ErrorData :=
  ⟨elevel, s!"corrupted page pointers: lower = {page.pd_lower}, upper = {page.pd_upper}, special = {page.pd_special}"⟩

/-- The error about a line pointer of an index page. -/
def corruptedLinePointer (offset size : Nat) : ErrorData :=
  ⟨.ERROR, s!"corrupted line pointer: offset = {offset}, size = {size}"⟩

/-- The error about the sum of the item lengths. -/
def corruptedItemLengths (totallen space : Nat) : ErrorData :=
  ⟨.ERROR, s!"corrupted item lengths: total {totallen}, available space {space}"⟩

/-- The error about an offset number. -/
def invalidIndexOffnum (offnum : Nat) : ErrorData := ⟨.ERROR, s!"invalid index offnum: {offnum}"⟩

/-! ## 3. `PageAddItemExtended` -/

/-- `PAI_OVERWRITE`. -/
def PAI_OVERWRITE : Nat := 1

/-- `PAI_IS_HEAP`. -/
def PAI_IS_HEAP : Nat := 2

/-- The scan for an unused line pointer without storage; `limit` when there is none. -/
def firstUnused (page : Page) (limit : Nat) : Nat :=
  ((List.range' FirstOffsetNumber (limit - FirstOffsetNumber)).find? fun offsetNumber =>
    ¬ ItemIdIsUsed (PageGetItemId page offsetNumber) ∧
      ¬ ItemIdHasStorage (PageGetItemId page offsetNumber)).getD limit

/-- The choice of the offset number: the number, `needshuffle` and the page (the hint may be reset), or
    nothing when a used line pointer would be overwritten. -/
def selectOffsetNumber (page : Page) (offsetNumber limit : Nat) (flags : Nat) :
    Option (Nat × Bool × Page) :=
  if OffsetNumberIsValid offsetNumber then
    if flags &&& PAI_OVERWRITE ≠ 0 then
      if offsetNumber < limit ∧ (ItemIdIsUsed (PageGetItemId page offsetNumber) ∨
          ItemIdHasStorage (PageGetItemId page offsetNumber)) then none
      else some (offsetNumber, false, page)
    else some (offsetNumber, decide (offsetNumber < limit), page)
  else if PageHasFreeLinePointers page then
    -- the hint is wrong when nothing is found
    if firstUnused page limit ≥ limit then
      some (firstUnused page limit, false, PageClearHasFreeLinePointers page)
    else some (firstUnused page limit, false, page)
  else some (limit, false, page)

/-- The item at the chosen offset number, when there is room. -/
def placeItem (page : Page) (item : List UInt8) (offsetNumber limit : Nat) (needshuffle : Bool)
    (flags : Nat) : Result Nat :=
  if offsetNumber > limit then (.ok InvalidOffsetNumber, page)
  else if flags &&& PAI_IS_HEAP ≠ 0 ∧ offsetNumber > MaxHeapTuplesPerPage then (.ok InvalidOffsetNumber, page)
  else
    let lower := if offsetNumber = limit ∨ needshuffle then page.pd_lower + sizeofItemIdData else page.pd_lower
    let alignedSize := MAXALIGN item.length
    let upper : Int := (page.pd_upper : Int) - alignedSize
    if (lower : Int) > upper then (.ok InvalidOffsetNumber, page)
    else
      let linp :=
        if needshuffle then move offsetNumber (offsetNumber - 1) (limit - offsetNumber) page.pd_linp
        else page.pd_linp
      (.ok offsetNumber,
        { page with
          pd_linp := Function.update linp (offsetNumber - 1) (normalItemId upper.toNat item.length)
          bytes := store page.bytes upper.toNat item
          pd_lower := lower
          pd_upper := upper.toNat })

/-- `PageAddItemExtended`. -/
def PageAddItemExtended (page : Page) (item : List UInt8) (offsetNumber : Nat) (flags : Nat) :
    Result Nat :=
  if CorruptedPagePointers page then (.error (corruptedPagePointers .PANIC page), page)
  else
    let limit := OffsetNumberNext (PageGetMaxOffsetNumber page)
    match selectOffsetNumber page offsetNumber limit flags with
    | none => (.ok InvalidOffsetNumber, page)
    | some (offsetNumber, needshuffle, page) => placeItem page item offsetNumber limit needshuffle flags

/-! ## 4. One item of an index page -/

/-- The page header as the functions below check it. -/
def CorruptedHeader (page : Page) : Prop :=
  CorruptedPagePointers page ∨ page.pd_special ≠ MAXALIGN page.pd_special

instance (page : Page) : Decidable (CorruptedHeader page) := inferInstanceAs (Decidable (_ ∨ _))

/-- A line pointer as the functions below check it. -/
def CorruptedLinePointer (page : Page) (offset size : Nat) : Prop :=
  offset < page.pd_upper ∨ offset + size > page.pd_special ∨ offset ≠ MAXALIGN offset

instance (page : Page) (offset size : Nat) : Decidable (CorruptedLinePointer page offset size) :=
  inferInstanceAs (Decidable (_ ∨ _))

/-- The loop over the first `nline` line pointers that moves the offsets of some of them. -/
def moveOffsets (nline : Nat) (moved : ItemIdData → Bool) (diff : Int) (linp : Nat → ItemIdData) :
    Nat → ItemIdData := fun i =>
  if i < nline ∧ moved (linp i) then { linp i with lp_off := ((linp i).lp_off + diff).toNat } else linp i

/-- `PageIndexTupleDelete` after its checks: `offset` and `size` are those of the line pointer. -/
def deleteTuple (page : Page) (offidx nline offset size : Nat) : Page :=
  let size := MAXALIGN size
  let nbytes := page.pd_lower - (SizeOfPageHeaderData + sizeofItemIdData * (offidx + 1))
  let linp := move offidx (offidx + 1) (nbytes / sizeofItemIdData) page.pd_linp
  let bytes :=
    if offset > page.pd_upper then move (page.pd_upper + size) page.pd_upper (offset - page.pd_upper) page.bytes
    else page.bytes
  let lower := page.pd_lower - sizeofItemIdData
  { page with
    bytes := bytes
    pd_upper := page.pd_upper + size
    pd_lower := lower
    pd_linp :=
      -- `PageIsEmpty`
      if lower ≤ SizeOfPageHeaderData then linp
      else moveOffsets (nline - 1) (fun ii => ii.lp_off ≤ offset) size linp }

/-- `PageIndexTupleDelete`. -/
def PageIndexTupleDelete (page : Page) (offnum : Nat) : Result Unit :=
  if CorruptedHeader page then (.error (corruptedPagePointers .ERROR page), page)
  else
    let nline := PageGetMaxOffsetNumber page
    if offnum = 0 ∨ offnum > nline then (.error (invalidIndexOffnum offnum), page)
    else
      let tup := PageGetItemId page offnum
      if CorruptedLinePointer page tup.lp_off tup.lp_len then
        (.error (corruptedLinePointer tup.lp_off tup.lp_len), page)
      else (.ok (), deleteTuple page (offnum - 1) nline tup.lp_off tup.lp_len)

/-- `PageIndexTupleOverwrite` after its checks: `offset` and `oldsize` are those of the line pointer. -/
def overwriteTuple (page : Page) (offnum : Nat) (newtup : List UInt8) (itemcount offset oldsize : Nat) :
    Page :=
  let size_diff : Int := (MAXALIGN oldsize : Int) - MAXALIGN newtup.length
  let page :=
    if size_diff ≠ 0 then
      { page with
        bytes := move (page.pd_upper + size_diff).toNat page.pd_upper (offset - page.pd_upper) page.bytes
        pd_upper := (page.pd_upper + size_diff).toNat
        pd_linp := moveOffsets itemcount (fun ii => ItemIdHasStorage ii ∧ ii.lp_off ≤ offset) size_diff
          page.pd_linp }
    else page
  let tupid := { PageGetItemId page offnum with lp_off := (offset + size_diff).toNat, lp_len := newtup.length }
  { PageSetItemId page offnum tupid with bytes := store page.bytes tupid.lp_off newtup }

/-- `PageIndexTupleOverwrite`. -/
def PageIndexTupleOverwrite (page : Page) (offnum : Nat) (newtup : List UInt8) : Result Bool :=
  if CorruptedHeader page then (.error (corruptedPagePointers .ERROR page), page)
  else
    let itemcount := PageGetMaxOffsetNumber page
    if offnum = 0 ∨ offnum > itemcount then (.error (invalidIndexOffnum offnum), page)
    else
      let tupid := PageGetItemId page offnum
      if CorruptedLinePointer page tupid.lp_off tupid.lp_len then
        (.error (corruptedLinePointer tupid.lp_off tupid.lp_len), page)
      else if MAXALIGN newtup.length > MAXALIGN tupid.lp_len + (page.pd_upper - page.pd_lower) then
        (.ok false, page)
      else (.ok true, overwriteTuple page offnum newtup itemcount tupid.lp_off tupid.lp_len)

/-! ## 5. `compactify_tuples` -/

/-- `itemIdCompactData`. -/
structure itemIdCompactData where
  offsetindex : Nat
  itemoff : Nat
  alignedlen : Nat
  deriving DecidableEq, Repr

/-- The loop over the items that are in place already: `upper`, `itemidptr` and the items from `i` on. -/
def skipInPlace : Nat → itemIdCompactData → List itemIdCompactData →
    Nat × itemIdCompactData × List itemIdCompactData
  | upper, itemidptr, [] =>
      if upper ≠ itemidptr.itemoff + itemidptr.alignedlen then (upper, itemidptr, [itemidptr])
      else (upper - itemidptr.alignedlen, itemidptr, [])
  | upper, itemidptr, next :: rest =>
      if upper ≠ itemidptr.itemoff + itemidptr.alignedlen then (upper, itemidptr, itemidptr :: next :: rest)
      else skipInPlace (upper - itemidptr.alignedlen) next rest

/-- The variables of the loop that moves the items. -/
structure Compactify where
  page : Page
  upper : Nat
  copy_tail : Nat
  copy_head : Nat

section Loop

variable (cp : Nat → Nat → Nat → (Nat → UInt8) → Nat → UInt8)

/-- The call that moves the items collected: `memmove`, or `memcpy` out of the scratch buffer. -/
def movePending (s : Compactify) : Page :=
  { s.page with bytes := cp s.upper s.copy_head (s.copy_tail - s.copy_head) s.page.bytes }

/-- One round of the loop. -/
def compactifyStep (s : Compactify) (item : itemIdCompactData) : Compactify :=
  let s :=
    if s.copy_head ≠ item.itemoff + item.alignedlen then
      { s with page := movePending cp s, copy_tail := item.itemoff + item.alignedlen }
    else s
  let upper := s.upper - item.alignedlen
  { s with
    upper := upper
    copy_head := item.itemoff
    page := { s.page with
      pd_linp := Function.update s.page.pd_linp item.offsetindex
        { s.page.pd_linp item.offsetindex with lp_off := upper } } }

/-- The loop and what follows it. -/
def compactifyLoop (itemidptr : itemIdCompactData) (items : List itemIdCompactData) (upper : Nat) (page : Page) :
    Page :=
  let stop := itemidptr.itemoff + itemidptr.alignedlen
  let s := items.foldl (compactifyStep cp) ⟨page, upper, stop, stop⟩
  { movePending cp s with pd_upper := s.upper }

end Loop

/-- `compactify_tuples`. -/
def compactify_tuples (scratch : Nat → UInt8) (itemidbase : List itemIdCompactData) (page : Page)
    (presorted : Bool) : Page :=
  match itemidbase with
  | [] => page -- callers must ensure that there are items
  | item :: rest =>
    if presorted then
      let (upper, itemidptr, items) := skipInPlace page.pd_special item rest
      compactifyLoop move itemidptr items upper page
    else if (item :: rest).length < PageGetMaxOffsetNumber page / 4 then
      let scratch := (item :: rest).foldl
        (fun s itemidptr => copy page.bytes itemidptr.itemoff itemidptr.itemoff itemidptr.alignedlen s) scratch
      compactifyLoop (copy scratch) item (item :: rest) page.pd_special page
    else
      let (upper, itemidptr, items) := skipInPlace page.pd_special item rest
      let scratch := copy page.bytes page.pd_upper page.pd_upper (upper - page.pd_upper) scratch
      compactifyLoop (copy scratch) itemidptr items upper page

/-! ## 6. `PageRepairFragmentation` -/

/-- The variables of the loop over the line pointers. -/
structure RepairScan where
  page : Page
  itemidbase : List itemIdCompactData
  nunused : Nat
  totallen : Nat
  last_offset : Nat
  presorted : Bool
  finalusedlp : Nat

/-- The loop over the line pointers. -/
def repairLoop (pd_upper pd_special : Nat) : List Nat → RepairScan → Except ErrorData Unit × RepairScan
  | [], s => (.ok (), s)
  | i :: is, s =>
      let lp := PageGetItemId s.page i
      if ItemIdIsUsed lp then
        if ItemIdHasStorage lp then
          let s := { s with
            itemidbase := s.itemidbase ++ [⟨i - 1, lp.lp_off, MAXALIGN lp.lp_len⟩]
            last_offset := if s.last_offset > lp.lp_off then lp.lp_off else s.last_offset
            presorted := if s.last_offset > lp.lp_off then s.presorted else false }
          if lp.lp_off < pd_upper ∨ lp.lp_off ≥ pd_special then
            (.error ⟨.ERROR, s!"corrupted line pointer: {lp.lp_off}"⟩, s)
          else
            repairLoop pd_upper pd_special is
              { s with totallen := s.totallen + MAXALIGN lp.lp_len, finalusedlp := i }
        else repairLoop pd_upper pd_special is { s with finalusedlp := i }
      else
        repairLoop pd_upper pd_special is
          { s with page := PageSetItemId s.page i unusedItemId, nunused := s.nunused + 1 }

/-- The end of `PageRepairFragmentation`: cut off trailing unused line pointers and set the hint. -/
def finishRepair (page : Page) (nline nunused : Nat) (finalusedlp : Nat) : Page :=
  let nunusedend := nline - finalusedlp
  let page := { page with pd_lower := page.pd_lower - sizeofItemIdData * nunusedend }
  if nunused - nunusedend > 0 then PageSetHasFreeLinePointers page else PageClearHasFreeLinePointers page

/-- `PageRepairFragmentation`. -/
def PageRepairFragmentation (scratch : Nat → UInt8) (page : Page) : Result Unit :=
  let pd_lower := page.pd_lower
  let pd_upper := page.pd_upper
  let pd_special := page.pd_special
  if CorruptedHeader page then (.error (corruptedPagePointers .ERROR page), page)
  else
    let nline := PageGetMaxOffsetNumber page
    match repairLoop pd_upper pd_special (List.range' FirstOffsetNumber nline)
        ⟨page, [], 0, 0, pd_special, true, InvalidOffsetNumber⟩ with
    | (.error e, s) => (.error e, s.page)
    | (.ok (), s) =>
        if s.itemidbase.length = 0 then
          (.ok (), finishRepair { s.page with pd_upper := pd_special } nline s.nunused s.finalusedlp)
        else if s.totallen > pd_special - pd_lower then
          (.error (corruptedItemLengths s.totallen (pd_special - pd_lower)), s.page)
        else
          (.ok (), finishRepair (compactify_tuples scratch s.itemidbase s.page s.presorted) nline s.nunused
            s.finalusedlp)

/-! ## 7. `PageIndexMultiDelete` -/

/-- `PageIndexTupleDelete` of one item after the other. -/
def deleteEach : List Nat → Page → Result Unit
  | [], page => (.ok (), page)
  | offnum :: offnums, page =>
      match PageIndexTupleDelete page offnum with
      | (.ok (), page) => deleteEach offnums page
      | (.error e, page) => (.error e, page)

/-- The variables of the loop over the line pointers; `nused` is the length of `newitemids`. -/
structure DeleteScan where
  itemidbase : List itemIdCompactData
  newitemids : List ItemIdData
  totallen : Nat
  nextitm : Nat
  last_offset : Nat
  presorted : Bool

/-- The loop over the line pointers. -/
def deleteLoop (page : Page) (itemnos : List Nat) :
    List Nat → DeleteScan → Except ErrorData DeleteScan
  | [], s => .ok s
  | offnum :: offnums, s =>
      let lp := PageGetItemId page offnum
      if CorruptedLinePointer page lp.lp_off lp.lp_len then .error (corruptedLinePointer lp.lp_off lp.lp_len)
      else if itemnos[s.nextitm]? = some offnum then
        -- skip item to be deleted
        deleteLoop page itemnos offnums { s with nextitm := s.nextitm + 1 }
      else
        deleteLoop page itemnos offnums { s with
          itemidbase := s.itemidbase ++ [⟨s.newitemids.length, lp.lp_off, MAXALIGN lp.lp_len⟩]
          newitemids := s.newitemids ++ [lp]
          totallen := s.totallen + MAXALIGN lp.lp_len
          last_offset := if s.last_offset > lp.lp_off then lp.lp_off else s.last_offset
          presorted := if s.last_offset > lp.lp_off then s.presorted else false }

/-- `PageIndexMultiDelete`. -/
def PageIndexMultiDelete (scratch : Nat → UInt8) (page : Page) (itemnos : List Nat) : Result Unit :=
  if itemnos.length ≤ 2 then deleteEach itemnos.reverse page
  else if CorruptedHeader page then (.error (corruptedPagePointers .ERROR page), page)
  else
    match deleteLoop page itemnos (List.range' FirstOffsetNumber (PageGetMaxOffsetNumber page))
        ⟨[], [], 0, 0, page.pd_special, true⟩ with
    | .error e => (.error e, page)
    | .ok s =>
        if s.nextitm ≠ itemnos.length then (.error ⟨.ERROR, "incorrect index offsets supplied"⟩, page)
        else if s.totallen > page.pd_special - page.pd_lower then
          (.error (corruptedItemLengths s.totallen (page.pd_special - page.pd_lower)), page)
        else
          let nused := s.newitemids.length
          let page := { page with
            pd_linp := store page.pd_linp 0 s.newitemids
            pd_lower := SizeOfPageHeaderData + nused * sizeofItemIdData }
          if nused > 0 then (.ok (), compactify_tuples scratch s.itemidbase page s.presorted)
          else (.ok (), { page with pd_upper := page.pd_special })

end Pgvec.Storage.Bufpage
