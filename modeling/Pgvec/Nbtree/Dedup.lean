/-
  File:      Pgvec/Nbtree/Dedup.lean
  Subject:   DEDUPLICATION OF A B-TREE LEAF PAGE (`src/backend/access/nbtree/nbtdedup.c`) and its replay
             (`btree_xlog_dedup` in `nbtxlog.c`).

  A tuple is its bytes in front of the heap TIDs (`key`, of which only the attributes are read), their
  number `keysize`, and the heap TIDs: `t_tid`, or a posting list behind the key. Its size is computed as
  `_bt_form_posting` does it. The high key is a tuple, too; its length is the one of its line pointer.

  The array `intervals` holds the intervals of the posting lists made so far; the slot behind them, which
  `_bt_dedup_start_pending` fills, holds `baseoff`. A write past the end of `htids` and a pass over a page
  without data items (the callers come with a full page) are errors. The floating-point product of
  `_bt_singleval_fillfactor` is the exact one, rounded down.
-/
import Pgvec.Storage.Page
import Pgvec.Hnsw.Tuple

namespace Pgvec.Nbtree

open Pgvec.Storage
open Pgvec.Hnsw (ItemPointer)

/-! ## 1. Tuples and pages -/

/-- `sizeof(ItemPointerData)`. -/
def sizeofItemPointerData : Nat := 6

/-- `sizeof(BTPageOpaqueData)`. -/
def sizeofBTPageOpaqueData : Nat := 16

/-- `MAXALIGN_DOWN`. -/
def MAXALIGN_DOWN (n : Nat) : Nat := n / 8 * 8

/-- `BTMaxItemSize`. -/
def BTMaxItemSize : Nat :=
  MAXALIGN_DOWN ((BLCKSZ - MAXALIGN (SizeOfPageHeaderData + 3 * sizeofItemIdData) -
    MAXALIGN sizeofBTPageOpaqueData) / 3) - MAXALIGN sizeofItemPointerData

/-- `INDEX_SIZE_MASK`. -/
def INDEX_SIZE_MASK : Nat := 0x1FFF

/-- `BTREE_SINGLEVAL_FILLFACTOR`. -/
def BTREE_SINGLEVAL_FILLFACTOR : Nat := 96

/-- `BTP_HAS_GARBAGE`. -/
def BTP_HAS_GARBAGE : BitVec 16 := 1 <<< 6

/-- The heap TIDs of a tuple. -/
inductive HeapTids where
  | plain (t_tid : ItemPointer)
  | posting (htids : List ItemPointer)
  deriving DecidableEq

/-- `IndexTuple` on a leaf page. A tuple has at least one attribute behind its header, and its key part ends
    aligned; a posting list has more than one heap TID. -/
structure IndexTuple (K : Type) where
  key : K
  keysize : Nat
  tids : HeapTids
  aligned : MAXALIGN keysize = keysize
  keysize_ge : 16 ≤ keysize
  posting_length : ∀ l, tids = .posting l → 2 ≤ l.length

variable {K D : Type}

/-- The heap TIDs in the order of the tuple. -/
def IndexTuple.htids (itup : IndexTuple K) : List ItemPointer :=
  match itup.tids with
  | .plain t => [t]
  | .posting l => l

/-- `IndexTupleSize`. -/
def IndexTuple.size (itup : IndexTuple K) : Nat :=
  match itup.tids with
  | .plain _ => itup.keysize
  | .posting l => MAXALIGN (itup.keysize + l.length * sizeofItemPointerData)

/-- What `_bt_keep_natts_fast` knows of the index: the number of key attributes, and the image of each
    attribute of a tuple (`none` for NULL). -/
structure Relation (K D : Type) where
  nkeyatts : Nat
  index_getattr : K → Nat → Option D

/-- The loop of `_bt_keep_natts_fast` over `n` attributes from `attnum` on: how many are equal in front. -/
def Relation.equalAtts [DecidableEq D] (rel : Relation K D) (a b : K) : Nat → Nat → Nat
  | 0, _ => 0
  | n + 1, attnum =>
      if rel.index_getattr a attnum = rel.index_getattr b attnum then rel.equalAtts a b n (attnum + 1) + 1 else 0

/-- `_bt_keep_natts_fast`. -/
def bt_keep_natts_fast [DecidableEq D] (rel : Relation K D) (lastleft firstright : IndexTuple K) : Nat :=
  1 + rel.equalAtts lastleft.key firstright.key rel.nkeyatts 1

/-- `BTPageOpaqueData`. -/
structure BTPageOpaqueData where
  btpo_prev : Nat
  btpo_next : Nat
  btpo_level : Nat
  btpo_flags : BitVec 16
  btpo_cycleid : Nat

/-- `P_RIGHTMOST`. -/
def BTPageOpaqueData.P_RIGHTMOST (o : BTPageOpaqueData) : Bool := o.btpo_next == 0

/-- `P_HAS_GARBAGE`. -/
def BTPageOpaqueData.P_HAS_GARBAGE (o : BTPageOpaqueData) : Bool := o.btpo_flags &&& BTP_HAS_GARBAGE != 0

/-- `P_FIRSTDATAKEY`: the high key has the offset number 1. -/
def BTPageOpaqueData.P_FIRSTDATAKEY (o : BTPageOpaqueData) : Nat := if o.P_RIGHTMOST then 1 else 2

/-- A page of the index. -/
structure BTPage (K : Type) where
  page : Page (IndexTuple K)
  opq : BTPageOpaqueData
  pd_lsn : Nat

/-- The new page of `PageGetTempPageCopySpecial`, without its special space. -/
def PageGetTempPageCopySpecial : Page (IndexTuple K) := PageInit sizeofBTPageOpaqueData (by decide)

/-- Copy the high key, if any. -/
def copyHighKey (p : BTPage K) (newpage : Page (IndexTuple K)) : Except String (Page (IndexTuple K)) :=
  if p.opq.P_RIGHTMOST then .ok newpage
  else
    match p.page.items with
    | [] => .error "read of an item that is not there"
    | hitem :: _ =>
        match PageAddItem newpage hitem.item hitem.lp_len with
        | none => .error "deduplication failed to add highkey"
        | some (q, _) => .ok q

/-- The flags of the new page. -/
def clearGarbage (o : BTPageOpaqueData) : BTPageOpaqueData :=
  if o.P_HAS_GARBAGE then { o with btpo_flags := o.btpo_flags &&& ~~~BTP_HAS_GARBAGE } else o

/-! ## 2. The pending posting list -/

/-- `BTDedupInterval`. -/
structure BTDedupInterval where
  baseoff : Nat
  nitems : Nat
  deriving DecidableEq

/-- `BTDedupStateData`. `palloced` is the size of the array `htids`. -/
structure BTDedupState (K : Type) where
  deduplicate : Bool
  nmaxitems : Nat
  maxpostingsize : Nat
  base : Option (IndexTuple K)
  baseoff : Nat
  basetupsize : Nat
  palloced : Nat
  htids : List ItemPointer
  nitems : Nat
  phystupsize : Nat
  intervals : List BTDedupInterval

/-- The state at the start, with a limit on the size of posting lists. -/
def BTDedupState.init (maxpostingsize : Nat) : BTDedupState K where
  deduplicate := true
  nmaxitems := 0
  maxpostingsize := maxpostingsize
  base := none
  baseoff := 0
  basetupsize := 0
  palloced := maxpostingsize
  htids := []
  nitems := 0
  phystupsize := 0
  intervals := []

/-- `memcpy` of heap TIDs behind those in `htids`. -/
def BTDedupState.saveTids (state : BTDedupState K) (htids : List ItemPointer) : Except String (BTDedupState K) :=
  if (state.htids.length + htids.length) * sizeofItemPointerData ≤ state.palloced then
    .ok { state with htids := state.htids ++ htids }
  else .error "write past the end of htids"

/-- `MAXALIGN(IndexTupleSize(itup)) + sizeof(ItemIdData)`. -/
def IndexTuple.physSize (itup : IndexTuple K) : Nat := MAXALIGN itup.size + sizeofItemIdData

/-- `_bt_dedup_start_pending`. -/
def bt_dedup_start_pending (state : BTDedupState K) (base : IndexTuple K) (baseoff : Nat) :
    Except String (BTDedupState K) := do
  let state ← ({ state with htids := [] } : BTDedupState K).saveTids base.htids
  return { state with
    basetupsize := base.keysize
    nitems := 1
    base := some base
    baseoff := baseoff
    phystupsize := base.physSize }

/-- `_bt_dedup_save_htid`. -/
def bt_dedup_save_htid (state : BTDedupState K) (itup : IndexTuple K) : Except String (Bool × BTDedupState K) :=
  let mergedtupsz := MAXALIGN (state.basetupsize + (state.htids.length + itup.htids.length) * sizeofItemPointerData)
  if state.maxpostingsize < mergedtupsz then
    -- an oversized item, for the single value strategy
    .ok (false, if 50 < state.htids.length then { state with nmaxitems := state.nmaxitems + 1 } else state)
  else do
    let state ← state.saveTids itup.htids
    return (true, { state with nitems := state.nitems + 1, phystupsize := state.phystupsize + itup.physSize })

/-- `_bt_form_posting`. -/
def bt_form_posting (base : IndexTuple K) (htids : List ItemPointer) : IndexTuple K :=
  if h : 1 < htids.length then
    ⟨base.key, base.keysize, .posting htids, base.aligned, base.keysize_ge, fun _ e => by cases e; exact h⟩
  else ⟨base.key, base.keysize, .plain (htids.headD .invalid), base.aligned, base.keysize_ge, nofun⟩

/-- `_bt_dedup_finish_pending`: the new page, the state, and the space saved. -/
def bt_dedup_finish_pending (newpage : Page (IndexTuple K)) (state : BTDedupState K) :
    Except String (Page (IndexTuple K) × BTDedupState K × Nat) :=
  match state.base with
  | none => .error "no pending posting list"
  | some base =>
      if state.nitems = 1 then
        -- the original, unchanged base tuple
        match PageAddItem newpage base base.size with
        | none => .error "deduplication failed to add tuple to page"
        | some (q, _) => .ok (q, { state with htids := [], nitems := 0, phystupsize := 0 }, 0)
      else
        let final := bt_form_posting base state.htids
        match PageAddItem newpage final final.size with
        | none => .error "deduplication failed to add tuple to page"
        | some (q, _) =>
            .ok (q, { state with
              htids := []
              nitems := 0
              phystupsize := 0
              intervals := state.intervals ++ [⟨state.baseoff, state.nitems⟩] },
              state.phystupsize - (final.size + sizeofItemIdData))

/-! ## 3. `_bt_dedup_pass` -/

/-- `_bt_do_singleval`: is the page full of tuples of the new item's value? -/
def bt_do_singleval [DecidableEq D] (rel : Relation K D) (page : Page (IndexTuple K)) (minoff : Nat)
    (newitem : IndexTuple K) : Bool :=
  let equal (itup : IndexTuple K) : Bool := rel.nkeyatts < bt_keep_natts_fast rel newitem itup
  (page.PageGetItem minoff).any equal && (page.PageGetItem page.PageGetMaxOffsetNumber).any equal

/-- `_bt_singleval_fillfactor`. -/
def bt_singleval_fillfactor (state : BTDedupState K) (newitemsz : Nat) : BTDedupState K :=
  let leftfree := BLCKSZ - SizeOfPageHeaderData - MAXALIGN sizeofBTPageOpaqueData
  let leftfree := leftfree - (newitemsz + MAXALIGN sizeofItemPointerData)
  let reduction := leftfree * (100 - BTREE_SINGLEVAL_FILLFACTOR) / 100
  { state with maxpostingsize :=
      if reduction < state.maxpostingsize then state.maxpostingsize - reduction else 0 }

/-- Single value strategy's extra steps, and whether the strategy is still on. -/
def singleValueSteps (newitemsz : Nat) (singlevalstrat : Bool) (state : BTDedupState K) : BTDedupState K × Bool :=
  if singlevalstrat then
    if state.nmaxitems = 5 then (bt_singleval_fillfactor state newitemsz, true)
    else if state.nmaxitems = 6 then ({ state with deduplicate := false }, false)
    else (state, true)
  else (state, false)

/-- The local variables of the pass: `newpage`, `state`, `pagesaving`, `singlevalstrat`. -/
structure PassState (K : Type) where
  newpage : Page (IndexTuple K)
  state : BTDedupState K
  pagesaving : Nat
  singlevalstrat : Bool

/-- One item of the pass. -/
def dedupItem [DecidableEq D] (rel : Relation K D) (newitemsz minoff offnum : Nat) (itup : IndexTuple K)
    (s : PassState K) : Except String (PassState K) :=
  if offnum = minoff then do
    let state ← bt_dedup_start_pending s.state itup offnum
    return { s with state := state }
  else do
    -- tuple equal to the base tuple, and its heap TIDs can be saved?
    let (saved, state) ←
      if s.state.deduplicate ∧ (s.state.base.any fun base => rel.nkeyatts < bt_keep_natts_fast rel base itup) then
        bt_dedup_save_htid s.state itup
      else .ok (false, s.state)
    if saved then return { s with state := state }
    else do
      let (newpage, state, saving) ← bt_dedup_finish_pending s.newpage state
      let (state, singlevalstrat) := singleValueSteps newitemsz s.singlevalstrat state
      let state ← bt_dedup_start_pending state itup offnum
      return ⟨newpage, state, s.pagesaving + saving, singlevalstrat⟩

/-- A loop over the data items, with their offset numbers. -/
def forItems {σ : Type} (f : Nat → IndexTuple K → σ → Except String σ) :
    Nat → List (IndexTuple K) → σ → Except String σ
  | _, [], s => .ok s
  | offnum, itup :: l, s => do forItems f (offnum + 1) l (← f offnum itup s)

/-- The items of a page from an offset number on. -/
def itemsFrom (page : Page (IndexTuple K)) (minoff : Nat) : List (IndexTuple K) :=
  (page.items.drop (minoff - 1)).map (·.item)

/-- What the pass leaves: the page, and the intervals of its log record, if one is written. -/
structure Deduped (K : Type) where
  page : BTPage K
  xlrec_dedup : Option (List BTDedupInterval)

/-- **`_bt_dedup_pass`**; `recptr` is the position the log gives to a record, `none` if the relation needs no WAL. -/
def bt_dedup_pass [DecidableEq D] (rel : Relation K D) (p : BTPage K) (newitem : IndexTuple K) (newitemsz : Nat)
    (bottomupdedup : Bool) (recptr : Option Nat) : Except String (Deduped K) := do
  let newitemsz := newitemsz + sizeofItemIdData
  let minoff := p.opq.P_FIRSTDATAKEY
  let singlevalstrat := !bottomupdedup && bt_do_singleval rel p.page minoff newitem
  let newpage ← copyHighKey p PageGetTempPageCopySpecial
  let s ← forItems (dedupItem rel newitemsz minoff) minoff (itemsFrom p.page minoff)
    ⟨newpage, .init (min (BTMaxItemSize / 2) INDEX_SIZE_MASK), 0, singlevalstrat⟩
  -- handle the last item
  let (newpage, state, _) ← bt_dedup_finish_pending s.newpage s.state
  if state.intervals = [] then return ⟨p, none⟩
  else
    return {
      page := { page := newpage, opq := clearGarbage p.opq, pd_lsn := recptr.getD p.pd_lsn }
      xlrec_dedup := recptr.map fun _ => state.intervals }

/-! ## 4. `btree_xlog_dedup` -/

/-- One item of the replay. -/
def redoItem (intervals : List BTDedupInterval) (minoff offnum : Nat) (itup : IndexTuple K)
    (s : Page (IndexTuple K) × BTDedupState K) : Except String (Page (IndexTuple K) × BTDedupState K) :=
  if offnum = minoff then do
    let state ← bt_dedup_start_pending s.2 itup offnum
    return (s.1, state)
  else if (intervals[s.2.intervals.length]?).any fun i => s.2.baseoff = i.baseoff ∧ s.2.nitems < i.nitems then do
    let (saved, state) ← bt_dedup_save_htid s.2 itup
    if saved then return (s.1, state)
    else .error "deduplication failed to add heap tid to pending posting list"
  else do
    let (newpage, state, _) ← bt_dedup_finish_pending s.1 s.2
    let state ← bt_dedup_start_pending state itup offnum
    return (newpage, state)

/-- **`btree_xlog_dedup`** for a page that needs the redo. -/
def btree_xlog_dedup (p : BTPage K) (intervals : List BTDedupInterval) (lsn : Nat) : Except String (BTPage K) := do
  let minoff := p.opq.P_FIRSTDATAKEY
  let newpage ← copyHighKey p PageGetTempPageCopySpecial
  let s ← forItems (redoItem intervals minoff) minoff (itemsFrom p.page minoff) (newpage, .init BTMaxItemSize)
  let (newpage, _, _) ← bt_dedup_finish_pending s.1 s.2
  return { page := newpage, opq := clearGarbage p.opq, pd_lsn := lsn }

end Pgvec.Nbtree
