/-
  File:      Pgvec/Hnsw/Index.lean
  Subject:   THE INDEX ON DISK AND ITS ATOMIC SECTIONS.

  An index is its metapage and its pages from `HNSW_HEAD_BLKNO` on; `page? b` is block `b`. Every
  stretch of code that runs under a buffer lock is one operation (`PageOp`), and `execPage` says
  what it reads, what it writes, and which states it makes durable on the way (one for each
  `GenericXLogFinish`; `MarkDeleted` has one for each element, an insert that extends the relation
  has one for the new page). The functions are those of hnswinsert.c, hnswvacuum.c and hnswutils.c
  with the buffer calls left out:

  * `HnswUpdateMetaPageInfo`; `updateNeighborTuple` (`UpdateNeighborOnDisk`); `addDuplicate`
    (`AddDuplicateOnDisk`); `overwriteItem` (the write of `RepairGraphElement`);
  * `HnswFreeOffset`, `HnswInsertAppendPage`, `addElement` -- one round of the page loop of
    `AddElementOnDisk`;
  * `removeHeapTids`, `liveElements`, `markDeleted` -- one page of `RemoveHeapTids`, `RepairGraph`
    and `MarkDeleted`.

  `hnswMachine` puts these operations, the two page locks and the record of the vacuum's progress
  (`VacuumPhase`, which no code reads) together to a machine of several backends.
-/
import Pgvec.Machine.Logic
import Pgvec.Hnsw.Tuple

namespace Pgvec.Hnsw

open Storage

/-! ## 1. The index -/

/-- An entry point as the metapage stores it. -/
structure EntryPoint where
  blkno : Nat
  offno : Nat
  level : Nat
  deriving DecidableEq, Repr

def EntryPoint.tid (e : EntryPoint) : ItemPointer := ⟨e.blkno, e.offno⟩

/-- `HnswMetaPageData`; no entry point is the invalid block number, with `entryLevel` -1. -/
structure HnswMetaPage where
  m : Nat
  entry : Option EntryPoint
  insertPage : Option Nat
  deriving DecidableEq, Repr

/-- `metap->entryLevel`. -/
def HnswMetaPage.entryLevel (metap : HnswMetaPage) : Int :=
  match metap.entry with
  | none => -1
  | some e => e.level

/-- A page with its opaque data. -/
structure HnswPage (V : Type) where
  page : Page (HnswItem V)
  nextblkno : Option Nat

/-- **The index**: the metapage, and the blocks from `HNSW_HEAD_BLKNO` on. -/
structure Index (V : Type) where
  metap : HnswMetaPage
  pages : List (HnswPage V)

variable {V : Type}

namespace Index

/-- The page at a block number. -/
def page? (idx : Index V) : Nat → Option (HnswPage V)
  | 0 => none
  | b + 1 => idx.pages[b]?

/-- Replace the page at a block number. -/
def setPage (idx : Index V) (blkno : Nat) (p : HnswPage V) : Index V :=
  match blkno with
  | 0 => idx
  | b + 1 => { idx with pages := idx.pages.set b p }

/-- The item at an index TID. -/
def item? (idx : Index V) (t : ItemPointer) : Option (HnswItem V) :=
  match idx.page? t.blkno with
  | none => none
  | some p => p.page.PageGetItem t.offno

/-- The element tuple at an index TID. -/
def elem? (idx : Index V) (t : ItemPointer) : Option (HnswElementTuple V) :=
  match idx.item? t with
  | some (.element e) => some e
  | _ => none

/-- The neighbor tuple at an index TID. -/
def neigh? (idx : Index V) (t : ItemPointer) : Option HnswNeighborTuple :=
  match idx.item? t with
  | some (.neighbor n) => some n
  | _ => none

/-- Change the item at an index TID in place. -/
def modifyItem (idx : Index V) (t : ItemPointer) (f : HnswItem V → HnswItem V) : Index V :=
  match idx.page? t.blkno with
  | none => idx
  | some p => idx.setPage t.blkno { p with page := Storage.modifyItem p.page t.offno f }

/-- Put an item at the end of a page. -/
def addItem (idx : Index V) (blkno : Nat) (item : HnswItem V) (size : Nat) :
    Option (Index V × Nat) :=
  match idx.page? blkno with
  | none => none
  | some p =>
      match PageAddItem p.page item size with
      | none => none
      | some (q, off) => some (idx.setPage blkno { p with page := q }, off)

/-- Overwrite the item at an index TID by another one. -/
def overwriteItem (idx : Index V) (t : ItemPointer) (item : HnswItem V) (size : Nat) :
    Except String (Option (Index V)) :=
  match idx.page? t.blkno with
  | none => .error "could not read block"
  | some p =>
      match PageIndexTupleOverwrite p.page t.offno item size with
      | .error msg => .error msg
      | .ok none => .ok none
      | .ok (some q) => .ok (some (idx.setPage t.blkno { p with page := q }))

end Index

/-- A fresh index page (`HnswInitPage`). -/
def HnswInitPage : HnswPage V where
  page := PageInit sizeofHnswPageOpaqueData (by decide)
  nextblkno := none

/-! ## 2. The metapage -/

/-- The `updateEntry` argument: 0, `HNSW_UPDATE_ENTRY_GREATER`, `HNSW_UPDATE_ENTRY_ALWAYS`. -/
inductive UpdateEntry where
  | no | greater | always
  deriving DecidableEq, Repr

def HnswUpdateMetaPageInfo (metap : HnswMetaPage) (updateEntry : UpdateEntry)
    (entryPoint : Option EntryPoint) (insertPage : Option Nat) : HnswMetaPage :=
  let entry :=
    if updateEntry = .no then metap.entry
    else
      match entryPoint with
      | none => none
      | some e => if metap.entryLevel < e.level ∨ updateEntry = .always then some e else metap.entry
  { metap with
    entry := entry
    insertPage := if insertPage.isSome then insertPage else metap.insertPage }

/-! ## 3. Neighbor tuples and duplicates -/

/-- `ConnectionExists`: the new element's TID before the first invalid slot of the segment. -/
def ConnectionExists (newTid : ItemPointer) (ntup : HnswNeighborTuple) (startIdx lm : Nat) : Bool :=
  (((ntup.indextids.drop startIdx).take lm).takeWhile (·.isValid)).any (· == newTid)

/-- What `UpdateNeighborOnDisk` is called with: the neighbor tuple's TID, the level of the element
    it belongs to, the TID to put in, the slot index (-2 for a free one) and the layer. -/
structure NeighborUpdate where
  ntid : ItemPointer
  level : Nat
  newTid : ItemPointer
  idx : Int
  m : Nat
  lm : Nat
  lc : Nat
  checkExisting : Bool
  deriving DecidableEq, Repr

/-- The slot `UpdateNeighborOnDisk` settles on, counted over the whole tuple. -/
def updateSlot (ntup : HnswNeighborTuple) (u : NeighborUpdate) : Int :=
  let startIdx := (u.level - u.lc) * u.m
  if u.checkExisting && ConnectionExists u.newTid ntup startIdx u.lm then -1
  else if u.idx = -2 then
    -- find a free offset if one still exists
    match ((ntup.indextids.drop startIdx).take u.lm).findIdx? (fun t => !t.isValid) with
    | some j => startIdx + j
    | none => u.idx
  else u.idx + startIdx

/-- `UpdateNeighborOnDisk` on the tuple; `none` when nothing is written. -/
def updateNeighborTuple (ntup : HnswNeighborTuple) (u : NeighborUpdate) :
    Option HnswNeighborTuple :=
  let idx := updateSlot ntup u
  if 0 ≤ idx ∧ idx < ntup.count then
    some { ntup with indextids := ntup.indextids.set idx.toNat u.newTid }
  else none

/-- `AddDuplicateOnDisk` on the tuple: the heap TID goes behind the last one; not into an element
    that is being deleted or full. -/
def addHeapTid (etup : HnswElementTuple V) (heaptid : ItemPointer) :
    Option (HnswElementTuple V) :=
  let i := etup.tids.length
  if i = 0 ∨ i = HNSW_HEAPTIDS then none
  else some { etup with
    heaptids := etup.heaptids.set i heaptid
    hlen := by rw [List.length_set]; exact etup.hlen }

/-! ## 4. One round of `AddElementOnDisk` -/

/-- What `AddElementOnDisk` prepares before its page loop. -/
structure NewElement (V : Type) where
  level : Nat
  version : Nat
  heaptids : List ItemPointer
  value : V
  varsize : Nat
  m : Nat
  neighbors : Nat → List ItemPointer

namespace NewElement

variable (e : NewElement V)

def etupSize : Nat := HNSW_ELEMENT_TUPLE_SIZE e.varsize

def ntupSize : Nat := HNSW_NEIGHBOR_TUPLE_SIZE e.level e.m

def combinedSize : Nat := e.etupSize + e.ntupSize + sizeofItemIdData

def minCombinedSize : Nat := e.etupSize + HNSW_NEIGHBOR_TUPLE_SIZE 0 e.m + sizeofItemIdData

/-- The element tuple to write, with the given version and neighbor TID. -/
def etup (version : Nat) (neighbortid : ItemPointer) : HnswElementTuple V :=
  HnswSetElementTuple e.level version e.heaptids e.value neighbortid

/-- The neighbor tuple to write. -/
def ntup (version : Nat) : HnswNeighborTuple := HnswSetNeighborTuple e.level version e.m e.neighbors

end NewElement

/-- A deleted element whose space is taken over. -/
structure FreeSlot where
  offno : Nat
  neighbortid : ItemPointer
  version : Nat
  deriving DecidableEq, Repr

/-- The space test of `HnswFreeOffset` for one deleted element tuple at offset `offno`. -/
def freeSpaceSuffices (idx : Index V) (blkno : Nat) (page : HnswPage V) (offno : Nat)
    (etup : HnswElementTuple V) (etupSize ntupSize : Nat) : Bool :=
  let same := etup.neighbortid.blkno = blkno
  let npage := if same then some page else idx.page? etup.neighbortid.blkno
  match page.page.ItemIdGetLength offno, npage with
  | some elen, some np =>
      match np.page.ItemIdGetLength etup.neighbortid.offno with
      | none => false
      | some nlen =>
          let pageFree := elen + page.page.PageGetExactFreeSpace
          let npageFree :=
            if same then (if etupSize ≤ pageFree then nlen + (pageFree - etupSize) else nlen)
            else nlen + np.page.PageGetExactFreeSpace
          decide (etupSize ≤ pageFree) && decide (ntupSize ≤ npageFree)
  | _, _ => false

/-- `HnswFreeOffset` over the given offset numbers: the first deleted element with enough space,
    and the insert page noted at the first deleted element met. -/
def HnswFreeOffset (idx : Index V) (blkno : Nat) (page : HnswPage V) (etupSize ntupSize : Nat) :
    List Nat → Option Nat → Option FreeSlot × Option Nat
  | [], newInsertPage => (none, newInsertPage)
  | offno :: rest, newInsertPage =>
      match page.page.PageGetItem offno with
      | some (.element etup) =>
          if etup.deleted then
            let newInsertPage := if newInsertPage.isNone then some blkno else newInsertPage
            if freeSpaceSuffices idx blkno page offno etup etupSize ntupSize then
              (some ⟨offno, etup.neighbortid, etup.version⟩, newInsertPage)
            else HnswFreeOffset idx blkno page etupSize ntupSize rest newInsertPage
          else HnswFreeOffset idx blkno page etupSize ntupSize rest newInsertPage
      | _ => HnswFreeOffset idx blkno page etupSize ntupSize rest newInsertPage

/-- The offset numbers of a page, in order. -/
def HnswPage.offsets (page : HnswPage V) : List Nat :=
  List.range' 1 page.page.PageGetMaxOffsetNumber

/-- `HnswInsertAppendPage` / `HnswBuildAppendPage`: a new block at the end, linked from `blkno`. -/
def HnswInsertAppendPage (idx : Index V) (blkno : Nat) : Index V × Nat :=
  let newblk := idx.pages.length + 1
  let idx' : Index V := { idx with pages := idx.pages ++ [HnswInitPage] }
  match idx'.page? blkno with
  | none => (idx', newblk)
  | some p => (idx'.setPage blkno { p with nextblkno := some newblk }, newblk)

/-- How one round of the page loop ends. -/
inductive AddResult where
  | next (blkno : Nat) (newInsertPage : Option Nat)
  | placed (tid neighbortid : ItemPointer) (newInsertPage : Option Nat)
  | failed (msg : String)
  deriving DecidableEq, Repr

def failedToAdd : String := "failed to add index item"

/-- Put the two tuples at the end of the pages `blkno` and `nblkno`. -/
def placeElement (idx : Index V) (e : NewElement V) (blkno nblkno : Nat) :
    Option (Index V × ItemPointer × ItemPointer) :=
  match idx.page? blkno with
  | none => none
  | some p =>
      let offno := p.page.PageGetMaxOffsetNumber + 1
      let neighborOffno := if nblkno = blkno then offno + 1 else 1
      match idx.addItem blkno (.element (e.etup e.version ⟨nblkno, neighborOffno⟩)) e.etupSize with
      | none => none
      | some (idx1, o1) =>
          if o1 ≠ offno then none
          else
            match idx1.addItem nblkno (.neighbor (e.ntup e.version)) e.ntupSize with
            | none => none
            | some (idx2, o2) =>
                if o2 ≠ neighborOffno then none
                else some (idx2, ⟨blkno, offno⟩, ⟨nblkno, neighborOffno⟩)

/-- Put the two tuples where a deleted element and its neighbor tuple stood. -/
def replaceElement (idx : Index V) (e : NewElement V) (blkno : Nat) (slot : FreeSlot) :
    Option (Index V × ItemPointer × ItemPointer) :=
  let tid : ItemPointer := ⟨blkno, slot.offno⟩
  match idx.overwriteItem tid (.element (e.etup slot.version slot.neighbortid)) e.etupSize with
  | .ok (some idx1) =>
      match idx1.overwriteItem slot.neighbortid (.neighbor (e.ntup slot.version)) e.ntupSize with
      | .ok (some idx2) => some (idx2, tid, slot.neighbortid)
      | _ => none
  | _ => none

/-- What a section did: the states it made durable, in order, and its answer. -/
structure Sect (V ρ : Type) where
  commits : List (Index V)
  resp : ρ

/-- The state a section leaves. -/
def Sect.final {ρ : Type} (s : Sect V ρ) (idx : Index V) : Index V := s.commits.getLastD idx

/-- The end of `AddElementOnDisk`: commit what was placed, after the states made durable before. -/
def finishAdd (before : List (Index V)) (newInsertPage : Option Nat)
    (placed : Option (Index V × ItemPointer × ItemPointer)) : Sect V AddResult :=
  match placed with
  | none => ⟨before, .failed failedToAdd⟩
  | some (idx, tid, ntid) =>
      -- added to a new page if the insert page is not set, so the neighbor page will do
      let newInsertPage := if newInsertPage.isSome then newInsertPage else some ntid.blkno
      ⟨before ++ [idx], .placed tid ntid newInsertPage⟩

/-- **One round of the page loop of `AddElementOnDisk`**, on page `currentPage`. -/
def addElement (idx : Index V) (e : NewElement V) (currentPage : Nat)
    (newInsertPage : Option Nat) : Sect V AddResult :=
  match idx.page? currentPage with
  | none => ⟨[], .failed "could not read block"⟩
  | some page =>
      let free := page.page.PageGetFreeSpace
      -- keep track of the first page where an element at level 0 can fit
      let newInsertPage :=
        if newInsertPage.isNone ∧ e.minCombinedSize ≤ free then some currentPage else newInsertPage
      if e.combinedSize ≤ free then
        finishAdd [] newInsertPage (placeElement idx e currentPage currentPage)
      else
        match HnswFreeOffset idx currentPage page e.etupSize e.ntupSize page.offsets
            newInsertPage with
        | (some slot, newInsertPage) =>
            finishAdd [] newInsertPage (replaceElement idx e currentPage slot)
        | (none, newInsertPage) =>
            if HNSW_MAX_SIZE < e.combinedSize ∧ e.etupSize ≤ free ∧ page.nextblkno.isNone then
              -- room for the element only, on the last page
              let (idx1, nblkno) := HnswInsertAppendPage idx currentPage
              finishAdd [] newInsertPage (placeElement idx1 e currentPage nblkno)
            else
              match page.nextblkno with
              | some nextblkno => ⟨[], .next nextblkno newInsertPage⟩
              | none =>
                  let (idx1, newblk) := HnswInsertAppendPage idx currentPage
                  match idx1.page? newblk with
                  | none => ⟨[idx1], .failed failedToAdd⟩
                  | some newpage =>
                      if newpage.page.PageGetFreeSpace < e.combinedSize then
                        let (idx2, nblkno) := HnswInsertAppendPage idx1 newblk
                        finishAdd [idx1] newInsertPage (placeElement idx2 e newblk nblkno)
                      else finishAdd [idx1] newInsertPage (placeElement idx1 e newblk newblk)

/-! ## 5. One page of each vacuum phase -/

/-- The heap TIDs `RemoveHeapTids` keeps of an array, and how many it removes. -/
def compactTids (callback : ItemPointer → Bool) : List ItemPointer → List ItemPointer × Nat
  | [] => ([], 0)
  | p :: ps =>
      -- stop at first unused
      if !p.isValid then ([], 0)
      else
        let (kept, removed) := compactTids callback ps
        if callback p then (kept, removed + 1) else (p :: kept, removed)

theorem compactTids_length (callback : ItemPointer → Bool) : ∀ ps : List ItemPointer,
    (compactTids callback ps).1.length ≤ ps.length
  | [] => Nat.le_refl 0
  | p :: ps => by
      have := compactTids_length callback ps
      simp only [compactTids]
      split
      · simp
      · split <;> simp <;> omega

/-- An element tuple after `RemoveHeapTids`. -/
def removeTids (callback : ItemPointer → Bool) (etup : HnswElementTuple V) : HnswElementTuple V :=
  let kept := (compactTids callback etup.heaptids).1
  if (compactTids callback etup.heaptids).2 = 0 then etup
  else { etup with heaptids := padTids HNSW_HEAPTIDS kept, hlen := padTids_length _ _ }

/-- What one page told `RemoveHeapTids`: for each element tuple its offset, its level and whether a
    heap TID is left; the two counters; the next page. -/
structure RemoveResult where
  elements : List (Nat × Nat × Bool)
  tuples_removed : Nat
  num_index_tuples : Nat
  nextblkno : Option Nat
  deriving DecidableEq, Repr

/-- The element tuples of a page with their offsets, in order. -/
def HnswPage.elements (page : HnswPage V) : List (Nat × HnswElementTuple V) :=
  page.offsets.filterMap fun offno =>
    match page.page.PageGetItem offno with
    | some (.element etup) => some (offno, etup)
    | _ => none

/-- **One page of `RemoveHeapTids`.** -/
def removeHeapTids (idx : Index V) (blkno : Nat) (callback : ItemPointer → Bool) :
    Sect V (Option RemoveResult) :=
  match idx.page? blkno with
  | none => ⟨[], none⟩
  | some page =>
      let elems := page.elements
      let removed := (elems.map fun x => (compactTids callback x.2.heaptids).2).sum
      let kept := (elems.map fun x => (compactTids callback x.2.heaptids).1.length).sum
      let idx' := elems.foldl (fun i x => i.modifyItem ⟨blkno, x.1⟩ fun
        | .element etup => .element (removeTids callback etup)
        | it => it) idx
      ⟨if removed = 0 then [] else [idx'],
        some ⟨elems.map fun x => (x.1, x.2.level, (removeTids callback x.2).isLive), removed, kept,
          page.nextblkno⟩⟩

/-- What `RepairGraph` loads from a page: its elements with heap TIDs, and the next page. -/
structure PageElements (V : Type) where
  elements : List (HnswElement V)
  nextblkno : Option Nat

/-- **One page of `RepairGraph`**: the elements are loaded with their values, without heap TIDs. -/
def liveElements (idx : Index V) (blkno : Nat) : Option (PageElements V) :=
  match idx.page? blkno with
  | none => none
  | some page =>
      some ⟨page.elements.filterMap fun x =>
        if x.2.isLive then
          some (HnswLoadElementFromTuple (HnswInitElementFromBlock ⟨blkno, x.1⟩ 0) x.2 false true)
        else none, page.nextblkno⟩

/-- The version `MarkDeleted` gives: a `uint8` that runs through 1, …, 15. -/
def nextVersion (version : Nat) : Nat :=
  let v := (version + 1) % 256
  if 15 < v then 1 else v

/-- `MarkDeleted` on one element that has lost its heap TIDs. -/
def markElement (zeroDatum : V) (idx : Index V) (tid : ItemPointer) (etup : HnswElementTuple V) :
    Index V :=
  let version := nextVersion etup.version
  (idx.modifyItem tid fun
    | .element t => .element { t with deleted := true, version := version, data := zeroDatum }
    | it => it).modifyItem etup.neighbortid fun
      | .neighbor n => .neighbor ⟨version, List.replicate n.count .invalid⟩
      | it => it

/-- What one page told `MarkDeleted`: the first free page so far and the next page. -/
structure MarkResult where
  insertPage : Option Nat
  nextblkno : Option Nat
  deriving DecidableEq, Repr

/-- The loop of `MarkDeleted` over the offsets of page `blkno`: the state reached, the states
    committed, the first free page. -/
def markLoop (zeroDatum : V) (blkno : Nat) : List Nat → Index V → Option Nat →
    Index V × List (Index V) × Option Nat
  | [], idx, insertPage => (idx, [], insertPage)
  | offno :: rest, idx, insertPage =>
      match idx.elem? ⟨blkno, offno⟩ with
      | none => markLoop zeroDatum blkno rest idx insertPage
      | some etup =>
          let free := if insertPage.isNone then some blkno else insertPage
          if etup.deleted then markLoop zeroDatum blkno rest idx free
          else if etup.isLive then markLoop zeroDatum blkno rest idx insertPage
          else
            let idx' := markElement zeroDatum idx ⟨blkno, offno⟩ etup
            let (r, cs, ip) := markLoop zeroDatum blkno rest idx' free
            (r, idx' :: cs, ip)

/-- **One page of `MarkDeleted`.** -/
def markDeleted (zeroDatum : V) (idx : Index V) (blkno : Nat) (insertPage : Option Nat) :
    Sect V (Option MarkResult) :=
  match idx.page? blkno with
  | none => ⟨[], none⟩
  | some page =>
      let (_, cs, ip) := markLoop zeroDatum blkno page.offsets idx insertPage
      ⟨cs, some ⟨ip, page.nextblkno⟩⟩

/-! ## 6. The operations -/

/-- The function that loads an element tuple. The code does not read this; it says which load of a
    run is meant. -/
inductive Loader where
  | HnswEntryCandidate | HnswSearchLayer | LoadElementsForInsert | HnswLoadElement
  deriving DecidableEq, Repr

/-- A section under buffer locks. -/
inductive PageOp (V : Type) : Type where
  | getMetaPageInfo
  | updateMetaPage (updateEntry : UpdateEntry) (entryPoint : Option EntryPoint)
      (insertPage : Option Nat)
  | loadElement (tid : ItemPointer) (loader : Loader)
  | readNeighborTuple (ntid : ItemPointer)
  | updateNeighbor (u : NeighborUpdate)
  | overwriteNeighborTuple (ntid : ItemPointer) (ntup : HnswNeighborTuple) (size : Nat)
  | addDuplicate (tid heaptid : ItemPointer)
  | addElement (e : NewElement V) (currentPage : Nat) (newInsertPage : Option Nat)
  | removeHeapTids (blkno : Nat) (callback : ItemPointer → Bool)
  | liveElements (blkno : Nat)
  | markDeleted (zeroDatum : V) (blkno : Nat) (insertPage : Option Nat)

/-- What a section answers. -/
@[reducible] def PageOp.Resp : PageOp V → Type
  | .getMetaPageInfo => HnswMetaPage
  | .updateMetaPage _ _ _ => Unit
  | .loadElement _ _ => Option (HnswElementTuple V)
  | .readNeighborTuple _ => Option HnswNeighborTuple
  | .updateNeighbor _ => Unit
  | .overwriteNeighborTuple _ _ _ => Bool
  | .addDuplicate _ _ => Bool
  | .addElement _ _ _ => AddResult
  | .removeHeapTids _ _ => Option RemoveResult
  | .liveElements _ => Option (PageElements V)
  | .markDeleted _ _ _ => Option MarkResult

/-- **What a section does.** -/
def execPage : (o : PageOp V) → Index V → Sect V o.Resp
  | .getMetaPageInfo, idx => ⟨[], idx.metap⟩
  | .updateMetaPage ue ep ip, idx =>
      ⟨[{ idx with metap := HnswUpdateMetaPageInfo idx.metap ue ep ip }], ()⟩
  | .loadElement tid _, idx => ⟨[], idx.elem? tid⟩
  | .readNeighborTuple ntid, idx => ⟨[], idx.neigh? ntid⟩
  | .updateNeighbor u, idx =>
      match idx.neigh? u.ntid with
      | none => ⟨[], ()⟩
      | some ntup =>
          match updateNeighborTuple ntup u with
          | none => ⟨[], ()⟩
          | some ntup' => ⟨[idx.modifyItem u.ntid fun _ => .neighbor ntup'], ()⟩
  | .overwriteNeighborTuple ntid ntup size, idx =>
      match idx.overwriteItem ntid (.neighbor ntup) size with
      | .ok (some idx') => ⟨[idx'], true⟩
      | _ => ⟨[], false⟩
  | .addDuplicate tid heaptid, idx =>
      match idx.elem? tid with
      | none => ⟨[], false⟩
      | some etup =>
          match addHeapTid etup heaptid with
          | none => ⟨[], false⟩
          | some etup' => ⟨[idx.modifyItem tid fun _ => .element etup'], true⟩
  | .addElement e currentPage newInsertPage, idx => Hnsw.addElement idx e currentPage newInsertPage
  | .removeHeapTids blkno callback, idx => Hnsw.removeHeapTids idx blkno callback
  | .liveElements blkno, idx => ⟨[], Hnsw.liveElements idx blkno⟩
  | .markDeleted zeroDatum blkno insertPage, idx => Hnsw.markDeleted zeroDatum idx blkno insertPage

/-! ## 7. Several backends -/

/-- The two page locks. -/
inductive PageLock where
  | HNSW_UPDATE_LOCK | HNSW_SCAN_LOCK
  deriving DecidableEq, Repr

/-- The two modes used. -/
inductive LockMode where
  | ShareLock | ExclusiveLock
  deriving DecidableEq, Repr

/-- Share mode conflicts with exclusive mode, exclusive mode with both. -/
def LockMode.conflicts (a b : LockMode) : Bool := a == .ExclusiveLock || b == .ExclusiveLock

/-- The function that takes a page lock. -/
inductive Caller where
  | HnswInsertTupleOnDisk | RepairGraph | RepairGraphEntryPoint | MarkDeleted
  | GetScanItems | ResumeScanItems
  deriving DecidableEq, Repr

/-- How far `hnswbulkdelete` is, with its `deleted` table and `highestPoint` where
    `RepairGraphEntryPoint` uses them. The code does not read this; it records the run. -/
inductive VacuumPhase where
  | idle
  | removeHeapTids
  | repairGraphEntryPoint (deleted : List ItemPointer) (highestPoint : Option EntryPoint)
  | repairGraph
  | markDeleted
  | finished
  deriving DecidableEq, Repr

/-- The operations of a backend. -/
inductive Op (V : Type) : Type where
  | lockPage (lock : PageLock) (mode : LockMode) (caller : Caller)
  | unlockPage (lock : PageLock) (mode : LockMode)
  | enter (phase : VacuumPhase)
  | page (o : PageOp V)

/-- What an operation answers. -/
@[reducible] def Op.Resp : Op V → Type
  | .lockPage _ _ _ => Unit
  | .unlockPage _ _ => Unit
  | .enter _ => Unit
  | .page o => o.Resp

/-- A page lock that is held: the backend, the lock, the mode. -/
structure Holder where
  backend : Nat
  lock : PageLock
  mode : LockMode
  deriving DecidableEq, Repr

/-- What the backends share. -/
structure St (V : Type) where
  index : Index V
  holders : List Holder
  phase : VacuumPhase

/-- Another backend holds the lock in a conflicting mode. -/
def mustWait (holders : List Holder) (t : Nat) (lock : PageLock) (mode : LockMode) : Bool :=
  holders.any fun h => h.backend != t && h.lock == lock && h.mode.conflicts mode

/-- **The machine of the backends on one index.** -/
def hnswMachine (V : Type) : Conc.Machine (Op V) Op.Resp (St V) where
  exec t o s :=
    match o with
    | .lockPage lock mode _ =>
        if mustWait s.holders t lock mode then none
        else some ⟨[], { s with holders := ⟨t, lock, mode⟩ :: s.holders }, ()⟩
    | .unlockPage lock mode =>
        some ⟨[], { s with holders := s.holders.erase ⟨t, lock, mode⟩ }, ()⟩
    | .enter phase => some ⟨[], { s with phase := phase }, ()⟩
    | .page o =>
        let r := execPage o s.index
        some ⟨r.commits.map fun i => { s with index := i }, { s with index := r.final s.index },
          r.resp⟩
  abort t s := { s with holders := s.holders.filter fun h => h.backend != t }

/-- A program of a backend. -/
abbrev HnswProg (V α : Type) : Type := Conc.Prog (Op V) Op.Resp α

/-- The program of one section. -/
def section_ (o : PageOp V) : HnswProg V o.Resp := .op (.page o) .ret

/-- `LockPage`. -/
def LockPage (lock : PageLock) (mode : LockMode) (caller : Caller) : HnswProg V Unit :=
  .op (.lockPage lock mode caller) .ret

/-- `UnlockPage`. -/
def UnlockPage (lock : PageLock) (mode : LockMode) : HnswProg V Unit :=
  .op (.unlockPage lock mode) .ret

end Pgvec.Hnsw
