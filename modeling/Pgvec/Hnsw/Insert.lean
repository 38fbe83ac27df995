/-
  File:      Pgvec/Hnsw/Insert.lean
  Subject:   INSERTING INTO THE INDEX ON DISK (`hnswinsert.c`), as programs of atomic sections.

  The functions keep their source names; each call that takes a buffer lock is one `section_`. What
  the code draws from outside is an argument: the random level (`rnd`, capped by the maximum
  level), and the addresses of the element copies a connection update loads (`rel.palloc`, which
  break ties between equal distances). Loops without a bound of their own take a `budget`.
-/
import Pgvec.Hnsw.Neighbors

namespace Pgvec.Hnsw

open Conc

/-- The index relation: support functions, the `ef_construction` option, the optional norm check
    and normalization of the type, and the addresses memory allocation gives. -/
structure HnswRel (V δ : Type) where
  support : HnswSupport V δ
  efConstruction : Nat
  normprocinfo : Option (V → Bool)
  normalize : V → V
  palloc : ItemPointer → ItemPointer → Nat → Nat → Nat

variable {V δ : Type} [LinearOrder δ] [DecidableEq V]

/-- `HnswFormIndexValue`: `none` when the value has norm zero and the type is normalized. -/
def HnswFormIndexValue (rel : HnswRel V δ) (value : V) : Option V :=
  match rel.normprocinfo with
  | none => some value
  | some checkNorm => if checkNorm value then some (rel.normalize value) else none

/-- The distance between two loaded values, narrowed to `float`. -/
def valueDistance (support : HnswSupport V δ) (a b : Option V) : δ :=
  match a, b with
  | some a, some b => support.toFloat (support.distance a b)
  | _, _ => support.toFloat support.zeroDistance

/-- `RemoveElements`: leave out the skipped element and elements being deleted. -/
def RemoveElements (skipElement : Option ItemPointer)
    (w : List (HnswCandidate (HnswElement V) δ)) : List (HnswCandidate (HnswElement V) δ) :=
  w.filter fun hc => !decide (skipElement = some hc.element.tid) && !hc.element.heaptids.isEmpty

/-- The on-disk branches of `HnswFindElementNeighbors` for an element with value `q`. -/
def diskFindEnv (rel : HnswRel V δ) (q : Option V) (skipElement : Option ItemPointer) (m : Nat) :
    FindEnv (Conc.Prog (Op V) Op.Resp) (HnswElement V) ItemPointer ItemPointer δ where
  layer := diskEnv rel.support q true skipElement.isSome m
  removeElements := RemoveElements skipElement
  ptr := HnswElement.ptr
  pairDistance a b := valueDistance rel.support a.value b.value
  toFloat := rel.support.toFloat
  m := m

/-- An element a backend is about to add or to repair: its copy and its neighbor arrays. -/
structure LocalElement (V δ : Type) where
  element : HnswElement V
  neighbors : List (HnswNeighborArray (HnswElement V) δ)

/-- `HnswGetNeighbors`. -/
def LocalElement.layer (e : LocalElement V δ) (lc : Nat) :
    List (HnswCandidate (HnswElement V) δ) :=
  match e.neighbors[lc]? with
  | none => []
  | some a => a.items

/-- The TIDs `HnswSetNeighborTuple` writes for a layer. -/
def LocalElement.layerTids (e : LocalElement V δ) (lc : Nat) : List ItemPointer :=
  (e.layer lc).map fun hc => hc.element.tid

/-- `HnswGetEntryPoint`. -/
def HnswGetEntryPoint : HnswProg V (Option EntryPoint) := do
  let metap ← section_ .getMetaPageInfo
  return metap.entry

/-- `HnswInitElement` with the level drawn as `rnd`. -/
def HnswInitElement (heaptid : ItemPointer) (m rnd : Nat) (value : V) : HnswElement V where
  blkno := InvalidBlockNumber
  offno := 0
  level := min rnd (HnswGetMaxLevel m)
  deleted := false
  version := 1
  heaptids := [heaptid]
  neighborPage := InvalidBlockNumber
  neighborOffno := 0
  value := some value
  ptr := 0

/-- An element a backend has loaded, as an entry point. -/
def HnswElement.asEntryPoint (e : HnswElement V) : EntryPoint := ⟨e.blkno, e.offno, e.level⟩

/-- `HnswFindElementNeighbors` on disk. The search loads the entry point into the caller's copy of
    it, so the copy comes back with the level of the tuple. -/
def findNeighborsOnDisk (rel : HnswRel V δ) (element : HnswElement V)
    (entryPoint : Option EntryPoint) (m : Nat) (existing : Bool) (budget : Nat) :
    HnswProg V (LocalElement V δ × Option EntryPoint) := do
  let skipElement := if existing then some element.tid else none
  let (entry, neighbors) ← HnswFindElementNeighbors (diskFindEnv rel element.value skipElement m)
    element.level (entryPoint.map fun ep => HnswEntryCandidate rel.support element.value true ep.tid)
    rel.efConstruction existing budget
  return (⟨element, neighbors⟩, entry.map HnswElement.asEntryPoint)

/-- `entryPoint == NULL || level > entryPoint->level`. -/
def levelAbove (level : Nat) (entryPoint : Option EntryPoint) : Bool :=
  entryPoint.all fun ep => decide (ep.level < level)

/-! ## 1. Updating the neighbors of a new element -/

/-- `LoadElementsForInsert`: load the neighbors with their distances from `q`, in order; the index of
    the first one being deleted ends the loop. -/
def LoadElementsForInsert (rel : HnswRel V δ) (q : Option V) (addr : Nat → Nat) :
    List ItemPointer → Nat → List (HnswCandidate (HnswElement V) δ) →
    HnswProg V (Int × List (HnswCandidate (HnswElement V) δ))
  | [], _, loaded => pure (-1, loaded)
  | tid :: tids, i, loaded => do
      match ← HnswLoadElementImpl rel.support q true .LoadElementsForInsert tid none with
      | (none, _) => .error "no element tuple"
      | (some e, distance) =>
          let hc : HnswCandidate (HnswElement V) δ :=
            ⟨{ e with ptr := addr (i + 1) }, rel.support.toFloat distance, false⟩
          -- prune element if being deleted
          if e.heaptids.isEmpty then pure (i, loaded ++ [hc])
          else LoadElementsForInsert rel q addr tids (i + 1) (loaded ++ [hc])

/-- `GetUpdateIndex`: -2 for a free slot, -1 when the new element is not selected. -/
def GetUpdateIndex (rel : HnswRel V δ) (element newElement : HnswElement V) (distance : δ)
    (m lm lc : Nat) : HnswProg V Int := do
  let addr := rel.palloc element.tid newElement.tid lc
  let neighbors ← HnswLoadNeighborTids element m lm lc
  let tids := match neighbors with
    | none => []
    | some tids => validPrefix tids
  if tids.length < lm then return -2
  else
    let (idx, loaded) ← LoadElementsForInsert rel element.value addr tids 0 []
    if idx ≠ -1 then return idx
    else
      return (HnswUpdateConnection HnswElement.ptr
        (fun a b => valueDistance rel.support a.value b.value) ⟨loaded, false⟩
        { newElement with ptr := addr 0 } distance lm).2

/-- One neighbor of `HnswUpdateNeighborsOnDisk`. -/
def updateOneNeighbor (rel : HnswRel V δ) (e : HnswElement V) (m lc : Nat) (checkExisting : Bool)
    (hc : HnswCandidate (HnswElement V) δ) : HnswProg V Unit := do
  let lm := HnswGetLayerM m lc
  let idx ← GetUpdateIndex rel hc.element e hc.distance m lm lc
  -- new element was not selected as a neighbor
  if idx = -1 then return ()
  else section_ (.updateNeighbor ⟨hc.element.neighbortid, hc.element.level, e.tid, idx, m, lm, lc,
    checkExisting⟩)

/-- `HnswUpdateNeighborsOnDisk`, from the top layer down. -/
def HnswUpdateNeighborsOnDisk (rel : HnswRel V δ) (e : LocalElement V δ) (m : Nat)
    (checkExisting : Bool) : HnswProg V Unit :=
  (List.range (e.element.level + 1)).reverse.foldlM (fun _ lc =>
    (e.layer lc).foldlM (fun _ hc => updateOneNeighbor rel e.element m lc checkExisting hc) ()) ()

/-! ## 2. Adding the element -/

/-- What `AddElementOnDisk` prepares from an element. -/
def LocalElement.newElement (rel : HnswRel V δ) (e : LocalElement V δ) (m : Nat) (value : V) :
    NewElement V where
  level := e.element.level
  version := e.element.version
  heaptids := e.element.heaptids
  value := value
  varsize := rel.support.varsize value
  m := m
  neighbors := e.layerTids

/-- The page loop of `AddElementOnDisk`: where the tuples went, and the page to insert to next. -/
def addElementLoop (e : NewElement V) :
    Nat → Nat → Option Nat → HnswProg V (ItemPointer × ItemPointer × Option Nat)
  | 0, _, _ => .cut
  | n + 1, currentPage, newInsertPage => do
      match ← section_ (.addElement e currentPage newInsertPage) with
      | .next blkno newInsertPage => addElementLoop e n blkno newInsertPage
      | .placed tid ntid newInsertPage => return (tid, ntid, newInsertPage)
      | .failed msg => .error msg

/-- `AddElementOnDisk`: the element with its location, and the insert page if it changed. -/
def AddElementOnDisk (rel : HnswRel V δ) (e : LocalElement V δ) (m : Nat) (value : V)
    (insertPage : Option Nat) (budget : Nat) : HnswProg V (LocalElement V δ × Option Nat) :=
  match insertPage with
  | none => .error "no insert page"
  | some insertPage => do
      let (tid, ntid, newInsertPage) ← addElementLoop (e.newElement rel m value) budget insertPage none
      let element := { e.element with
        blkno := tid.blkno, offno := tid.offno
        neighborPage := ntid.blkno, neighborOffno := ntid.offno }
      return (⟨element, e.neighbors⟩,
        if newInsertPage.isSome ∧ newInsertPage ≠ some insertPage then newInsertPage else none)

/-- `FindDuplicateOnDisk` over the layer-0 neighbors, which stand in the order of the array. -/
def FindDuplicateOnDisk (value : V) (heaptid : ItemPointer) :
    List (HnswCandidate (HnswElement V) δ) → HnswProg V Bool
  | [] => pure false
  | neighbor :: rest => do
      -- exit early since ordered by distance
      if neighbor.element.value ≠ some value then return false
      else
        if ← section_ (.addDuplicate neighbor.element.tid heaptid) then return true
        else FindDuplicateOnDisk value heaptid rest

/-- `UpdateGraphOnDisk`. -/
def UpdateGraphOnDisk (rel : HnswRel V δ) (e : LocalElement V δ) (value : V) (heaptid : ItemPointer)
    (m : Nat) (entryPoint : Option EntryPoint) (budget : Nat) : HnswProg V Unit := do
  -- look for duplicate
  if ← FindDuplicateOnDisk value heaptid (e.layer 0) then return ()
  else
    let metap ← section_ .getMetaPageInfo
    let (e, newInsertPage) ← AddElementOnDisk rel e m value metap.insertPage budget
    -- update insert page if needed
    if newInsertPage.isSome then section_ (.updateMetaPage .no none newInsertPage)
    HnswUpdateNeighborsOnDisk rel e m false
    -- update entry point if needed
    if levelAbove e.element.level entryPoint then
      section_ (.updateMetaPage .greater (some e.element.asEntryPoint) none)

/-- **`HnswInsertTupleOnDisk`.** -/
def HnswInsertTupleOnDisk (rel : HnswRel V δ) (value : V) (heaptid : ItemPointer) (rnd budget : Nat) :
    HnswProg V Unit := do
  LockPage .HNSW_UPDATE_LOCK .ShareLock .HnswInsertTupleOnDisk
  -- get m and entry point
  let metap ← section_ .getMetaPageInfo
  let element := HnswInitElement heaptid metap.m rnd value
  -- prevent concurrent inserts when likely updating entry point
  if levelAbove element.level metap.entry then
    UnlockPage .HNSW_UPDATE_LOCK .ShareLock
    LockPage .HNSW_UPDATE_LOCK .ExclusiveLock .HnswInsertTupleOnDisk
    -- get latest entry point after lock is acquired
    let entryPoint ← HnswGetEntryPoint
    let (e, entryPoint) ← findNeighborsOnDisk rel element entryPoint metap.m false budget
    UpdateGraphOnDisk rel e value heaptid metap.m entryPoint budget
    UnlockPage .HNSW_UPDATE_LOCK .ExclusiveLock
  else
    let (e, entryPoint) ← findNeighborsOnDisk rel element metap.entry metap.m false budget
    UpdateGraphOnDisk rel e value heaptid metap.m entryPoint budget
    UnlockPage .HNSW_UPDATE_LOCK .ShareLock

/-- `hnswinsert`: NULL values are skipped, and values `HnswFormIndexValue` does not accept. -/
def hnswinsert (rel : HnswRel V δ) (value : Option V) (heaptid : ItemPointer) (rnd budget : Nat) :
    HnswProg V Unit :=
  match value.bind (HnswFormIndexValue rel) with
  | none => pure ()
  | some value => HnswInsertTupleOnDisk rel value heaptid rnd budget

end Pgvec.Hnsw
