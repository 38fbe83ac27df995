/-
  File:      Pgvec/Hnsw/Vacuum.lean
  Subject:   DELETING FROM THE INDEX (`hnswvacuum.c`): `hnswbulkdelete` with its three phases, as a
             program of atomic sections.

  * `RemoveHeapTids` -- one section for each page; what a page answers is noted in the table
    `deleted` and in `highestPoint` (`noteElement`);
  * `NeedsUpdated`, `RepairGraphElement`, `RepairGraphEntryPoint`, `RepairGraph` -- the table is
    consulted for each element with heap TIDs, and its neighbors are searched anew;
  * `MarkDeleted` -- one section for each page.

  The page locks stand where the source has them. `enter` records the phase: at the wait for inserts
  and at the wait for scans it stands between `LockPage` and `UnlockPage`, and the end of
  `RepairGraphEntryPoint` is recorded before its lock is given back.
-/
import Pgvec.Hnsw.Insert

namespace Pgvec.Hnsw

open Conc

/-- `IndexBulkDeleteResult`, as far as `hnswbulkdelete` sets it. -/
structure IndexBulkDeleteResult where
  tuples_removed : Nat
  num_index_tuples : Nat
  deriving DecidableEq, Repr

/-- `HnswVacuumState`, with the two counters of the result. -/
structure VacuumState where
  deleted : List ItemPointer
  highestPoint : Option EntryPoint
  tuples_removed : Nat
  num_index_tuples : Nat
  deriving DecidableEq, Repr

variable {V δ : Type} [LinearOrder δ] [DecidableEq V]

/-- Record the progress of the vacuum. -/
def enter (phase : VacuumPhase) : HnswProg V Unit := .op (.enter phase) .ret

/-! ## 1. `RemoveHeapTids` -/

/-- `highestLevel`: -1 before any point was noted. -/
def VacuumState.highestLevel (vs : VacuumState) : Int :=
  match vs.highestPoint with
  | none => -1
  | some p => p.level

/-- What is noted about one element tuple (its offset, its level, whether a heap TID is left). -/
def noteElement (entryPoint : Option EntryPoint) (blkno : Nat) (vs : VacuumState)
    (x : Nat × Nat × Bool) : VacuumState :=
  match x with
  | (offno, level, live) =>
      if !live then { vs with deleted := ⟨blkno, offno⟩ :: vs.deleted }
      else if vs.highestLevel < level ∧ entryPoint.map EntryPoint.tid ≠ some ⟨blkno, offno⟩ then
        -- keep track of highest non-entry point
        { vs with highestPoint := some ⟨blkno, offno, level⟩ }
      else vs

/-- What is noted about one page. -/
def notePage (entryPoint : Option EntryPoint) (blkno : Nat) (vs : VacuumState)
    (r : RemoveResult) : VacuumState :=
  let vs := r.elements.foldl (noteElement entryPoint blkno) vs
  { vs with
    tuples_removed := vs.tuples_removed + r.tuples_removed
    num_index_tuples := vs.num_index_tuples + r.num_index_tuples }

/-- The page loop of `RemoveHeapTids`. -/
def removeHeapTidsLoop (callback : ItemPointer → Bool) (entryPoint : Option EntryPoint) :
    Nat → Option Nat → VacuumState → HnswProg V VacuumState
  | _, none, vs => pure vs
  | 0, some _, _ => .cut
  | n + 1, some blkno, vs => do
      match ← section_ (.removeHeapTids blkno callback) with
      | none => .error "could not read block"
      | some r => removeHeapTidsLoop callback entryPoint n r.nextblkno (notePage entryPoint blkno vs r)

/-- **`RemoveHeapTids`**; it counts on from the counters it is given. -/
def RemoveHeapTids (stats : IndexBulkDeleteResult) (callback : ItemPointer → Bool) (budget : Nat) :
    HnswProg V VacuumState := do
  let entryPoint ← HnswGetEntryPoint
  removeHeapTidsLoop callback entryPoint budget (some HNSW_HEAD_BLKNO)
    ⟨[], none, stats.tuples_removed, stats.num_index_tuples⟩

/-! ## 2. `RepairGraph` -/

/-- The check of `NeedsUpdated`: a slot names a deleted element, or layer 0 is not full. -/
def needsUpdated (deleted : List ItemPointer) (ntup : HnswNeighborTuple) : Bool :=
  (ntup.indextids.any fun indextid => indextid.isValid && decide (indextid ∈ deleted)) ||
    ntup.indextids.getLast?.all fun indextid => !indextid.isValid

/-- `NeedsUpdated`. -/
def NeedsUpdated (deleted : List ItemPointer) (element : HnswElement V) : HnswProg V Bool := do
  match ← section_ (.readNeighborTuple element.neighbortid) with
  | none => .error "no neighbor tuple"
  | some ntup => return needsUpdated deleted ntup

/-- `HnswLoadElement` without a distance. -/
def HnswLoadElement (tid : ItemPointer) : HnswProg V (HnswElement V) := do
  match ← section_ (.loadElement tid .HnswLoadElement) with
  | none => .error "no element tuple"
  | some etup => return HnswLoadElementFromTuple (HnswInitElementFromBlock tid 0) etup true true

/-- **`RepairGraphElement`**: the entry point it is given is skipped; it comes back with the level the
    search loaded. -/
def RepairGraphElement (rel : HnswRel V δ) (m : Nat) (element : HnswElement V)
    (entryPoint : Option EntryPoint) (budget : Nat) : HnswProg V (Option EntryPoint) :=
  if entryPoint.map EntryPoint.tid = some element.tid then pure entryPoint
  else do
    let (e, entryPoint) ← findNeighborsOnDisk rel { element with heaptids := [] } entryPoint m true
      budget
    let ntup := HnswSetNeighborTuple element.level element.version m e.layerTids
    if ← section_ (.overwriteNeighborTuple element.neighbortid ntup
        (HNSW_NEIGHBOR_TUPLE_SIZE element.level m)) then
      -- update neighbors
      HnswUpdateNeighborsOnDisk rel e m true
      return entryPoint
    else .error failedToAdd

/-- The first part of `RepairGraphEntryPoint`, under the share lock: the highest non-entry point is
    loaded and repaired. -/
def repairHighestPoint (rel : HnswRel V δ) (m : Nat) (deleted : List ItemPointer)
    (highestPoint : Option EntryPoint) (budget : Nat) : HnswProg V (Option EntryPoint) :=
  match highestPoint with
  | none => pure none
  | some highestPoint => do
      LockPage .HNSW_UPDATE_LOCK .ShareLock .RepairGraphEntryPoint
      let element ← HnswLoadElement highestPoint.tid
      -- repair if needed
      if ← NeedsUpdated deleted element then
        let entryPoint ← HnswGetEntryPoint
        discard <| RepairGraphElement rel m element entryPoint budget
      UnlockPage .HNSW_UPDATE_LOCK .ShareLock
      return some element.asEntryPoint

/-- The second part, under the exclusive lock: a dying entry point is replaced by the highest point,
    another one is repaired with it. -/
def repairEntryPoint (rel : HnswRel V δ) (m : Nat) (deleted : List ItemPointer)
    (highestPoint : Option EntryPoint) (budget : Nat) : HnswProg V Unit := do
  -- get latest entry point
  match ← HnswGetEntryPoint with
  | none => return ()
  | some entryPoint =>
      if entryPoint.tid ∈ deleted then section_ (.updateMetaPage .always highestPoint none)
      else
        let element ← HnswLoadElement entryPoint.tid
        if ← NeedsUpdated deleted element then
          discard <| RepairGraphElement rel m element highestPoint budget

/-- **`RepairGraphEntryPoint`.** -/
def RepairGraphEntryPoint (rel : HnswRel V δ) (m : Nat) (deleted : List ItemPointer)
    (highestPoint : Option EntryPoint) (budget : Nat) : HnswProg V Unit := do
  let highestPoint ← repairHighestPoint rel m deleted highestPoint budget
  -- prevent concurrent inserts when possibly updating entry point
  LockPage .HNSW_UPDATE_LOCK .ExclusiveLock .RepairGraphEntryPoint
  repairEntryPoint rel m deleted highestPoint budget
  enter .repairGraph
  UnlockPage .HNSW_UPDATE_LOCK .ExclusiveLock

/-- The end of one round of `RepairGraph`, under the lock: repair the connections, make the element
    the entry point if it is above it, release the lock. -/
def repairConnections (rel : HnswRel V δ) (m : Nat) (element : HnswElement V)
    (entryPoint : Option EntryPoint) (lockmode : LockMode) (budget : Nat) : HnswProg V Unit := do
  let entryPoint ← RepairGraphElement rel m element entryPoint budget
  if levelAbove element.level entryPoint then
    section_ (.updateMetaPage .greater (some element.asEntryPoint) none)
  UnlockPage .HNSW_UPDATE_LOCK lockmode

/-- One element of a page. -/
def repairOne (rel : HnswRel V δ) (m : Nat) (deleted : List ItemPointer) (budget : Nat)
    (element : HnswElement V) : HnswProg V Unit := do
  -- check if any neighbors point to deleted values
  if ← NeedsUpdated deleted element then
    LockPage .HNSW_UPDATE_LOCK .ShareLock .RepairGraph
    -- refresh entry point for each element
    let entryPoint ← HnswGetEntryPoint
    if levelAbove element.level entryPoint then
      UnlockPage .HNSW_UPDATE_LOCK .ShareLock
      LockPage .HNSW_UPDATE_LOCK .ExclusiveLock .RepairGraph
      let entryPoint ← HnswGetEntryPoint
      repairConnections rel m element entryPoint .ExclusiveLock budget
    else repairConnections rel m element entryPoint .ShareLock budget

/-- The page loop of `RepairGraph`. -/
def repairGraphLoop (rel : HnswRel V δ) (m : Nat) (deleted : List ItemPointer) (budget : Nat) :
    Nat → Option Nat → HnswProg V Unit
  | _, none => pure ()
  | 0, some _ => .cut
  | n + 1, some blkno => do
      match ← section_ (.liveElements blkno) with
      | none => .error "could not read block"
      | some r =>
          r.elements.foldlM (fun _ element => repairOne rel m deleted budget element) ()
          repairGraphLoop rel m deleted budget n r.nextblkno

/-- **`RepairGraph`.** -/
def RepairGraph (rel : HnswRel V δ) (m : Nat) (vs : VacuumState) (budget : Nat) :
    HnswProg V Unit := do
  -- wait for inserts to complete
  LockPage .HNSW_UPDATE_LOCK .ExclusiveLock .RepairGraph
  enter (.repairGraphEntryPoint vs.deleted vs.highestPoint)
  UnlockPage .HNSW_UPDATE_LOCK .ExclusiveLock
  RepairGraphEntryPoint rel m vs.deleted vs.highestPoint budget
  repairGraphLoop rel m vs.deleted budget budget (some HNSW_HEAD_BLKNO)

/-! ## 3. `MarkDeleted` -/

/-- The page loop of `MarkDeleted`: the first free page. -/
def markDeletedLoop (zeroDatum : V) : Nat → Option Nat → Option Nat → HnswProg V (Option Nat)
  | _, none, insertPage => pure insertPage
  | 0, some _, _ => .cut
  | n + 1, some blkno, insertPage => do
      match ← section_ (.markDeleted zeroDatum blkno insertPage) with
      | none => .error "could not read block"
      | some r => markDeletedLoop zeroDatum n r.nextblkno r.insertPage

/-- **`MarkDeleted`.** -/
def MarkDeleted (zeroDatum : V) (budget : Nat) : HnswProg V Unit := do
  -- wait for index scans to complete
  LockPage .HNSW_SCAN_LOCK .ExclusiveLock .MarkDeleted
  enter .markDeleted
  UnlockPage .HNSW_SCAN_LOCK .ExclusiveLock
  let insertPage ← markDeletedLoop zeroDatum budget (some HNSW_HEAD_BLKNO) none
  -- update insert page last, after everything has been marked as deleted
  section_ (.updateMetaPage .no none insertPage)

/-! ## 4. `hnswbulkdelete` -/

/-- The counters `InitVacuumState` starts with: zeros when there is no result yet. -/
def initStats (stats : Option IndexBulkDeleteResult) : IndexBulkDeleteResult := stats.getD ⟨0, 0⟩

/-- **`hnswbulkdelete`.** -/
def hnswbulkdelete (rel : HnswRel V δ) (stats : Option IndexBulkDeleteResult)
    (callback : ItemPointer → Bool) (budget : Nat) : HnswProg V IndexBulkDeleteResult := do
  -- get m from the metapage
  let metap ← section_ .getMetaPageInfo
  enter .removeHeapTids
  let vs ← RemoveHeapTids (initStats stats) callback budget
  RepairGraph rel metap.m vs budget
  MarkDeleted rel.support.zeroDatum budget
  enter .finished
  return ⟨vs.tuples_removed, vs.num_index_tuples⟩

end Pgvec.Hnsw
