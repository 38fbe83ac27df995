/-
  File:      Pgvec/Lmgr/Deadlock.lean
  Subject:   THE DEADLOCK CHECKER (`src/backend/storage/lmgr/deadlock.c`).

  Processes and locks are any types; the processes are finitely many. `LockTable` is what the checker reads.
  The arrays of TopoSort that run parallel to `topoProcs` are functions of the process that stands there, and
  its entries that are NULL are left out. The other arrays have room for what is put into them; the tests that
  the code makes of their sizes are kept. What a search writes to `blocking_autovacuum_proc` is collected in the
  search and stored after it. `ProcLockWakeup`, which grants locks after a queue was rearranged, is left out.
-/
import Mathlib.Data.Fintype.Card
import Mathlib.Logic.Function.Basic

namespace Pgvec.Deadlock

/-! ## 1. What the checker reads and writes -/

/-- `PROCLOCK`: a holder, and the modes it holds. -/
structure PROCLOCK (P : Type) where
  myProc : P
  holdMask : Nat

/-- The lock tables, and what the checker reads of the processes. -/
structure LockTable (P L : Type) where
  lockGroupLeader : P → Option P
  lockGroupMembers : P → List P
  /-- `waitLock` of a process whose `links` are in a wait queue. -/
  waitLock : P → Option L
  waitLockMode : P → Nat
  /-- `statusFlags & PROC_IS_AUTOVACUUM`. -/
  isAutovacuum : P → Bool
  /-- `LOCK_LOCKTAG(*lock) == LOCKTAG_RELATION_EXTEND`. -/
  relationExtend : L → Bool
  numLockModes : L → Nat
  conflictTab : L → Nat → Nat
  procLocks : L → List (PROCLOCK P)
  waitProcs : L → List P

/-- `EDGE`. -/
structure EDGE (P L : Type) where
  waiter : P
  blocker : P
  lock : L

/-- `WAIT_ORDER`. -/
structure WAIT_ORDER (P L : Type) where
  lock : L
  procs : List P

/-- `DEADLOCK_INFO`. -/
structure DEADLOCK_INFO (P L : Type) where
  locktag : L
  lockmode : Nat
  pid : P

/-- `DeadLockState`. -/
inductive DeadLockState where
  | DS_NO_DEADLOCK
  | DS_SOFT_DEADLOCK
  | DS_HARD_DEADLOCK
  | DS_BLOCKED_BY_AUTOVACUUM
  deriving DecidableEq

variable {P L : Type} [DecidableEq P] [DecidableEq L] (t : LockTable P L) (MyProc : P)

/-- `proc->lockGroupLeader == NULL ? proc : proc->lockGroupLeader`. -/
def LockTable.leaderOf (proc : P) : P := (t.lockGroupLeader proc).getD proc

/-- A mode that the process holds is in the conflict mask. -/
def LockTable.hardBlocks (lock : L) (conflictMask : Nat) (proclock : PROCLOCK P) : Bool :=
  (List.range' 1 (t.numLockModes lock)).any fun lm => proclock.holdMask.testBit lm && conflictMask.testBit lm

/-! ## 2. Finding a cycle -/

/-- What a search leaves in `deadlockDetails` and `softEdges`. -/
structure Found (P L : Type) where
  deadlockDetails : List (DEADLOCK_INFO P L)
  softEdges : List (EDGE P L)

/-- `visitedProcs`, and what the search wrote to `blocking_autovacuum_proc`. -/
structure Visit (P : Type) where
  visitedProcs : List P
  blocking_autovacuum_proc : Option P

/-- A search from a process. -/
abbrev Search (P L : Type) := P → Visit P → Option (Found P L) × Visit P

/-- Fill `deadlockDetails[depth]`. -/
def Found.addInfo (found : Found P L) (lock : L) (checkProc : P) : Found P L :=
  { found with deadlockDetails := ⟨lock, t.waitLockMode checkProc, checkProc⟩ :: found.deadlockDetails }

/-- Scan for procs that already hold conflicting locks. -/
def hardScan (recurse : Search P L) (checkProc checkProcLeader : P) (lock : L) :
    List (PROCLOCK P) → Visit P → Option (Found P L) × Visit P
  | [], v => (none, v)
  | proclock :: proclocks, v =>
      if t.leaderOf proclock.myProc ≠ checkProcLeader ∧
          t.hardBlocks lock (t.conflictTab lock (t.waitLockMode checkProc)) proclock then
        match recurse proclock.myProc v with
        | (some found, v) => (some (found.addInfo t lock checkProc), v)
        | (none, v) =>
            hardScan recurse checkProc checkProcLeader lock proclocks
              (if checkProc = MyProc ∧ t.isAutovacuum proclock.myProc then
                { v with blocking_autovacuum_proc := some proclock.myProc }
              else v)
      else hardScan recurse checkProc checkProcLeader lock proclocks v

/-- Scan for procs that are ahead of this one in the lock's wait queue. -/
def softScan (recurse : Search P L) (checkProc checkProcLeader : P) (lock : L) :
    List P → Visit P → Option (Found P L) × Visit P
  | [], v => (none, v)
  | proc :: procs, v =>
      if (t.conflictTab lock (t.waitLockMode checkProc)).testBit (t.waitLockMode proc) ∧
          t.leaderOf proc ≠ checkProcLeader then
        match recurse proc v with
        | (some found, v) =>
            (some { found.addInfo t lock checkProc with
              softEdges := found.softEdges ++ [⟨checkProcLeader, t.leaderOf proc, lock⟩] }, v)
        | (none, v) => softScan recurse checkProc checkProcLeader lock procs v
      else softScan recurse checkProc checkProcLeader lock procs v

/-- The procs ahead, in the hypothetical order of the queue if there is one, else in the true order. -/
def procsAhead (waitOrders : List (WAIT_ORDER P L)) (checkProc checkProcLeader : P) (lock : L) : List P :=
  match waitOrders.find? fun order => order.lock = lock with
  | some order => order.procs.takeWhile fun proc => t.leaderOf proc ≠ checkProcLeader
  | none =>
      let lastGroupMember :=
        match t.lockGroupLeader checkProc with
        | none => some checkProc
        | some _ => ((t.waitProcs lock).filter fun proc => t.lockGroupLeader proc = some checkProcLeader).getLast?
      (t.waitProcs lock).takeWhile fun proc => some proc ≠ lastGroupMember

/-- `FindLockCycleRecurseMember`. -/
def FindLockCycleRecurseMember (waitOrders : List (WAIT_ORDER P L)) (recurse : Search P L)
    (checkProc checkProcLeader : P) (v : Visit P) : Option (Found P L) × Visit P :=
  match t.waitLock checkProc with
  | none => (none, v)
  | some lock =>
      if t.relationExtend lock then (none, v)
      else
        match hardScan t MyProc recurse checkProc checkProcLeader lock (t.procLocks lock) v with
        | (some found, v) => (some found, v)
        | (none, v) =>
            softScan t recurse checkProc checkProcLeader lock
              (procsAhead t waitOrders checkProc checkProcLeader lock) v

/-- The other members of the lock group. -/
def memberScan (waitOrders : List (WAIT_ORDER P L)) (recurse : Search P L) (checkProc : P) :
    List P → Visit P → Option (Found P L) × Visit P
  | [], v => (none, v)
  | memberProc :: members, v =>
      if memberProc ≠ checkProc then
        match FindLockCycleRecurseMember t MyProc waitOrders recurse memberProc checkProc v with
        | (some found, v) => (some found, v)
        | (none, v) => memberScan waitOrders recurse checkProc members v
      else memberScan waitOrders recurse checkProc members v

/-- **`FindLockCycleRecurse`**, with room for a number of processes in `visitedProcs`. -/
def FindLockCycleRecurse (waitOrders : List (WAIT_ORDER P L)) (room : Nat) : Search P L := fun checkProc v =>
  if t.leaderOf checkProc ∈ v.visitedProcs then
    -- if we return to starting point, we have a deadlock cycle
    (if v.visitedProcs.head? = some (t.leaderOf checkProc) then some ⟨[], []⟩ else none, v)
  else
    match room with
    | 0 => (none, v)
    | room + 1 =>
        let v := { v with visitedProcs := v.visitedProcs ++ [t.leaderOf checkProc] }
        let recurse := FindLockCycleRecurse waitOrders room
        match FindLockCycleRecurseMember t MyProc waitOrders recurse (t.leaderOf checkProc) (t.leaderOf checkProc) v with
        | (some found, v) => (some found, v)
        | (none, v) =>
            memberScan t MyProc waitOrders recurse (t.leaderOf checkProc) (t.lockGroupMembers (t.leaderOf checkProc)) v

/-! ## 3. Expanding constraints into queue orders -/

/-- The process is the leader `proc` or a member of its lock group. -/
def LockTable.inGroup (proc waiter : P) : Bool := waiter = proc || t.lockGroupLeader waiter = some proc

/-- `beforeConstraints` and `afterConstraints`; of a constraint in a list of the latter, its `pred`. -/
structure Topo (P : Type) where
  beforeConstraints : P → Int
  afterConstraints : P → List P

/-- The representative of a lock group in the queue, which is the last one; the others are marked. -/
def representative (topoProcs : List P) (proc : P) (s : Topo P) : Option P × Topo P :=
  match (topoProcs.filter (t.inGroup proc)).reverse with
  | [] => (none, s)
  | jj :: others =>
      (some jj, { s with beforeConstraints := fun x => if x ∈ others then -1 else s.beforeConstraints x })

/-- One constraint. -/
def addConstraint (topoProcs : List P) (s : Topo P) (constraint : EDGE P L) : Topo P :=
  match representative t topoProcs constraint.waiter s with
  | (none, s) => s
  | (some jj, s) =>
      match representative t topoProcs constraint.blocker s with
      | (none, s) => s
      | (some kk, s) =>
          { beforeConstraints := Function.update s.beforeConstraints jj (s.beforeConstraints jj + 1)
            afterConstraints := Function.update s.afterConstraints kk (jj :: s.afterConstraints kk) }

/-- The procs of the group of `j` that are left, and those of other groups. -/
def LockTable.groupOf (j : P) (topoProcs : List P) : List P := topoProcs.filter (t.inGroup (t.leaderOf j))

def LockTable.othersThan (j : P) (topoProcs : List P) : List P :=
  topoProcs.filter fun x => !t.inGroup (t.leaderOf j) x

omit [DecidableEq L] in
/-- A process is in its own group, so a step outputs at least one. -/
theorem length_othersThan {topoProcs : List P} {before : P → Int} {j : P}
    (h : topoProcs.reverse.find? (fun x => before x = 0) = some j) :
    (t.othersThan j topoProcs).length < topoProcs.length := by
  have hj : j ∈ topoProcs := List.mem_reverse.mp (List.mem_of_find?_eq_some h)
  refine List.length_filter_lt_length_iff_exists.mpr ⟨j, hj, ?_⟩
  unfold LockTable.inGroup LockTable.leaderOf
  cases t.lockGroupLeader j <;> simp

/-- Output the procs backwards: at each step, the last proc that has no remaining before-constraints plus any other
    members of the same lock group. -/
def topoLoop (after : P → List P) (topoProcs : List P) (before : P → Int) (ordering : List P) : Option (List P) :=
  if topoProcs = [] then some ordering
  else
    match _h : topoProcs.reverse.find? fun x => before x = 0 with
    | none => none
    | some j =>
        topoLoop after (t.othersThan j topoProcs)
          ((after j).foldl (fun before pred => Function.update before pred (before pred - 1)) before)
          ((t.groupOf j topoProcs).reverse ++ ordering)
termination_by topoProcs.length
decreasing_by exact length_othersThan t ‹_›

/-- **`TopoSort`**. -/
def TopoSort (lock : L) (constraints : List (EDGE P L)) : Option (List P) :=
  let s := constraints.foldl (addConstraint t (t.waitProcs lock)) ⟨fun _ => 0, fun _ => []⟩
  topoLoop t s.afterConstraints (t.waitProcs lock) s.beforeConstraints []

/-- The scan of `ExpandConstraints`, with a number of constraints still to look at. -/
def expandLoop (constraints : List (EDGE P L)) : Nat → List (WAIT_ORDER P L) → Bool × List (WAIT_ORDER P L)
  | 0, waitOrders => (true, waitOrders)
  | i + 1, waitOrders =>
      match constraints[i]? with
      | none => expandLoop constraints i waitOrders
      | some constraint =>
          -- did we already make a list for this lock?
          if waitOrders.any fun order => order.lock = constraint.lock then expandLoop constraints i waitOrders
          else
            match TopoSort t constraint.lock (constraints.take (i + 1)) with
            | none => (false, waitOrders)
            | some procs => expandLoop constraints i (waitOrders ++ [⟨constraint.lock, procs⟩])

/-- **`ExpandConstraints`**. -/
def ExpandConstraints (constraints : List (EDGE P L)) : Bool × List (WAIT_ORDER P L) :=
  expandLoop t constraints constraints.length []

/-! ## 4. The search for valid orderings -/

/-- The global variables of the checker. -/
structure Workspace (P L : Type) where
  waitOrders : List (WAIT_ORDER P L)
  curConstraints : List (EDGE P L)
  possibleConstraints : Nat → Option (EDGE P L)
  nPossibleConstraints : Nat
  deadlockDetails : List (DEADLOCK_INFO P L)
  blocking_autovacuum_proc : Option P
  /-- Not in the source: whether `nCurConstraints >= maxCurConstraints` was ever found to hold. -/
  outOfRoom : Bool

/-- The edges written to an array, from an index on. -/
def writeEdges (array : Nat → Option (EDGE P L)) (start : Nat) (edges : List (EDGE P L)) : Nat → Option (EDGE P L) :=
  fun i => if start ≤ i ∧ i < start + edges.length then edges[i - start]? else array i

variable [Fintype P]

/-- **`FindLockCycle`**, with the index in `possibleConstraints` that `softEdges` points to: is there a cycle, and
    `nSoftEdges`. -/
def FindLockCycle (checkProc : P) (softEdges : Nat) (ws : Workspace P L) : Bool × Nat × Workspace P L :=
  match FindLockCycleRecurse t MyProc ws.waitOrders (Fintype.card P) checkProc ⟨[], none⟩ with
  | (none, v) =>
      (false, 0, { ws with
        deadlockDetails := []
        blocking_autovacuum_proc := v.blocking_autovacuum_proc.or ws.blocking_autovacuum_proc })
  | (some found, v) =>
      (true, found.softEdges.length, { ws with
        possibleConstraints := writeEdges ws.possibleConstraints softEdges found.softEdges
        deadlockDetails := found.deadlockDetails
        blocking_autovacuum_proc := v.blocking_autovacuum_proc.or ws.blocking_autovacuum_proc })

/-- Check for cycles involving any of the procs; `none` if there is a hard deadlock. -/
def testProcs (softEdges : Nat) : List P → Nat → Workspace P L → Option Nat × Workspace P L
  | [], softFound, ws => (some softFound, ws)
  | proc :: procs, softFound, ws =>
      match FindLockCycle t MyProc proc softEdges ws with
      | (true, nSoftEdges, ws) =>
          if nSoftEdges = 0 then (none, ws) else testProcs softEdges procs nSoftEdges ws
      | (false, _, ws) => testProcs softEdges procs softFound ws

/-- **`TestConfiguration`**. -/
def TestConfiguration (MaxBackends : Nat) (startProc : P) (ws : Workspace P L) : Int × Workspace P L :=
  if MaxBackends * 4 < ws.nPossibleConstraints + MaxBackends then (-1, ws)
  else
    match ExpandConstraints t ws.curConstraints with
    | (false, waitOrders) => (-1, { ws with waitOrders := waitOrders })
    | (true, waitOrders) =>
        match testProcs t MyProc ws.nPossibleConstraints
            ((ws.curConstraints.flatMap fun constraint => [constraint.waiter, constraint.blocker]) ++ [startProc]) 0
            { ws with waitOrders := waitOrders } with
        | (none, ws) => (-1, ws)
        | (some softFound, ws) => (softFound, ws)

/-- Try each available soft edge as an addition to the configuration. -/
def tryEdges (MaxBackends : Nat) (proc : P) (recurse : Workspace P L → Except String (Bool × Workspace P L))
    (nEdges : Int) (oldPossibleConstraints : Nat) (savedList : Bool) :
    List Nat → Workspace P L → Except String (Bool × Workspace P L)
  | [], ws => .ok (true, { ws with nPossibleConstraints := oldPossibleConstraints })
  | i :: is, ws => do
      let ws ←
        if !savedList && 0 < i then
          match TestConfiguration t MyProc MaxBackends proc ws with
          | (nEdges', ws) =>
              if nEdges ≠ nEdges' then .error "inconsistent results during deadlock check" else .ok ws
        else .ok ws
      match ws.possibleConstraints (oldPossibleConstraints + i) with
      | none => .error "uninitialized constraint"
      | some edge =>
          let (noSolution, ws) ← recurse { ws with curConstraints := ws.curConstraints ++ [edge] }
          if !noSolution then return (false, ws)
          else
            tryEdges MaxBackends proc recurse nEdges oldPossibleConstraints savedList is
              { ws with curConstraints := ws.curConstraints.dropLast }

/-- **`DeadLockCheckRecurse`**, with room for a number of further constraints in `curConstraints`. -/
def DeadLockCheckRecurse (MaxBackends : Nat) (proc : P) (room : Nat) (ws : Workspace P L) :
    Except String (Bool × Workspace P L) :=
  match TestConfiguration t MyProc MaxBackends proc ws with
  | (nEdges, ws) =>
      if nEdges < 0 then .ok (true, ws)
      else if nEdges = 0 then .ok (false, ws)
      else
        match room with
        | 0 => .ok (true, { ws with outOfRoom := true })
        | room + 1 =>
            let oldPossibleConstraints := ws.nPossibleConstraints
            let savedList : Bool := ws.nPossibleConstraints + nEdges + MaxBackends ≤ MaxBackends * 4
            tryEdges t MyProc MaxBackends proc (DeadLockCheckRecurse MaxBackends proc room) nEdges
              oldPossibleConstraints savedList (List.range nEdges.toNat)
              (if savedList then { ws with nPossibleConstraints := ws.nPossibleConstraints + nEdges.toNat } else ws)

/-- What `DeadLockCheck` returns, the queues it installs, and its global variables. -/
structure Checked (P L : Type) where
  state : DeadLockState
  waitProcs : L → List P
  ws : Workspace P L

/-- **`DeadLockCheck`**. -/
def DeadLockCheck (MaxBackends : Nat) (proc : P) : Except String (Checked P L) := do
  let (noSolution, ws) ← DeadLockCheckRecurse t MyProc MaxBackends proc MaxBackends
    ⟨[], [], fun _ => none, 0, [], none, false⟩
  if noSolution then
    match FindLockCycle t MyProc proc 0 { ws with waitOrders := [] } with
    | (false, _, _) => throw "deadlock seems to have disappeared"
    | (true, _, ws) => return ⟨.DS_HARD_DEADLOCK, t.waitProcs, ws⟩
  else
    let waitProcs := ws.waitOrders.foldl (fun queues order => Function.update queues order.lock order.procs) t.waitProcs
    return ⟨if ws.waitOrders ≠ [] then .DS_SOFT_DEADLOCK
      else if ws.blocking_autovacuum_proc.isSome then .DS_BLOCKED_BY_AUTOVACUUM else .DS_NO_DEADLOCK, waitProcs, ws⟩

end Pgvec.Deadlock
