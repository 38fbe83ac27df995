/-
  File:      Pgvec/Lmgr/DeadlockSearch.lean
  Subject:   THE CYCLE SEARCH of the deadlock checker: it finds a waits-for cycle through its start if there is one.

  * `LockTable.Ok` -- a lock-table state without lock groups in which a process is in the queue it waits in;
  * `HardEdge`, `SoftOn`, `WaitsFor` -- the edges under given orders of the wait queues;
  * `Path` -- what a search that succeeds has found, with the soft edges on the way;
  * `Explored` -- what a search that fails leaves: no process it visited leads to one it did not;
  * **`findLockCycle_spec`**.
-/
import Pgvec.Lmgr.Deadlock
import Pgvec.Lib.Cycle
import Mathlib

namespace Pgvec.Deadlock

open Relation (TransGen)

variable {P L : Type} [DecidableEq P] [DecidableEq L] {t : LockTable P L}

/-! ## 1. The waits-for graph -/

/-- **No lock groups, and the wait queues agree with what the processes wait for.** -/
structure LockTable.Ok (t : LockTable P L) : Prop where
  leader : ∀ proc, t.lockGroupLeader proc = none
  members : ∀ proc, t.lockGroupMembers proc = []
  mem_queue : ∀ {lock proc}, proc ∈ t.waitProcs lock ↔ t.waitLock proc = some lock
  nodup : ∀ lock, (t.waitProcs lock).Nodup

/-- The process waits for a lock of which another one holds a conflicting mode. -/
def HardEdge (t : LockTable P L) (p q : P) : Prop :=
  ∃ lock, t.waitLock p = some lock ∧ t.relationExtend lock = false ∧ ∃ proclock ∈ t.procLocks lock,
    proclock.myProc = q ∧ q ≠ p ∧ t.hardBlocks lock (t.conflictTab lock (t.waitLockMode p)) proclock = true

/-- The process waits for the lock, and another one whose request conflicts is ahead of it in the queue. -/
def SoftOn (t : LockTable P L) (orders : L → List P) (lock : L) (p q : P) : Prop :=
  t.waitLock p = some lock ∧ t.relationExtend lock = false ∧ (orders lock).idxOf q < (orders lock).idxOf p ∧
    (t.conflictTab lock (t.waitLockMode p)).testBit (t.waitLockMode q) = true

/-- **The waits-for edges under given orders of the wait queues.** -/
def WaitsFor (t : LockTable P L) (orders : L → List P) (p q : P) : Prop :=
  HardEdge t p q ∨ ∃ lock, SoftOn t orders lock p q

/-- The orders that the search believes in. -/
def ordersOf (t : LockTable P L) (waitOrders : List (WAIT_ORDER P L)) (lock : L) : List P :=
  match waitOrders.find? fun order => order.lock = lock with
  | some order => order.procs
  | none => t.waitProcs lock

omit [DecidableEq P] [DecidableEq L] in
theorem LockTable.Ok.leaderOf (h : t.Ok) (proc : P) : t.leaderOf proc = proc := by
  rw [LockTable.leaderOf, h.leader]
  rfl

theorem mem_takeWhile_ne {l : List P} {p q : P} : q ∈ l.takeWhile (fun x => x ≠ p) ↔ l.idxOf q < l.idxOf p := by
  induction l with
  | nil => simp
  | cons x l ih =>
      by_cases hx : x = p
      · subst hx
        simp
      · have hdec : decide (x ≠ p) = true := decide_eq_true hx
        rw [List.takeWhile_cons, if_pos hdec, List.mem_cons, ih, List.idxOf_cons_ne _ hx]
        by_cases hq : x = q
        · subst hq
          simp
        · rw [List.idxOf_cons_ne _ hq, Nat.succ_lt_succ_iff]
          exact or_iff_right (Ne.symm hq)

/-- The procs ahead, without lock groups. -/
theorem mem_procsAhead (h : t.Ok) {waitOrders : List (WAIT_ORDER P L)} {p q : P} {lock : L} :
    q ∈ procsAhead t waitOrders p p lock ↔
      (ordersOf t waitOrders lock).idxOf q < (ordersOf t waitOrders lock).idxOf p := by
  unfold procsAhead ordersOf
  cases waitOrders.find? (fun order => decide (order.lock = lock)) with
  | none =>
      simp only [h.leader, ne_eq, Option.some.injEq]
      exact mem_takeWhile_ne
  | some order =>
      simp only [h.leaderOf]
      exact mem_takeWhile_ne

/-! ## 2. What a search finds, and what it leaves -/

/-- **A path that ends at the start of the search**, with the soft edges on it. -/
inductive Path (t : LockTable P L) (orders : L → List P) (start : P) : P → Found P L → Prop
  | here : Path t orders start start ⟨[], []⟩
  | hard {p q : P} {lock : L} {found : Found P L} (h : HardEdge t p q) (rest : Path t orders start q found) :
      Path t orders start p (found.addInfo t lock p)
  | soft {p q : P} {lock : L} {found : Found P L} (h : SoftOn t orders lock p q) (rest : Path t orders start q found) :
      Path t orders start p { found.addInfo t lock p with softEdges := found.softEdges ++ [⟨p, q, lock⟩] }

variable {orders orders' : L → List P} {start p : P} {found : Found P L}

omit [DecidableEq L] in
/-- The edges on the list are soft edges. -/
theorem Path.softEdges (h : Path t orders start p found) :
    ∀ e ∈ found.softEdges, SoftOn t orders e.lock e.waiter e.blocker := by
  induction h with
  | here => exact fun e he => absurd he List.not_mem_nil
  | hard _ _ ih => exact ih
  | soft hs _ ih =>
      intro e he
      rcases List.mem_append.mp he with he | he
      · exact ih e he
      · rw [List.mem_singleton.mp he]
        exact hs

omit [DecidableEq L] in
/-- **The path stays one under other orders** that keep the soft edges on the list. -/
theorem Path.transGen (h : Path t orders start p found)
    (hkeep : ∀ e ∈ found.softEdges, SoftOn t orders' e.lock e.waiter e.blocker) :
    found.deadlockDetails ≠ [] → TransGen (WaitsFor t orders') p start := by
  induction h with
  | here => exact fun hne => absurd rfl hne
  | hard he rest ih =>
      intro _
      cases rest with
      | here => exact .single (Or.inl he)
      | hard => exact .head (Or.inl he) (ih hkeep (List.cons_ne_nil _ _))
      | soft => exact .head (Or.inl he) (ih hkeep (List.cons_ne_nil _ _))
  | @soft p q lock found hs rest ih =>
      intro _
      have hlast : SoftOn t orders' lock p q :=
        hkeep ⟨p, q, lock⟩ (List.mem_append_right _ (List.mem_singleton.mpr rfl))
      have hrest : ∀ e ∈ found.softEdges, SoftOn t orders' e.lock e.waiter e.blocker :=
        fun e he => hkeep e (List.mem_append_left _ he)
      by_cases hne : found.deadlockDetails = []
      · cases rest with
        | here => exact .single (Or.inr ⟨lock, hlast⟩)
        | hard => cases hne
        | soft => cases hne
      · exact .head (Or.inr ⟨lock, hlast⟩) (ih hrest hne)

/-- **What a search that found nothing leaves**: the edges of what it visited stay inside, and avoid the start. -/
structure Explored (E : P → P → Prop) (start : P) (V V' : List P) : Prop where
  pre : V <+: V'
  nodup : V'.Nodup
  closed : ∀ q ∈ V', q ∉ V → ∀ r, E q r → r ∈ V' ∧ r ≠ start

variable {E : P → P → Prop} {V V' V'' : List P}

omit [DecidableEq P] in
theorem Explored.refl (h : V.Nodup) : Explored E start V V :=
  ⟨List.prefix_rfl, h, fun _ hq hn => absurd hq hn⟩

theorem Explored.trans (h : Explored E start V V') (h' : Explored E start V' V'') : Explored E start V V'' where
  pre := h.pre.trans h'.pre
  nodup := h'.nodup
  closed q hq hn r hr := by
    by_cases hq' : q ∈ V'
    · obtain ⟨h1, h2⟩ := h.closed q hq' hn r hr
      exact ⟨h'.pre.subset h1, h2⟩
    · exact h'.closed q hq hq' r hr

/-- A visit that may go on: it began at the start, and there is room for the processes that are left. -/
structure Ready [Fintype P] (start : P) (room : Nat) (V : List P) : Prop where
  head : V.head? = some start
  nodup : V.Nodup
  room : Fintype.card P ≤ room + V.length

omit [DecidableEq P] in
theorem Ready.explored [Fintype P] {room : Nat} (h : Ready start room V) (he : Explored E start V V') :
    Ready start room V' where
  head := by
    obtain ⟨l, rfl⟩ := he.pre
    rw [List.head?_append, h.head]
    rfl
  nodup := he.nodup
  room := h.room.trans (Nat.add_le_add_left he.pre.length_le _)

/-- **The spec of a search**: a path to the start, or everything the process leads to has been visited. -/
def SearchOk [Fintype P] (t : LockTable P L) (orders : L → List P) (start : P) (room : Nat) (recurse : Search P L) :
    Prop :=
  ∀ p v, Ready start room v.visitedProcs →
    match recurse p v with
    | (some found, _) => Path t orders start p found
    | (none, v') => Explored (WaitsFor t orders) start v.visitedProcs v'.visitedProcs ∧ p ∈ v'.visitedProcs ∧ p ≠ start

/-! ## 3. The scans -/

variable (MyProc : P) [Fintype P] {room : Nat} {recurse : Search P L} {lock : L}

omit [DecidableEq L] in
/-- The scan of the holders. -/
theorem hardScan_spec (h : t.Ok) (hrec : SearchOk t orders start room recurse) (hlock : t.waitLock p = some lock)
    (hext : t.relationExtend lock = false) (proclocks : List (PROCLOCK P)) : ∀ {v : Visit P},
    (∀ proclock ∈ proclocks, proclock ∈ t.procLocks lock) → Ready start room v.visitedProcs →
    match hardScan t MyProc recurse p p lock proclocks v with
    | (some found, _) => Path t orders start p found ∧ found.deadlockDetails ≠ []
    | (none, v') => Explored (WaitsFor t orders) start v.visitedProcs v'.visitedProcs ∧
        ∀ proclock ∈ proclocks, proclock.myProc ≠ p →
          t.hardBlocks lock (t.conflictTab lock (t.waitLockMode p)) proclock = true →
            proclock.myProc ∈ v'.visitedProcs ∧ proclock.myProc ≠ start := by
  induction proclocks with
  | nil => exact fun _ hv => ⟨.refl hv.nodup, fun _ hm => absurd hm List.not_mem_nil⟩
  | cons proclock proclocks ih =>
      intro v hmem hv
      have hmem' : ∀ pl ∈ proclocks, pl ∈ t.procLocks lock := fun pl hpl => hmem pl (List.mem_cons_of_mem _ hpl)
      rw [hardScan, h.leaderOf]
      by_cases hb : proclock.myProc ≠ p ∧ t.hardBlocks lock (t.conflictTab lock (t.waitLockMode p)) proclock = true
      · rw [if_pos hb]
        have hstep := hrec proclock.myProc v hv
        rcases hr : recurse proclock.myProc v with ⟨_ | found, v1⟩
        · rw [hr] at hstep
          obtain ⟨he, hin, hne⟩ := hstep
          simp only
          generalize hv2 : (if p = MyProc ∧ t.isAutovacuum proclock.myProc = true then
            { v1 with blocking_autovacuum_proc := some proclock.myProc } else v1) = v2
          have hsame : v2.visitedProcs = v1.visitedProcs := by
            rw [← hv2]
            split <;> rfl
          have hrest := ih (v := v2) hmem' (hsame.symm ▸ hv.explored he)
          rcases hs : hardScan t MyProc recurse p p lock proclocks v2 with ⟨_ | found, v3⟩
          · rw [hs] at hrest
            simp only [hsame] at hrest
            refine ⟨he.trans hrest.1, fun pl hpl hpl1 hpl2 => ?_⟩
            rcases List.mem_cons.mp hpl with rfl | hpl
            · exact ⟨hrest.1.pre.subset hin, hne⟩
            · exact hrest.2 pl hpl hpl1 hpl2
          · rw [hs] at hrest
            exact hrest
        · rw [hr] at hstep
          exact ⟨.hard ⟨lock, hlock, hext, proclock, hmem _ List.mem_cons_self, rfl, hb.1, hb.2⟩ hstep,
            List.cons_ne_nil _ _⟩
      · rw [if_neg hb]
        have hrest := ih hmem' hv
        rcases hs : hardScan t MyProc recurse p p lock proclocks v with ⟨_ | found, v2⟩
        · rw [hs] at hrest
          refine ⟨hrest.1, fun pl hpl hpl1 hpl2 => ?_⟩
          rcases List.mem_cons.mp hpl with rfl | hpl
          · exact absurd ⟨hpl1, hpl2⟩ hb
          · exact hrest.2 pl hpl hpl1 hpl2
        · rw [hs] at hrest
          exact hrest

omit [DecidableEq L] in
/-- The scan of the procs ahead. -/
theorem softScan_spec (h : t.Ok) (hrec : SearchOk t orders start room recurse) (hlock : t.waitLock p = some lock)
    (hext : t.relationExtend lock = false) (procs : List P) : ∀ {v : Visit P},
    (∀ q ∈ procs, (orders lock).idxOf q < (orders lock).idxOf p) → Ready start room v.visitedProcs →
    match softScan t recurse p p lock procs v with
    | (some found, _) => Path t orders start p found ∧ found.deadlockDetails ≠ []
    | (none, v') => Explored (WaitsFor t orders) start v.visitedProcs v'.visitedProcs ∧
        ∀ q ∈ procs, (t.conflictTab lock (t.waitLockMode p)).testBit (t.waitLockMode q) = true →
          q ∈ v'.visitedProcs ∧ q ≠ start := by
  induction procs with
  | nil => exact fun _ hv => ⟨.refl hv.nodup, fun _ hm => absurd hm List.not_mem_nil⟩
  | cons q procs ih =>
      intro v hahead hv
      have hahead' : ∀ x ∈ procs, (orders lock).idxOf x < (orders lock).idxOf p :=
        fun x hx => hahead x (List.mem_cons_of_mem _ hx)
      have hqp : q ≠ p := fun heq => absurd (hahead q List.mem_cons_self) (heq ▸ Nat.lt_irrefl _)
      rw [softScan, h.leaderOf]
      by_cases hb : (t.conflictTab lock (t.waitLockMode p)).testBit (t.waitLockMode q) = true ∧ q ≠ p
      · rw [if_pos hb]
        have hstep := hrec q v hv
        rcases hr : recurse q v with ⟨_ | found, v1⟩
        · rw [hr] at hstep
          obtain ⟨he, hin, hne⟩ := hstep
          have hrest := ih (v := v1) hahead' (hv.explored he)
          simp only
          rcases hs : softScan t recurse p p lock procs v1 with ⟨_ | found, v2⟩
          · rw [hs] at hrest
            refine ⟨he.trans hrest.1, fun x hx hc => ?_⟩
            rcases List.mem_cons.mp hx with rfl | hx
            · exact ⟨hrest.1.pre.subset hin, hne⟩
            · exact hrest.2 x hx hc
          · rw [hs] at hrest
            exact hrest
        · rw [hr] at hstep
          exact ⟨.soft ⟨hlock, hext, hahead q List.mem_cons_self, hb.1⟩ hstep, List.cons_ne_nil _ _⟩
      · rw [if_neg hb]
        have hrest := ih hahead' hv
        rcases hs : softScan t recurse p p lock procs v with ⟨_ | found, v2⟩
        · rw [hs] at hrest
          refine ⟨hrest.1, fun x hx hc => ?_⟩
          rcases List.mem_cons.mp hx with rfl | hx
          · exact absurd ⟨hc, hqp⟩ hb
          · exact hrest.2 x hx hc
        · rw [hs] at hrest
          exact hrest

/-- **`FindLockCycleRecurseMember`**: all edges of a process. -/
theorem member_spec (h : t.Ok) {waitOrders : List (WAIT_ORDER P L)}
    (hrec : SearchOk t (ordersOf t waitOrders) start room recurse) {v : Visit P} (hv : Ready start room v.visitedProcs) :
    match FindLockCycleRecurseMember t MyProc waitOrders recurse p p v with
    | (some found, _) => Path t (ordersOf t waitOrders) start p found ∧ found.deadlockDetails ≠ []
    | (none, v') => Explored (WaitsFor t (ordersOf t waitOrders)) start v.visitedProcs v'.visitedProcs ∧
        ∀ q, WaitsFor t (ordersOf t waitOrders) p q → q ∈ v'.visitedProcs ∧ q ≠ start := by
  unfold FindLockCycleRecurseMember
  rcases hw : t.waitLock p with _ | lock
  · refine ⟨.refl hv.nodup, fun q hq => ?_⟩
    rcases hq with ⟨lock, hl, _⟩ | ⟨lock, hl, _⟩ <;> rw [hw] at hl <;> cases hl
  simp only
  by_cases hext : t.relationExtend lock = true
  · rw [if_pos hext]
    refine ⟨.refl hv.nodup, fun q hq => ?_⟩
    rcases hq with ⟨lock', hl, hn, _⟩ | ⟨lock', hl, hn, _⟩ <;> rw [hw] at hl <;> cases hl <;> rw [hext] at hn <;>
      cases hn
  rw [if_neg hext]
  rw [Bool.not_eq_true] at hext
  have hhard := hardScan_spec MyProc h hrec hw hext (t.procLocks lock) (fun _ hm => hm) hv
  rcases hs : hardScan t MyProc recurse p p lock (t.procLocks lock) v with ⟨_ | found, v1⟩
  · rw [hs] at hhard
    obtain ⟨he, hholders⟩ := hhard
    have hsoft := softScan_spec h hrec hw hext (procsAhead t waitOrders p p lock)
      (fun q hq => (mem_procsAhead h).mp hq) (hv.explored he)
    simp only
    rcases hs' : softScan t recurse p p lock (procsAhead t waitOrders p p lock) v1 with ⟨_ | found, v2⟩
    · rw [hs'] at hsoft
      refine ⟨he.trans hsoft.1, fun q hq => ?_⟩
      rcases hq with ⟨lock', hl, _, pl, hpl, rfl, hne, hb⟩ | ⟨lock', hl, _, hidx, hc⟩
      · rw [hw] at hl
        cases hl
        obtain ⟨h1, h2⟩ := hholders pl hpl hne hb
        exact ⟨hsoft.1.pre.subset h1, h2⟩
      · rw [hw] at hl
        cases hl
        exact hsoft.2 q ((mem_procsAhead h).mpr hidx) hc
    · rw [hs'] at hsoft
      exact hsoft
  · rw [hs] at hhard
    exact hhard

/-! ## 4. The search -/

/-- A process that is visited for the first time. -/
theorem expand_spec (h : t.Ok) {waitOrders : List (WAIT_ORDER P L)}
    (hrec : SearchOk t (ordersOf t waitOrders) start room (FindLockCycleRecurse t MyProc waitOrders room))
    {v : Visit P} (hp : p ∉ v.visitedProcs) (hv : Ready start room (v.visitedProcs ++ [p])) :
    match FindLockCycleRecurse t MyProc waitOrders (room + 1) p v with
    | (some found, _) => Path t (ordersOf t waitOrders) start p found ∧ found.deadlockDetails ≠ []
    | (none, v') => p ∈ v'.visitedProcs ∧
        Explored (WaitsFor t (ordersOf t waitOrders)) start v.visitedProcs v'.visitedProcs := by
  rw [FindLockCycleRecurse, h.leaderOf, if_neg hp]
  simp only [h.members]
  have hm := member_spec MyProc (p := p) h hrec (v := { v with visitedProcs := v.visitedProcs ++ [p] }) hv
  rcases hs : FindLockCycleRecurseMember t MyProc waitOrders (FindLockCycleRecurse t MyProc waitOrders room) p p
      { v with visitedProcs := v.visitedProcs ++ [p] } with ⟨_ | found, v1⟩
  · rw [hs] at hm
    obtain ⟨he, hall⟩ := hm
    have hin : p ∈ v1.visitedProcs := he.pre.subset (List.mem_append_right _ (List.mem_singleton.mpr rfl))
    refine ⟨hin, (List.prefix_append _ _).trans he.pre, he.nodup, fun q hq hn r hr => ?_⟩
    by_cases hqp : q = p
    · exact hall r (hqp ▸ hr)
    · refine he.closed q hq (fun hmem => ?_) r hr
      rcases List.mem_append.mp hmem with hmem | hmem
      · exact hn hmem
      · exact hqp (List.mem_singleton.mp hmem)
  · rw [hs] at hm
    exact hm

/-- **`FindLockCycleRecurse`** from a process that was met on the way. -/
theorem searchOk (h : t.Ok) (waitOrders : List (WAIT_ORDER P L)) (room : Nat) :
    SearchOk t (ordersOf t waitOrders) start room (FindLockCycleRecurse t MyProc waitOrders room) := by
  induction room with
  | zero =>
      intro p v hv
      -- every process has been visited
      have hall : p ∈ v.visitedProcs := by
        have hcard : v.visitedProcs.toFinset = Finset.univ := by
          refine Finset.eq_univ_of_card _ (le_antisymm (Finset.card_le_univ _) ?_)
          rw [List.toFinset_card_of_nodup hv.nodup]
          exact hv.room.trans (Nat.zero_add _).le
        exact List.mem_toFinset.mp (hcard ▸ Finset.mem_univ p)
      rw [FindLockCycleRecurse, h.leaderOf, if_pos hall]
      by_cases hs : v.visitedProcs.head? = some p
      · have hps : p = start := Option.some.inj (hs.symm.trans hv.head)
        rw [if_pos hs, hps]
        exact .here
      · rw [if_neg hs]
        exact ⟨.refl hv.nodup, hall, fun heq => hs (heq ▸ hv.head)⟩
  | succ room ih =>
      intro p v hv
      by_cases hin : p ∈ v.visitedProcs
      · rw [FindLockCycleRecurse, h.leaderOf, if_pos hin]
        by_cases hs : v.visitedProcs.head? = some p
        · have hps : p = start := Option.some.inj (hs.symm.trans hv.head)
          rw [if_pos hs, hps]
          exact .here
        · rw [if_neg hs]
          exact ⟨.refl hv.nodup, hin, fun heq => hs (heq ▸ hv.head)⟩
      · have hne : p ≠ start := fun heq => hin (heq ▸ List.mem_of_mem_head? hv.head)
        have hv' : Ready start room (v.visitedProcs ++ [p]) := by
          refine ⟨by rw [List.head?_append, hv.head]; rfl, ?_, ?_⟩
          · exact List.nodup_append.mpr ⟨hv.nodup, List.nodup_singleton p, fun a ha b hb heq =>
              hin ((List.mem_singleton.mp hb) ▸ heq ▸ ha)⟩
          · have := hv.room
            rw [List.length_append, List.length_singleton]
            omega
        have hx := expand_spec MyProc h ih hin hv'
        rcases hs : FindLockCycleRecurse t MyProc waitOrders (room + 1) p v with ⟨_ | found, v1⟩
        · rw [hs] at hx
          exact ⟨hx.2, hx.1, hne⟩
        · rw [hs] at hx
          exact hx.1

/-- The search from a process. -/
def findCycle (t : LockTable P L) (MyProc : P) (waitOrders : List (WAIT_ORDER P L)) (checkProc : P) :
    Option (Found P L) × Visit P :=
  FindLockCycleRecurse t MyProc waitOrders (Fintype.card P) checkProc ⟨[], none⟩

/-- **The search finds a cycle through its start, or there is none.** -/
theorem findLockCycle_spec (h : t.Ok) (waitOrders : List (WAIT_ORDER P L)) (checkProc : P) :
    match (findCycle t MyProc waitOrders checkProc).1 with
    | some found => Path t (ordersOf t waitOrders) checkProc checkProc found ∧ found.deadlockDetails ≠ []
    | none => ¬TransGen (WaitsFor t (ordersOf t waitOrders)) checkProc checkProc := by
  have hcard : 0 < Fintype.card P := Fintype.card_pos_iff.mpr ⟨checkProc⟩
  obtain ⟨room, hroom⟩ := Nat.exists_eq_succ_of_ne_zero (Nat.ne_of_gt hcard)
  have hv : Ready checkProc room (([] : List P) ++ [checkProc]) := by
    refine ⟨rfl, List.nodup_singleton _, ?_⟩
    rw [hroom]
    rfl
  have hx := expand_spec MyProc (v := ⟨[], none⟩) h (searchOk MyProc h waitOrders room) List.not_mem_nil hv
  rw [findCycle, hroom]
  rcases hs : FindLockCycleRecurse t MyProc waitOrders (room + 1) checkProc ⟨[], none⟩ with ⟨_ | found, v1⟩
  · rw [hs] at hx
    refine Cycle.not_transGen_of_closed (V := fun q => q ∈ v1.visitedProcs) hx.1 fun q hq r hr => ?_
    exact hx.2.closed q hq List.not_mem_nil r hr
  · rw [hs] at hx
    exact hx

end Pgvec.Deadlock
