/-
  File:      Pgvec/Lmgr/DeadlockCheck.lean
  Subject:   THE DEADLOCK CHECK IS EXACT: the queue orders it installs resolve the deadlock and bring no new one, and
             it reports a hard deadlock only if no orders would.

  A configuration is a list of constraints. Its test depends on nothing else (`configResult`), so the second test of
  one, which the code makes when it could not save the list of soft edges, finds the same edges again. If all ways to
  extend a configuration fail, every order of the queues that satisfies its constraints leaves a cycle: the cycle
  that the test found stays one, unless the orders reverse one of its soft edges.

  * `configResult`, `testConfiguration_spec` -- the TEST of a configuration;
  * `config_some`, `config_none`, `config_good` -- what its outcome says of the waits-for graph;
  * `recurse_spec` -- the INVARIANT over the backtracking search;
  * **`deadlock_check_exact`**.
-/
import Pgvec.Lmgr.DeadlockOrders

namespace Pgvec.Deadlock

open Relation (TransGen)

variable {P L : Type}

/-! ## 1. The test of a configuration -/

/-- The soft edges stand in `possibleConstraints`, from an index on. -/
def Holds (ws : Workspace P L) (start : Nat) (softs : List (EDGE P L)) : Prop :=
  ∀ j, j < softs.length → ws.possibleConstraints (start + j) = softs[j]?

/-- What a step of the search leaves as it was: the configuration, and the lists below an index. -/
structure Kept (start : Nat) (ws ws' : Workspace P L) : Prop where
  curConstraints : ws'.curConstraints = ws.curConstraints
  nPossibleConstraints : ws'.nPossibleConstraints = ws.nPossibleConstraints
  below : ∀ i, i < start → ws'.possibleConstraints i = ws.possibleConstraints i
  outOfRoom : ws'.outOfRoom = false → ws.outOfRoom = false

variable {ws ws' ws'' : Workspace P L} {start : Nat}

theorem Kept.refl : Kept start ws ws := ⟨rfl, rfl, fun _ _ => rfl, id⟩

theorem Kept.trans (h : Kept start ws ws') (h' : Kept start ws' ws'') : Kept start ws ws'' where
  curConstraints := h'.curConstraints.trans h.curConstraints
  nPossibleConstraints := h'.nPossibleConstraints.trans h.nPossibleConstraints
  below i hi := (h'.below i hi).trans (h.below i hi)
  outOfRoom h0 := h.outOfRoom (h'.outOfRoom h0)

variable {t : LockTable P L} {MyProc proc : P} [DecidableEq P] [DecidableEq L] [Fintype P]

/-- The searches from some processes: `none` if there is a hard deadlock, else the soft edges of the last cycle. -/
def testSofts (t : LockTable P L) (MyProc : P) (waitOrders : List (WAIT_ORDER P L)) :
    List P → List (EDGE P L) → Option (List (EDGE P L))
  | [], softs => some softs
  | proc :: procs, softs =>
      match (findCycle t MyProc waitOrders proc).1 with
      | none => testSofts t MyProc waitOrders procs softs
      | some found => if found.softEdges = [] then none else testSofts t MyProc waitOrders procs found.softEdges

/-- The processes that a test searches from. -/
def testedProcs (proc : P) (constraints : List (EDGE P L)) : List P :=
  (constraints.flatMap fun constraint => [constraint.waiter, constraint.blocker]) ++ [proc]

/-- **The outcome of a configuration**, which depends on its constraints only. -/
def configResult (t : LockTable P L) (MyProc proc : P) (constraints : List (EDGE P L)) : Option (List (EDGE P L)) :=
  match ExpandConstraints t constraints with
  | (false, _) => none
  | (true, waitOrders) => testSofts t MyProc waitOrders (testedProcs proc constraints) []

theorem findLockCycle_none (hf : (findCycle t MyProc ws.waitOrders proc).1 = none) (start : Nat) :
    ∃ ws', FindLockCycle t MyProc proc start ws = (false, 0, ws') ∧ Kept start ws ws' ∧
      ws'.waitOrders = ws.waitOrders ∧ ws'.possibleConstraints = ws.possibleConstraints := by
  unfold findCycle at hf
  unfold FindLockCycle
  rcases hr : FindLockCycleRecurse t MyProc ws.waitOrders (Fintype.card P) proc ⟨[], none⟩ with ⟨_ | found, v⟩
  · exact ⟨_, rfl, ⟨rfl, rfl, fun _ _ => rfl, id⟩, rfl, rfl⟩
  · rw [hr] at hf
    cases hf

theorem findLockCycle_some (ws : Workspace P L) {found : Found P L}
    (hf : (findCycle t MyProc ws.waitOrders proc).1 = some found) (start : Nat) :
    ∃ ws', FindLockCycle t MyProc proc start ws = (true, found.softEdges.length, ws') ∧
      Kept start ws ws' ∧ ws'.waitOrders = ws.waitOrders ∧ Holds ws' start found.softEdges := by
  unfold findCycle at hf
  unfold FindLockCycle
  rcases hr : FindLockCycleRecurse t MyProc ws.waitOrders (Fintype.card P) proc ⟨[], none⟩ with ⟨_ | found', v⟩
  · rw [hr] at hf
    cases hf
  · rw [hr] at hf
    cases hf
    refine ⟨_, rfl, ⟨rfl, rfl, fun i hi => ?_, id⟩, rfl, fun j hj => ?_⟩
    · exact if_neg fun hc => Nat.not_le_of_gt hi hc.1
    · refine (if_pos ⟨Nat.le_add_right _ _, Nat.add_lt_add_left hj _⟩).trans ?_
      rw [Nat.add_sub_cancel_left]

variable (t) (MyProc) in
/-- The searches of a test. -/
theorem testProcs_spec (start : Nat) (procs : List P) : ∀ (ws : Workspace P L) (softs : List (EDGE P L)),
    Holds ws start softs → ∃ ws', Kept start ws ws' ∧ ws'.waitOrders = ws.waitOrders ∧
      match testSofts t MyProc ws.waitOrders procs softs with
      | none => testProcs t MyProc start procs softs.length ws = (none, ws')
      | some softs' => testProcs t MyProc start procs softs.length ws = (some softs'.length, ws') ∧
          Holds ws' start softs' := by
  induction procs with
  | nil => exact fun ws _ hh => ⟨ws, .refl, rfl, rfl, hh⟩
  | cons proc procs ih =>
      intro ws softs hh
      rw [testSofts, testProcs]
      rcases hf : (findCycle t MyProc ws.waitOrders proc).1 with _ | found
      · obtain ⟨ws1, heq, hk, hw, hp⟩ := findLockCycle_none hf start
        have hh1 : Holds ws1 start softs := fun j hj => hp ▸ hh j hj
        obtain ⟨ws2, hk2, hw2, hres⟩ := ih ws1 _ hh1
        rw [hw] at hres
        rw [heq]
        exact ⟨ws2, hk.trans hk2, hw2.trans hw, hres⟩
      · obtain ⟨ws1, heq, hk, hw, hh1⟩ := findLockCycle_some ws hf start
        rw [heq]
        simp only [List.length_eq_zero_iff]
        by_cases hnil : found.softEdges = []
        · simp only [if_pos hnil]
          exact ⟨ws1, hk, hw, rfl⟩
        · simp only [if_neg hnil]
          obtain ⟨ws2, hk2, hw2, hres⟩ := ih ws1 _ hh1
          rw [hw] at hres
          exact ⟨ws2, hk.trans hk2, hw2.trans hw, hres⟩

variable {MaxBackends : Nat}

variable (t) (MyProc) (proc) in
/-- **`TestConfiguration`**: the outcome of the constraints, with the soft edges in `possibleConstraints`. -/
theorem testConfiguration_spec (hroom : ws.nPossibleConstraints + MaxBackends ≤ MaxBackends * 4) :
    ∃ ws', Kept ws.nPossibleConstraints ws ws' ∧ ws'.waitOrders = (ExpandConstraints t ws.curConstraints).2 ∧
      match configResult t MyProc proc ws.curConstraints with
      | none => TestConfiguration t MyProc MaxBackends proc ws = (-1, ws')
      | some softs => TestConfiguration t MyProc MaxBackends proc ws = ((softs.length : Int), ws') ∧
          Holds ws' ws.nPossibleConstraints softs := by
  unfold configResult TestConfiguration
  rw [if_neg (Nat.not_lt_of_le hroom)]
  rcases hx : ExpandConstraints t ws.curConstraints with ⟨_ | _, waitOrders⟩
  · exact ⟨{ ws with waitOrders := waitOrders }, ⟨rfl, rfl, fun _ _ => rfl, id⟩, rfl, rfl⟩
  · obtain ⟨ws1, hk, hw, hres⟩ := testProcs_spec t MyProc ws.nPossibleConstraints
      (testedProcs proc ws.curConstraints) { ws with waitOrders := waitOrders } [] (fun j hj => absurd hj (Nat.not_lt_zero _))
    refine ⟨ws1, ⟨hk.curConstraints, hk.nPossibleConstraints, hk.below, hk.outOfRoom⟩, hw, ?_⟩
    simp only at hres ⊢
    rcases hs : testSofts t MyProc waitOrders (testedProcs proc ws.curConstraints) [] with _ | softs
    · rw [hs] at hres
      simp only [List.length_nil] at hres
      unfold testedProcs at hres
      rw [hres]
    · rw [hs] at hres
      simp only [List.length_nil] at hres
      unfold testedProcs at hres
      rw [hres.1]
      exact ⟨rfl, hres.2⟩

/-! ## 2. What the outcome says of the waits-for graph -/

variable {constraints softs : List (EDGE P L)} {waitOrders : List (WAIT_ORDER P L)}

variable (t) (MyProc) (waitOrders) in
/-- What the searches of a test found. -/
theorem testSofts_cases (procs : List P) : ∀ softs : List (EDGE P L),
    match testSofts t MyProc waitOrders procs softs with
    | none => ∃ p ∈ procs, ∃ found, (findCycle t MyProc waitOrders p).1 = some found ∧ found.softEdges = []
    | some softs' => (softs' = softs ∧ ∀ p ∈ procs, (findCycle t MyProc waitOrders p).1 = none) ∨
        (softs' ≠ [] ∧ ∃ p ∈ procs, ∃ found, (findCycle t MyProc waitOrders p).1 = some found ∧
          found.softEdges = softs') := by
  induction procs with
  | nil => exact fun softs => Or.inl ⟨rfl, fun _ hp => absurd hp List.not_mem_nil⟩
  | cons p procs ih =>
      intro softs
      rw [testSofts]
      rcases hf : (findCycle t MyProc waitOrders p).1 with _ | found
      · simp only
        have hrest := ih softs
        rcases hs : testSofts t MyProc waitOrders procs softs with _ | softs'
        · rw [hs] at hrest
          obtain ⟨q, hq, hfound⟩ := hrest
          exact ⟨q, List.mem_cons_of_mem _ hq, hfound⟩
        · rw [hs] at hrest
          rcases hrest with ⟨heq, hall⟩ | ⟨hne, q, hq, hfound⟩
          · refine Or.inl ⟨heq, fun q hq => ?_⟩
            rcases List.mem_cons.mp hq with rfl | hq
            · exact hf
            · exact hall q hq
          · exact Or.inr ⟨hne, q, List.mem_cons_of_mem _ hq, hfound⟩
      · by_cases hnil : found.softEdges = []
        · simp only [if_pos hnil]
          exact ⟨p, List.mem_cons_self, found, hf, hnil⟩
        · simp only [if_neg hnil]
          have hrest := ih found.softEdges
          rcases hs : testSofts t MyProc waitOrders procs found.softEdges with _ | softs'
          · rw [hs] at hrest
            obtain ⟨q, hq, hfound⟩ := hrest
            exact ⟨q, List.mem_cons_of_mem _ hq, hfound⟩
          · rw [hs] at hrest
            rcases hrest with ⟨heq, _⟩ | ⟨hne, q, hq, hfound⟩
            · exact Or.inr ⟨heq ▸ hnil, p, List.mem_cons_self, found, hf, heq.symm⟩
            · exact Or.inr ⟨hne, q, List.mem_cons_of_mem _ hq, hfound⟩

/-- A constraint that comes from a soft edge. -/
structure Proper (t : LockTable P L) (c : EDGE P L) : Prop where
  waits : t.waitLock c.waiter = some c.lock
  blocker : c.blocker ∈ t.waitProcs c.lock
  ne : c.waiter ≠ c.blocker

/-- Some process waits for itself. -/
def Deadlocked (t : LockTable P L) (orders : L → List P) : Prop := ∃ p, TransGen (WaitsFor t orders) p p

variable {orders orders' : L → List P}

omit [DecidableEq L] [Fintype P] in
theorem SoftOn.proper (hperm : Reorders t orders) {lock : L} {p q : P} (h : SoftOn t orders lock p q) :
    Proper t ⟨p, q, lock⟩ where
  waits := h.1
  blocker := (hperm lock).subset (mem_of_ahead h.2.2.1)
  ne heq := absurd h.2.2.1 (by rw [show p = q from heq]; exact Nat.lt_irrefl _)

omit [DecidableEq L] [Fintype P] in
/-- **Orders that keep all soft edges of a cycle keep the cycle.** -/
theorem Path.reordered (h : t.Ok) (hperm : Reorders t orders) (hperm' : Reorders t orders') {p : P} {found : Found P L}
    (hpath : Path t orders p p found) (hne : found.deadlockDetails ≠ [])
    (hkeep : ∀ e ∈ found.softEdges, ¬Satisfies orders' e) : Deadlocked t orders' := by
  refine ⟨p, hpath.transGen (fun e he => ?_) hne⟩
  obtain ⟨hw, hext, hidx, hc⟩ := hpath.softEdges e he
  have hproper := (hpath.softEdges e he).proper hperm
  have hin : e.waiter ∈ orders' e.lock := (hperm' e.lock).symm.subset (h.mem_queue.mpr hw)
  exact ⟨hw, hext, (ahead_total hin hproper.ne).resolve_left (hkeep e he), hc⟩

omit [Fintype P] in
/-- The orders of a successful expansion are permutations of the queues. -/
theorem reorders_of_expand (h : t.Ok) (hproper : ∀ c ∈ constraints, Proper t c)
    (hx : ExpandConstraints t constraints = (true, waitOrders)) : Reorders t (ordersOf t waitOrders) := by
  have hexp := (expand_true h (fun c hc => (hproper c hc).waits) (congrArg Prod.fst hx)).2
  rw [hx] at hexp
  exact fun lock => (hexp lock).1

/-- **No solution**: every orders that satisfy the constraints leave a cycle. -/
theorem config_none (h : t.Ok) (hproper : ∀ c ∈ constraints, Proper t c)
    (hr : configResult t MyProc proc constraints = none) (hperm : Reorders t orders)
    (hsat : ∀ c ∈ constraints, Satisfies orders c) : Deadlocked t orders := by
  unfold configResult at hr
  rcases hx : ExpandConstraints t constraints with ⟨_ | _, waitOrders⟩
  · obtain ⟨c, hc, hno⟩ := expand_false h (fun c hc => (hproper c hc).waits) (congrArg Prod.fst hx) orders
    exact absurd (hsat c hc) hno
  · rw [hx] at hr
    have hcases := testSofts_cases t MyProc waitOrders (testedProcs proc constraints) []
    simp only at hr
    rw [hr] at hcases
    obtain ⟨p, _, found, hf, hnil⟩ := hcases
    have hspec := findLockCycle_spec MyProc h waitOrders p
    rw [hf] at hspec
    refine Path.reordered h (reorders_of_expand h hproper hx) hperm hspec.1 hspec.2 fun e he => ?_
    rw [hnil] at he
    exact absurd he List.not_mem_nil

/-- **Soft edges**: they are proper constraints, and orders that satisfy none of them leave a cycle. -/
theorem config_some (h : t.Ok) (hproper : ∀ c ∈ constraints, Proper t c)
    (hr : configResult t MyProc proc constraints = some softs) (hne : softs ≠ []) :
    (∀ e ∈ softs, Proper t e) ∧ ∀ orders, Reorders t orders → (∀ e ∈ softs, ¬Satisfies orders e) →
      Deadlocked t orders := by
  unfold configResult at hr
  rcases hx : ExpandConstraints t constraints with ⟨_ | _, waitOrders⟩
  · rw [hx] at hr
    cases hr
  · rw [hx] at hr
    have hcases := testSofts_cases t MyProc waitOrders (testedProcs proc constraints) []
    simp only at hr
    rw [hr] at hcases
    rcases hcases with ⟨hnil, _⟩ | ⟨_, p, _, found, hf, rfl⟩
    · exact absurd hnil hne
    · have hspec := findLockCycle_spec MyProc h waitOrders p
      rw [hf] at hspec
      have hperm0 := reorders_of_expand h hproper hx
      exact ⟨fun e he => (hspec.1.softEdges e he).proper hperm0,
        fun orders hperm hkeep => Path.reordered h hperm0 hperm hspec.1 hspec.2 hkeep⟩

/-- **A solution**: no tested process is on a cycle, and only tested processes have moved ahead. -/
theorem config_good (h : t.Ok) (hproper : ∀ c ∈ constraints, Proper t c)
    (hr : configResult t MyProc proc constraints = some []) :
    ((ExpandConstraints t constraints).2.map (·.lock)).Nodup ∧
      Reorders t (ordersOf t (ExpandConstraints t constraints).2) ∧
      (∀ p ∈ testedProcs proc constraints,
        ¬TransGen (WaitsFor t (ordersOf t (ExpandConstraints t constraints).2)) p p) ∧
      ∀ lock x y, (t.waitProcs lock).idxOf x < (t.waitProcs lock).idxOf y →
        (ordersOf t (ExpandConstraints t constraints).2 lock).idxOf y <
          (ordersOf t (ExpandConstraints t constraints).2 lock).idxOf x →
        y ∈ testedProcs proc constraints := by
  unfold configResult at hr
  rcases hx : ExpandConstraints t constraints with ⟨_ | _, waitOrders⟩
  · rw [hx] at hr
    cases hr
  · rw [hx] at hr
    simp only at hr
    have hexp := expand_true h (fun c hc => (hproper c hc).waits) (congrArg Prod.fst hx)
    rw [hx] at hexp
    have hcases := testSofts_cases t MyProc waitOrders (testedProcs proc constraints) []
    rw [hr] at hcases
    refine ⟨hexp.1, fun lock => (hexp.2 lock).1, fun p hp => ?_, fun lock x y hxy hyx => ?_⟩
    · rcases hcases with ⟨_, hall⟩ | ⟨hne, _⟩
      · have hspec := findLockCycle_spec MyProc h waitOrders p
        rw [hall p hp] at hspec
        exact hspec
      · exact absurd rfl hne
    · obtain ⟨c, hc, rfl⟩ := (hexp.2 lock).2 x y hxy hyx
      exact List.mem_append_left _ (List.mem_flatMap.mpr ⟨c, hc, List.mem_cons_self⟩)

/-! ## 3. The backtracking search -/

/-- A solution: constraints whose test found nothing. -/
def Solved (t : LockTable P L) (MyProc proc : P) (waitOrders : List (WAIT_ORDER P L)) : Prop :=
  ∃ constraints : List (EDGE P L), (∀ c ∈ constraints, Proper t c) ∧
    configResult t MyProc proc constraints = some [] ∧ waitOrders = (ExpandConstraints t constraints).2

/-- Every orders that satisfy the constraints leave a cycle. -/
def Unsolvable (t : LockTable P L) (constraints : List (EDGE P L)) : Prop :=
  ∀ orders, Reorders t orders → (∀ c ∈ constraints, Satisfies orders c) → Deadlocked t orders

/-- **What a search for a solution comes to.** -/
def RecurseOk (t : LockTable P L) (MyProc proc : P) (MaxBackends : Nat)
    (recurse : Workspace P L → Except String (Bool × Workspace P L)) : Prop :=
  ∀ ws, (∀ c ∈ ws.curConstraints, Proper t c) → ws.nPossibleConstraints + MaxBackends ≤ MaxBackends * 4 →
    (∃ ws', recurse ws = .ok (false, ws') ∧ Solved t MyProc proc ws'.waitOrders) ∨
      ∃ ws', recurse ws = .ok (true, ws') ∧ Kept ws.nPossibleConstraints ws ws' ∧
        configResult t MyProc proc ws.curConstraints ≠ some [] ∧
        (ws'.outOfRoom = false → Unsolvable t ws.curConstraints)

variable {recurse : Workspace P L → Except String (Bool × Workspace P L)} {old : Nat} {savedList : Bool}

variable (recurse) in
/-- **Before an edge is tried, the list of soft edges is there**: it was saved, or the second test makes the same. -/
theorem tryEdges_cons {i : Nat} (hi : i < softs.length) (hroom : old + MaxBackends ≤ MaxBackends * 4)
    (hr : configResult t MyProc proc ws.curConstraints = some softs)
    (hn : savedList = false → ws.nPossibleConstraints = old) (hh : savedList = true ∨ i = 0 → Holds ws old softs) :
    ∃ ws', Kept old ws ws' ∧ Holds ws' old softs ∧ ∀ is,
      tryEdges t MyProc MaxBackends proc recurse softs.length old savedList (i :: is) ws =
        (recurse { ws' with curConstraints := ws'.curConstraints ++ [softs[i]] }).bind fun r =>
          if !r.1 then .ok (false, r.2)
          else tryEdges t MyProc MaxBackends proc recurse softs.length old savedList is
            { r.2 with curConstraints := r.2.curConstraints.dropLast } := by
  by_cases hc : savedList = true ∨ i = 0
  · refine ⟨ws, .refl, hh hc, fun is => ?_⟩
    have hcond : ¬(!savedList && decide (0 < i)) = true := by
      rcases hc with rfl | rfl
      · exact Bool.false_ne_true
      · rw [Bool.and_eq_true]
        exact fun h => absurd (of_decide_eq_true h.2) (Nat.lt_irrefl 0)
    rw [tryEdges, if_neg hcond]
    simp only [bind, Except.bind]
    rw [hh hc i hi, List.getElem?_eq_getElem hi]
    rfl
  · obtain ⟨hs, hi0⟩ := not_or.mp hc
    have hs' : savedList = false := Bool.eq_false_iff.mpr hs
    have hcond : (!savedList && decide (0 < i)) = true := by
      rw [hs', Bool.not_false, Bool.true_and]
      exact decide_eq_true (Nat.pos_of_ne_zero hi0)
    obtain rfl := (hn hs').symm
    obtain ⟨ws1, hk, _, hres⟩ := testConfiguration_spec t MyProc proc hroom
    rw [hr] at hres
    refine ⟨ws1, hk, hres.2, fun is => ?_⟩
    rw [tryEdges, if_pos hcond, hres.1]
    simp only [ne_eq, not_true_eq_false, if_false, bind, Except.bind]
    rw [hres.2 i hi, List.getElem?_eq_getElem hi]
    rfl

/-- **The loop over the soft edges of a configuration**, from an index on. -/
theorem tryEdges_spec (hrec : RecurseOk t MyProc proc MaxBackends recurse) {cs : List (EDGE P L)}
    (hcs : ∀ c ∈ cs, Proper t c) (hr : configResult t MyProc proc cs = some softs) (hsofts : ∀ e ∈ softs, Proper t e)
    (hroom : old + MaxBackends ≤ MaxBackends * 4)
    (hsaved : savedList = true → old + softs.length + MaxBackends ≤ MaxBackends * 4) (k : Nat) :
    ∀ (i : Nat) (ws : Workspace P L), i + k = softs.length → ws.curConstraints = cs →
      ws.nPossibleConstraints = (if savedList then old + softs.length else old) →
      (savedList = true ∨ i = 0 → Holds ws old softs) →
      (∃ ws', tryEdges t MyProc MaxBackends proc recurse softs.length old savedList (List.range' i k) ws =
        .ok (false, ws') ∧ Solved t MyProc proc ws'.waitOrders) ∨
      ∃ ws', tryEdges t MyProc MaxBackends proc recurse softs.length old savedList (List.range' i k) ws =
        .ok (true, ws') ∧ Kept old { ws with nPossibleConstraints := old } ws' ∧
        (ws'.outOfRoom = false → ∀ j, i ≤ j → (hj : j < softs.length) → Unsolvable t (cs ++ [softs[j]])) := by
  induction k with
  | zero =>
      intro i ws hik _ _ _
      refine Or.inr ⟨_, rfl, .refl, fun _ j hij hj => absurd hj ?_⟩
      exact Nat.not_lt_of_le (hik ▸ hij)
  | succ k ih =>
      intro i ws hik hcur hn hh
      have hi : i < softs.length := by omega
      have hn' : savedList = false → ws.nPossibleConstraints = old := by
        intro hs
        rw [hn, hs]
        rfl
      obtain ⟨ws1, hk1, hh1, heq⟩ := tryEdges_cons recurse hi hroom (hcur ▸ hr) hn' hh
      have hcur1 : ws1.curConstraints = cs := hk1.curConstraints.trans hcur
      have hn1 := hk1.nPossibleConstraints.trans hn
      have hroom1 : ws1.nPossibleConstraints + MaxBackends ≤ MaxBackends * 4 := by
        rw [hn1]
        by_cases hs : savedList = true
        · rw [if_pos hs]
          exact hsaved hs
        · rw [if_neg hs]
          exact hroom
      have hproper : ∀ c ∈ ws1.curConstraints ++ [softs[i]], Proper t c := by
        intro c hc
        rcases List.mem_append.mp hc with hc | hc
        · exact hcs c (hcur1 ▸ hc)
        · exact hsofts c (List.mem_singleton.mp hc ▸ List.getElem_mem hi)
      rw [List.range'_succ, heq]
      rcases hrec { ws1 with curConstraints := ws1.curConstraints ++ [softs[i]] } hproper hroom1 with
        ⟨ws2, hres, hsol⟩ | ⟨ws2, hres, hk2, _, hun⟩
      · rw [hres]
        exact Or.inl ⟨ws2, rfl, hsol⟩
      · rw [hres]
        have hcur2 : ws2.curConstraints.dropLast = cs := by
          rw [hk2.curConstraints]
          simp only [List.dropLast_concat]
          exact hcur1
        have hold : old ≤ ws1.nPossibleConstraints := by
          rw [hn1]
          split <;> omega
        -- the entries of this configuration are kept if they were saved
        have hh2 : savedList = true ∨ i + 1 = 0 →
            Holds { ws2 with curConstraints := ws2.curConstraints.dropLast } old softs := by
          intro hc j hj
          have hs := hc.resolve_right (Nat.succ_ne_zero i)
          refine (hk2.below (old + j) ?_).trans (hh1 j hj)
          rw [hn1, if_pos hs]
          exact Nat.add_lt_add_left hj old
        have hkept : Kept old { ws with nPossibleConstraints := old }
            { ws2 with curConstraints := ws2.curConstraints.dropLast, nPossibleConstraints := old } :=
          ⟨hcur2.trans hcur.symm, rfl,
            fun i hi => (hk2.below i (Nat.lt_of_lt_of_le hi hold)).trans (hk1.below i hi),
            fun h0 => hk1.outOfRoom (hk2.outOfRoom h0)⟩
        rcases ih (i + 1) { ws2 with curConstraints := ws2.curConstraints.dropLast } (by omega) hcur2
          (hk2.nPossibleConstraints.trans hn1) hh2 with ⟨ws3, hres3, hsol⟩ | ⟨ws3, hres3, hk3, hun3⟩
        · exact Or.inl ⟨ws3, hres3, hsol⟩
        · refine Or.inr ⟨ws3, hres3, hkept.trans hk3, fun h0 j hij hj => ?_⟩
          rcases Nat.eq_or_lt_of_le hij with rfl | hlt
          · rw [← hcur1]
            exact hun (hk3.outOfRoom h0)
          · exact hun3 h0 j hlt hj

/-- The test of a configuration that is no solution, or one. -/
theorem recurse_test (h : t.Ok) {room : Nat} (hproper : ∀ c ∈ ws.curConstraints, Proper t c)
    (hroom : ws.nPossibleConstraints + MaxBackends ≤ MaxBackends * 4)
    (hr : configResult t MyProc proc ws.curConstraints = none ∨
      configResult t MyProc proc ws.curConstraints = some []) :
    (∃ ws', DeadLockCheckRecurse t MyProc MaxBackends proc room ws = .ok (false, ws') ∧
        Solved t MyProc proc ws'.waitOrders) ∨
      ∃ ws', DeadLockCheckRecurse t MyProc MaxBackends proc room ws = .ok (true, ws') ∧
        Kept ws.nPossibleConstraints ws ws' ∧ configResult t MyProc proc ws.curConstraints ≠ some [] ∧
        (ws'.outOfRoom = false → Unsolvable t ws.curConstraints) := by
  obtain ⟨ws1, hk, hw, hres⟩ := testConfiguration_spec t MyProc proc hroom
  rcases hr with hr | hr
  · rw [hr] at hres
    refine Or.inr ⟨ws1, ?_, hk, ?_, fun _ orders hperm hsat => config_none h hproper hr hperm hsat⟩
    · rw [DeadLockCheckRecurse, hres]
      rfl
    · rw [hr]
      exact nofun
  · rw [hr] at hres
    refine Or.inl ⟨ws1, ?_, ws.curConstraints, hproper, hr, hw⟩
    rw [DeadLockCheckRecurse, hres.1]
    rfl

variable (MyProc) (proc) (MaxBackends) in
/-- **`DeadLockCheckRecurse`**. -/
theorem recurse_spec (h : t.Ok) (room : Nat) :
    RecurseOk t MyProc proc MaxBackends (DeadLockCheckRecurse t MyProc MaxBackends proc room) := by
  induction room with
  | zero =>
      intro ws hproper hroom
      by_cases hr : configResult t MyProc proc ws.curConstraints = none ∨
        configResult t MyProc proc ws.curConstraints = some []
      · exact recurse_test h hproper hroom hr
      · obtain ⟨hr0, hr1⟩ := not_or.mp hr
        obtain ⟨softs, hsome⟩ := Option.ne_none_iff_exists'.mp hr0
        obtain ⟨ws1, hk, _, hres⟩ := testConfiguration_spec t MyProc proc hroom
        rw [hsome] at hres
        have hpos : softs.length ≠ 0 := fun h0 => hr1 (by rw [hsome, List.length_eq_zero_iff.mp h0])
        refine Or.inr ⟨{ ws1 with outOfRoom := true }, ?_, ⟨hk.1, hk.2, hk.3, nofun⟩, hr1, nofun⟩
        rw [DeadLockCheckRecurse, hres.1]
        simp only
        rw [if_neg (by omega), if_neg (by omega)]
  | succ room ih =>
      intro ws hproper hroom
      by_cases hr : configResult t MyProc proc ws.curConstraints = none ∨
        configResult t MyProc proc ws.curConstraints = some []
      · exact recurse_test h hproper hroom hr
      · obtain ⟨hr0, hr1⟩ := not_or.mp hr
        obtain ⟨softs, hsome⟩ := Option.ne_none_iff_exists'.mp hr0
        obtain ⟨ws1, hk, _, hres⟩ := testConfiguration_spec t MyProc proc hroom
        rw [hsome] at hres
        have hpos : softs.length ≠ 0 := fun h0 => hr1 (by rw [hsome, List.length_eq_zero_iff.mp h0])
        obtain ⟨hsofts, hcycle⟩ := config_some h hproper hsome (fun h0 => hr1 (h0 ▸ hsome))
        rw [DeadLockCheckRecurse, hres.1]
        simp only
        rw [if_neg (by omega), if_neg (by omega), Int.toNat_natCast, hk.nPossibleConstraints]
        generalize hsv : decide ((ws.nPossibleConstraints : Int) + softs.length + MaxBackends ≤ MaxBackends * 4) =
          savedList
        have hsaved : savedList = true → ws.nPossibleConstraints + softs.length + MaxBackends ≤ MaxBackends * 4 := by
          intro hs
          have := of_decide_eq_true (hsv.trans hs)
          omega
        generalize hws2 : (if savedList = true then
          { ws1 with nPossibleConstraints := ws.nPossibleConstraints + softs.length } else ws1) = ws2
        have hcur2 : ws2.curConstraints = ws.curConstraints := by
          rw [← hws2]
          split <;> exact hk.curConstraints
        have hn2 : ws2.nPossibleConstraints =
            if savedList then ws.nPossibleConstraints + softs.length else ws.nPossibleConstraints := by
          rw [← hws2]
          split
          · rfl
          · exact hk.nPossibleConstraints
        have hmem2 : ws2.possibleConstraints = ws1.possibleConstraints := by
          rw [← hws2]
          split <;> rfl
        have hout2 : ws2.outOfRoom = ws1.outOfRoom := by
          rw [← hws2]
          split <;> rfl
        have htry := tryEdges_spec ih hproper hsome hsofts hroom hsaved softs.length 0 ws2 (Nat.zero_add _) hcur2 hn2
          (fun _ j hj => by rw [hmem2]; exact hres.2 j hj)
        rw [← List.range_eq_range'] at htry
        rcases htry with hsol | ⟨ws3, hrun, hk3, hun⟩
        · exact Or.inl hsol
        · refine Or.inr ⟨ws3, hrun, ?_, hr1, fun h0 orders hperm hsat => ?_⟩
          · exact ⟨hk3.curConstraints.trans hcur2, hk3.nPossibleConstraints,
              fun i hi => (hk3.below i hi).trans ((congrFun hmem2 i).trans (hk.below i hi)),
              fun h0 => hk.outOfRoom (hout2 ▸ hk3.outOfRoom h0)⟩
          · -- a soft edge that the orders reverse is the constraint to add
            by_cases hkeep : ∀ e ∈ softs, ¬Satisfies orders e
            · exact hcycle orders hperm hkeep
            · push Not at hkeep
              obtain ⟨e, he, hsat'⟩ := hkeep
              obtain ⟨j, hj, rfl⟩ := List.mem_iff_getElem.mp he
              refine hun h0 j (Nat.zero_le j) hj orders hperm fun c hc => ?_
              rcases List.mem_append.mp hc with hc | hc
              · exact hsat c hc
              · exact List.mem_singleton.mp hc ▸ hsat'

/-! ## 4. The check -/

omit [DecidableEq P] [Fintype P] in
/-- The queues that are installed are those of the orders. -/
theorem foldl_update_orders (waitOrders : List (WAIT_ORDER P L)) : ∀ queues : L → List P,
    (waitOrders.map (·.lock)).Nodup → ∀ lock,
    ((∀ order ∈ waitOrders, order.lock ≠ lock) ∧
      waitOrders.foldl (fun queues order => Function.update queues order.lock order.procs) queues lock = queues lock) ∨
    ∃ order ∈ waitOrders, order.lock = lock ∧
      waitOrders.foldl (fun queues order => Function.update queues order.lock order.procs) queues lock =
        order.procs := by
  induction waitOrders with
  | nil => exact fun _ _ lock => Or.inl ⟨fun _ ho => absurd ho List.not_mem_nil, rfl⟩
  | cons order waitOrders ih =>
      intro queues hn lock
      obtain ⟨hfresh, hn⟩ := List.nodup_cons.mp hn
      rw [List.foldl_cons]
      rcases ih (Function.update queues order.lock order.procs) hn lock with ⟨hno, heq⟩ | ⟨o, ho, hl, heq⟩
      · rw [heq]
        by_cases hl : order.lock = lock
        · subst hl
          exact Or.inr ⟨order, List.mem_cons_self, rfl, Function.update_self _ _ _⟩
        · refine Or.inl ⟨fun o ho => ?_, Function.update_of_ne (Ne.symm hl) _ _⟩
          rcases List.mem_cons.mp ho with rfl | ho
          · exact hl
          · exact hno o ho
      · exact Or.inr ⟨o, List.mem_cons_of_mem _ ho, hl, heq⟩

omit [DecidableEq P] [Fintype P] in
theorem installed_eq (waitOrders : List (WAIT_ORDER P L)) (hn : (waitOrders.map (·.lock)).Nodup) :
    waitOrders.foldl (fun queues order => Function.update queues order.lock order.procs) t.waitProcs =
      ordersOf t waitOrders := by
  funext lock
  rcases foldl_update_orders waitOrders t.waitProcs hn lock with ⟨hno, heq⟩ | ⟨o, ho, hl, heq⟩
  · rcases ordersOf_cases t waitOrders lock with ⟨_, hord⟩ | ⟨o, ho, hl, _⟩
    · rw [heq, hord]
    · exact absurd hl (hno o ho)
  · rcases ordersOf_cases t waitOrders lock with ⟨hno, _⟩ | ⟨o', ho', hl', hord⟩
    · exact absurd hl (hno o ho)
    · rw [heq, hord, List.inj_on_of_nodup_map hn ho ho' (hl.trans hl'.symm)]

omit [DecidableEq L] [Fintype P] in
/-- **Every cycle under the orders of a solution is one under the old orders**: whoever moved ahead is on none. -/
theorem cyclic_of_good {tested : List P} (hperm : Reorders t orders)
    (htested : ∀ p ∈ tested, ¬TransGen (WaitsFor t orders) p p)
    (hmoved : ∀ lock x y, (t.waitProcs lock).idxOf x < (t.waitProcs lock).idxOf y →
      (orders lock).idxOf y < (orders lock).idxOf x → y ∈ tested) {l : List P}
    (hl : Cycle.Cyclic (WaitsFor t orders) l) : Cycle.Cyclic (WaitsFor t t.waitProcs) l := by
  refine hl.imp fun a ha b hb hab => ?_
  rcases hab with hhard | ⟨lock, hw, hext, hidx, hc⟩
  · exact Or.inl hhard
  · refine Or.inr ⟨lock, hw, hext, ?_, hc⟩
    have hne : b ≠ a := fun heq => absurd hidx (heq ▸ Nat.lt_irrefl _)
    have hin : b ∈ t.waitProcs lock := (hperm lock).subset (mem_of_ahead hidx)
    rcases ahead_total hin hne with hahead | hbehind
    · exact hahead
    · exact absurd (hl.transGen hb) (htested b (hmoved lock a b hbehind hidx))

/-- **The deadlock check is exact.** Without lock groups it always returns. If it does not report a hard deadlock,
    the queues it installs are permutations of the old ones, no waits-for cycle under them contains the process, and
    every cycle under them existed before. If it does, there is a cycle through the process, and unless there was no
    room for a further constraint, every reordering of the wait queues leaves a cycle. -/
theorem deadlock_check_exact (h : t.Ok) (MyProc : P) (MaxBackends : Nat) (proc : P) :
    ∃ r, DeadLockCheck t MyProc MaxBackends proc = .ok r ∧
      (r.state ≠ .DS_HARD_DEADLOCK → Reorders t r.waitProcs ∧
        (∀ l, Cycle.Cyclic (WaitsFor t r.waitProcs) l → proc ∉ l) ∧
        ∀ l, Cycle.Cyclic (WaitsFor t r.waitProcs) l → Cycle.Cyclic (WaitsFor t t.waitProcs) l) ∧
      (r.state = .DS_HARD_DEADLOCK → (∃ l, Cycle.Cyclic (WaitsFor t t.waitProcs) l ∧ proc ∈ l) ∧
        (r.ws.outOfRoom = false → ∀ orders, Reorders t orders → ∃ l, Cycle.Cyclic (WaitsFor t orders) l)) := by
  have hrec := recurse_spec MyProc proc MaxBackends h MaxBackends
    ⟨[], [], fun _ => none, 0, [], none, false⟩ (fun _ hc => absurd hc List.not_mem_nil) (by simp only; omega)
  rcases hrec with ⟨ws', hrun, cs, hproper, hgood, hw⟩ | ⟨ws', hrun, hk, hnot, hun⟩
  · obtain ⟨hn, hperm, htested, hmoved⟩ := config_good h hproper hgood
    rw [← hw] at hn hperm htested hmoved
    have hinst := installed_eq (t := t) ws'.waitOrders hn
    have hproc : proc ∈ testedProcs proc cs := List.mem_append_right _ (List.mem_singleton.mpr rfl)
    refine ⟨_, by rw [DeadLockCheck, hrun]; rfl, fun _ => ?_, fun hhard => ?_⟩
    · simp only
      rw [hinst]
      exact ⟨hperm, fun l hl hmem => htested proc hproc (hl.transGen hmem),
        fun l hl => cyclic_of_good hperm htested hmoved hl⟩
    · simp only at hhard
      split at hhard
      · cases hhard
      · split at hhard <;> cases hhard
  · -- the empty configuration is no solution: so there is a cycle through the process
    have hspec := findLockCycle_spec MyProc h [] proc
    rcases hf : (findCycle t MyProc [] proc).1 with _ | found
    · refine absurd ?_ hnot
      unfold configResult ExpandConstraints
      rw [List.length_nil, expandLoop]
      simp only [testedProcs, List.flatMap_nil, List.nil_append]
      rw [testSofts, hf]
      rfl
    · rw [hf] at hspec
      obtain ⟨ws1, heq, hk1, _, _⟩ := findLockCycle_some { ws' with waitOrders := [] } hf 0
      refine ⟨_, by rw [DeadLockCheck, hrun]; simp only [bind, Except.bind, if_true]; rw [heq]; rfl,
        fun hno => absurd rfl hno, fun _ => ⟨?_, fun h0 orders hperm => ?_⟩⟩
      · have hsame : ordersOf t [] = t.waitProcs := rfl
        rw [hsame] at hspec
        exact Cycle.exists_cyclic
          (hspec.1.transGen (fun e he => hspec.1.softEdges e he) hspec.2)
      · obtain ⟨p, hp⟩ := hun (hk1.outOfRoom h0) orders hperm (fun _ hc => absurd hc List.not_mem_nil)
        obtain ⟨l, hl, _⟩ := Cycle.exists_cyclic hp
        exact ⟨l, hl⟩

/-- Two processes, each of which holds the lock that the other one waits for. -/
def crossed : LockTable (Fin 2) (Fin 2) where
  lockGroupLeader _ := none
  lockGroupMembers _ := []
  waitLock proc := some (proc + 1)
  waitLockMode _ := 1
  isAutovacuum _ := false
  relationExtend _ := false
  numLockModes _ := 1
  conflictTab _ _ := 2
  procLocks lock := [⟨lock, 2⟩]
  waitProcs lock := [lock + 1]

theorem crossed_ok : crossed.Ok where
  leader _ := rfl
  members _ := rfl
  mem_queue {lock proc} := by revert lock proc; decide
  nodup _ := List.nodup_singleton _

/-- There is no way to resolve it. -/
theorem deadlock_check_exact_crossed : ∃ r, DeadLockCheck crossed 0 2 0 = .ok r ∧ r.state = .DS_HARD_DEADLOCK ∧
    ∀ orders, Reorders crossed orders → ∃ l, Cycle.Cyclic (WaitsFor crossed orders) l := by
  obtain ⟨r, hr, _, hhard⟩ := deadlock_check_exact crossed_ok 0 2 0
  obtain ⟨r', hr', hstate, hroom⟩ : ∃ r', DeadLockCheck crossed 0 2 0 = .ok r' ∧ r'.state = .DS_HARD_DEADLOCK ∧
      r'.ws.outOfRoom = false := ⟨_, rfl, rfl, rfl⟩
  rw [hr] at hr'
  cases hr'
  exact ⟨r, hr, hstate, (hhard hstate).2 hroom⟩

end Pgvec.Deadlock
