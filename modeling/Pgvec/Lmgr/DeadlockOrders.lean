/-
  File:      Pgvec/Lmgr/DeadlockOrders.lean
  Subject:   THE QUEUE ORDERS the deadlock checker proposes: what TopoSort changes, and when it fails.

  Without lock groups a process is its own representative, and a constraint counts for the queue that holds its
  waiter and its blocker. When TopoSort outputs a process, every process behind it that is left still has a
  before-constraint: so two processes change places only if the one that moves ahead is the waiter of a
  constraint. When it fails, each process that is left must precede another one that is left.

  * `Sorting` -- the counters of TopoSort in terms of the constraints;
  * `topoLoop_some`, `topoLoop_none` -- the INVARIANT over the output loop;
  * **`expand_true`**, **`expand_false`** -- ExpandConstraints.
-/
import Pgvec.Lmgr.DeadlockSearch

namespace Pgvec.Deadlock

variable {P L : Type} [DecidableEq P] {t : LockTable P L}

/-! ## 1. Who stands ahead of whom -/

/-- In a queue without duplicates, to stand ahead of another one. -/
theorem ahead_iff {l : List P} (hl : l.Nodup) {x y : P} (hy : y ∈ l) : l.idxOf x < l.idxOf y ↔ [x, y].Sublist l := by
  induction l with
  | nil => exact absurd hy List.not_mem_nil
  | cons a l ih =>
      obtain ⟨ha, hl⟩ := List.nodup_cons.mp hl
      by_cases hay : a = y
      · subst hay
        rw [List.idxOf_cons_self]
        refine ⟨fun hlt => absurd hlt (Nat.not_lt_zero _), fun hs => ?_⟩
        -- the second one would have to be in the rest
        rcases List.sublist_cons_iff.mp hs with hs | ⟨r, hr, hs⟩
        · exact absurd (hs.subset (List.mem_cons_of_mem _ List.mem_cons_self)) ha
        · cases hr
          exact absurd (hs.subset List.mem_cons_self) ha
      · have hyl : y ∈ l := (List.mem_cons.mp hy).resolve_left (Ne.symm hay)
        rw [List.idxOf_cons_ne _ hay]
        by_cases hax : a = x
        · subst hax
          rw [List.idxOf_cons_self]
          exact ⟨fun _ => List.cons_sublist_cons.mpr (List.singleton_sublist.mpr hyl), fun _ => Nat.succ_pos _⟩
        · rw [List.idxOf_cons_ne _ hax, Nat.succ_lt_succ_iff, ih hl hyl]
          refine ⟨fun hs => hs.cons a, fun hs => ?_⟩
          rcases List.sublist_cons_iff.mp hs with hs | ⟨r, hr, _⟩
          · exact hs
          · cases hr
            exact absurd rfl hax

theorem ahead_total {l : List P} {x y : P} (hx : x ∈ l) (hne : x ≠ y) : l.idxOf x < l.idxOf y ∨ l.idxOf y < l.idxOf x :=
  lt_or_gt_of_ne fun heq => hne ((List.idxOf_inj hx).mp heq)

theorem mem_of_ahead {l : List P} {x y : P} (h : l.idxOf x < l.idxOf y) : x ∈ l :=
  List.idxOf_lt_length_iff.mp (h.trans_le List.idxOf_le_length)

/-! ## 2. The counters -/

theorem LockTable.Ok.inGroup (h : t.Ok) (proc x : P) : t.inGroup proc x = decide (x = proc) := by
  rw [LockTable.inGroup, h.leader]
  exact Bool.or_false _

/-- Both ends of the constraint are in the queue. -/
def Relevant (queue : List P) (c : EDGE P L) : Bool := decide (c.waiter ∈ queue) && decide (c.blocker ∈ queue)

theorem filter_inGroup (h : t.Ok) {queue : List P} (hq : queue.Nodup) (proc : P) :
    queue.filter (t.inGroup proc) = if proc ∈ queue then [proc] else [] := by
  have heq : queue.filter (t.inGroup proc) = queue.filter fun x => x = proc :=
    List.filter_congr fun x _ => h.inGroup proc x
  rw [heq, List.filter_eq]
  by_cases hp : proc ∈ queue
  · rw [if_pos hp, List.count_eq_one_of_mem hq hp]
    rfl
  · rw [if_neg hp, List.count_eq_zero_of_not_mem hp]
    rfl

theorem representative_eq (h : t.Ok) {queue : List P} (hq : queue.Nodup) (proc : P) (s : Topo P) :
    representative t queue proc s = (if proc ∈ queue then some proc else none, s) := by
  unfold representative
  rw [filter_inGroup h hq]
  by_cases hp : proc ∈ queue
  · simp only [if_pos hp, List.reverse_singleton, List.not_mem_nil, if_false]
  · simp only [if_neg hp, List.reverse_nil]

/-- One constraint, without lock groups. -/
theorem addConstraint_eq (h : t.Ok) {queue : List P} (hq : queue.Nodup) (s : Topo P) (c : EDGE P L) :
    addConstraint t queue s c = if Relevant queue c then
      { beforeConstraints := Function.update s.beforeConstraints c.waiter (s.beforeConstraints c.waiter + 1)
        afterConstraints := Function.update s.afterConstraints c.blocker (c.waiter :: s.afterConstraints c.blocker) }
    else s := by
  unfold addConstraint
  rw [representative_eq h hq]
  by_cases hw : c.waiter ∈ queue
  · rw [if_pos hw]
    simp only
    rw [representative_eq h hq]
    by_cases hb : c.blocker ∈ queue
    · have hrel : Relevant queue c = true := by rw [Relevant, decide_eq_true hw, decide_eq_true hb]; rfl
      rw [if_pos hb, if_pos hrel]
    · have hrel : ¬Relevant queue c = true := by
        rw [Relevant, decide_eq_false hb, Bool.and_false]
        exact Bool.false_ne_true
      rw [if_neg hb, if_neg hrel]
  · have hrel : ¬Relevant queue c = true := by
      rw [Relevant, decide_eq_false hw, Bool.false_and]
      exact Bool.false_ne_true
    rw [if_neg hw, if_neg hrel]

/-- The constraints that put a process ahead of one of the others. -/
def pending (cs : List (EDGE P L)) (rest : List P) (x : P) : Nat :=
  cs.countP fun c => decide (c.waiter = x) && decide (c.blocker ∈ rest)

/-- **The counters of TopoSort**, when the processes `rest` are left: of a process, the constraints that put it ahead
    of one that is left, and those that put others ahead of it. -/
structure Sorting (cs : List (EDGE P L)) (after : P → List P) (rest : List P) (before : P → Int) : Prop where
  before : ∀ x, before x = pending cs rest x
  after : ∀ x y, (after y).count x = pending cs [y] x

theorem sorting_start (h : t.Ok) {queue : List P} (hq : queue.Nodup) (cs : List (EDGE P L)) :
    Sorting (cs.filter (Relevant queue))
      (cs.foldl (addConstraint t queue) ⟨fun _ => 0, fun _ => []⟩).afterConstraints queue
      (cs.foldl (addConstraint t queue) ⟨fun _ => 0, fun _ => []⟩).beforeConstraints := by
  have hrun : ∀ (l done : List (EDGE P L)) (s : Topo P),
      Sorting (done.filter (Relevant queue)) s.afterConstraints queue s.beforeConstraints →
      Sorting ((done ++ l).filter (Relevant queue)) (l.foldl (addConstraint t queue) s).afterConstraints queue
        (l.foldl (addConstraint t queue) s).beforeConstraints := by
    intro l
    induction l with
    | nil =>
        intro done s hs
        rw [List.append_nil]
        exact hs
    | cons c l ih =>
        intro done s hs
        have hsplit : done ++ c :: l = done ++ [c] ++ l := by rw [List.append_assoc]; rfl
        rw [List.foldl_cons, hsplit]
        refine ih (done ++ [c]) _ ?_
        rw [addConstraint_eq h hq, List.filter_append]
        by_cases hrel : Relevant queue c = true
        · have hb : c.blocker ∈ queue := of_decide_eq_true (Bool.and_eq_true_iff.mp hrel).2
          rw [if_pos hrel, List.filter_cons_of_pos hrel]
          constructor
          · intro x
            dsimp only
            rw [pending, List.countP_append, List.filter_nil, List.countP_singleton, decide_eq_true hb, Bool.and_true]
            by_cases hx : c.waiter = x
            · subst hx
              rw [Function.update_self, hs.before, if_pos (decide_eq_true rfl)]
              rfl
            · rw [Function.update_of_ne (Ne.symm hx), hs.before, if_neg (by rw [decide_eq_true_eq]; exact hx)]
              rfl
          · intro x y
            dsimp only
            rw [pending, List.countP_append, List.filter_nil, List.countP_singleton]
            by_cases hy : y = c.blocker
            · subst hy
              rw [Function.update_self, List.count_cons, hs.after, decide_eq_true (List.mem_singleton.mpr rfl),
                Bool.and_true, pending]
              simp only [beq_iff_eq, decide_eq_true_eq]
            · have hy' : ¬(decide (c.waiter = x) && decide (c.blocker ∈ [y])) = true := by
                rw [Bool.and_eq_true, decide_eq_true_eq, decide_eq_true_eq, List.mem_singleton]
                exact fun hc => hy hc.2.symm
              rw [if_neg hy', Function.update_of_ne hy]
              exact hs.after x y
        · rw [if_neg hrel, List.filter_cons_of_neg hrel, List.filter_nil, List.append_nil]
          exact hs
  exact hrun cs [] _ ⟨fun _ => rfl, fun _ _ => rfl⟩

theorem foldl_decrement (preds : List P) : ∀ (before : P → Int) (x : P),
    preds.foldl (fun before pred => Function.update before pred (before pred - 1)) before x =
      before x - preds.count x := by
  induction preds with
  | nil => exact fun before x => (sub_zero _).symm
  | cons p preds ih =>
      intro before x
      rw [List.foldl_cons, ih, List.count_cons]
      by_cases hp : p = x
      · subst hp
        rw [Function.update_self, if_pos (beq_self_eq_true p)]
        push_cast
        omega
      · rw [Function.update_of_ne (Ne.symm hp), if_neg (fun hb => hp (eq_of_beq hb))]
        rfl

/-- The constraints of a process, before and after another one is output. -/
theorem pending_output {rest : List P} {j : P} (hj : j ∈ rest) (cs : List (EDGE P L)) (x : P) :
    pending cs rest x = pending cs (rest.filter fun x => x ≠ j) x + pending cs [j] x := by
  unfold pending
  induction cs with
  | nil => rfl
  | cons c cs ih =>
      rw [List.countP_cons, List.countP_cons, List.countP_cons, ih]
      have hone : (if (decide (c.waiter = x) && decide (c.blocker ∈ rest)) = true then 1 else 0) =
          (if (decide (c.waiter = x) && decide (c.blocker ∈ rest.filter fun x => x ≠ j)) = true then 1 else 0) +
            if (decide (c.waiter = x) && decide (c.blocker ∈ [j])) = true then 1 else 0 := by
        by_cases hx : c.waiter = x
        · by_cases hcj : c.blocker = j
          · simp [hx, hcj, hj]
          · simp [hx, hcj]
        · simp [hx]
      omega

/-- A process is output: its predecessors have one constraint less. -/
theorem Sorting.output {cs : List (EDGE P L)} {after : P → List P} {rest : List P} {before : P → Int}
    (h : Sorting cs after rest before) {j : P} (hj : j ∈ rest) :
    Sorting cs after (rest.filter fun x => x ≠ j)
      ((after j).foldl (fun before pred => Function.update before pred (before pred - 1)) before) where
  before x := by
    rw [foldl_decrement, h.before, h.after, pending_output hj]
    push_cast
    omega
  after := h.after

/-! ## 3. TopoSort -/

theorem LockTable.Ok.othersThan (h : t.Ok) (j : P) (rest : List P) :
    t.othersThan j rest = rest.filter fun x => x ≠ j := by
  unfold LockTable.othersThan
  refine List.filter_congr fun x _ => ?_
  rw [h.leaderOf, h.inGroup]
  exact (decide_not (p := x = j)).symm

theorem LockTable.Ok.groupOf (h : t.Ok) {j : P} {rest : List P} (hrest : rest.Nodup) (hj : j ∈ rest) :
    t.groupOf j rest = [j] := by
  unfold LockTable.groupOf
  rw [h.leaderOf, filter_inGroup h hrest, if_pos hj]

theorem filter_ne_eq_erase {rest : List P} (hrest : rest.Nodup) {j : P} :
    (rest.filter fun x => x ≠ j) = rest.erase j := by
  rw [hrest.erase_eq_filter]
  refine List.filter_congr fun x _ => ?_
  by_cases hx : x = j
  · subst hx
    rw [bne_self_eq_false]
    exact decide_eq_false fun hne => hne rfl
  · rw [bne_iff_ne.mpr hx]
    exact decide_eq_true hx

/-- The process that is output next: those behind it have before-constraints left. -/
theorem next_split {rest : List P} (hrest : rest.Nodup) {before : P → Int} {j y : P}
    (hj : rest.reverse.find? (fun x => before x = 0) = some j) (hy : [j, y].Sublist rest) : before y ≠ 0 := by
  obtain ⟨_, as, bs, hsplit, has⟩ := List.find?_eq_some_iff_append.mp hj
  have hrev : rest = bs.reverse ++ j :: as.reverse := by
    have := congrArg List.reverse hsplit
    rw [List.reverse_reverse, List.reverse_append, List.reverse_cons, List.append_assoc] at this
    exact this
  have hjr : j ∈ rest := hy.subset List.mem_cons_self
  have hyr : y ∈ rest := hy.subset (List.mem_cons_of_mem _ List.mem_cons_self)
  have hlt := (ahead_iff hrest hyr).mpr hy
  have hin : y ∈ as := by
    rw [hrev] at hyr
    rcases List.mem_append.mp hyr with hb | hc
    · -- it would stand ahead
      have hs : [y, j].Sublist rest := by
        rw [hrev]
        exact List.Sublist.append (List.singleton_sublist.mpr hb) (List.singleton_sublist.mpr List.mem_cons_self)
      exact absurd ((ahead_iff hrest hjr).mpr hs) (Nat.lt_asymm hlt)
    · rcases List.mem_cons.mp hc with rfl | hc
      · exact absurd hlt (Nat.lt_irrefl _)
      · exact List.mem_reverse.mp hc
  have := has y hin
  rw [Bool.not_eq_true', decide_eq_false_iff_not] at this
  exact this

theorem exists_of_pending {cs : List (EDGE P L)} {rest : List P} {x : P} (h : pending cs rest x ≠ 0) :
    ∃ c ∈ cs, c.waiter = x ∧ c.blocker ∈ rest := by
  obtain ⟨c, hc, hp⟩ := List.countP_pos_iff.mp (Nat.pos_of_ne_zero h)
  rw [Bool.and_eq_true, decide_eq_true_eq, decide_eq_true_eq] at hp
  exact ⟨c, hc, hp⟩

/-- **The output is a permutation, and who moves ahead of another one is the waiter of a constraint.** -/
theorem topoLoop_some (h : t.Ok) {cs : List (EDGE P L)} {after : P → List P} (rest : List P) (before : P → Int)
    (ordering : List P) : ∀ {out : List P}, rest.Nodup → Sorting cs after rest before →
    topoLoop t after rest before ordering = some out → ∃ out', out = out' ++ ordering ∧ out'.Perm rest ∧
      ∀ x y, [x, y].Sublist rest → [y, x].Sublist out' → ∃ c ∈ cs, c.waiter = y := by
  induction rest, before, ordering using topoLoop.induct t after with
  | case1 before ordering =>
      intro out _ _ hout
      rw [topoLoop, if_pos rfl] at hout
      exact ⟨[], (Option.some.inj hout).symm, .nil, fun x y hs => nomatch hs⟩
  | case2 rest before ordering hne hnone =>
      intro out _ _ hout
      rw [topoLoop, if_neg hne] at hout
      split at hout
      · cases hout
      · rename_i j hj
        rw [hnone] at hj
        cases hj
  | case3 rest before ordering hne j hj ih =>
      intro out hrest hsort hout
      have hjr : j ∈ rest := List.mem_reverse.mp (List.mem_of_find?_eq_some hj)
      rw [topoLoop, if_neg hne] at hout
      split at hout
      · cases hout
      · rename_i j' hj'
        rw [hj] at hj'
        cases hj'
        rw [h.groupOf hrest hjr] at hout ih
        rw [h.othersThan] at hout ih
        obtain ⟨out', rfl, hperm, hmove⟩ := ih (hrest.filter _) (hsort.output hjr) hout
        refine ⟨out' ++ [j], by rw [List.append_assoc]; rfl, ?_, fun x y hxy hyx => ?_⟩
        · rw [filter_ne_eq_erase hrest] at hperm
          exact (List.perm_append_singleton j out').trans ((hperm.cons j).trans (List.perm_cons_erase hjr).symm)
        · by_cases hx : x = j
          · subst hx
            have hpend := next_split hrest hj hxy
            rw [hsort.before] at hpend
            obtain ⟨c, hc, hcw, _⟩ := exists_of_pending (fun h0 => hpend (by rw [h0]; rfl))
            exact ⟨c, hc, hcw⟩
          · -- both were left, in the same order
            have hyx' : [y, x].Sublist out' := by
              have hrev := List.reverse_sublist.mpr hyx
              rw [List.reverse_append] at hrev
              rcases List.sublist_cons_iff.mp hrev with hs | ⟨r, hr, _⟩
              · exact List.reverse_sublist.mp hs
              · cases hr
                exact absurd rfl hx
            have hy : y ≠ j := by
              have := hperm.subset (hyx'.subset List.mem_cons_self)
              exact of_decide_eq_true (List.mem_filter.mp this).2
            have hxy' := hxy.filter fun x => x ≠ j
            have hboth : [x, y].filter (fun x => x ≠ j) = [x, y] := by
              refine List.filter_eq_self.mpr fun z hz => decide_eq_true ?_
              rcases List.mem_cons.mp hz with rfl | hz
              · exact hx
              · exact List.mem_singleton.mp hz ▸ hy
            rw [hboth] at hxy'
            exact hmove x y hxy' hyx'

/-- **When the sort fails**, every process of some set must precede another one of the set. -/
theorem topoLoop_none (h : t.Ok) {cs : List (EDGE P L)} {after : P → List P} (rest : List P) (before : P → Int)
    (ordering : List P) : rest.Nodup → Sorting cs after rest before → topoLoop t after rest before ordering = none →
    ∃ stuck : List P, stuck ≠ [] ∧ ∀ x ∈ stuck, ∃ c ∈ cs, c.waiter = x ∧ c.blocker ∈ stuck := by
  induction rest, before, ordering using topoLoop.induct t after with
  | case1 before ordering =>
      intro _ _ hout
      rw [topoLoop, if_pos rfl] at hout
      cases hout
  | case2 rest before ordering hne hnone =>
      intro _ hsort _
      refine ⟨rest, hne, fun x hx => ?_⟩
      have hb := List.find?_eq_none.mp hnone x (List.mem_reverse.mpr hx)
      rw [decide_eq_true_eq, hsort.before] at hb
      exact exists_of_pending fun h0 => hb (by rw [h0]; rfl)
  | case3 rest before ordering hne j hj ih =>
      intro hrest hsort hout
      have hjr : j ∈ rest := List.mem_reverse.mp (List.mem_of_find?_eq_some hj)
      rw [topoLoop, if_neg hne] at hout
      split at hout
      · rename_i hnone
        rw [hj] at hnone
        cases hnone
      · rename_i j' hj'
        rw [hj] at hj'
        cases hj'
        rw [h.othersThan] at hout ih
        exact ih (hrest.filter _) (hsort.output hjr) hout

variable {lock : L} {constraints : List (EDGE P L)}

/-- **`TopoSort`** succeeds. -/
theorem topoSort_some (h : t.Ok) {procs : List P} (hs : TopoSort t lock constraints = some procs) :
    procs.Perm (t.waitProcs lock) ∧ ∀ x y, (t.waitProcs lock).idxOf x < (t.waitProcs lock).idxOf y →
      procs.idxOf y < procs.idxOf x → ∃ c ∈ constraints, c.waiter = y := by
  have hq := h.nodup lock
  obtain ⟨out, rfl, hperm, hmove⟩ := topoLoop_some h _ _ _ hq (sorting_start h hq constraints) hs
  rw [List.append_nil]
  refine ⟨hperm, fun x y hxy hyx => ?_⟩
  have hy : y ∈ out := mem_of_ahead hyx
  have hx : x ∈ out := hperm.symm.subset (mem_of_ahead hxy)
  obtain ⟨c, hc, hcw⟩ := hmove x y ((ahead_iff hq (hperm.subset hy)).mp hxy)
    ((ahead_iff (hperm.nodup_iff.mpr hq) hx).mp hyx)
  exact ⟨c, (List.mem_filter.mp hc).1, hcw⟩

/-- **`TopoSort`** fails: no order of the queue has every waiter ahead of its blocker. -/
theorem topoSort_none (h : t.Ok) (hs : TopoSort t lock constraints = none) (order : P → Nat) :
    ∃ c ∈ constraints, c.waiter ∈ t.waitProcs lock ∧ ¬order c.waiter < order c.blocker := by
  have hq := h.nodup lock
  obtain ⟨stuck, hne, hstuck⟩ := topoLoop_none h _ _ _ hq (sorting_start h hq constraints) hs
  -- the last one of them in the order
  obtain ⟨x, hx, hmax⟩ := Finset.exists_max_image stuck.toFinset order (by
    obtain ⟨y, hy⟩ := List.exists_mem_of_ne_nil _ hne
    exact ⟨y, List.mem_toFinset.mpr hy⟩)
  obtain ⟨c, hc, rfl, hb⟩ := hstuck x (List.mem_toFinset.mp hx)
  obtain ⟨hc1, hc2⟩ := List.mem_filter.mp hc
  refine ⟨c, hc1, of_decide_eq_true (Bool.and_eq_true_iff.mp hc2).1, ?_⟩
  exact Nat.not_lt_of_ge (hmax _ (List.mem_toFinset.mpr hb))

/-! ## 4. ExpandConstraints -/

variable [DecidableEq L]

/-- Orders of the wait queues. -/
def Reorders (t : LockTable P L) (orders : L → List P) : Prop := ∀ lock, (orders lock).Perm (t.waitProcs lock)

/-- The waiter is ahead of the blocker. -/
def Satisfies (orders : L → List P) (c : EDGE P L) : Prop :=
  (orders c.lock).idxOf c.waiter < (orders c.lock).idxOf c.blocker

/-- A proposed order: a permutation of the queue, in which only waiters of constraints have moved ahead. -/
def Proposed (t : LockTable P L) (constraints : List (EDGE P L)) (lock : L) (procs : List P) : Prop :=
  procs.Perm (t.waitProcs lock) ∧ ∀ x y, (t.waitProcs lock).idxOf x < (t.waitProcs lock).idxOf y →
    procs.idxOf y < procs.idxOf x → ∃ c ∈ constraints, c.waiter = y

theorem expandLoop_spec (h : t.Ok) (hproper : ∀ c ∈ constraints, t.waitLock c.waiter = some c.lock) (i : Nat) :
    ∀ (waitOrders : List (WAIT_ORDER P L)), (waitOrders.map (·.lock)).Nodup →
    (∀ order ∈ waitOrders, Proposed t constraints order.lock order.procs) →
    match expandLoop t constraints i waitOrders with
    | (true, waitOrders') => (waitOrders'.map (·.lock)).Nodup ∧
        ∀ order ∈ waitOrders', Proposed t constraints order.lock order.procs
    | (false, _) => ∀ orders : L → List P, ∃ c ∈ constraints, ¬Satisfies orders c := by
  induction i with
  | zero => exact fun _ hn hok => ⟨hn, hok⟩
  | succ i ih =>
      intro waitOrders hn hok
      rw [expandLoop]
      rcases hc : constraints[i]? with _ | c
      · exact ih waitOrders hn hok
      simp only
      by_cases hany : (waitOrders.any fun order => order.lock = c.lock) = true
      · rw [if_pos hany]
        exact ih waitOrders hn hok
      rw [if_neg hany]
      have hsub : ∀ d ∈ constraints.take (i + 1), d ∈ constraints := fun d hd => List.mem_of_mem_take hd
      rcases hs : TopoSort t c.lock (constraints.take (i + 1)) with _ | procs
      · intro orders
        obtain ⟨d, hd, hdq, hdo⟩ := topoSort_none h hs fun x => (orders c.lock).idxOf x
        refine ⟨d, hsub d hd, ?_⟩
        -- the waiter waits for one lock only
        have hlock : d.lock = c.lock :=
          Option.some.inj ((hproper d (hsub d hd)).symm.trans (h.mem_queue.mp hdq))
        rw [Satisfies, hlock]
        exact hdo
      · refine ih _ ?_ fun order horder => ?_
        · rw [List.map_append, List.nodup_append]
          refine ⟨hn, List.nodup_singleton _, fun a ha b hb heq => hany ?_⟩
          obtain ⟨order, ho, rfl⟩ := List.mem_map.mp ha
          rw [List.any_eq_true]
          exact ⟨order, ho, decide_eq_true (heq.trans (List.mem_singleton.mp hb))⟩
        · rcases List.mem_append.mp horder with ho | ho
          · exact hok order ho
          · rw [List.mem_singleton.mp ho]
            obtain ⟨h1, h2⟩ := topoSort_some h hs
            refine ⟨h1, fun x y hxy hyx => ?_⟩
            obtain ⟨d, hd, hdw⟩ := h2 x y hxy hyx
            exact ⟨d, hsub d hd, hdw⟩

omit [DecidableEq P] in
/-- The order of a queue is the one on the list, or the true one. -/
theorem ordersOf_cases (t : LockTable P L) (waitOrders : List (WAIT_ORDER P L)) (lock : L) :
    ((∀ order ∈ waitOrders, order.lock ≠ lock) ∧ ordersOf t waitOrders lock = t.waitProcs lock) ∨
      ∃ order ∈ waitOrders, order.lock = lock ∧ ordersOf t waitOrders lock = order.procs := by
  unfold ordersOf
  split
  · rename_i order hf
    exact Or.inr ⟨order, List.mem_of_find?_eq_some hf, by simpa using List.find?_some hf, rfl⟩
  · rename_i hf
    exact Or.inl ⟨fun order ho hl => List.find?_eq_none.mp hf order ho (decide_eq_true hl), rfl⟩

/-- **The orders of a successful expansion.** -/
theorem expand_true (h : t.Ok) (hproper : ∀ c ∈ constraints, t.waitLock c.waiter = some c.lock)
    (hs : (ExpandConstraints t constraints).1 = true) :
    ((ExpandConstraints t constraints).2.map (·.lock)).Nodup ∧
      ∀ lock, Proposed t constraints lock (ordersOf t (ExpandConstraints t constraints).2 lock) := by
  have hspec := expandLoop_spec h hproper constraints.length [] List.nodup_nil
    (fun _ ho => absurd ho List.not_mem_nil)
  unfold ExpandConstraints at hs ⊢
  rcases hx : expandLoop t constraints constraints.length [] with ⟨_ | _, waitOrders⟩
  · rw [hx] at hs
    cases hs
  · rw [hx] at hspec
    refine ⟨hspec.1, fun lock => ?_⟩
    rcases ordersOf_cases t waitOrders lock with ⟨_, hord⟩ | ⟨order, ho, hl, hord⟩
    · rw [hord]
      exact ⟨.refl _, fun x y hxy hyx => absurd hyx (Nat.lt_asymm hxy)⟩
    · rw [hord]
      exact hl ▸ hspec.2 order ho

/-- **A failed expansion**: the constraints contradict each other. -/
theorem expand_false (h : t.Ok) (hproper : ∀ c ∈ constraints, t.waitLock c.waiter = some c.lock)
    (hs : (ExpandConstraints t constraints).1 = false) (orders : L → List P) :
    ∃ c ∈ constraints, ¬Satisfies orders c := by
  have hspec := expandLoop_spec h hproper constraints.length [] List.nodup_nil
    (fun _ ho => absurd ho List.not_mem_nil)
  unfold ExpandConstraints at hs
  rcases hx : expandLoop t constraints constraints.length [] with ⟨_ | _, waitOrders⟩
  · rw [hx] at hspec
    exact hspec orders
  · rw [hx] at hs
    cases hs

end Pgvec.Deadlock
