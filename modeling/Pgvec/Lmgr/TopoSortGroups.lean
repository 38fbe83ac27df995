/-
  File:      Pgvec/Lmgr/TopoSortGroups.lean
  Subject:   TOPOSORT WITH LOCK GROUPS, AND WITH CONSTRAINTS OF OTHER LOCKS (`src/backend/storage/lmgr/deadlock.c`).

  The queue holds the members of lock groups, the constraints name their leaders. The sort works on one
  representative of each group, the last one in the queue; so it is the sort of `LastFirst` on the groups, each
  one written out as the whole of its members.

  A constraint takes part if both of its groups wait in the queue; its lock is not compared. So a constraint of
  another lock takes part as well where both groups also wait here.

  * `Grouping` -- each process has a leader, which leads itself;
  * `Counted` -- the invariant: what the counters say about the groups that are left;
  * `topoSort_eq` -- the sort is the one of the groups;
  * **`ignores_iff_harmless`**, `other_lock_refuses`.
-/
import Pgvec.Lib.LastFirst
import Pgvec.Lmgr.DeadlockCheck
import Mathlib.Data.List.Dedup

namespace Pgvec.Deadlock

variable {P L : Type} [DecidableEq P] {t : LockTable P L}

/-! ## 1. Groups -/

/-- **Lock groups**: who has a leader has one that leads itself. -/
def LockTable.Grouping (t : LockTable P L) : Prop :=
  ∀ proc leader, t.lockGroupLeader proc = some leader → t.lockGroupLeader leader = some leader

omit [DecidableEq P] in
theorem LockTable.Grouping.leaderOf_leaderOf (h : t.Grouping) (x : P) : t.leaderOf (t.leaderOf x) = t.leaderOf x := by
  unfold LockTable.leaderOf
  cases hx : t.lockGroupLeader x with
  | none => rw [Option.getD_none, hx, Option.getD_none]
  | some l => rw [Option.getD_some, h x l hx, Option.getD_some]

/-- The test of the code, for a leader. -/
theorem inGroup_iff {g : P} (hg : t.leaderOf g = g) (x : P) : t.inGroup g x = decide (t.leaderOf x = g) := by
  rw [Bool.eq_iff_iff, LockTable.inGroup, Bool.or_eq_true, decide_eq_true_eq, decide_eq_true_eq, decide_eq_true_eq]
  constructor
  · intro h
    rcases h with rfl | h
    · exact hg
    · rw [LockTable.leaderOf, h, Option.getD_some]
  · intro h
    unfold LockTable.leaderOf at h
    cases hx : t.lockGroupLeader x with
    | none => exact Or.inl (by rwa [hx, Option.getD_none] at h)
    | some l => exact Or.inr (by rw [hx, Option.getD_some] at h; rw [h])

variable (t) in
/-- The groups of some processes, each at its last member. -/
def groups (rest : List P) : List P := (rest.map t.leaderOf).dedup

theorem mem_groups {rest : List P} {g : P} : g ∈ groups t rest ↔ ∃ x ∈ rest, t.leaderOf x = g := by
  rw [groups, List.mem_dedup, List.mem_map]

theorem groups_nil_iff {rest : List P} : groups t rest = [] ↔ rest = [] := by
  rw [groups, List.dedup_eq_nil, List.map_eq_nil_iff]

theorem dedup_filter (l : List P) (p : P → Bool) : (l.filter p).dedup = l.dedup.filter p := by
  induction l with
  | nil => rfl
  | cons a l ih =>
      by_cases hp : p a = true
      · rw [List.filter_cons_of_pos hp]
        by_cases ha : a ∈ l
        · rw [List.dedup_cons_of_mem (List.mem_filter.mpr ⟨ha, hp⟩), List.dedup_cons_of_mem ha, ih]
        · rw [List.dedup_cons_of_notMem (fun h => ha (List.mem_filter.mp h).1), List.dedup_cons_of_notMem ha, ih,
            List.filter_cons_of_pos hp]
      · rw [List.filter_cons_of_neg hp]
        by_cases ha : a ∈ l
        · rw [List.dedup_cons_of_mem ha, ih]
        · rw [List.dedup_cons_of_notMem ha, ih, List.filter_cons_of_neg hp]

/-- A group is left out as a whole. -/
theorem groups_without (rest : List P) (g : P) :
    groups t (rest.filter fun x => !decide (t.leaderOf x = g)) = (groups t rest).erase g := by
  have hnd : (groups t rest).Nodup := List.nodup_dedup _
  rw [hnd.erase_eq_filter, groups, groups, ← dedup_filter, List.filter_map]
  refine congrArg (fun l => (List.map t.leaderOf l).dedup) (List.filter_congr fun x _ => ?_)
  rw [Function.comp_apply, bne, beq_eq_decide]

/-- The representative of a group: the last one of it. -/
def IsRep (t : LockTable P L) (rest : List P) (x : P) : Prop :=
  rest.reverse.find? (fun y => decide (t.leaderOf y = t.leaderOf x)) = some x

theorem IsRep.unique {rest : List P} {x y : P} (hx : IsRep t rest x) (hy : IsRep t rest y)
    (h : t.leaderOf x = t.leaderOf y) : x = y := by
  unfold IsRep at hx hy
  rw [h, hy] at hx
  exact (Option.some.inj hx).symm

theorem IsRep.mem {rest : List P} {x : P} (hx : IsRep t rest x) : x ∈ rest :=
  List.mem_reverse.mp (List.mem_of_find?_eq_some hx)

/-- Groups that are left keep their representatives. -/
theorem isRep_filter {queue : List P} {keep : P → Bool} {x : P} (hx : keep (t.leaderOf x) = true) :
    IsRep t (queue.filter fun y => keep (t.leaderOf y)) x ↔ IsRep t queue x := by
  unfold IsRep
  rw [← List.filter_reverse, List.find?_filter]
  have heq : (fun y => decide (keep (t.leaderOf y) = true ∧ decide (t.leaderOf y = t.leaderOf x) = true)) =
      fun y => decide (t.leaderOf y = t.leaderOf x) := by
    funext y
    refine Bool.eq_iff_iff.mpr ?_
    simp only [decide_eq_true_eq]
    exact ⟨fun h => h.2, fun h => ⟨h ▸ hx, h⟩⟩
  rw [heq]

/-- **The search of the code is the search among the groups**, where the test of a representative is the one of its
    group, and the others pass only if their group does. -/
theorem find_groups (p q : P → Bool) (rest : List P) : rest.Nodup →
    (∀ x ∈ rest, IsRep t rest x → p x = q (t.leaderOf x)) →
    (∀ x ∈ rest, ¬ IsRep t rest x → p x = true → q (t.leaderOf x) = true) →
    (rest.reverse.find? p).map t.leaderOf = (groups t rest).reverse.find? q := by
  induction rest with
  | nil => exact fun _ _ _ => rfl
  | cons a rest ih =>
      intro hnd hrep hother
      obtain ⟨ha, hnd⟩ := List.nodup_cons.mp hnd
      have hback : ∀ x ∈ rest, (IsRep t (a :: rest) x ↔ IsRep t rest x) := by
        intro x hx
        unfold IsRep
        rw [List.reverse_cons, List.find?_append]
        have hsome : (rest.reverse.find? fun y => decide (t.leaderOf y = t.leaderOf x)).isSome :=
          List.find?_isSome.mpr ⟨x, List.mem_reverse.mpr hx, decide_eq_true rfl⟩
        obtain ⟨z, hz⟩ := Option.isSome_iff_exists.mp hsome
        rw [hz, Option.some_or]
      have hih := ih hnd (fun x hx hr => hrep x (List.mem_cons_of_mem _ hx) ((hback x hx).mpr hr))
        (fun x hx hr => hother x (List.mem_cons_of_mem _ hx) fun h => hr ((hback x hx).mp h))
      rw [List.reverse_cons, List.find?_append, List.find?_singleton]
      by_cases hmem : t.leaderOf a ∈ rest.map t.leaderOf
      · have hgroups : groups t (a :: rest) = groups t rest := by
          rw [groups, List.map_cons, List.dedup_cons_of_mem hmem, groups]
        rw [hgroups, ← hih]
        cases hfind : rest.reverse.find? p with
        | some x => rfl
        | none =>
            rw [hfind, Option.map_none] at hih
            -- the group is behind, and did not pass
            have hnot : ¬ q (t.leaderOf a) = true := by
              have := List.find?_eq_none.mp hih.symm (t.leaderOf a)
                (List.mem_reverse.mpr (List.mem_dedup.mpr hmem))
              exact this
            have hrep' : ¬ IsRep t (a :: rest) a := by
              unfold IsRep
              obtain ⟨y, hy, hya⟩ := List.mem_map.mp hmem
              rw [List.reverse_cons, List.find?_append]
              have hsome : (rest.reverse.find? fun z => decide (t.leaderOf z = t.leaderOf a)).isSome :=
                List.find?_isSome.mpr ⟨y, List.mem_reverse.mpr hy, decide_eq_true hya⟩
              obtain ⟨z, hz⟩ := Option.isSome_iff_exists.mp hsome
              rw [hz, Option.some_or]
              intro he
              exact ha (Option.some.inj he ▸ List.mem_reverse.mp (List.mem_of_find?_eq_some hz))
            have hp : ¬ p a = true := fun hp => hnot (hother a List.mem_cons_self hrep' hp)
            rw [if_neg hp]
            rfl
      · have hgroups : groups t (a :: rest) = t.leaderOf a :: groups t rest := by
          rw [groups, List.map_cons, List.dedup_cons_of_notMem hmem, groups]
        have hrep' : IsRep t (a :: rest) a := by
          unfold IsRep
          rw [List.reverse_cons, List.find?_append, List.find?_singleton, if_pos (decide_eq_true rfl)]
          rw [List.find?_eq_none.mpr, Option.none_or]
          intro y hy hya
          exact hmem (List.mem_map.mpr ⟨y, List.mem_reverse.mp hy, of_decide_eq_true hya⟩)
        rw [hgroups, List.reverse_cons, List.find?_append, List.find?_singleton, ← hih, hrep a List.mem_cons_self hrep']
        cases rest.reverse.find? p with
        | some x => rfl
        | none =>
            rw [Option.none_or, Option.map_none, Option.none_or]
            split <;> rfl

/-! ## 2. The counters -/

/-- **The counters say**, when the groups of `rest` are left of `queue`: of a representative, how many constraints put
    its group in front of one that is left; of another member, nothing; and in the list of a representative, the
    representatives of the groups that must precede its own. -/
structure Counted (t : LockTable P L) (cs : List (EDGE P L)) (queue rest : List P) (after : P → List P)
    (before : P → Int) : Prop where
  rep : ∀ x ∈ rest, IsRep t queue x → before x = pending cs (groups t rest) (t.leaderOf x)
  other : ∀ x ∈ rest, ¬ IsRep t queue x →
    before x = -1 ∨ (before x = 0 ∧ pending cs (groups t rest) (t.leaderOf x) = 0)
  after_rep : ∀ x y, IsRep t queue x → IsRep t queue y →
    (after y).count x = pending cs [t.leaderOf y] (t.leaderOf x)
  after_other : ∀ x y, ¬ IsRep t queue x → IsRep t queue y → (after y).count x = 0

/-- The representative that the code finds, and the marks that it makes. -/
theorem representative_cases {queue : List P} (hq : queue.Nodup) {g : P} (hg : t.leaderOf g = g) (s : Topo P) :
    (g ∉ groups t queue ∧ representative t queue g s = (none, s)) ∨
    ∃ jj, IsRep t queue jj ∧ t.leaderOf jj = g ∧ ∃ before, representative t queue g s =
        (some jj, { s with beforeConstraints := before }) ∧
      ∀ x, before x = if x ∈ queue ∧ t.leaderOf x = g ∧ x ≠ jj then -1 else s.beforeConstraints x := by
  have hfilter : queue.filter (t.inGroup g) = queue.filter fun x => decide (t.leaderOf x = g) :=
    List.filter_congr fun x _ => inGroup_iff hg x
  unfold representative
  rw [hfilter, ← List.filter_reverse]
  cases hrev : queue.reverse.filter fun x => decide (t.leaderOf x = g) with
  | nil =>
      refine Or.inl ⟨fun hmem => ?_, rfl⟩
      obtain ⟨x, hx, hxg⟩ := mem_groups.mp hmem
      exact List.filter_eq_nil_iff.mp hrev x (List.mem_reverse.mpr hx) (decide_eq_true hxg)
  | cons jj others =>
      have hjj : jj ∈ queue.reverse.filter fun x => decide (t.leaderOf x = g) := hrev ▸ List.mem_cons_self
      have hjg : t.leaderOf jj = g := of_decide_eq_true (List.mem_filter.mp hjj).2
      have hnd : (jj :: others).Nodup := hrev ▸ (List.nodup_reverse.mpr hq).filter _
      refine Or.inr ⟨jj, ?_, hjg, _, rfl, fun x => ?_⟩
      · unfold IsRep
        rw [hjg, ← List.head?_filter, hrev, List.head?_cons]
      · have hmem : x ∈ others ↔ x ∈ queue ∧ t.leaderOf x = g ∧ x ≠ jj := by
          constructor
          · intro hx
            have hxf : x ∈ queue.reverse.filter fun x => decide (t.leaderOf x = g) := hrev ▸ List.mem_cons_of_mem _ hx
            obtain ⟨h1, h2⟩ := List.mem_filter.mp hxf
            exact ⟨List.mem_reverse.mp h1, of_decide_eq_true h2, fun he => (List.nodup_cons.mp hnd).1 (he ▸ hx)⟩
          · intro ⟨h1, h2, h3⟩
            have hxf : x ∈ queue.reverse.filter fun x => decide (t.leaderOf x = g) :=
              List.mem_filter.mpr ⟨List.mem_reverse.mpr h1, decide_eq_true h2⟩
            exact (List.mem_cons.mp (hrev ▸ hxf)).resolve_left h3
        simp only [hmem]

section Start

variable {queue : List P} {done : List (EDGE P L)} {after : P → List P} {before before' : P → Int} {c : EDGE P L}

/-- Marking the others of a group changes nothing. -/
theorem Counted.mark (h : Counted t done queue queue after before) {jj : P} (hjj : IsRep t queue jj)
    (hmark : ∀ x, before' x = if x ∈ queue ∧ t.leaderOf x = t.leaderOf jj ∧ x ≠ jj then -1 else before x) :
    Counted t done queue queue after before' where
  rep := by
    intro x hx hr
    rw [hmark, if_neg (fun hc => hc.2.2 (hr.unique hjj hc.2.1)), h.rep x hx hr]
  other := by
    intro x hx hr
    rw [hmark]
    split
    · exact Or.inl rfl
    · exact h.other x hx hr
  after_rep := h.after_rep
  after_other := h.after_other

theorem pending_concat (left : List P) (g : P) : pending (done ++ [c]) left g =
    pending done left g + if c.waiter = g ∧ c.blocker ∈ left then 1 else 0 := by
  rw [pending, List.countP_append, List.countP_singleton, pending]
  simp only [Bool.and_eq_true, decide_eq_true_eq]

/-- A constraint of which a group does not wait here changes nothing. -/
theorem Counted.irrelevant (h : Counted t done queue queue after before)
    (hc : c.waiter ∉ groups t queue ∨ c.blocker ∉ groups t queue) :
    Counted t (done ++ [c]) queue queue after before := by
  have hin : ∀ {x}, x ∈ queue → t.leaderOf x ∈ groups t queue := fun hx => mem_groups.mpr ⟨_, hx, rfl⟩
  have hsame : ∀ {x}, x ∈ queue → pending (done ++ [c]) (groups t queue) (t.leaderOf x) =
      pending done (groups t queue) (t.leaderOf x) := by
    intro x hx
    rw [pending_concat, if_neg, Nat.add_zero]
    exact fun ⟨h1, h2⟩ => hc.elim (fun hw => hw (h1 ▸ hin hx)) fun hb => hb h2
  refine ⟨fun x hx hr => ?_, fun x hx hr => ?_, fun x y hx hy => ?_, h.after_other⟩
  · rw [hsame hx, h.rep x hx hr]
  · rw [hsame hx]
    exact h.other x hx hr
  · rw [pending_concat, if_neg, Nat.add_zero, h.after_rep x y hx hy]
    intro ⟨h1, h2⟩
    rw [List.mem_singleton] at h2
    exact hc.elim (fun hw => hw (h1 ▸ hin hx.mem)) fun hb => hb (h2 ▸ hin hy.mem)

/-- A constraint of two groups that wait here is counted, and listed. -/
theorem Counted.add (h : Counted t done queue queue after before) {jj kk : P} (hjj : IsRep t queue jj)
    (hkk : IsRep t queue kk) (hjc : t.leaderOf jj = c.waiter) (hkc : t.leaderOf kk = c.blocker)
    (hmarked : ∀ x ∈ queue, t.leaderOf x = c.waiter → x ≠ jj → before x = -1) :
    Counted t (done ++ [c]) queue queue (Function.update after kk (jj :: after kk))
      (Function.update before jj (before jj + 1)) := by
  have hblocker : c.blocker ∈ groups t queue := mem_groups.mpr ⟨kk, hkk.mem, hkc⟩
  refine ⟨fun x hx hr => ?_, fun x hx hr => ?_, fun x y hx hy => ?_, fun x y hx hy => ?_⟩
  · rw [pending_concat]
    by_cases hxj : x = jj
    · subst hxj
      rw [Function.update_self, h.rep x hx hr, if_pos ⟨hjc.symm, hblocker⟩]
      push_cast
      rfl
    · rw [Function.update_of_ne hxj, h.rep x hx hr, if_neg fun hc => hxj (hr.unique hjj (hc.1.symm.trans hjc.symm)),
        Nat.add_zero]
  · have hxj : x ≠ jj := fun he => hr (he ▸ hjj)
    rw [Function.update_of_ne hxj, pending_concat]
    by_cases hw : c.waiter = t.leaderOf x
    · exact Or.inl (hmarked x hx hw.symm hxj)
    · rw [if_neg fun hc => hw hc.1, Nat.add_zero]
      exact h.other x hx hr
  · rw [pending_concat, ← h.after_rep x y hx hy]
    by_cases hyk : y = kk
    · subst hyk
      rw [Function.update_self, List.count_cons]
      refine congrArg (_ + ·) (if_congr ?_ rfl rfl)
      rw [beq_iff_eq, List.mem_singleton]
      exact ⟨fun he => ⟨hjc.symm.trans (congrArg t.leaderOf he), hkc.symm⟩,
        fun hc => hjj.unique hx (hjc.trans hc.1)⟩
    · rw [Function.update_of_ne hyk, if_neg, Nat.add_zero]
      exact fun hc => hyk (hy.unique hkk ((List.mem_singleton.mp hc.2).symm.trans hkc.symm))
  · by_cases hyk : y = kk
    · subst hyk
      rw [Function.update_self, List.count_cons_of_ne (fun he : jj = x => hx (he ▸ hjj)), h.after_other x y hx hy]
    · rw [Function.update_of_ne hyk, h.after_other x y hx hy]

/-- The leaders of groups are what a constraint names. -/
def NamesLeaders (t : LockTable P L) (c : EDGE P L) : Prop :=
  t.leaderOf c.waiter = c.waiter ∧ t.leaderOf c.blocker = c.blocker

/-- **One constraint.** -/
theorem counted_constraint (hq : queue.Nodup) (hc : NamesLeaders t c) {s : Topo P}
    (h : Counted t done queue queue s.afterConstraints s.beforeConstraints) :
    Counted t (done ++ [c]) queue queue (addConstraint t queue s c).afterConstraints
      (addConstraint t queue s c).beforeConstraints := by
  unfold addConstraint
  rcases representative_cases hq hc.1 s with ⟨hnot, hrep⟩ | ⟨jj, hjj, hjc, before₁, hrep, hmark₁⟩
  · rw [hrep]
    exact h.irrelevant (Or.inl hnot)
  · rw [hrep]
    have h₁ := h.mark hjj (by rw [hjc]; exact hmark₁)
    simp only
    rcases representative_cases hq hc.2 { s with beforeConstraints := before₁ } with
      ⟨hnot, hrep'⟩ | ⟨kk, hkk, hkc, before₂, hrep', hmark₂⟩
    · rw [hrep']
      exact h₁.irrelevant (Or.inr hnot)
    · rw [hrep']
      refine (h₁.mark hkk (by rw [hkc]; exact hmark₂)).add hjj hkk hjc hkc fun x hx hxw hxj => ?_
      refine (hmark₂ x).trans ?_
      split
      · rfl
      · exact (hmark₁ x).trans (if_pos ⟨hx, hxw, hxj⟩)

theorem counted_start (hq : queue.Nodup) (cs : List (EDGE P L)) (hcs : ∀ c ∈ cs, NamesLeaders t c) :
    Counted t cs queue queue (cs.foldl (addConstraint t queue) ⟨fun _ => 0, fun _ => []⟩).afterConstraints
      (cs.foldl (addConstraint t queue) ⟨fun _ => 0, fun _ => []⟩).beforeConstraints := by
  induction cs using List.reverseRecOn with
  | nil => exact ⟨fun _ _ _ => rfl, fun _ _ _ => Or.inr ⟨rfl, rfl⟩, fun _ _ _ _ => rfl, fun _ _ _ _ => rfl⟩
  | append_singleton cs c ih =>
      rw [List.foldl_append]
      exact counted_constraint hq (hcs c (List.mem_append_right _ List.mem_cons_self))
        (ih fun c hc => hcs c (List.mem_append_left _ hc))

end Start

/-! ## 3. The sort is the one of the groups -/

/-- The constraints as edges between groups. -/
def edges (cs : List (EDGE P L)) : List (P × P) := cs.map fun c => (c.waiter, c.blocker)

/-- The members of a group in the order in which they are written. -/
def members (t : LockTable P L) (queue : List P) (g : P) : List P :=
  (queue.filter fun x => decide (t.leaderOf x = g)).reverse

theorem free_iff {cs : List (EDGE P L)} {left : List P} {g : P} :
    LastFirst.Free (edges cs) left g ↔ pending cs left g = 0 := by
  unfold LastFirst.Free edges pending
  rw [List.countP_eq_zero]
  simp only [List.forall_mem_map, Bool.and_eq_true, decide_eq_true_eq, not_and]

section Loop

variable {cs : List (EDGE P L)} {queue rest : List P} {after : P → List P} {before : P → Int} {keep : P → Bool}

/-- The next group. -/
theorem next_group (hrest : rest = queue.filter fun x => keep (t.leaderOf x)) (hnd : rest.Nodup)
    (h : Counted t cs queue rest after before) :
    (rest.reverse.find? fun x => before x = 0).map t.leaderOf = LastFirst.next (edges cs) (groups t rest) := by
  have hrep : ∀ x ∈ rest, (IsRep t rest x ↔ IsRep t queue x) := by
    intro x hx
    rw [hrest] at hx ⊢
    exact isRep_filter (List.mem_filter.mp hx).2
  refine find_groups _ _ rest hnd (fun x hx hr => ?_) fun x hx hr hb => ?_
  · rw [h.rep x hx ((hrep x hx).mp hr)]
    refine decide_eq_decide.mpr ?_
    rw [free_iff]
    exact Int.natCast_eq_zero
  · refine decide_eq_true (free_iff.mpr ?_)
    rcases h.other x hx (fun hq => hr ((hrep x hx).mpr hq)) with hneg | ⟨-, hzero⟩
    · rw [decide_eq_true_eq, hneg] at hb
      cases hb
    · exact hzero

/-- What is found is the representative of its group. -/
theorem rep_of_find (hrest : rest = queue.filter fun x => keep (t.leaderOf x))
    (h : Counted t cs queue rest after before) {j : P} (hj : rest.reverse.find? (fun x => before x = 0) = some j) :
    IsRep t queue j := by
  have hjr : j ∈ rest := List.mem_reverse.mp (List.mem_of_find?_eq_some hj)
  have hback : ∀ x ∈ rest, (IsRep t rest x ↔ IsRep t queue x) := by
    intro x hx
    rw [hrest] at hx ⊢
    exact isRep_filter (List.mem_filter.mp hx).2
  by_contra hnot
  obtain ⟨hbj, as, bs, hsplit, has⟩ := List.find?_eq_some_iff_append.mp hj
  rcases h.other j hjr hnot with hneg | ⟨-, hzero⟩
  · rw [decide_eq_true_eq, hneg] at hbj
    cases hbj
  · -- the representative of the group stands behind it, and passes
    have hsome : (rest.reverse.find? fun y => decide (t.leaderOf y = t.leaderOf j)).isSome :=
      List.find?_isSome.mpr ⟨j, List.mem_reverse.mpr hjr, decide_eq_true rfl⟩
    obtain ⟨r, hr⟩ := Option.isSome_iff_exists.mp hsome
    have hrg : t.leaderOf r = t.leaderOf j :=
      of_decide_eq_true (List.find?_some (p := fun y => decide (t.leaderOf y = t.leaderOf j)) hr)
    have hrr : r ∈ rest := List.mem_reverse.mp (List.mem_of_find?_eq_some hr)
    have hrep : IsRep t rest r := by
      unfold IsRep
      rw [hrg]
      exact hr
    have hrq := (hback r hrr).mp hrep
    have hne : r ≠ j := fun he => hnot (he ▸ hrq)
    have hras : r ∈ as := by
      rw [hsplit, List.find?_append] at hr
      cases hfind : as.find? fun y => decide (t.leaderOf y = t.leaderOf j) with
      | none =>
          simp only [hfind, Option.none_or, List.find?_cons, decide_true] at hr
          exact absurd (Option.some.inj hr).symm hne
      | some r' =>
          rw [hfind, Option.some_or] at hr
          exact Option.some.inj hr ▸ List.mem_of_find?_eq_some hfind
    have hbr := has r hras
    rw [Bool.not_eq_true', decide_eq_false_iff_not, h.rep r hrr hrq, hrg, hzero] at hbr
    exact hbr rfl

/-- A group is output. -/
theorem Counted.output (h : Counted t cs queue rest after before) {j : P} (hj : j ∈ rest) (hr : IsRep t queue j) :
    Counted t cs queue (rest.filter fun x => !decide (t.leaderOf x = t.leaderOf j)) after
      ((after j).foldl (fun before pred => Function.update before pred (before pred - 1)) before) := by
  have hnd : (groups t rest).Nodup := List.nodup_dedup _
  have hsplit : ∀ g, pending cs (groups t rest) g =
      pending cs ((groups t rest).erase (t.leaderOf j)) g + pending cs [t.leaderOf j] g := by
    intro g
    rw [pending_output (mem_groups.mpr ⟨j, hj, rfl⟩) cs g, filter_ne_eq_erase hnd]
  refine ⟨fun x hx hxr => ?_, fun x hx hxr => ?_, h.after_rep, h.after_other⟩
  · have hx' := (List.mem_filter.mp hx).1
    rw [foldl_decrement, h.rep x hx' hxr, h.after_rep x j hxr hr, groups_without, hsplit]
    push_cast
    omega
  · have hx' := (List.mem_filter.mp hx).1
    rw [foldl_decrement, h.after_other x j hxr hr, groups_without]
    refine (h.other x hx' hxr).imp (fun hb => by rw [hb]; rfl) fun hb => ?_
    obtain ⟨hb, hzero⟩ := hb
    rw [hsplit] at hzero
    exact ⟨by rw [hb]; rfl, by omega⟩

/-- **The loop is the sort of the groups.** -/
theorem topoLoop_eq (hG : t.Grouping) (rest : List P) (before : P → Int) (ordering : List P) : ∀ keep : P → Bool,
    rest = queue.filter (fun x => keep (t.leaderOf x)) → rest.Nodup → Counted t cs queue rest after before →
    topoLoop t after rest before ordering =
      (LastFirst.sort (edges cs) (groups t rest)).map fun gs => gs.flatMap (members t queue) ++ ordering := by
  induction rest, before, ordering using topoLoop.induct t after with
  | case1 before ordering =>
      intro keep _ _ _
      rw [topoLoop, if_pos rfl, groups_nil_iff.mpr rfl, LastFirst.sort_nil]
      rfl
  | case2 rest before ordering hne hnone =>
      intro keep hrest hnd h
      have hnext := next_group hrest hnd h
      rw [hnone, Option.map_none] at hnext
      rw [LastFirst.sort_of_next_none (fun he => hne (groups_nil_iff.mp he)) hnext.symm, topoLoop, if_neg hne]
      split
      · rfl
      · rename_i j hj
        rw [hnone] at hj
        cases hj
  | case3 rest before ordering hne j hj ih =>
      intro keep hrest hnd h
      have hjr : j ∈ rest := List.mem_reverse.mp (List.mem_of_find?_eq_some hj)
      have hnext := next_group hrest hnd h
      rw [hj, Option.map_some] at hnext
      have hother : t.othersThan j rest = rest.filter fun x => !decide (t.leaderOf x = t.leaderOf j) := by
        unfold LockTable.othersThan
        refine List.filter_congr fun x _ => ?_
        rw [inGroup_iff (hG.leaderOf_leaderOf j)]
      have hgroup : (t.groupOf j rest).reverse = members t queue (t.leaderOf j) := by
        unfold LockTable.groupOf members
        rw [hrest, List.filter_filter]
        refine congrArg List.reverse (List.filter_congr fun x _ => ?_)
        rw [inGroup_iff (hG.leaderOf_leaderOf j)]
        by_cases hx : t.leaderOf x = t.leaderOf j
        · rw [hrest] at hjr
          rw [decide_eq_true hx, hx, (List.mem_filter.mp hjr).2]
          rfl
        · rw [decide_eq_false hx]
          rfl
      rw [hother] at ih
      have hkeep : (rest.filter fun x => !decide (t.leaderOf x = t.leaderOf j)) =
          queue.filter fun x => !decide (t.leaderOf x = t.leaderOf j) && keep (t.leaderOf x) := by
        rw [hrest, List.filter_filter]
      have hih := ih (fun g => !decide (g = t.leaderOf j) && keep g) hkeep (hnd.filter _)
        (h.output hjr (rep_of_find hrest h hj))
      rw [topoLoop, if_neg hne]
      split
      · rename_i hnone
        rw [hj] at hnone
        cases hnone
      · rename_i j' hj'
        rw [hj] at hj'
        cases hj'
        rw [hother, hih, groups_without, LastFirst.sort_of_next hnext.symm, Option.map_map, hgroup]
        refine congrArg (fun f => Option.map f _) (funext fun gs => ?_)
        rw [Function.comp_apply, List.flatMap_append, List.flatMap_singleton, List.append_assoc]

end Loop

/-! ## 4. TopoSort -/

section TopoSort

variable {lock : L} {constraints cs : List (EDGE P L)}

/-- The group waits in the queue. -/
def GroupWaits (t : LockTable P L) (lock : L) (g : P) : Prop := ∃ x ∈ t.waitProcs lock, t.leaderOf x = g

/-- **`TopoSort` is the sort of the groups in the queue.** -/
theorem topoSort_eq (hG : t.Grouping) (hq : (t.waitProcs lock).Nodup) (hcs : ∀ c ∈ cs, NamesLeaders t c) :
    TopoSort t lock cs = (LastFirst.sort (edges cs) (groups t (t.waitProcs lock))).map fun gs =>
      gs.flatMap (members t (t.waitProcs lock)) := by
  have hall : t.waitProcs lock = (t.waitProcs lock).filter fun x => (fun _ => true) (t.leaderOf x) :=
    (List.filter_eq_self.mpr fun _ _ => rfl).symm
  have h := topoLoop_eq hG (t.waitProcs lock) _ [] (fun _ => true) hall hq (counted_start hq cs hcs)
  simp only [List.append_nil] at h
  exact h

theorem groups_pairwise (queue : List P) :
    (groups t queue).Pairwise fun a b => (groups t queue).idxOf a < (groups t queue).idxOf b := by
  have hnd : (groups t queue).Nodup := List.nodup_dedup _
  rw [List.pairwise_iff_getElem]
  intro i j hi hj hij
  rwa [hnd.idxOf_getElem, hnd.idxOf_getElem]

theorem mem_members {queue : List P} {g x : P} : x ∈ members t queue g ↔ x ∈ queue ∧ t.leaderOf x = g := by
  rw [members, List.mem_reverse, List.mem_filter, decide_eq_true_eq]

/-- Groups written out. -/
theorem nodup_members {queue : List P} (hq : queue.Nodup) {gs : List P} (hgs : gs.Nodup) :
    (gs.flatMap (members t queue)).Nodup := by
  refine List.nodup_flatMap.mpr
    ⟨fun g _ => List.nodup_reverse.mpr (hq.filter _), hgs.imp fun {g g'} hne x hx hx' => ?_⟩
  exact hne ((mem_members.mp hx).2.symm.trans (mem_members.mp hx').2)

/-- The members stand as their groups do. -/
theorem members_ahead {queue : List P} (hq : queue.Nodup) {gs : List P} (hgs : gs.Nodup) {x y : P} (hx : x ∈ queue)
    (hy : y ∈ queue) (h : [t.leaderOf x, t.leaderOf y].Sublist gs) :
    (gs.flatMap (members t queue)).idxOf x < (gs.flatMap (members t queue)).idxOf y := by
  refine LastFirst.idxOf_lt_of_sublist (nodup_members hq hgs) (List.Sublist.trans ?_ (h.flatMap _))
  rw [List.flatMap_cons, List.flatMap_singleton]
  exact List.Sublist.append (List.singleton_sublist.mpr (mem_members.mpr ⟨hx, rfl⟩))
    (List.singleton_sublist.mpr (mem_members.mpr ⟨hy, rfl⟩))

/-- Of two groups, one stands in front of the other. -/
theorem sublist_or {gs : List P} (hgs : gs.Nodup) {g g' : P} (hg : g ∈ gs) (hg' : g' ∈ gs) (hne : g ≠ g') :
    [g, g'].Sublist gs ∨ [g', g].Sublist gs :=
  (ahead_total hg hne).imp (ahead_iff hgs hg').mp (ahead_iff hgs hg).mp

/-- **What the output is to be**: a permutation of the queue, each group in one piece, the waiter's group of each
    constraint in front of the blocker's. -/
structure SortedFor (t : LockTable P L) (lock : L) (cs : List (EDGE P L)) (procs : List P) : Prop where
  perm : procs.Perm (t.waitProcs lock)
  adjacent : ∀ x y z, [x, y, z].Sublist procs → t.leaderOf x = t.leaderOf z → t.leaderOf y = t.leaderOf x
  before : ∀ c ∈ cs, ∀ x ∈ t.waitProcs lock, ∀ y ∈ t.waitProcs lock, t.leaderOf x = c.waiter →
    t.leaderOf y = c.blocker → procs.idxOf x < procs.idxOf y

/-- There is an order of the groups in the queue that satisfies the constraints. -/
def Satisfiable (t : LockTable P L) (lock : L) (cs : List (EDGE P L)) : Prop :=
  ∃ order : List P, order.Perm (groups t (t.waitProcs lock)) ∧
    ∀ c ∈ cs, GroupWaits t lock c.waiter → GroupWaits t lock c.blocker → [c.waiter, c.blocker].Sublist order

theorem sortedFor_latest (hq : (t.waitProcs lock).Nodup) {order : List P} {pos : P → Nat}
    (h : LastFirst.Latest (edges cs) pos (groups t (t.waitProcs lock)) order) :
    SortedFor t lock cs (order.flatMap (members t (t.waitProcs lock))) := by
  have hnd : order.Nodup := h.perm.nodup_iff.mpr (List.nodup_dedup _)
  have hmem : ∀ x, x ∈ t.waitProcs lock → t.leaderOf x ∈ order := fun x hx =>
    h.perm.symm.subset (mem_groups.mpr ⟨x, hx, rfl⟩)
  have hperm : (order.flatMap (members t (t.waitProcs lock))).Perm (t.waitProcs lock) := by
    refine (List.perm_ext_iff_of_nodup (nodup_members hq hnd) hq).mpr fun x => ?_
    rw [List.mem_flatMap]
    exact ⟨fun ⟨_, _, hx⟩ => (mem_members.mp hx).1, fun hx => ⟨_, hmem x hx, mem_members.mpr ⟨hx, rfl⟩⟩⟩
  refine ⟨hperm, fun x y z hsub hxz => ?_, fun c hc x hx y hy hxc hyc => ?_⟩
  · -- another group would stand on both sides of it
    have hx := hperm.subset (hsub.subset List.mem_cons_self)
    have hy := hperm.subset (hsub.subset (List.mem_cons_of_mem _ List.mem_cons_self))
    have hz := hperm.subset (hsub.subset (List.mem_cons_of_mem _ (List.mem_cons_of_mem _ List.mem_cons_self)))
    have hnd' := nodup_members (t := t) hq hnd
    have hxy := LastFirst.idxOf_lt_of_sublist hnd' ((List.sublist_append_left [x, y] [z]).trans hsub)
    have hyz := LastFirst.idxOf_lt_of_sublist hnd' ((List.sublist_append_right [x] [y, z]).trans hsub)
    by_contra hne
    rcases sublist_or hnd (hmem y hy) (hmem x hx) hne with hs | hs
    · exact Nat.lt_asymm hxy (members_ahead hq hnd hy hx hs)
    · exact Nat.lt_asymm hyz (members_ahead hq hnd hz hy (hxz ▸ hs))
  · refine members_ahead hq hnd hx hy ?_
    rw [hxc, hyc]
    have he : (c.waiter, c.blocker) ∈ edges cs := List.mem_map.mpr ⟨c, hc, rfl⟩
    exact h.satisfies he (mem_groups.mpr ⟨x, hx, hxc⟩) (mem_groups.mpr ⟨y, hy, hyc⟩)

/-- **`TopoSort` sorts by all the constraints it is given.** -/
theorem topoSort_spec (hG : t.Grouping) (hq : (t.waitProcs lock).Nodup) (hcs : ∀ c ∈ cs, NamesLeaders t c) :
    ((∃ procs, TopoSort t lock cs = some procs) ↔ Satisfiable t lock cs) ∧
      ∀ procs, TopoSort t lock cs = some procs → SortedFor t lock cs procs := by
  have hpos := groups_pairwise (t := t) (t.waitProcs lock)
  rw [topoSort_eq hG hq hcs]
  refine ⟨⟨fun ⟨procs, h⟩ => ?_, fun ⟨order, hperm, horder⟩ => ?_⟩, fun procs h => ?_⟩
  · obtain ⟨gs, hgs, -⟩ := Option.map_eq_some_iff.mp h
    have hlatest := (LastFirst.sort_eq_some_iff _ hpos).mp hgs
    refine ⟨gs, hlatest.perm, fun c hc hw hb => ?_⟩
    have he : (c.waiter, c.blocker) ∈ edges cs := List.mem_map.mpr ⟨c, hc, rfl⟩
    exact hlatest.satisfies he (mem_groups.mpr hw) (mem_groups.mpr hb)
  · have hnd : order.Nodup := hperm.nodup_iff.mpr (List.nodup_dedup _)
    have hrank : ∀ e ∈ edges cs, e.1 ∈ groups t (t.waitProcs lock) → e.2 ∈ groups t (t.waitProcs lock) →
        order.idxOf e.1 < order.idxOf e.2 := by
      intro e he h1 h2
      obtain ⟨c, hc, rfl⟩ := List.mem_map.mp he
      exact LastFirst.idxOf_lt_of_sublist hnd (horder c hc (mem_groups.mp h1) (mem_groups.mp h2))
    obtain ⟨gs, hgs⟩ := (LastFirst.exists_sort_iff hpos).mpr ⟨order.idxOf, hrank⟩
    exact ⟨_, by rw [hgs, Option.map_some]⟩
  · obtain ⟨gs, hgs, rfl⟩ := Option.map_eq_some_iff.mp h
    exact sortedFor_latest hq ((LastFirst.sort_eq_some_iff _ hpos).mp hgs)

/-! ## 5. Constraints of other locks -/

variable [DecidableEq L]

/-- The constraints of this lock. -/
def own (lock : L) (constraints : List (EDGE P L)) : List (EDGE P L) := constraints.filter fun c => c.lock = lock

/-- **The sort ignores the constraints of other locks**: it succeeds exactly where those of this lock can be satisfied,
    it is sorted for them, and it is the same without the others. -/
structure IgnoresOthers (t : LockTable P L) (lock : L) (constraints : List (EDGE P L)) : Prop where
  succeeds : (∃ procs, TopoSort t lock constraints = some procs) ↔ Satisfiable t lock (own lock constraints)
  sorted : ∀ procs, TopoSort t lock constraints = some procs → SortedFor t lock (own lock constraints) procs
  same : TopoSort t lock constraints = TopoSort t lock (own lock constraints)

/-- **The others do no harm**: where two groups of a constraint of another lock both wait here, they stand in its
    order already, in the order of the groups for the constraints of this lock in which each position, from the last
    one on, has the group that waits last of those that may stand there. -/
def Harmless (t : LockTable P L) (lock : L) (constraints : List (EDGE P L)) : Prop :=
  ∀ order, LastFirst.Latest (edges (own lock constraints)) (groups t (t.waitProcs lock)).idxOf
      (groups t (t.waitProcs lock)) order →
    ∀ c ∈ constraints, c.lock ≠ lock → GroupWaits t lock c.waiter → GroupWaits t lock c.blocker →
      [c.waiter, c.blocker].Sublist order

/-- **When the constraints of other locks are ignored.** -/
theorem ignores_iff_harmless (hG : t.Grouping) (hq : (t.waitProcs lock).Nodup)
    (hcs : ∀ c ∈ constraints, NamesLeaders t c) : IgnoresOthers t lock constraints ↔ Harmless t lock constraints := by
  have hpos := groups_pairwise (t := t) (t.waitProcs lock)
  have hown : ∀ c ∈ own lock constraints, NamesLeaders t c := fun c hc => hcs c (List.mem_filter.mp hc).1
  constructor
  · intro h order horder c hc _ ⟨x, hx, hxc⟩ ⟨y, hy, hyc⟩
    have hnd : order.Nodup := horder.perm.nodup_iff.mpr (List.nodup_dedup _)
    have hs := h.same
    rw [topoSort_eq hG hq hown, (LastFirst.sort_eq_some_iff _ hpos).mpr horder, Option.map_some] at hs
    -- the same list is sorted for all the constraints
    have hbefore := ((topoSort_spec hG hq hcs).2 _ hs).before c hc x hx y hy hxc hyc
    have hmem : ∀ z, z ∈ t.waitProcs lock → t.leaderOf z ∈ order := fun z hz =>
      horder.perm.symm.subset (mem_groups.mpr ⟨z, hz, rfl⟩)
    rw [← hxc, ← hyc]
    by_cases hne : t.leaderOf x = t.leaderOf y
    · -- a constraint of a group with itself holds of no output
      have := ((topoSort_spec hG hq hcs).2 _ hs).before c hc x hx x hx hxc (hne.trans hyc)
      exact absurd this (Nat.lt_irrefl _)
    · refine (sublist_or hnd (hmem x hx) (hmem y hy) hne).resolve_right fun hback => ?_
      exact Nat.lt_asymm hbefore (members_ahead hq hnd hy hx hback)
  · intro h
    have hsame : TopoSort t lock constraints = TopoSort t lock (own lock constraints) := by
      have hsub : ∀ e ∈ edges (own lock constraints), e ∈ edges constraints := fun e he => by
        obtain ⟨c, hc, rfl⟩ := List.mem_map.mp he
        exact List.mem_map.mpr ⟨c, (List.mem_filter.mp hc).1, rfl⟩
      rw [topoSort_eq hG hq hcs, topoSort_eq hG hq hown]
      refine congrArg (Option.map _) ((LastFirst.sort_superset_iff hsub hpos).mpr fun order horder e he h1 h2 => ?_)
      obtain ⟨c, hc, rfl⟩ := List.mem_map.mp he
      by_cases hl : c.lock = lock
      · have hmine : (c.waiter, c.blocker) ∈ edges (own lock constraints) :=
          List.mem_map.mpr ⟨c, List.mem_filter.mpr ⟨hc, decide_eq_true hl⟩, rfl⟩
        exact horder.satisfies hmine h1 h2
      · exact h order horder c hc hl (mem_groups.mp h1) (mem_groups.mp h2)
    obtain ⟨h1, h2⟩ := topoSort_spec hG hq hown
    exact ⟨by rw [hsame, h1], fun procs hs => h2 procs (hsame ▸ hs), hsame⟩

end TopoSort

/-! ## 6. A constraint of another lock that does harm -/

/-- Two groups, of 0 and 2 and of 1 and 3, that each wait for two locks, in opposite orders. -/
def twoGroups : LockTable (Fin 4) (Fin 2) where
  lockGroupLeader := fun p => some (if p = 0 ∨ p = 2 then 0 else 1)
  lockGroupMembers := fun p => if p = 0 then [0, 2] else if p = 1 then [1, 3] else []
  waitLock := fun p => some (if p.val < 2 then ⟨0, Nat.two_pos⟩ else ⟨1, Nat.one_lt_two⟩)
  waitLockMode := fun _ => 1
  isAutovacuum := fun _ => false
  relationExtend := fun _ => false
  numLockModes := fun _ => 1
  conflictTab := fun _ _ => 2
  procLocks := fun _ => []
  waitProcs := fun lock => if lock.val = 0 then [0, 1] else [3, 2]

/-- **The constraint of lock 1 makes the sort of lock 0 fail**: `ExpandConstraints` turns down two constraints
    of which each can be satisfied in the queue of its own lock. -/
theorem other_lock_refuses : ¬ IgnoresOthers twoGroups 0 [⟨0, 1, 1⟩, ⟨1, 0, 0⟩] ∧
    (ExpandConstraints twoGroups [⟨0, 1, 1⟩, ⟨1, 0, 0⟩]).1 = false ∧
    TopoSort twoGroups 0 [⟨1, 0, 0⟩] = some [1, 0] ∧ TopoSort twoGroups 1 [⟨0, 1, 1⟩] = some [2, 3] := by
  have hall : TopoSort twoGroups 0 [⟨0, 1, 1⟩, ⟨1, 0, 0⟩] = none := by decide +kernel
  have hown : TopoSort twoGroups 0 (own (0 : Fin 2) [⟨0, 1, 1⟩, ⟨1, 0, 0⟩]) = some [1, 0] := by decide +kernel
  refine ⟨fun h => ?_, by decide +kernel, hown, by decide +kernel⟩
  have := h.same
  rw [hall, hown] at this
  cases this

/-- The same groups, with constraints of both locks that agree. -/
theorem ignores_iff_harmless_two : IgnoresOthers twoGroups 0 [⟨1, 0, 1⟩, ⟨1, 0, 0⟩] := by
  have hG : twoGroups.Grouping :=
    show ∀ p l, twoGroups.lockGroupLeader p = some l → twoGroups.lockGroupLeader l = some l from by decide
  have hcs : ∀ c ∈ [⟨1, 0, 1⟩, ⟨1, 0, 0⟩], NamesLeaders twoGroups c := by
    intro c hc
    rcases List.mem_pair.mp hc with rfl | rfl <;> exact ⟨rfl, rfl⟩
  refine (ignores_iff_harmless hG (by decide) hcs).mpr fun order horder c hc hl hw hb => ?_
  -- the order satisfies the constraint of lock 0, which is the same
  have h : [(1 : Fin 4), 0].Sublist order := horder.satisfies (e := (1, 0)) (by decide) (by decide) (by decide)
  rcases List.mem_pair.mp hc with rfl | rfl
  · exact h
  · exact absurd rfl hl

end Pgvec.Deadlock
