/-
  File:      Pgvec/Lib/LastFirst.lean
  Subject:   A TOPOLOGICAL SORT THAT FILLS THE LIST FROM ITS END.

  An edge puts its first element in front of its second. The sort places the elements from the last position to
  the first: at each step the last one, in the old order, that no edge puts in front of another one still left.

  * `sort_eq_some_iff` -- the order that it gives, without the sort: `Latest`;
  * `sort_eq_none` -- it fails only where no order satisfies the edges;
  * **`sort_superset_iff`** -- when more edges give the same.
-/
import Mathlib.Data.List.Nodup
import Mathlib.Data.List.Perm.Basic
import Mathlib.Data.Finset.Max

namespace LastFirst

variable {α : Type} [DecidableEq α] (E : List (α × α))

/-- No edge puts it in front of one that is left. -/
def Free (rest : List α) (x : α) : Prop := ∀ e ∈ E, e.1 = x → e.2 ∉ rest

instance (rest : List α) : DecidablePred (Free E rest) := fun x =>
  inferInstanceAs (Decidable (∀ e ∈ E, e.1 = x → e.2 ∉ rest))

/-- The element to place next. -/
def next (rest : List α) : Option α := rest.reverse.find? fun x => Free E rest x

variable {E}

theorem next_mem {rest : List α} {j : α} (h : next E rest = some j) : j ∈ rest ∧ Free E rest j :=
  ⟨List.mem_reverse.mp (List.mem_of_find?_eq_some h),
    of_decide_eq_true (List.find?_some (p := fun x => decide (Free E rest x)) h)⟩

theorem length_erase_next {rest : List α} {j : α} (h : next E rest = some j) : (rest.erase j).length < rest.length := by
  have hj := (next_mem h).1
  have := List.length_erase_of_mem hj
  have := List.length_pos_of_mem hj
  omega

variable (E) in
def sort (rest : List α) : Option (List α) :=
  if rest = [] then some []
  else
    match _h : next E rest with
    | none => none
    | some j => (sort (rest.erase j)).map (· ++ [j])
termination_by rest.length
decreasing_by exact length_erase_next ‹_›

theorem sort_nil : sort E [] = some [] := by
  rw [sort, if_pos rfl]

theorem sort_of_next_none {rest : List α} (hne : rest ≠ []) (h : next E rest = none) : sort E rest = none := by
  rw [sort, if_neg hne]
  split
  · rfl
  · rename_i j hj
    rw [h] at hj
    cases hj

theorem sort_of_next {rest : List α} {j : α} (h : next E rest = some j) :
    sort E rest = (sort E (rest.erase j)).map (· ++ [j]) := by
  have hne : rest ≠ [] := List.ne_nil_of_mem (next_mem h).1
  rw [sort, if_neg hne]
  split
  · rename_i hnone
    rw [h] at hnone
    cases hnone
  · rename_i j' hj'
    rw [h] at hj'
    cases hj'
    rfl

/-! ## 1. The order without the sort -/

variable (E) in
/-- **The latest order**: at each position, of the elements up to there that no edge puts in front of another one
    of them, the last one of the old order. -/
structure Latest (pos : α → Nat) (rest order : List α) : Prop where
  perm : order.Perm rest
  free : ∀ l x r, order = l ++ x :: r → Free E (l ++ [x]) x
  latest : ∀ l x r, order = l ++ x :: r → ∀ y ∈ l, Free E (l ++ [x]) y → pos y < pos x

omit [DecidableEq α] in
theorem Free.congr {rest rest' : List α} {x : α} (h : Free E rest x) (hmem : ∀ y, y ∈ rest' → y ∈ rest) :
    Free E rest' x := fun e he h1 h2 => h e he h1 (hmem _ h2)

variable {pos : α → Nat} {rest order : List α}

/-- What is placed next. -/
theorem next_eq_some_iff (hpos : rest.Pairwise (pos · < pos ·)) {j : α} :
    next E rest = some j ↔ j ∈ rest ∧ Free E rest j ∧ ∀ y ∈ rest, y ≠ j → Free E rest y → pos y < pos j := by
  unfold next
  rw [List.find?_eq_some_iff_append]
  constructor
  · intro ⟨hfree, as, bs, hsplit, has⟩
    have hrest : rest = bs.reverse ++ j :: as.reverse := by
      have := congrArg List.reverse hsplit
      rwa [List.reverse_reverse, List.reverse_append, List.reverse_cons, List.append_assoc] at this
    refine ⟨hrest ▸ List.mem_append_right _ List.mem_cons_self, of_decide_eq_true hfree, fun y hy hne hyf => ?_⟩
    rw [hrest] at hpos
    rcases List.mem_append.mp (hrest ▸ hy) with hb | hc
    · exact (List.pairwise_append.mp hpos).2.2 y hb j List.mem_cons_self
    · rcases List.mem_cons.mp hc with rfl | ha
      · exact absurd rfl hne
      · have := has y (List.mem_reverse.mp ha)
        rw [Bool.not_eq_true', decide_eq_false_iff_not] at this
        exact absurd hyf this
  · intro ⟨hj, hfree, hlast⟩
    obtain ⟨bs, as, hsplit⟩ := List.append_of_mem hj
    refine ⟨decide_eq_true hfree, as.reverse, bs.reverse, ?_, fun y hy => ?_⟩
    · rw [hsplit, List.reverse_append, List.reverse_cons, List.append_assoc]
      rfl
    · -- what stands behind it is not free
      rw [Bool.not_eq_true', decide_eq_false_iff_not]
      intro hyf
      have hy' := List.mem_reverse.mp hy
      have hlt : pos j < pos y := by
        rw [hsplit] at hpos
        exact (List.pairwise_cons.mp (List.pairwise_append.mp hpos).2.1).1 y hy'
      have hmem : y ∈ rest := hsplit ▸ List.mem_append_right _ (List.mem_cons_of_mem _ hy')
      have := hlast y hmem (fun heq => absurd hlt (by rw [heq]; exact Nat.lt_irrefl _)) hyf
      omega

omit [DecidableEq α] in
theorem nodup_of_pos (hpos : rest.Pairwise (pos · < pos ·)) : rest.Nodup :=
  hpos.imp fun {a b} h (he : a = b) => absurd h (he ▸ Nat.lt_irrefl _)

/-- The last position of a latest order. -/
theorem latest_concat_iff (hpos : rest.Pairwise (pos · < pos ·)) {l : List α} {j : α} :
    Latest E pos rest (l ++ [j]) ↔ next E rest = some j ∧ Latest E pos (rest.erase j) l := by
  have hnd := nodup_of_pos hpos
  rw [next_eq_some_iff hpos]
  constructor
  · intro ⟨hperm, hfree, hlatest⟩
    have hj : j ∈ rest := hperm.subset (List.mem_append_right _ List.mem_cons_self)
    have hmem : ∀ y, y ∈ rest → y ∈ l ++ [j] := fun y hy => hperm.symm.subset hy
    refine ⟨⟨hj, (hfree l j [] rfl).congr hmem, fun y hy hne hyf => ?_⟩, ?_, ?_, ?_⟩
    · have hyl : y ∈ l := (List.mem_append.mp (hmem y hy)).resolve_right fun h => hne (List.mem_singleton.mp h)
      exact hlatest l j [] rfl y hyl (hyf.congr fun z hz => hperm.subset hz)
    · have hperm' := (List.perm_append_singleton j l).symm.trans hperm
      exact (List.cons_perm_iff_perm_erase.mp hperm').2
    · exact fun l' x r hl => hfree l' x (r ++ [j]) (by rw [hl, List.append_assoc]; rfl)
    · exact fun l' x r hl => hlatest l' x (r ++ [j]) (by rw [hl, List.append_assoc]; rfl)
  · intro ⟨⟨hj, hjfree, hjlast⟩, hperm, hfree, hlatest⟩
    have hperm' : (l ++ [j]).Perm rest :=
      (List.perm_append_singleton j l).trans ((hperm.cons j).trans (List.perm_cons_erase hj).symm)
    -- a position of the order is its last one, or one of `l`
    have hcases : ∀ {l' x r}, l ++ [j] = l' ++ x :: r →
        (l' = l ∧ x = j) ∨ ∃ r', l = l' ++ x :: r' := by
      intro l' x r he
      rcases List.eq_nil_or_concat' r with rfl | ⟨r', z, rfl⟩
      · obtain ⟨h1, h2⟩ := List.append_inj' he rfl
        exact Or.inl ⟨h1.symm, (List.cons.inj h2).1.symm⟩
      · refine Or.inr ⟨r', ?_⟩
        rw [← List.cons_append, ← List.append_assoc] at he
        exact (List.append_inj' he rfl).1
    refine ⟨hperm', fun l' x r he => ?_, fun l' x r he => ?_⟩
    · rcases hcases he with ⟨rfl, rfl⟩ | ⟨r', hr'⟩
      · exact hjfree.congr fun y hy => hperm'.subset hy
      · exact hfree l' x r' hr'
    · rcases hcases he with ⟨rfl, rfl⟩ | ⟨r', hr'⟩
      · intro y hy hyf
        have hyr : y ∈ rest.erase x := hperm.subset hy
        have hyne : y ≠ x := fun h => (hnd.mem_erase_iff.mp hyr).1 h
        exact hjlast y (List.mem_of_mem_erase hyr) hyne (hyf.congr fun z hz => hperm'.symm.subset hz)
      · exact hlatest l' x r' hr'

/-- **What the sort gives** is the latest order. -/
theorem sort_eq_some_iff (rest : List α) : ∀ {order : List α}, rest.Pairwise (pos · < pos ·) →
    (sort E rest = some order ↔ Latest E pos rest order) := by
  induction rest using sort.induct E with
  | case1 =>
      intro order _
      rw [sort_nil]
      constructor
      · intro h
        cases h
        exact ⟨.nil, fun l x r h => by simp at h, fun l x r h => by simp at h⟩
      · exact fun h => congrArg some (List.nil_perm.mp h.perm.symm).symm
  | case2 rest hne hnone =>
      intro order hpos
      rw [sort_of_next_none hne hnone]
      refine iff_of_false nofun fun h => ?_
      rcases List.eq_nil_or_concat' order with rfl | ⟨l, j, rfl⟩
      · exact hne (List.nil_perm.mp h.perm)
      · rw [((latest_concat_iff hpos).mp h).1] at hnone
        cases hnone
  | case3 rest hne j hj ih =>
      intro order hpos
      have hpos' : (rest.erase j).Pairwise (pos · < pos ·) := hpos.sublist List.erase_sublist
      rw [sort_of_next hj, Option.map_eq_some_iff]
      constructor
      · intro ⟨l, hl, he⟩
        rw [← he]
        exact (latest_concat_iff hpos).mpr ⟨hj, (ih hpos').mp hl⟩
      · intro h
        rcases List.eq_nil_or_concat' order with rfl | ⟨l, j', rfl⟩
        · exact absurd (List.nil_perm.mp h.perm) hne
        · obtain ⟨hj', hl⟩ := (latest_concat_iff hpos).mp h
          rw [hj] at hj'
          cases hj'
          exact ⟨l, (ih hpos').mpr hl, rfl⟩

/-! ## 2. What it satisfies -/

omit [DecidableEq α] in
/-- A latest order satisfies the edges. -/
theorem Latest.satisfies (h : Latest E pos rest order) {e : α × α} (he : e ∈ E) (h1 : e.1 ∈ rest) (h2 : e.2 ∈ rest) :
    [e.1, e.2].Sublist order := by
  obtain ⟨l, r, rfl⟩ := List.append_of_mem (h.perm.symm.subset h1)
  have hnot := h.free l e.1 r rfl e he rfl
  have hr : e.2 ∈ r := by
    rcases List.mem_append.mp (h.perm.symm.subset h2) with hl | hr
    · exact absurd (List.mem_append_left _ hl) hnot
    · rcases List.mem_cons.mp hr with heq | hr
      · exact absurd (List.mem_append_right _ (List.mem_singleton.mpr heq)) hnot
      · exact hr
  exact (List.cons_sublist_cons.mpr (List.singleton_sublist.mpr hr)).trans (List.sublist_append_right l _)

/-- **Where the sort fails**, no order satisfies the edges. -/
theorem sort_eq_none (rest : List α) : sort E rest = none → ∀ rank : α → Nat,
    ∃ e ∈ E, e.1 ∈ rest ∧ e.2 ∈ rest ∧ ¬ rank e.1 < rank e.2 := by
  induction rest using sort.induct E with
  | case1 =>
      intro h
      rw [sort_nil] at h
      cases h
  | case2 rest hne hnone =>
      intro _ rank
      -- the last one of them in the order
      obtain ⟨x, hx, hmax⟩ := Finset.exists_max_image rest.toFinset rank (by
        obtain ⟨y, hy⟩ := List.exists_mem_of_ne_nil _ hne
        exact ⟨y, List.mem_toFinset.mpr hy⟩)
      have hnot := List.find?_eq_none.mp hnone x (List.mem_reverse.mpr (List.mem_toFinset.mp hx))
      rw [decide_eq_true_eq] at hnot
      unfold Free at hnot
      push Not at hnot
      obtain ⟨e, he, rfl, h2⟩ := hnot
      exact ⟨e, he, List.mem_toFinset.mp hx, h2, Nat.not_lt.mpr (hmax _ (List.mem_toFinset.mpr h2))⟩
  | case3 rest hne j hj ih =>
      intro h rank
      rw [sort_of_next hj, Option.map_eq_none_iff] at h
      obtain ⟨e, he, h1, h2, hlt⟩ := ih h rank
      exact ⟨e, he, List.mem_of_mem_erase h1, List.mem_of_mem_erase h2, hlt⟩

/-- An order in which one stands in front of the other gives the one a smaller position. -/
theorem idxOf_lt_of_sublist {l : List α} (hl : l.Nodup) {a b : α} (h : [a, b].Sublist l) : l.idxOf a < l.idxOf b := by
  induction l with
  | nil => cases h
  | cons c l ih =>
      obtain ⟨hc, hl⟩ := List.nodup_cons.mp hl
      rcases List.sublist_cons_iff.mp h with h | ⟨r, hr, h⟩
      · have ha : c ≠ a := fun he => hc (he ▸ h.subset List.mem_cons_self)
        have hb : c ≠ b := fun he => hc (he ▸ h.subset (List.mem_cons_of_mem _ List.mem_cons_self))
        rw [List.idxOf_cons_ne _ ha, List.idxOf_cons_ne _ hb]
        exact Nat.succ_lt_succ (ih hl h)
      · obtain ⟨rfl, rfl⟩ := List.cons.inj hr
        have hb : a ≠ b := fun he => hc (he ▸ List.singleton_sublist.mp h)
        rw [List.idxOf_cons_self, List.idxOf_cons_ne _ hb]
        exact Nat.succ_pos _

theorem exists_sort_iff (hpos : rest.Pairwise (pos · < pos ·)) : (∃ order, sort E rest = some order) ↔
    ∃ rank : α → Nat, ∀ e ∈ E, e.1 ∈ rest → e.2 ∈ rest → rank e.1 < rank e.2 := by
  constructor
  · intro ⟨order, h⟩
    have hlatest := (sort_eq_some_iff rest hpos).mp h
    have hnd : order.Nodup := hlatest.perm.nodup_iff.mpr (nodup_of_pos hpos)
    exact ⟨order.idxOf, fun e he h1 h2 => idxOf_lt_of_sublist hnd (hlatest.satisfies he h1 h2)⟩
  · intro ⟨rank, h⟩
    cases hs : sort E rest with
    | some order => exact ⟨order, rfl⟩
    | none =>
        obtain ⟨e, he, h1, h2, hlt⟩ := sort_eq_none rest hs rank
        exact absurd (h e he h1 h2) hlt

/-- **More edges give the same** exactly where the latest order for the others, if there is one, satisfies them. -/
theorem sort_superset_iff {E' : List (α × α)} (hsub : ∀ e ∈ E, e ∈ E') (hpos : rest.Pairwise (pos · < pos ·)) :
    sort E' rest = sort E rest ↔ ∀ order, Latest E pos rest order →
      ∀ e ∈ E', e.1 ∈ rest → e.2 ∈ rest → [e.1, e.2].Sublist order := by
  have hnd := nodup_of_pos hpos
  constructor
  · intro heq order horder e he h1 h2
    have hs := (sort_eq_some_iff rest hpos).mpr horder
    rw [← heq] at hs
    exact ((sort_eq_some_iff rest hpos).mp hs).satisfies he h1 h2
  · intro h
    cases hs : sort E rest with
    | none =>
        cases hs' : sort E' rest with
        | none => rfl
        | some order =>
            -- this order would satisfy the fewer edges
            have horder := (sort_eq_some_iff rest hpos).mp hs'
            obtain ⟨e, he, h1, h2, hlt⟩ := sort_eq_none rest hs order.idxOf
            exact absurd (idxOf_lt_of_sublist (horder.perm.nodup_iff.mpr hnd) (horder.satisfies (hsub e he) h1 h2)) hlt
    | some order =>
        have horder := (sort_eq_some_iff rest hpos).mp hs
        have hnd' : order.Nodup := horder.perm.nodup_iff.mpr hnd
        refine (sort_eq_some_iff rest hpos).mpr ⟨horder.perm, fun l x r he e hmem h1 h2 => ?_, fun l x r he y hy hyf =>
          horder.latest l x r he y hy fun e hmem => hyf e (hsub e hmem)⟩
        -- the edge would be violated in this order
        subst h1
        have hin : ∀ y, y ∈ l ++ [e.1] → y ∈ rest := fun y hy => horder.perm.subset (by
          rw [he]
          rcases List.mem_append.mp hy with hl | hx
          · exact List.mem_append_left _ hl
          · exact List.mem_append_right _ (List.mem_singleton.mp hx ▸ List.mem_cons_self))
        have hlt := idxOf_lt_of_sublist hnd' (h order horder e hmem
          (hin _ (List.mem_append_right _ List.mem_cons_self)) (hin _ h2))
        have hle : order.idxOf e.2 ≤ order.idxOf e.1 := by
          rw [he]
          rw [he] at hnd'
          have hnot : e.1 ∉ l := fun hl => (List.nodup_append.mp hnd').2.2 _ hl _ List.mem_cons_self rfl
          rw [List.idxOf_append_of_notMem hnot, List.idxOf_cons_self, Nat.add_zero]
          rcases List.mem_append.mp h2 with hl | hx
          · rw [List.idxOf_append_of_mem hl]
            exact Nat.le_of_lt (List.idxOf_lt_length_iff.mpr hl)
          · rw [List.mem_singleton.mp hx, List.idxOf_append_of_notMem hnot, List.idxOf_cons_self]
            exact Nat.le_refl _
        omega

end LastFirst
