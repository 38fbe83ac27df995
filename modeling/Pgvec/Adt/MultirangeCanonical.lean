/-
  File:      Pgvec/Adt/MultirangeCanonical.lean
  Subject:   THE CANONICAL FORM AT WORK: what follows for multiranges from there being one form for each set.

  * **`multirange_form_unique`** -- multiranges with the same values are the same list of ranges;
  * **`multirange_cmp_order`** -- the btree comparison is a linear order in which only equals compare equal;
  * **`range_merge_least`** -- the range around a multirange is the least one;
  * **`multirange_aggregates`** -- the aggregates return the union, or the intersection, of their inputs, in whatever
    order these come.
-/
import Pgvec.Adt.MultirangeTestsFacts
import Mathlib.Data.List.Lex

namespace Pgvec.MultirangeOps

open Pgvec.RangeOps Cuts

variable {α : Type}

/-! ## 1. One form for each set -/

/-- The cut of a stored bound tells its value and whether it is inclusive. -/
theorem bound_ext {a b : RangeBound α} (hside : a.lower = b.lower) (ha : a.val = none → a.inclusive = false)
    (hb : b.val = none → b.inclusive = false) (h : a.cut = b.cut) : a = b := by
  obtain ⟨av, ai, al⟩ := a
  obtain ⟨bv, bi, bl⟩ := b
  have hside : al = bl := hside
  subst hside
  cases av with
  | none =>
      cases bv with
      | none =>
          have ha : ai = false := ha rfl
          have hb : bi = false := hb rfl
          rw [ha, hb]
      | some w => cases al <;> cases bi <;> simp [RangeBound.cut, below, above] at h
  | some v =>
      cases bv with
      | none => cases al <;> cases ai <;> simp [RangeBound.cut, below, above] at h
      | some w => cases al <;> cases ai <;> cases bi <;> simp_all [RangeBound.cut, below, above]

variable [LinearOrder α] {tc : TypeCacheEntry α} {r s : RangeType α} {l m : List (RangeType α)}

/-- A range that is not empty is known by its cuts. -/
theorem range_ext (hr : r.isEmpty = false) (hs : s.isEmpty = false) (h : r.span = s.span) : r = s := by
  obtain ⟨l1, u1, h1, rfl⟩ := exists_bounds hr
  obtain ⟨l2, u2, h2, rfl⟩ := exists_bounds hs
  have hlo : l1.cut = l2.cut := congrArg Span.lo h
  have hhi : u1.cut = u2.cut := congrArg Span.hi h
  have hl := bound_ext (h1.lower_side.trans h2.lower_side.symm) h1.lower_inf h2.lower_inf hlo
  have hu := bound_ext (h1.upper_side.trans h2.upper_side.symm) h1.upper_inf h2.upper_inf hhi
  subst hl hu
  rfl

theorem eq_of_spans : ∀ {l m : List (RangeType α)}, Gaps l → Gaps m → spans l = spans m → l = m
  | [], m, _, _, h => (List.map_eq_nil_iff.mp h.symm).symm
  | r :: l, [], _, _, h => by simp [spans] at h
  | r :: l, s :: m, hl, hm, h => by
      obtain ⟨hr, _, hl⟩ := gaps_cons.mp hl
      obtain ⟨hs, _, hm⟩ := gaps_cons.mp hm
      obtain ⟨hhead, htail⟩ := List.cons.inj h
      rw [range_ext hr hs hhead, eq_of_spans hl hm htail]

/-! ## 2. The order -/

/-- What `multirange_cmp` compares multiranges by. -/
def sortKey (l : List (RangeType α)) : List (Cut α ×ₗ Cut α) := l.map fun r => toLex (r.lo, r.hi)

/-- A comparison of `x` and `y` gave `c`. -/
structure Compared {β : Type} [LinearOrder β] (x y : β) (c : Int) : Prop where
  neg : c < 0 ↔ x < y
  pos : c > 0 ↔ y < x

theorem Compared.zero {β : Type} [LinearOrder β] {x y : β} {c : Int} (h : Compared x y c) : c = 0 ↔ x = y := by
  rw [← not_iff_not, ← ne_eq x, ← lt_or_lt_iff_ne, ← h.neg, ← h.pos]
  omega

/-- First the lower bounds, then the upper bounds. -/
theorem compared_bounds (tc : TypeCacheEntry α) {lower1 upper1 lower2 upper2 : RangeBound α} (h1 : Stored lower1 upper1)
    (h2 : Stored lower2 upper2) : Compared (toLex (lower1.cut, upper1.cut)) (toLex (lower2.cut, upper2.cut))
      (if range_cmp_bounds tc lower1 lower2 = 0 then range_cmp_bounds tc upper1 upper2
        else range_cmp_bounds tc lower1 lower2) := by
  have hl := h1.lower_side.trans h2.lower_side.symm
  have hu := h1.upper_side.trans h2.upper_side.symm
  by_cases h : range_cmp_bounds tc lower1 lower2 = 0
  · rw [if_pos h]
    have heq := (cmp_same_zero tc hl).mp h
    constructor
    · rw [cmp_same_neg tc hu, Prod.Lex.toLex_lt_toLex]
      simp [heq]
    · rw [cmp_same_pos tc hu, Prod.Lex.toLex_lt_toLex]
      simp [heq]
  · rw [if_neg h]
    have hne : lower1.cut ≠ lower2.cut := fun heq => h ((cmp_same_zero tc hl).mpr heq)
    constructor
    · rw [cmp_same_neg tc hl, Prod.Lex.toLex_lt_toLex]
      simp [hne]
    · rw [cmp_same_pos tc hl, Prod.Lex.toLex_lt_toLex]
      simp [Ne.symm hne]

theorem sortKey_drop {i : Nat} (hi : i < l.length) :
    (sortKey l).drop i = toLex (l[i].lo, l[i].hi) :: (sortKey l).drop (i + 1) := by
  rw [List.drop_eq_getElem_cons (by simpa [sortKey] using hi)]
  simp [sortKey]

/-- Lists are compared at their first difference. -/
theorem Compared.cons {β : Type} [LinearOrder β] {x y : β} {xs ys : List β} {c d : Int} (h : Compared x y c)
    (ht : Compared xs ys d) : Compared (x :: xs) (y :: ys) (if c ≠ 0 then c else d) := by
  have hz := h.zero
  by_cases hc : c = 0
  · rw [if_neg (not_not.mpr hc)]
    have heq := hz.mp hc
    subst heq
    exact ⟨by simp [ht.neg], by simp [ht.pos]⟩
  · rw [if_pos hc]
    have hne : x ≠ y := fun heq => hc (hz.mpr heq)
    constructor
    · rw [List.cons_lt_cons_iff, h.neg]
      simp [hne]
    · rw [List.cons_lt_cons_iff, h.pos]
      simp [Ne.symm hne]

theorem cmpLoop_spec (tc : TypeCacheEntry α) (hl : Gaps l) (hm : Gaps m) :
    ∀ n i, n + i = max l.length m.length →
      ∃ c, cmpLoop tc l m n i = .ok c ∧ Compared ((sortKey l).drop i) ((sortKey m).drop i) c
  | 0, i, h => by
      have hl0 : (sortKey l).drop i = [] := List.drop_of_length_le (by simp [sortKey]; omega)
      have hm0 : (sortKey m).drop i = [] := List.drop_of_length_le (by simp [sortKey]; omega)
      exact ⟨0, rfl, by rw [hl0, hm0]; exact ⟨by simp, by simp⟩⟩
  | n + 1, i, h => by
      rw [cmpLoop]
      by_cases h1 : i ≥ l.length
      · -- the shorter one comes first
        rw [if_pos h1, List.drop_of_length_le (by simpa [sortKey] using h1), sortKey_drop (l := m) (i := i) (by omega)]
        exact ⟨-1, rfl, by simp, by simp⟩
      rw [if_neg h1]
      by_cases h2 : i ≥ m.length
      · rw [if_pos h2, sortKey_drop (l := l) (i := i) (by omega), List.drop_of_length_le (l := sortKey m)
          (by simpa [sortKey] using h2)]
        exact ⟨1, rfl, by simp, by simp⟩
      rw [if_neg h2]
      obtain ⟨lower1, upper1, st1, hr1, hget1⟩ := get_bounds_spec hl (i := i) (by omega)
      obtain ⟨lower2, upper2, st2, hr2, hget2⟩ := get_bounds_spec hm (i := i) (by omega)
      obtain ⟨d, hrun, hd⟩ := cmpLoop_spec tc hl hm n (i + 1) (by omega)
      have hstep := (compared_bounds tc st1 st2).cons hd
      rw [sortKey_drop (l := l) (i := i) (by omega), sortKey_drop (l := m) (i := i) (by omega), hr1, hr2]
      simp only [hget1, hget2, hrun, Except.bind, bind]
      refine ⟨_, ?_, hstep⟩
      split_ifs <;> rfl

/-! ## 3. The arrays of the aggregates -/

theorem range_agg_state (args : List (Option (RangeType α))) : ∀ st : List (RangeType α),
    args.foldl range_agg_transfn (some st) = some (st ++ args.reduceOption) := by
  induction args with
  | nil => simp
  | cons a args ih =>
      intro st
      cases a with
      | none => simpa [range_agg_transfn] using ih st
      | some r => simpa [range_agg_transfn] using ih (st ++ [r])

/-- What one multirange adds to the array. -/
def added (mr : List (RangeType α)) : List (RangeType α) := if mr.length = 0 then [make_empty_range] else mr

theorem added_ne_nil (mr : List (RangeType α)) : added mr ≠ [] := by
  rw [added]
  split_ifs with h
  · simp
  · exact fun h0 => h (by simp [h0])

theorem mem_points_added (mr : List (RangeType α)) : points (added mr) = points mr := by
  rw [added]
  split_ifs with h
  · rw [List.length_eq_zero_iff.mp h]
    ext x
    simp [points, make_empty_range, points_empty]
  · rfl

theorem multirange_agg_state (args : List (Option (List (RangeType α)))) : ∀ st : List (RangeType α),
    args.foldl multirange_agg_transfn (some st) = some (st ++ args.reduceOption.flatMap added) := by
  induction args with
  | nil => simp
  | cons a args ih =>
      intro st
      cases a with
      | none => simpa [multirange_agg_transfn] using ih st
      | some mr =>
          have hstep : multirange_agg_transfn (some st) (some mr) = some (st ++ added mr) := by
            simp only [multirange_agg_transfn, Option.getD_some, added]
            split_ifs <;> rfl
          rw [List.foldl_cons, hstep, ih, List.reduceOption_cons_of_some, List.flatMap_cons, List.append_assoc]

/-- The ranges of a `MultirangeType` argument that is not `NULL`. -/
def rangesOf (args : List (Option (MultirangeType tc))) : List (Option (List (RangeType α))) :=
  args.map (Option.map MultirangeType.ranges)

theorem reduceOption_rangesOf (args : List (Option (MultirangeType tc))) :
    (rangesOf args).reduceOption = args.reduceOption.map MultirangeType.ranges := by
  rw [rangesOf, List.reduceOption_map]

/-- The state after some rows, from the state before them. -/
theorem intersect_agg_state (args : List (Option (MultirangeType tc))) : ∀ mr : MultirangeType tc,
    ∃ mr' : MultirangeType tc, (rangesOf args).foldlM (multirange_intersect_agg_transfn tc) (some mr.ranges) =
        .ok (some mr'.ranges) ∧
      points mr'.ranges = points mr.ranges ∩ {x | ∀ a ∈ args.reduceOption, x ∈ points a.ranges} := by
  induction args with
  | nil => exact fun mr => ⟨mr, rfl, by simp⟩
  | cons a args ih =>
      intro mr
      cases a with
      | none =>
          obtain ⟨mr', hrun, hval⟩ := ih mr
          exact ⟨mr', hrun, by simpa using hval⟩
      | some cur =>
          obtain ⟨ranges, hint, hbuilt, hcov⟩ := intersect_internal_spec tc mr.gaps cur.gaps
          obtain ⟨mr', hrun, hval⟩ := ih ⟨ranges, hbuilt⟩
          have hpoints : points ranges = points mr.ranges ∩ points cur.ranges := by
            refine points_congr fun x => ?_
            rw [hcov, Set.mem_inter_iff, mem_points_iff, mem_points_iff]
          refine ⟨mr', ?_, ?_⟩
          · rw [rangesOf, List.map_cons, List.foldlM_cons]
            simp only [Option.map_some, multirange_intersect_agg_transfn, hint, Except.bind, bind]
            exact hrun
          · rw [hval, hpoints]
            ext x
            simp [and_assoc]

section Dense

/-! ## 4. Sets and forms -/

variable [Nonempty α] [DenselyOrdered α] [NoMinOrder α] [NoMaxOrder α]

theorem eq_of_points (hl : Gaps l) (hm : Gaps m) (h : points l = points m) : l = m := by
  refine eq_of_spans hl hm (Gapped.ext meets_below hl hm fun c hc => ?_)
  obtain ⟨x, rfl⟩ := hc
  exact (mem_points_iff.symm.trans (Set.ext_iff.mp h x)).trans mem_points_iff

/-- **One form**: multiranges with the same values hold the same ranges, bound by bound. -/
theorem multirange_form_unique (tc : TypeCacheEntry α) (mr1 mr2 : MultirangeType tc)
    (h : points mr1.ranges = points mr2.ranges) : mr1 = mr2 := by
  have hranges := eq_of_points mr1.gaps mr2.gaps h
  obtain ⟨l, hl⟩ := mr1
  obtain ⟨m, hm⟩ := mr2
  have hranges : l = m := hranges
  subst hranges
  rfl

/-- **The btree comparison** of multiranges is a linear order, in which only multiranges of the same values are
    equal. -/
theorem multirange_cmp_order (tc : TypeCacheEntry α) (mr1 mr2 : MultirangeType tc) :
    ∃ c, multirange_cmp tc mr1.ranges mr2.ranges = .ok c ∧ (c < 0 ↔ sortKey mr1.ranges < sortKey mr2.ranges) ∧
      (c > 0 ↔ sortKey mr2.ranges < sortKey mr1.ranges) ∧ (c = 0 ↔ points mr1.ranges = points mr2.ranges) := by
  obtain ⟨c, hrun, hc⟩ := cmpLoop_spec tc mr1.gaps mr2.gaps (max mr1.ranges.length mr2.ranges.length) 0 rfl
  have hzero := hc.zero
  rw [List.drop_zero, List.drop_zero] at hc hzero
  refine ⟨c, hrun, hc.neg, hc.pos, hzero.trans ⟨fun h => ?_, fun h => ?_⟩⟩
  · have hspans : spans mr1.ranges = spans mr2.ranges := by
      have hmap := congrArg (List.map fun k : Cut α ×ₗ Cut α => (⟨(ofLex k).1, (ofLex k).2⟩ : Span (Cut α))) h
      rw [sortKey, sortKey, List.map_map, List.map_map] at hmap
      exact hmap
    rw [eq_of_spans mr1.gaps mr2.gaps hspans]
  · rw [eq_of_points mr1.gaps mr2.gaps h]

/-- The numbers from one on come after the empty multirange. -/
theorem multirange_cmp_order_numrange : ∃ mr : MultirangeType numrange, points mr.ranges = {x | 1 ≤ x} ∧
    ∃ c, multirange_cmp numrange mr.ranges [] = .ok c ∧ c > 0 := by
  obtain ⟨ranges, hrun, hg, hcov⟩ := canonicalize_spec numrange
    [.bounds ⟨some 1, true, true⟩ ⟨none, false, false⟩ ⟨rfl, rfl, by simp, by simp, by simp⟩]
  have hpoints : points ranges = {x | 1 ≤ x} := by
    refine points_congr fun x => ?_
    rw [hcov, ← mem_points_iff]
    simp [points, RangeType.points, RangeBound.Admits, le_iff_lt_or_eq]
  obtain ⟨c, hcmp, _, hpos, _⟩ :=
    multirange_cmp_order numrange ⟨ranges, _, hrun⟩ ⟨[], [], make_multirange_nil numrange⟩
  refine ⟨⟨ranges, _, hrun⟩, hpoints, c, hcmp, hpos.mpr ?_⟩
  cases ranges with
  | nil =>
      have h1 : (1 : ℚ) ∈ points ([] : List (RangeType ℚ)) := by simp [hpoints]
      simp [points] at h1
  | cons r l => simp [sortKey]

/-! ## 5. The range around a multirange -/

/-- **The range around a multirange** is the least one. -/
theorem range_merge_least (tc : TypeCacheEntry α) (mr : MultirangeType tc) :
    ∃ r, range_merge_from_multirange tc mr.ranges = .ok r ∧ points mr.ranges ⊆ r.points ∧
      ∀ A : Set α, A.OrdConnected → points mr.ranges ⊆ A → r.points ⊆ A := by
  have hg := mr.gaps
  generalize mr.ranges = l at hg
  cases l with
  | nil => exact ⟨.empty, rfl, by simp [points_nil], fun A _ _ => Set.empty_subset A⟩
  | cons r l =>
      cases l with
      | nil =>
          have hone : points [r] = r.points := by
            ext x
            simp [points]
          exact ⟨r, rfl, hone.le, fun A _ h => hone ▸ h⟩
      | cons s l =>
          obtain ⟨lower, upper, ho⟩ := hg.outer (List.cons_ne_nil r (s :: l))
          obtain ⟨u, hfirst⟩ := ho.get_first
          obtain ⟨v, hlast⟩ := ho.get_last
          obtain ⟨x, hx⟩ := ho.nonempty
          have hlt : lower.cut < upper.cut := (ho.ends.inside x hx).1.trans_lt (ho.ends.inside x hx).2
          obtain ⟨t, hrun, _, hlo, hhi⟩ := make_range_spec tc ho.lower_side ho.upper_side hlt
          refine ⟨t, ?_, fun y hy => ?_, fun A hA hsub y hy => ?_⟩
          · simp only [range_merge_from_multirange, hfirst, hlast, Except.bind, bind, hrun]
          · obtain ⟨h1, h2⟩ := ho.ends.inside y hy
            exact mem_points.mpr ⟨hlo ▸ h1, hhi ▸ h2⟩
          · -- a value between the outermost bounds has values of the multirange on both sides
            obtain ⟨h1, h2⟩ := mem_points.mp hy
            rw [hlo] at h1
            rw [hhi] at h2
            obtain ⟨a, ha, hay⟩ := ho.ends.first (above y) (h1.trans_lt (below_lt_above.mpr le_rfl))
            obtain ⟨b, hb, hyb⟩ := ho.ends.last (below y) h2
            exact hA.out (hsub ha) (hsub hb) ⟨below_lt_above.mp hay, below_le_below.mp hyb⟩

/-! ## 6. Aggregates -/

/-- An aggregate that is `NULL` without inputs, and else a multirange with the values told by the inputs. -/
structure Aggregates {β : Type} (tc : TypeCacheEntry α) (agg : List (Option β) → M (Option (List (RangeType α))))
    (values : List β → Set α) : Prop where
  null : ∀ args, args.reduceOption = [] → agg args = .ok none
  result : ∀ args, args.reduceOption ≠ [] →
    ∃ mr : MultirangeType tc, agg args = .ok (some mr.ranges) ∧ points mr.ranges = values args.reduceOption

/-- The order of the inputs does not matter where it does not matter for the values. -/
theorem Aggregates.order {β : Type} {agg : List (Option β) → M (Option (List (RangeType α)))}
    {values : List β → Set α} (h : Aggregates tc agg values)
    (hperm : ∀ a b, a.Perm b → values a = values b) {args args' : List (Option β)}
    (hp : args.Perm args') : agg args = agg args' := by
  have hp' : args.reduceOption.Perm args'.reduceOption := hp.filterMap id
  by_cases hnil : args.reduceOption = []
  · rw [h.null args hnil, h.null args' (List.nil_perm.mp (hnil ▸ hp'))]
  · obtain ⟨mr, hrun, hval⟩ := h.result args hnil
    obtain ⟨mr', hrun', hval'⟩ := h.result args' fun h0 => hnil (List.perm_nil.mp (h0 ▸ hp'))
    have heq := eq_of_points mr.gaps mr'.gaps (by rw [hval, hval', hperm _ _ hp'])
    rw [hrun, hrun', heq]

omit [Nonempty α] [DenselyOrdered α] [NoMinOrder α] [NoMaxOrder α] in
theorem finalfn_spec (tc : TypeCacheEntry α) (h : l ≠ []) : ∃ mr : MultirangeType tc,
    range_agg_finalfn tc (some l) = .ok (some mr.ranges) ∧ points mr.ranges = points l := by
  obtain ⟨ranges, hrun, _, hcov⟩ := canonicalize_spec tc l
  refine ⟨⟨ranges, l, hrun⟩, ?_, points_congr fun x => (hcov _).trans mem_points_iff.symm⟩
  have hmake : make_multirange tc l = .ok ranges := hrun
  rw [range_agg_finalfn, if_neg (by simpa using h), hmake]
  rfl

omit [Nonempty α] [DenselyOrdered α] [NoMinOrder α] [NoMaxOrder α] in
theorem range_agg_spec (tc : TypeCacheEntry α) :
    Aggregates tc (range_agg tc) fun rs => {x | ∃ r ∈ rs, x ∈ r.points} := by
  have hstart : ∀ args : List (Option (RangeType α)), args ≠ [] →
      args.foldl range_agg_transfn none = some args.reduceOption := by
    intro args hne
    obtain ⟨a, args, rfl⟩ := List.exists_cons_of_ne_nil hne
    have h := range_agg_state (a :: args) []
    rwa [List.nil_append] at h
  constructor
  · intro args h
    by_cases hne : args = []
    · rw [hne]
      rfl
    · rw [range_agg, hstart args hne, h]
      rfl
  · intro args h
    obtain ⟨mr, hrun, hval⟩ := finalfn_spec tc h
    refine ⟨mr, ?_, hval⟩
    rw [range_agg, hstart args (fun h0 => h (by rw [h0]; rfl)), hrun]

omit [Nonempty α] [DenselyOrdered α] [NoMinOrder α] [NoMaxOrder α] in
theorem multirange_agg_spec (tc : TypeCacheEntry α) :
    Aggregates tc (fun args : List (Option (MultirangeType tc)) => multirange_agg tc (rangesOf args))
      fun mrs => {x | ∃ mr ∈ mrs, x ∈ points mr.ranges} := by
  have hstart : ∀ args : List (Option (MultirangeType tc)), args ≠ [] →
      (rangesOf args).foldl multirange_agg_transfn none =
        some (args.reduceOption.flatMap fun mr => added mr.ranges) := by
    intro args hne
    obtain ⟨a, args, rfl⟩ := List.exists_cons_of_ne_nil hne
    have h := multirange_agg_state (rangesOf (a :: args)) []
    rw [List.nil_append, reduceOption_rangesOf, List.flatMap_map] at h
    exact h
  constructor
  · intro args h
    by_cases hne : args = []
    · rw [hne]
      rfl
    · rw [multirange_agg, hstart args hne, h]
      rfl
  · intro args h
    have hne : args.reduceOption.flatMap (fun mr => added mr.ranges) ≠ [] := by
      obtain ⟨mr, mrs, hcons⟩ := List.exists_cons_of_ne_nil h
      rw [hcons, List.flatMap_cons]
      exact fun h0 => added_ne_nil mr.ranges (List.append_eq_nil_iff.mp h0).1
    obtain ⟨mr, hrun, hval⟩ := finalfn_spec tc hne
    refine ⟨mr, ?_, hval.trans ?_⟩
    · rw [multirange_agg, hstart args (fun h0 => h (by rw [h0]; rfl)), hrun]
    · ext x
      constructor
      · intro hx
        obtain ⟨r, hr, hx⟩ := hx
        obtain ⟨mr', hmr', hr⟩ := List.mem_flatMap.mp hr
        have hadd : x ∈ points (added mr'.ranges) := ⟨r, hr, hx⟩
        rw [mem_points_added] at hadd
        exact ⟨mr', hmr', hadd⟩
      · intro hx
        obtain ⟨mr', hmr', hx⟩ := hx
        rw [← mem_points_added] at hx
        obtain ⟨r, hr, hx⟩ := hx
        exact ⟨r, List.mem_flatMap.mpr ⟨mr', hmr', hr⟩, hx⟩

omit [Nonempty α] [DenselyOrdered α] [NoMinOrder α] [NoMaxOrder α] in
theorem multirange_intersect_agg_spec (tc : TypeCacheEntry α) :
    Aggregates tc (fun args : List (Option (MultirangeType tc)) => multirange_intersect_agg tc (rangesOf args))
      fun mrs => {x | ∀ mr ∈ mrs, x ∈ points mr.ranges} := by
  constructor
  · intro args
    induction args with
    | nil => exact fun _ => rfl
    | cons a args ih =>
        cases a with
        | none => exact fun h => ih (by simpa using h)
        | some mr => exact fun h => absurd h (by simp)
  · intro args
    induction args with
    | nil => exact fun h => absurd rfl h
    | cons a args ih =>
        cases a with
        | none =>
            intro h
            obtain ⟨mr, hrun, hval⟩ := ih (by simpa using h)
            exact ⟨mr, hrun, by simpa using hval⟩
        | some cur =>
            intro _
            obtain ⟨mr, hrun, hval⟩ := intersect_agg_state args cur
            refine ⟨mr, hrun, hval.trans ?_⟩
            ext x
            simp

/-- **The aggregates** return the union, or the intersection, of their inputs, in whatever order these come. -/
theorem multirange_aggregates (tc : TypeCacheEntry α) :
    (Aggregates tc (range_agg tc) (fun rs => {x | ∃ r ∈ rs, x ∈ r.points}) ∧
      ∀ args args', args.Perm args' → range_agg tc args = range_agg tc args') ∧
    (Aggregates tc (fun args : List (Option (MultirangeType tc)) => multirange_agg tc (rangesOf args))
        (fun mrs => {x | ∃ mr ∈ mrs, x ∈ points mr.ranges}) ∧
      ∀ args args' : List (Option (MultirangeType tc)), args.Perm args' →
        multirange_agg tc (rangesOf args) = multirange_agg tc (rangesOf args')) ∧
    (Aggregates tc (fun args : List (Option (MultirangeType tc)) => multirange_intersect_agg tc (rangesOf args))
        (fun mrs => {x | ∀ mr ∈ mrs, x ∈ points mr.ranges}) ∧
      ∀ args args' : List (Option (MultirangeType tc)), args.Perm args' →
        multirange_intersect_agg tc (rangesOf args) = multirange_intersect_agg tc (rangesOf args')) := by
  have h1 := range_agg_spec tc
  have h2 := multirange_agg_spec tc
  have h3 := multirange_intersect_agg_spec tc
  refine ⟨⟨h1, fun args args' => h1.order fun a b hp => ?_⟩, ⟨h2, fun args args' => h2.order fun a b hp => ?_⟩,
    h3, fun args args' => h3.order fun a b hp => ?_⟩
  · simp only [hp.mem_iff]
  · simp only [hp.mem_iff]
  · simp only [hp.mem_iff]

/-- `[1, 3)`, `NULL` and `[2, )`, in two orders. -/
theorem multirange_aggregates_numrange :
    range_agg numrange [
      some (.bounds ⟨some 1, true, true⟩ ⟨some 3, false, false⟩ ⟨rfl, rfl, by simp, by simp, by simp⟩), none,
      some (.bounds ⟨some 2, true, true⟩ ⟨none, false, false⟩ ⟨rfl, rfl, by simp, by simp, by simp⟩)] =
    range_agg numrange [none,
      some (.bounds ⟨some 2, true, true⟩ ⟨none, false, false⟩ ⟨rfl, rfl, by simp, by simp, by simp⟩),
      some (.bounds ⟨some 1, true, true⟩ ⟨some 3, false, false⟩ ⟨rfl, rfl, by simp, by simp, by simp⟩)] := by
  obtain ⟨⟨_, horder⟩, _⟩ := multirange_aggregates numrange
  exact horder _ _ ((List.Perm.swap _ _ _).trans (List.Perm.cons _ (List.Perm.swap _ _ _)))

end Dense

end Pgvec.MultirangeOps
