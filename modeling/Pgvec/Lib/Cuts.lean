/-
  File:      Pgvec/Lib/Cuts.lean
  Subject:   CUTS OF A LINEAR ORDER, and finite unions of half-open spans. Names nothing of any program.

  A cut stands just below or just above a value, or at one of the two ends. An interval with open, closed or
  infinite ends is a span between two cuts, and a value lies in it when the cut just below the value does.

  * `exists_below` -- in a dense order without ends there is a value between any two cuts;
  * `cover` -- the union of a list of spans; `Gapped` -- the spans stand in order, with a gap between neighbours;
  * **`Gapped.within`** -- a span covered by a gapped list lies in one span of it;
  * **`Gapped.ext`** -- gapped lists that cover the same points are equal;
  * `Ends` -- a set begins and ends at two cuts; how two sets lie to each other follows from their cuts.
-/
import Mathlib.Order.WithBot
import Mathlib.Data.Prod.Lex
import Mathlib.Data.Bool.Basic
import Mathlib.Order.Interval.Set.LinearOrder
import Mathlib.Data.List.Sort
import Mathlib.Tactic.Order

namespace Cuts

/-! ## 1. Cuts -/

section Cut

variable {α : Type} {v w : α}

/-- The places between the values of a linear order, and its two ends. -/
abbrev Cut (α : Type) := WithBot (WithTop (α ×ₗ Bool))

/-- The place just below a value. -/
def below (v : α) : Cut α := ((toLex (v, false) : α ×ₗ Bool) : WithTop (α ×ₗ Bool))

/-- The place just above a value. -/
def above (v : α) : Cut α := ((toLex (v, true) : α ×ₗ Bool) : WithTop (α ×ₗ Bool))

@[simp] theorem below_inj : below v = below w ↔ v = w := by
  simp [below]

@[simp] theorem above_inj : above v = above w ↔ v = w := by
  simp [above]

@[simp] theorem below_ne_above : below v ≠ above w := by
  simp [below, above]

@[simp] theorem above_ne_below : above v ≠ below w := below_ne_above.symm

/-- A cut is an end, or stands at a value. -/
theorem cut_cases (c : Cut α) : c = ⊥ ∨ c = ⊤ ∨ (∃ v, c = below v) ∨ ∃ v, c = above v := by
  cases c using WithBot.recBotCoe with
  | bot => exact .inl rfl
  | coe c =>
      cases c using WithTop.recTopCoe with
      | top => exact .inr (.inl rfl)
      | coe p =>
          obtain ⟨v, side⟩ := p
          cases side with
          | false => exact .inr (.inr (.inl ⟨v, rfl⟩))
          | true => exact .inr (.inr (.inr ⟨v, rfl⟩))

variable [LinearOrder α]

@[simp] theorem below_lt_below : below v < below w ↔ v < w := by
  simp [below, Prod.Lex.toLex_lt_toLex]

@[simp] theorem below_lt_above : below v < above w ↔ v ≤ w := by
  simp [below, above, Prod.Lex.toLex_lt_toLex, le_iff_lt_or_eq]

@[simp] theorem above_lt_below : above v < below w ↔ v < w := by
  simp [below, above, Prod.Lex.toLex_lt_toLex]

@[simp] theorem above_lt_above : above v < above w ↔ v < w := by
  simp [above, Prod.Lex.toLex_lt_toLex]

@[simp] theorem below_le_below : below v ≤ below w ↔ v ≤ w := by
  rw [← not_lt, below_lt_below, not_lt]

@[simp] theorem above_le_above : above v ≤ above w ↔ v ≤ w := by
  rw [← not_lt, above_lt_above, not_lt]

@[simp] theorem below_le_above : below v ≤ above w ↔ v ≤ w := by
  rw [← not_lt, above_lt_below, not_lt]

@[simp] theorem above_le_below : above v ≤ below w ↔ v < w := by
  rw [← not_lt, below_lt_above, not_le]

@[simp] theorem bot_lt_below : ⊥ < below v := WithBot.bot_lt_coe _

@[simp] theorem bot_lt_above : ⊥ < above v := WithBot.bot_lt_coe _

@[simp] theorem below_lt_top : below v < ⊤ := WithBot.coe_lt_coe.mpr (WithTop.coe_lt_top _)

@[simp] theorem above_lt_top : above v < ⊤ := WithBot.coe_lt_coe.mpr (WithTop.coe_lt_top _)

/-- No cut stands between those at one value. -/
theorem below_lt_iff {c : Cut α} : below v < c ↔ above v ≤ c := by
  obtain rfl | rfl | ⟨w, rfl⟩ | ⟨w, rfl⟩ := cut_cases c
  · exact iff_of_false not_lt_bot (not_le.mpr bot_lt_above)
  · exact iff_of_true below_lt_top le_top
  · rw [below_lt_below, above_le_below]
  · rw [below_lt_above, above_le_above]

/-- **Between two cuts** of a dense order without ends there is a value. -/
theorem exists_below [Nonempty α] [DenselyOrdered α] [NoMinOrder α] [NoMaxOrder α] {l u : Cut α} (h : l < u) :
    ∃ x, l ≤ below x ∧ below x < u := by
  obtain rfl | rfl | ⟨v, rfl⟩ | ⟨v, rfl⟩ := cut_cases l
  · obtain rfl | rfl | ⟨w, rfl⟩ | ⟨w, rfl⟩ := cut_cases u
    · exact absurd h (lt_irrefl _)
    · exact ⟨Classical.arbitrary α, bot_le, below_lt_top⟩
    · obtain ⟨x, hx⟩ := exists_lt w
      exact ⟨x, bot_le, below_lt_below.mpr hx⟩
    · exact ⟨w, bot_le, below_lt_above.mpr (le_refl w)⟩
  · exact absurd h not_top_lt
  · exact ⟨v, le_refl _, h⟩
  · obtain rfl | rfl | ⟨w, rfl⟩ | ⟨w, rfl⟩ := cut_cases u
    · exact absurd h not_lt_bot
    · obtain ⟨x, hx⟩ := exists_gt v
      exact ⟨x, above_le_below.mpr hx, below_lt_top⟩
    · obtain ⟨x, hvx, hxw⟩ := exists_between (above_lt_below.mp h)
      exact ⟨x, above_le_below.mpr hvx, below_lt_below.mpr hxw⟩
    · exact ⟨w, above_le_below.mpr (above_lt_above.mp h), below_lt_above.mpr (le_refl w)⟩

end Cut

/-! ## 2. Where a set begins and ends -/

section Ends

variable {α : Type} [LinearOrder α] {A B : Set α} {lo hi lo' hi' : Cut α}

/-- The values of a set lie between two cuts, and come as near to both as there are values. -/
structure Ends (A : Set α) (lo hi : Cut α) : Prop where
  inside : ∀ x ∈ A, lo ≤ below x ∧ below x < hi
  first : ∀ c, lo < c → ∃ x ∈ A, below x < c
  last : ∀ c, c < hi → ∃ x ∈ A, c ≤ below x

/-- All values of the one set are smaller than all of the other. -/
theorem Ends.before_iff (hA : Ends A lo hi) (hB : Ends B lo' hi') : hi ≤ lo' ↔ ∀ x ∈ A, ∀ y ∈ B, x < y := by
  constructor
  · intro h x hx y hy
    exact below_lt_below.mp (((hA.inside x hx).2.trans_le h).trans_le (hB.inside y hy).1)
  · intro h
    by_contra hlt
    obtain ⟨x, hx, h1⟩ := hA.last lo' (not_le.mp hlt)
    obtain ⟨y, hy, h2⟩ := hB.first (above x) (h1.trans_lt (below_lt_above.mpr le_rfl))
    exact absurd (h x hx y hy) (not_lt.mpr (below_lt_above.mp h2))

/-- No value of the one set is above all of the other. -/
theorem Ends.overleft_iff (hA : Ends A lo hi) (hB : Ends B lo' hi') : hi ≤ hi' ↔ ∀ x ∈ A, ∃ y ∈ B, x ≤ y := by
  constructor
  · intro h x hx
    obtain ⟨y, hy, hxy⟩ := hB.last (below x) ((hA.inside x hx).2.trans_le h)
    exact ⟨y, hy, below_le_below.mp hxy⟩
  · intro h
    by_contra hlt
    obtain ⟨x, hx, h1⟩ := hA.last hi' (not_le.mp hlt)
    obtain ⟨y, hy, hxy⟩ := h x hx
    exact absurd (h1.trans (below_le_below.mpr hxy)) (not_le.mpr (hB.inside y hy).2)

/-- No value of the one set is below all of the other. -/
theorem Ends.overright_iff (hA : Ends A lo hi) (hB : Ends B lo' hi') : lo' ≤ lo ↔ ∀ x ∈ A, ∃ y ∈ B, y ≤ x := by
  constructor
  · intro h x hx
    obtain ⟨y, hy, hyx⟩ := hB.first (above x) ((h.trans (hA.inside x hx).1).trans_lt (below_lt_above.mpr le_rfl))
    exact ⟨y, hy, below_lt_above.mp hyx⟩
  · intro h
    by_contra hlt
    obtain ⟨x, hx, h1⟩ := hA.first lo' (not_le.mp hlt)
    obtain ⟨y, hy, hyx⟩ := h x hx
    exact absurd ((hB.inside y hy).1.trans (below_le_below.mpr hyx)) (not_le.mpr h1)

/-- The one set lies before the other and no value lies between the two. -/
theorem Ends.meet_iff [Nonempty α] [DenselyOrdered α] [NoMinOrder α] [NoMaxOrder α] (hA : Ends A lo hi)
    (hB : Ends B lo' hi') :
    hi = lo' ↔ (∀ x ∈ A, ∀ y ∈ B, x < y) ∧ ∀ z, ¬ ((∀ x ∈ A, x < z) ∧ ∀ y ∈ B, z < y) := by
  rw [← hA.before_iff hB]
  constructor
  · intro h
    subst h
    refine ⟨le_rfl, fun z hz => ?_⟩
    rcases lt_or_ge (below z) hi with hlt | hge
    · obtain ⟨x, hx, hzx⟩ := hA.last _ hlt
      exact absurd (hz.1 x hx) (not_lt.mpr (below_le_below.mp hzx))
    · obtain ⟨y, hy, hyz⟩ := hB.first (above z) (hge.trans_lt (below_lt_above.mpr le_rfl))
      exact absurd (hz.2 y hy) (not_lt.mpr (below_lt_above.mp hyz))
  · intro h
    obtain ⟨hle, hno⟩ := h
    refine hle.antisymm (not_lt.mp fun hlt => ?_)
    obtain ⟨z, h1, h2⟩ := exists_below hlt
    refine hno z ⟨fun x hx => ?_, fun y hy => ?_⟩
    · exact below_lt_below.mp ((hA.inside x hx).2.trans_le h1)
    · exact below_lt_below.mp (h2.trans_le (hB.inside y hy).1)

end Ends

/-! ## 3. Spans -/

variable {C : Type} [LinearOrder C]

/-- A half-open span. -/
structure Span (C : Type) where
  lo : C
  hi : C

/-- The union of a list of spans. -/
def cover (spans : List (Span C)) : Set C := {c | ∃ s ∈ spans, s.lo ≤ c ∧ c < s.hi}

/-- The spans stand in order, with a gap between neighbours. -/
structure Gapped (spans : List (Span C)) : Prop where
  nonempty : ∀ s ∈ spans, s.lo < s.hi
  gap : spans.Pairwise fun s t => s.hi < t.lo

variable {s t k : Span C} {l m : List (Span C)} {P : Set C} {c d : C}

@[simp] theorem mem_cover_nil : c ∈ cover ([] : List (Span C)) ↔ False := by
  simp [cover]

@[simp] theorem mem_cover_cons : c ∈ cover (s :: l) ↔ (s.lo ≤ c ∧ c < s.hi) ∨ c ∈ cover l := by
  simp [cover]

@[simp] theorem mem_cover_append : c ∈ cover (l ++ m) ↔ c ∈ cover l ∨ c ∈ cover m := by
  simp [cover, or_and_right, exists_or]

theorem Gapped.nil : Gapped ([] : List (Span C)) := ⟨by simp, List.Pairwise.nil⟩

theorem gapped_cons : Gapped (s :: l) ↔ s.lo < s.hi ∧ (∀ t ∈ l, s.hi < t.lo) ∧ Gapped l := by
  constructor
  · intro h
    have hgap := List.pairwise_cons.mp h.gap
    exact ⟨h.nonempty s List.mem_cons_self, hgap.1, fun t ht => h.nonempty t (List.mem_cons_of_mem _ ht), hgap.2⟩
  · intro ⟨hs, hl, h⟩
    refine ⟨fun t ht => ?_, List.pairwise_cons.mpr ⟨hl, h.gap⟩⟩
    obtain rfl | ht := List.mem_cons.mp ht
    · exact hs
    · exact h.nonempty t ht

/-- What is covered stands above a bound below all the spans. -/
theorem le_of_mem_cover (h : ∀ s ∈ l, d ≤ s.lo) (hc : c ∈ cover l) : d ≤ c := by
  obtain ⟨s, hs, hlo, _⟩ := hc
  exact (h s hs).trans hlo

theorem Gapped.lo_le (h : Gapped (s :: l)) (hc : c ∈ cover (s :: l)) : s.lo ≤ c := by
  obtain ⟨hs, hl, _⟩ := gapped_cons.mp h
  refine le_of_mem_cover (fun t ht => ?_) hc
  obtain rfl | ht := List.mem_cons.mp ht
  · exact le_refl _
  · exact hs.le.trans (hl t ht).le

/-- There is room behind a span before the next one begins. -/
theorem exists_gap (hl : ∀ t ∈ l, s.hi < t.lo) (h : Gapped l) (hd : s.hi < d) :
    ∃ g, s.hi < g ∧ g ≤ d ∧ ∀ t ∈ l, g ≤ t.lo := by
  cases l with
  | nil => exact ⟨d, hd, le_refl d, by simp⟩
  | cons t m =>
      refine ⟨min d t.lo, lt_min hd (hl t List.mem_cons_self), min_le_left _ _, fun r hr => ?_⟩
      obtain ⟨ht, hm, _⟩ := gapped_cons.mp h
      obtain rfl | hr := List.mem_cons.mp hr
      · exact min_le_right _ _
      · exact (min_le_right _ _).trans (ht.le.trans (hm r hr).le)

/-- `P` has a point in every span. -/
def Meets (P : Set C) : Prop := ∀ a b, a < b → ∃ c ∈ P, a ≤ c ∧ c < b

/-- **A covered span** lies in one span of a gapped list. -/
theorem Gapped.within (hP : Meets P) (h : Gapped l) (hk : k.lo < k.hi)
    (hsub : ∀ c ∈ P, k.lo ≤ c → c < k.hi → c ∈ cover l) : ∃ s ∈ l, s.lo ≤ k.lo ∧ k.hi ≤ s.hi := by
  induction l with
  | nil =>
      obtain ⟨c, hc, hlo, hhi⟩ := hP _ _ hk
      exact absurd (hsub c hc hlo hhi) (by simp)
  | cons s l ih =>
      obtain ⟨hs, hl, hg⟩ := gapped_cons.mp h
      rcases le_or_gt k.hi s.hi with hle | hlt
      · refine ⟨s, List.mem_cons_self, ?_, hle⟩
        -- otherwise a point of the span stands before all that is covered
        by_contra hlo
        obtain ⟨c, hc, h1, h2⟩ := hP k.lo (min k.hi s.lo) (lt_min hk (not_le.mp hlo))
        have hin := hsub c hc h1 (lt_of_lt_of_le h2 (min_le_left _ _))
        exact absurd (h.lo_le hin) (not_le.mpr (lt_of_lt_of_le h2 (min_le_right _ _)))
      · have hbehind : s.hi ≤ k.lo := by
          -- otherwise a point of the span stands in the gap behind `s`
          by_contra hlo
          obtain ⟨g, hg1, hg2, hg3⟩ := exists_gap hl hg hlt
          obtain ⟨c, hc, h1, h2⟩ := hP _ _ hg1
          have hin := hsub c hc ((not_le.mp hlo).le.trans h1) (lt_of_lt_of_le h2 hg2)
          rcases mem_cover_cons.mp hin with hin | hin
          · exact absurd hin.2 (not_lt.mpr h1)
          · exact absurd (le_of_mem_cover hg3 hin) (not_le.mpr h2)
        obtain ⟨r, hr, hrk⟩ := ih hg fun c hc h1 h2 =>
          (mem_cover_cons.mp (hsub c hc h1 h2)).resolve_left fun hin => absurd hin.2 (not_lt.mpr (hbehind.trans h1))
        exact ⟨r, List.mem_cons_of_mem _ hr, hrk⟩

/-- Two spans of a gapped list with a common part are one. -/
theorem Gapped.eq_of_meet (h : Gapped l) (hs : s ∈ l) (ht : t ∈ l) (h1 : s.lo < t.hi) (h2 : t.lo < s.hi) : s = t := by
  induction l with
  | nil => exact absurd hs List.not_mem_nil
  | cons r l ih =>
      obtain ⟨_, hl, hg⟩ := gapped_cons.mp h
      obtain rfl | hsl := List.mem_cons.mp hs
      · obtain rfl | htl := List.mem_cons.mp ht
        · rfl
        · exact absurd (hl t htl) (not_lt.mpr h2.le)
      · obtain rfl | htl := List.mem_cons.mp ht
        · exact absurd (hl s hsl) (not_lt.mpr h1.le)
        · exact ih hg hsl htl

/-- A span of one gapped list is a span of every gapped list with the same points. -/
theorem Gapped.mem_of_cover (hP : Meets P) (hl : Gapped l) (hm : Gapped m)
    (h : ∀ c ∈ P, c ∈ cover l ↔ c ∈ cover m) (hs : s ∈ l) : s ∈ m := by
  have hne := hl.nonempty s hs
  obtain ⟨t, ht, htlo, hthi⟩ := hm.within hP hne fun c hc h1 h2 => (h c hc).mp ⟨s, hs, h1, h2⟩
  have htne := hm.nonempty t ht
  obtain ⟨r, hr, hrlo, hrhi⟩ := hl.within hP htne fun c hc h1 h2 => (h c hc).mpr ⟨t, ht, h1, h2⟩
  -- `s` lies in `t`, and `t` in a span of the first list, which is `s` again
  have hrs : r = s := hl.eq_of_meet hr hs (by order) (by order)
  subst hrs
  have hts : t = r := by
    obtain ⟨tlo, thi⟩ := t
    obtain ⟨rlo, rhi⟩ := r
    simp only [Span.mk.injEq] at *
    exact ⟨le_antisymm htlo hrlo, le_antisymm hrhi hthi⟩
  exact hts ▸ ht

/-- **Gapped lists** that cover the same points are equal. -/
theorem Gapped.ext (hP : Meets P) (hl : Gapped l) (hm : Gapped m)
    (h : ∀ c ∈ P, c ∈ cover l ↔ c ∈ cover m) : l = m := by
  have hmem : ∀ s, s ∈ l ↔ s ∈ m := fun s =>
    ⟨hl.mem_of_cover hP hm h, hm.mem_of_cover hP hl fun c hc => (h c hc).symm⟩
  have hord : ∀ {n : List (Span C)}, Gapped n → n.Pairwise fun s t => s.lo < t.lo := fun {n} hn =>
    hn.gap.imp_of_mem fun hs _ hst => (hn.nonempty _ hs).trans hst
  have hnodup : ∀ {n : List (Span C)}, Gapped n → n.Nodup := fun hn =>
    (hord hn).imp fun hst heq => absurd (heq ▸ hst) (lt_irrefl _)
  have hperm : l.Perm m := (List.perm_ext_iff_of_nodup (hnodup hl) (hnodup hm)).mpr hmem
  have hasymm : ∀ s t : Span C, s ∈ l → t ∈ m → s.lo < t.lo → t.lo < s.lo → s = t :=
    fun s t _ _ hst hts => absurd hst (not_lt.mpr hts.le)
  exact hperm.eq_of_pairwise hasymm (hord hl) (hord hm)

end Cuts
