/-
  File:      Pgvec/Adt/MultirangeOpsFacts.lean
  Subject:   WHAT THE LOOPS OVER MULTIRANGES COMPUTE: the covers of the lists they are given and of those they leave.

  * `mergeLoop_spec`, **`canonicalize_spec`** -- sorting and merging keeps the cover and leaves gaps;
  * `subtractLoop_spec`, `minusLoop_spec` -- the difference of the covers, within the slots;
  * `overlapLoop_spec`, `intersectLoop_spec` -- the intersection of the covers, within the slots.
-/
import Pgvec.Adt.MultirangeOps
import Pgvec.Adt.RangeOpsFacts
import Mathlib.Order.MinMax
import Mathlib.Tactic.Tauto

namespace Pgvec.MultirangeOps

open Pgvec.RangeOps Cuts

variable {α : Type} [LinearOrder α] (tc : TypeCacheEntry α) {r s t : RangeType α} {l m pre rest : List (RangeType α)}
  {c : Cut α}

/-! ## 1. Lists of ranges as lists of spans -/

/-- The spans of a list of ranges. -/
def spans (l : List (RangeType α)) : List (Span (Cut α)) := l.map RangeType.span

@[simp] theorem spans_nil : spans ([] : List (RangeType α)) = [] := rfl

@[simp] theorem spans_cons : spans (r :: l) = r.span :: spans l := rfl

@[simp] theorem spans_append : spans (l ++ m) = spans l ++ spans m := List.map_append

/-- The ranges are not empty, and stand in order with gaps between them. -/
def Gaps (l : List (RangeType α)) : Prop := Gapped (spans l)

theorem gaps_nil : Gaps ([] : List (RangeType α)) := Gapped.nil

theorem gaps_cons : Gaps (r :: l) ↔ r.isEmpty = false ∧ (∀ s ∈ l, r.hi < s.lo) ∧ Gaps l := by
  have he : r.isEmpty = false ↔ r.lo < r.hi := by
    rw [← not_iff_not, Bool.not_eq_false, isEmpty_iff_not_lt]
  simp [Gaps, gapped_cons, spans, he]

theorem Gaps.nonempty (h : Gaps l) (hr : r ∈ l) : r.isEmpty = false := by
  induction l with
  | nil => exact absurd hr List.not_mem_nil
  | cons s l ih =>
      obtain ⟨hs, _, hl⟩ := gaps_cons.mp h
      obtain rfl | hrl := List.mem_cons.mp hr
      · exact hs
      · exact ih hl hrl

/-- Ending a list with one more range. -/
theorem gaps_concat : Gaps (l ++ [r]) ↔ Gaps l ∧ r.isEmpty = false ∧ ∀ s ∈ l, s.hi < r.lo := by
  induction l with
  | nil => simp [gaps_cons, gaps_nil]
  | cons s l ih =>
      simp only [List.cons_append, gaps_cons, ih, List.mem_append, List.mem_cons, or_imp, forall_and, forall_eq]
      tauto

/-- What the ranges of a list cover. -/
def covered (l : List (RangeType α)) : Set (Cut α) := cover (spans l)

@[simp] theorem mem_covered_nil : c ∈ covered ([] : List (RangeType α)) ↔ False := mem_cover_nil

@[simp] theorem mem_covered_cons : c ∈ covered (r :: l) ↔ (r.lo ≤ c ∧ c < r.hi) ∨ c ∈ covered l := mem_cover_cons

@[simp] theorem mem_covered_append : c ∈ covered (l ++ m) ↔ c ∈ covered l ∨ c ∈ covered m := by
  rw [covered, spans_append, mem_cover_append]
  rfl

theorem mem_covered : c ∈ covered l ↔ ∃ r ∈ l, r.lo ≤ c ∧ c < r.hi := by
  simp [covered, cover, spans]

theorem covered_perm (h : l.Perm m) : c ∈ covered l ↔ c ∈ covered m := by
  rw [mem_covered, mem_covered]
  exact exists_congr fun r => and_congr_left fun _ => h.mem_iff

/-- Nothing before all the ranges is covered. -/
theorem not_covered_of_lt (h : ∀ s ∈ l, c < s.lo) : c ∉ covered l := by
  rw [mem_covered]
  rintro ⟨s, hs, hlo, _⟩
  exact absurd hlo (not_le.mpr (h s hs))

/-- An empty range covers nothing. -/
theorem not_mem_of_isEmpty (h : r.isEmpty = true) : ¬ (r.lo ≤ c ∧ c < r.hi) :=
  fun hc => isEmpty_iff_not_lt.mp h (lt_of_le_of_lt hc.1 hc.2)

/-! ## 2. The canonical form -/

/-- A range that reaches or overlaps the last one extends it. -/
theorem gaps_extend (h : Gaps (pre ++ [r])) (ht : t.isEmpty = false) (hlo : t.lo = r.lo) : Gaps (pre ++ [t]) := by
  obtain ⟨hpre, _, hlt⟩ := gaps_concat.mp h
  exact gaps_concat.mpr ⟨hpre, ht, fun s hs => hlo ▸ hlt s hs⟩

/-- Two ranges without a gap between them cover what the range over both does. -/
theorem mem_joined (hlo : r.lo ≤ s.lo) (hm : s.lo ≤ r.hi) :
    (min r.lo s.lo ≤ c ∧ c < max r.hi s.hi) ↔ (r.lo ≤ c ∧ c < r.hi) ∨ (s.lo ≤ c ∧ c < s.hi) := by
  rw [min_eq_left hlo, lt_max_iff]
  constructor
  · rintro ⟨h, h1 | h1⟩
    · exact .inl ⟨h, h1⟩
    · rcases lt_or_ge c r.hi with h2 | h2
      · exact .inl ⟨h, h2⟩
      · exact .inr ⟨hm.trans h2, h1⟩
  · rintro (⟨h1, h2⟩ | ⟨h1, h2⟩)
    · exact ⟨h1, .inl h2⟩
    · exact ⟨hlo.trans h1, .inr h2⟩

/-- **The merge loop**: what is kept and what is still to come. -/
theorem mergeLoop_spec : ∀ (rest : List (RangeType α)) {pre : List (RangeType α)} {last : RangeType α},
    Gaps (pre ++ [last]) → (last :: rest).Pairwise (fun r s => s.isEmpty = false → r.isEmpty = false → r.lo ≤ s.lo) →
    ∃ mr, mergeLoop tc (pre ++ [last]) (some last) rest = .ok mr ∧ Gaps mr ∧
      ∀ c, c ∈ covered mr ↔ c ∈ covered (pre ++ [last]) ∨ c ∈ covered rest
  | [], pre, last, hg, _ => ⟨_, rfl, hg, by simp⟩
  | cur :: rest, pre, last, hg, hord => by
      obtain ⟨hpre, hlast, hbefore⟩ := gaps_concat.mp hg
      obtain ⟨hfirst, hrest⟩ := List.pairwise_cons.mp hord
      rw [mergeLoop]
      cases hcur : cur.isEmpty with
      | true =>
          rw [if_pos rfl]
          have hord' : (last :: rest).Pairwise _ := hord.sublist ((List.sublist_cons_self cur rest).cons_cons last)
          obtain ⟨mr, hrun, hmr, hcov⟩ := mergeLoop_spec rest hg hord'
          refine ⟨mr, hrun, hmr, fun c => ?_⟩
          simp [hcov, not_mem_of_isEmpty hcur]
      | false =>
          rw [if_neg (by simp)]
          have hlo : last.lo ≤ cur.lo := hfirst cur List.mem_cons_self hcur hlast
          have hlt := lo_lt_hi hlast
          have hltc := lo_lt_hi hcur
          -- the ranges merged: the rest does not begin before the new last range
          have merged : ∀ strict t, range_union_internal tc last cur strict = .ok t → t.isEmpty = false →
              t.lo = min last.lo cur.lo → t.hi = max last.hi cur.hi → cur.lo ≤ last.hi →
              ∃ mr, (do
                let lastRange ← range_union_internal tc last cur strict
                mergeLoop tc ((pre ++ [last]).dropLast ++ [lastRange]) (some lastRange) rest) = .ok mr ∧ Gaps mr ∧
                ∀ c, c ∈ covered mr ↔ c ∈ covered (pre ++ [last]) ∨ c ∈ covered (cur :: rest) := by
            intro strict t hrun ht htlo hthi hm
            have htlo' : t.lo = last.lo := htlo.trans (min_eq_left hlo)
            rw [hrun, List.dropLast_concat]
            have hord' : (t :: rest).Pairwise fun r s => s.isEmpty = false → r.isEmpty = false → r.lo ≤ s.lo :=
              List.pairwise_cons.mpr ⟨fun s hs hse _ =>
                htlo' ▸ hfirst s (List.mem_cons_of_mem _ hs) hse hlast, (List.pairwise_cons.mp hrest).2⟩
            obtain ⟨mr, hmr, hgm, hcov⟩ := mergeLoop_spec rest (gaps_extend hg ht htlo') hord'
            refine ⟨mr, hmr, hgm, fun c => ?_⟩
            simp only [hcov, mem_covered_append, mem_covered_cons, mem_covered_nil, or_false, htlo, hthi,
              mem_joined hlo hm]
            tauto
          have hadj := adjacent_iff tc hlast hcur
          have hbef := before_iff tc hlast hcur
          by_cases ha : range_adjacent_internal tc last cur = true
          · simp only [if_pos ha]
            have hm : last.hi = cur.lo := (hadj.mp ha).resolve_right fun h =>
              absurd (hlo.trans_lt hltc) (by rw [h]; exact lt_irrefl _)
            obtain ⟨t, hrun, ht, htlo, hthi⟩ := union_spec tc hlast hcur false (by simp)
            exact merged false t hrun ht htlo hthi hm.ge
          · simp only [if_neg ha]
            by_cases hb : range_before_internal tc last cur = true
            · simp only [if_pos hb]
              -- there is a gap, so the last range stays as it is
              have hgap : last.hi < cur.lo :=
                lt_of_le_of_ne (hbef.mp hb) fun h => ha (hadj.mpr (.inl h))
              have hg' : Gaps (pre ++ [last] ++ [cur]) := by
                refine gaps_concat.mpr ⟨hg, hcur, fun s hs => ?_⟩
                rcases List.mem_append.mp hs with hs | hs
                · exact (hbefore s hs).trans (hlt.trans hgap)
                · rw [List.mem_singleton.mp hs]
                  exact hgap
              obtain ⟨mr, hrun, hmr, hcov⟩ := mergeLoop_spec rest hg' hrest
              refine ⟨mr, hrun, hmr, fun c => ?_⟩
              simp only [hcov, mem_covered_append, mem_covered_cons, mem_covered_nil, or_false]
              tauto
            · simp only [if_neg hb]
              have hm : cur.lo < last.hi := not_le.mp fun h => hb (hbef.mpr h)
              obtain ⟨t, hrun, ht, htlo, hthi⟩ := union_spec tc hlast hcur true fun _ =>
                .inl ⟨hlo.trans_lt hltc, hm⟩
              exact merged true t hrun ht htlo hthi hm.le

/-- The merge loop before it has met a range that is not empty. -/
theorem mergeLoop_start : ∀ (rest : List (RangeType α)),
    rest.Pairwise (fun r s => s.isEmpty = false → r.isEmpty = false → r.lo ≤ s.lo) →
    ∃ mr, mergeLoop tc [] none rest = .ok mr ∧ Gaps mr ∧ ∀ c, c ∈ covered mr ↔ c ∈ covered rest
  | [], _ => ⟨[], rfl, gaps_nil, by simp⟩
  | cur :: rest, hord => by
      rw [mergeLoop]
      cases hcur : cur.isEmpty with
      | true =>
          rw [if_pos rfl]
          obtain ⟨mr, hrun, hmr, hcov⟩ := mergeLoop_start rest (List.pairwise_cons.mp hord).2
          refine ⟨mr, hrun, hmr, fun c => ?_⟩
          simp [hcov, not_mem_of_isEmpty hcur]
      | false =>
          rw [if_neg (by simp)]
          have hg : Gaps ([] ++ [cur]) := gaps_concat.mpr ⟨gaps_nil, hcur, by simp⟩
          obtain ⟨mr, hrun, hmr, hcov⟩ := mergeLoop_spec tc rest hg hord
          refine ⟨mr, hrun, hmr, fun c => ?_⟩
          simp [hcov]

/-- What the sort leaves: the ranges in the order of `range_compare`. -/
theorem qsort_arg_pairwise (l : List (RangeType α)) :
    (qsort_arg (range_compare tc) l).Pairwise fun r s => r.key ≤ s.key := by
  have htrans : ∀ r s t : RangeType α, decide (range_compare tc r s ≤ 0) = true →
      decide (range_compare tc s t ≤ 0) = true → decide (range_compare tc r t ≤ 0) = true := fun r s t hrs hst => by
    rw [decide_eq_true_eq, compare_nonpos] at *
    exact hrs.trans hst
  have htotal : ∀ r s : RangeType α,
      (decide (range_compare tc r s ≤ 0) || decide (range_compare tc s r ≤ 0)) = true := fun r s => by
    rw [Bool.or_eq_true, decide_eq_true_eq, decide_eq_true_eq, compare_nonpos, compare_nonpos]
    exact le_total _ _
  have hpair := List.pairwise_mergeSort htrans htotal l
  exact hpair.imp fun h => by rwa [decide_eq_true_eq, compare_nonpos] at h

/-- **`multirange_canonicalize`** succeeds, leaves gaps, and covers what it was given. -/
theorem canonicalize_spec (l : List (RangeType α)) :
    ∃ mr, make_multirange tc l = .ok mr ∧ Gaps mr ∧ ∀ c, c ∈ covered mr ↔ c ∈ covered l := by
  have hord : (qsort_arg (range_compare tc) l).Pairwise fun r s =>
      s.isEmpty = false → r.isEmpty = false → r.lo ≤ s.lo := by
    refine (qsort_arg_pairwise tc l).imp ?_
    intro r s h _ hr
    exact (lo_le_of_key_le hr h).2
  obtain ⟨mr, hrun, hmr, hcov⟩ := mergeLoop_start tc _ hord
  exact ⟨mr, hrun, hmr, fun c => (hcov c).trans (covered_perm (List.mergeSort_perm l _))⟩

/-! ## 3. Difference -/

variable (slots : Nat) {ranges1 ranges2 ranges3 : List (RangeType α)} {r1 : RangeType α}

theorem storeRange_ok {slots : Nat} (h : ranges3.length < slots) : storeRange slots ranges3 r = .ok (ranges3 ++ [r]) := if_pos h

/-- **Discarding** changes nothing from the beginning of `r1` on. -/
theorem discard_spec (hr : r1.isEmpty = false) : ∀ {ranges2 : List (RangeType α)}, Gaps ranges2 →
    Gaps (discard tc r1 ranges2) ∧ (discard tc r1 ranges2).length ≤ ranges2.length ∧
      (∀ s ∈ discard tc r1 ranges2, r1.lo < s.hi) ∧
      ∀ c, r1.lo ≤ c → (c ∈ covered (discard tc r1 ranges2) ↔ c ∈ covered ranges2)
  | [], _ => ⟨gaps_nil, le_refl _, by simp [discard], by simp [discard]⟩
  | s :: ranges2, hg => by
      obtain ⟨hs, hgap, hg2⟩ := gaps_cons.mp hg
      have hbef := before_iff tc hs hr
      rw [discard]
      by_cases hb : range_before_internal tc s r1 = true
      · rw [if_pos hb]
        obtain ⟨h1, h2, h3, h4⟩ := discard_spec hr hg2
        refine ⟨h1, h2.trans (Nat.le_succ _), h3, fun c hc => ?_⟩
        rw [h4 c hc, mem_covered_cons]
        refine (or_iff_right fun h => ?_).symm
        exact absurd h.2 (not_lt.mpr ((hbef.mp hb).trans hc))
      · rw [if_neg hb]
        have hlt : r1.lo < s.hi := not_le.mp fun h => hb (hbef.mpr h)
        refine ⟨hg, le_refl _, fun t ht => ?_, fun c _ => Iff.rfl⟩
        obtain rfl | ht := List.mem_cons.mp ht
        · exact hlt
        · exact hlt.trans ((hgap t ht).trans (lo_lt_hi (hg2.nonempty ht)))

/-- What taking the r2s from one `r1` leaves: the rest of it, the r2s kept, and the outputs. -/
structure Subtracted (r1 : RangeType α) (ranges2 : List (RangeType α)) (t : RangeType α)
    (kept out : List (RangeType α)) : Prop where
  gaps : Gaps kept
  room : out.length + kept.length ≤ ranges2.length
  cover : ∀ c, (c ∈ covered out ∨ (t.lo ≤ c ∧ c < t.hi)) ↔ (r1.lo ≤ c ∧ c < r1.hi) ∧ c ∉ covered ranges2
  ahead : ∀ c, r1.hi ≤ c → (c ∈ covered kept ↔ c ∈ covered ranges2)

/-- Where the r2s that are left do not reach back to the rest of `r1`. -/
theorem Subtracted.stop (hg : Gaps (s :: ranges2)) (hend : r1.hi ≤ s.hi)
    (ht : ∀ c, (t.lo ≤ c ∧ c < t.hi) ↔ (r1.lo ≤ c ∧ c < r1.hi) ∧ ¬ (s.lo ≤ c ∧ c < s.hi)) :
    Subtracted r1 (s :: ranges2) t (s :: ranges2) [] := by
  refine ⟨hg, by simp, fun c => ?_, fun c _ => Iff.rfl⟩
  obtain ⟨_, hgap, _⟩ := gaps_cons.mp hg
  have hnot : c < r1.hi → c ∉ covered ranges2 := fun hc =>
    not_covered_of_lt fun t ht => (hc.trans_le hend).trans (hgap t ht)
  rw [mem_covered_nil, false_or, ht, mem_covered_cons, not_or]
  tauto

/-- **The inner loop** of the difference. -/
theorem subtractLoop_spec : ∀ (ranges2 ranges3 : List (RangeType α)) {r1 : RangeType α},
    r1.isEmpty = false → Gaps ranges2 → (∀ s ∈ ranges2, r1.lo < s.hi) →
    ranges3.length + ranges2.length < slots →
    ∃ t kept out, subtractLoop tc slots r1 ranges2 ranges3 = .ok (t, kept, ranges3 ++ out) ∧
      Subtracted r1 ranges2 t kept out
  | [], ranges3, r1, _, hg, _, _ => by
      refine ⟨r1, [], [], by simp [subtractLoop], gaps_nil, le_refl _, ?_, ?_⟩
      · simp
      · simp
  | s :: ranges2, ranges3, r1, hr, hg, hpast, hroom => by
      obtain ⟨hs, hgap, hg2⟩ := gaps_cons.mp hg
      have hstart : r1.lo < s.hi := hpast s List.mem_cons_self
      have hlen : (s :: ranges2).length = ranges2.length + 1 := rfl
      have hslt := lo_lt_hi hs
      have hend : ∀ t ∈ ranges2, s.hi < t.hi := fun t ht => (hgap t ht).trans (lo_lt_hi (hg2.nonempty ht))
      have hgapc : ∀ c, c ≤ s.hi → c ∉ covered ranges2 := fun c hc =>
        not_covered_of_lt fun t ht => hc.trans_lt (hgap t ht)
      rw [subtractLoop]
      rcases split_spec tc hr hs with ⟨hlo, hhi, o1, o2, hrun, hn1, hlo1, hhi1, hn2, hlo2, hhi2⟩ | ⟨hin, hrun⟩
      · -- the second range takes a bite out of the middle
        have hstore : storeRange slots ranges3 o1 = .ok (ranges3 ++ [o1]) := storeRange_ok (by omega)
        have hroom' : (ranges3 ++ [o1]).length + ranges2.length < slots := by
          rw [List.length_append, List.length_singleton]
          omega
        obtain ⟨t, kept, out, hloop, hsub⟩ := subtractLoop_spec ranges2 (ranges3 ++ [o1]) hn2 hg2
          (fun t ht => hlo2 ▸ hend t ht) hroom'
        refine ⟨t, kept, o1 :: out, ?_, hsub.gaps, ?_, fun c => ?_, fun c hc => ?_⟩
        · rw [hrun]
          show (storeRange slots ranges3 o1 >>= fun ranges3 => subtractLoop tc slots o2 ranges2 ranges3) = _
          rw [hstore]
          show subtractLoop tc slots o2 ranges2 (ranges3 ++ [o1]) = _
          rw [hloop, List.append_assoc]
          rfl
        · have := hsub.room
          simp only [List.length_cons]
          omega
        · have hc := hsub.cover c
          rw [hlo2, hhi2] at hc
          rw [mem_covered_cons, or_assoc, hc, hlo1, hhi1, mem_covered_cons, not_or]
          have hclear := hgapc c
          constructor
          · rintro (⟨h1, h2⟩ | ⟨⟨h1, h2⟩, h3⟩)
            · exact ⟨⟨h1, h2.trans (hslt.trans hhi)⟩, fun h => absurd h2 (not_lt.mpr h.1),
                hclear (h2.le.trans hslt.le)⟩
            · exact ⟨⟨(hlo.trans hslt).le.trans h1, h2⟩, fun h => absurd h.2 (not_lt.mpr h1), h3⟩
          · rintro ⟨⟨h1, h2⟩, h3, h4⟩
            rcases lt_or_ge c s.lo with h | h
            · exact .inl ⟨h1, h⟩
            · exact .inr ⟨⟨not_lt.mp fun h' => h3 ⟨h, h'⟩, h2⟩, h4⟩
        · rw [hsub.ahead c (hhi2 ▸ hc), mem_covered_cons]
          exact (or_iff_right fun h => absurd h.2 (not_lt.mpr (hhi.le.trans hc))).symm
      · rw [hrun]
        show ∃ t kept out, (if range_overlaps_internal tc r1 s = true then _ else _) = _ ∧ _
        have hov := overlaps_iff tc hr hs
        by_cases ho : range_overlaps_internal tc r1 s = true
        · obtain ⟨hov1, hov2⟩ := hov.mp ho
          obtain ⟨_, _, hmin⟩ | ⟨_, t, hmin, hrest⟩ := minus_spec tc hr hs
          · exact absurd ⟨‹_›, ‹_›⟩ hin
          rw [if_pos ho, hmin]
          show ∃ t' kept out, (if (t.isEmpty || range_before_internal tc t s) = true then _ else _) = _ ∧ _
          cases hrest with
          | apart h _ =>
              rcases h with h | h
              · exact absurd hov2 (not_lt.mpr h)
              · exact absurd hov1 (not_lt.mpr h)
          | nothing h h' ht =>
              rw [if_pos (by simp [ht])]
              refine ⟨t, s :: ranges2, [], by simp, Subtracted.stop hg h' fun c => ?_⟩
              refine iff_of_false (not_mem_of_isEmpty ht) fun hc => hc.2 ⟨h.trans hc.1.1, hc.1.2.trans_le h'⟩
          | left h hm h' ht lo hi =>
              have hb := (before_iff tc ht hs).mpr hi.le
              rw [if_pos (by simp [hb])]
              refine ⟨t, s :: ranges2, [], by simp, Subtracted.stop hg h' fun c => ?_⟩
              rw [lo, hi]
              constructor
              · rintro ⟨h1, h2⟩
                exact ⟨⟨h1, h2.trans hm⟩, fun hc => absurd h2 (not_lt.mpr hc.1)⟩
              · rintro ⟨⟨h1, h2⟩, h3⟩
                exact ⟨h1, not_le.mp fun h4 => h3 ⟨h4, h2.trans_le h'⟩⟩
          | right h hm h' ht lo hi =>
              -- the rest may be hit by the r2s to come
              have hb : ¬ range_before_internal tc t s = true := by
                rw [before_iff tc ht hs, hi]
                exact not_le.mpr hov2
              rw [if_neg (by simp [ht, hb])]
              obtain ⟨t', kept, out, hloop, hsub⟩ := subtractLoop_spec ranges2 ranges3 ht hg2
                (fun u hu => lo ▸ hend u hu) (by omega)
              refine ⟨t', kept, out, hloop, hsub.gaps, ?_, fun c => ?_, fun c hc => ?_⟩
              · have := hsub.room
                omega
              · rw [hsub.cover c, lo, hi, mem_covered_cons, not_or]
                constructor
                · rintro ⟨⟨h1, h2⟩, h3⟩
                  exact ⟨⟨hm.le.trans h1, h2⟩, fun hc => absurd hc.2 (not_lt.mpr h1), h3⟩
                · rintro ⟨⟨h1, h2⟩, h3, h4⟩
                  exact ⟨⟨not_lt.mp fun h5 => h3 ⟨h.trans h1, h5⟩, h2⟩, h4⟩
              · rw [hsub.ahead c (hi ▸ hc), mem_covered_cons]
                exact (or_iff_right fun h5 => absurd h5.2 (not_lt.mpr (h'.le.trans hc))).symm
        · -- this and all further r2s are past `r1`
          rw [if_neg ho]
          have hpast' : r1.hi ≤ s.lo := not_lt.mp fun h => ho (hov.mpr ⟨hstart, h⟩)
          refine ⟨r1, s :: ranges2, [], by simp, Subtracted.stop hg (hpast'.trans hslt.le) fun c => ?_⟩
          refine ⟨fun hc => ⟨hc, fun h => absurd hc.2 (not_lt.mpr (hpast'.trans h.1))⟩, And.left⟩

/-- **The difference loop**: the outputs cover what the r2s do not, and fit into the slots. -/
theorem minusLoop_spec : ∀ ranges1 ranges2 ranges3 : List (RangeType α),
    Gaps ranges1 → Gaps ranges2 → ranges3.length + ranges2.length + ranges1.length ≤ slots →
    ∃ out, minusLoop tc slots ranges1 ranges2 ranges3 = .ok (ranges3 ++ out) ∧
      ∀ c, c ∈ covered out ↔ c ∈ covered ranges1 ∧ c ∉ covered ranges2
  | [], _, ranges3, _, _, _ => ⟨[], by simp [minusLoop], by simp⟩
  | r1 :: ranges1, ranges2, ranges3, hg1, hg2, hroom => by
      obtain ⟨hr, hgap, hg⟩ := gaps_cons.mp hg1
      obtain ⟨hd1, hd2, hd3, hd4⟩ := discard_spec tc hr hg2
      rw [List.length_cons] at hroom
      obtain ⟨t, kept, out, hloop, hsub⟩ := subtractLoop_spec tc slots (discard tc r1 ranges2) ranges3 hr
        hd1 hd3 (by omega)
      have hsubroom := hsub.room
      have hstore : storeRange slots (ranges3 ++ out) t = .ok (ranges3 ++ out ++ [t]) :=
        storeRange_ok (by rw [List.length_append]; omega)
      obtain ⟨out', hrest, hcov⟩ := minusLoop_spec ranges1 kept (ranges3 ++ out ++ [t]) hg hsub.gaps
        (by simp only [List.length_append, List.length_singleton]; omega)
      refine ⟨out ++ [t] ++ out', ?_, fun c => ?_⟩
      · rw [minusLoop, hloop]
        show (storeRange slots (ranges3 ++ out) t >>= fun ranges3 => minusLoop tc slots ranges1 kept ranges3) = _
        rw [hstore]
        show minusLoop tc slots ranges1 kept (ranges3 ++ out ++ [t]) = _
        rw [hrest]
        simp
      · have hlt := lo_lt_hi hr
        have h1 := hsub.cover c
        have h2 := hcov c
        have h3 : c ∈ covered ranges1 → r1.hi ≤ c := fun hc => by
          obtain ⟨s, hs, hlo, _⟩ := mem_covered.mp hc
          exact (hgap s hs).le.trans hlo
        -- before `r1` ends the r2s are those it met, behind it those that are kept
        have h4 : r1.lo ≤ c → (c ∈ covered (discard tc r1 ranges2) ↔ c ∈ covered ranges2) := hd4 c
        have h5 : r1.hi ≤ c → (c ∈ covered kept ↔ c ∈ covered ranges2) := fun hc =>
          (hsub.ahead c hc).trans (h4 (hlt.le.trans hc))
        simp only [mem_covered_append, mem_covered_cons, mem_covered_nil, or_false]
        rw [h1, h2]
        constructor
        · rintro (⟨hin, hout⟩ | ⟨hin, hout⟩)
          · exact ⟨.inl hin, fun h => hout ((h4 hin.1).mpr h)⟩
          · exact ⟨.inr hin, fun h => hout ((h5 (h3 hin)).mpr h)⟩
        · rintro ⟨hin | hin, hout⟩
          · exact .inl ⟨hin, fun h => hout ((h4 hin.1).mp h)⟩
          · exact .inr ⟨hin, fun h => hout ((h5 (h3 hin)).mp h)⟩

/-- **`multirange_minus_internal`**: it succeeds, leaves gaps, and covers the difference. -/
theorem minus_internal_spec (h1 : Gaps ranges1) (h2 : Gaps ranges2) (hne : ranges2 ≠ []) :
    ∃ mr, multirange_minus_internal tc ranges1 ranges2 = .ok mr ∧ (∃ l, make_multirange tc l = .ok mr) ∧
      ∀ c, c ∈ covered mr ↔ c ∈ covered ranges1 ∧ c ∉ covered ranges2 := by
  obtain ⟨out, hrun, hcov⟩ := minusLoop_spec tc (ranges1.length + ranges2.length) ranges1 ranges2 [] h1 h2
    (by simp only [List.length_nil]; omega)
  obtain ⟨mr, hmr, _, hcov'⟩ := canonicalize_spec tc out
  refine ⟨mr, ?_, ⟨out, hmr⟩, fun c => (hcov' c).trans (hcov c)⟩
  rw [multirange_minus_internal, if_neg (by simpa using hne), hrun]
  exact hmr

/-! ## 4. Intersection -/

/-- What cutting the r2s to one `r1` leaves: the r2s kept, and the outputs. -/
structure Overlapped (r1 : RangeType α) (ranges2 kept out : List (RangeType α)) : Prop where
  gaps : Gaps kept
  room : out.length + kept.length ≤ ranges2.length + 1
  cover : ∀ c, c ∈ covered out ↔ (r1.lo ≤ c ∧ c < r1.hi) ∧ c ∈ covered ranges2
  ahead : ∀ c, r1.hi ≤ c → (c ∈ covered kept ↔ c ∈ covered ranges2)

/-- **The inner loop** of the intersection. -/
theorem overlapLoop_spec (hr : r1.isEmpty = false) : ∀ ranges2 ranges3 : List (RangeType α),
    Gaps ranges2 → (∀ s ∈ ranges2, r1.lo < s.hi) → ranges3.length + ranges2.length < slots →
    ∃ kept out, overlapLoop tc slots r1 ranges2 ranges3 = .ok (kept, ranges3 ++ out) ∧
      Overlapped r1 ranges2 kept out
  | [], ranges3, hg, _, _ => ⟨[], [], by simp [overlapLoop], hg, by simp, by simp, by simp⟩
  | s :: ranges2, ranges3, hg, hpast, hroom => by
      obtain ⟨hs, hgap, hg2⟩ := gaps_cons.mp hg
      have hstart : r1.lo < s.hi := hpast s List.mem_cons_self
      have hlen : (s :: ranges2).length = ranges2.length + 1 := rfl
      have hslt := lo_lt_hi hs
      have hov := overlaps_iff tc hr hs
      rw [overlapLoop]
      by_cases ho : range_overlaps_internal tc r1 s = true
      · obtain ⟨hov1, hov2⟩ := hov.mp ho
        obtain ⟨t, hint, ht, htlo, hthi⟩ := intersect_spec tc hr hs ⟨hov1, hov2⟩
        have hstore : storeRange slots ranges3 t = .ok (ranges3 ++ [t]) := storeRange_ok (by omega)
        have htc : ∀ c, (t.lo ≤ c ∧ c < t.hi) ↔ (r1.lo ≤ c ∧ c < r1.hi) ∧ (s.lo ≤ c ∧ c < s.hi) := fun c => by
          rw [htlo, hthi, max_le_iff, lt_min_iff]
          tauto
        rw [if_pos ho, hint]
        show ∃ kept out, (storeRange slots ranges3 t >>= fun ranges3 =>
          if range_overleft_internal tc s r1 = true then overlapLoop tc slots r1 ranges2 ranges3
          else .ok (s :: ranges2, ranges3)) = _ ∧ _
        rw [hstore]
        show ∃ kept out, (if range_overleft_internal tc s r1 = true then
          overlapLoop tc slots r1 ranges2 (ranges3 ++ [t]) else .ok (s :: ranges2, ranges3 ++ [t])) = _ ∧ _
        by_cases hleft : range_overleft_internal tc s r1 = true
        · -- all of the second range is used up
          have hle := (overleft_iff tc hs hr).mp hleft
          obtain ⟨kept, out, hloop, h⟩ := overlapLoop_spec hr ranges2 (ranges3 ++ [t]) hg2
            (fun u hu => hpast u (List.mem_cons_of_mem _ hu))
            (by rw [List.length_append, List.length_singleton]; omega)
          refine ⟨kept, t :: out, ?_, h.gaps, ?_, fun c => ?_, fun c hc => ?_⟩
          · rw [if_pos hleft, hloop]
            simp
          · have := h.room
            simp only [List.length_cons]
            omega
          · rw [mem_covered_cons, mem_covered_cons, htc, h.cover]
            tauto
          · rw [h.ahead c hc, mem_covered_cons]
            exact (or_iff_right fun h5 => absurd h5.2 (not_lt.mpr (hle.trans hc))).symm
        · -- it goes past `r1`, and so do all that follow
          have hlt : r1.hi < s.hi := not_le.mp fun h => hleft ((overleft_iff tc hs hr).mpr h)
          refine ⟨s :: ranges2, [t], if_neg hleft, hg, ?_, fun c => ?_, fun c _ => Iff.rfl⟩
          · simp only [List.length_cons, List.length_nil]
            omega
          · have hnot : c < r1.hi → c ∉ covered ranges2 := fun hc =>
              not_covered_of_lt fun u hu => (hc.trans hlt).trans (hgap u hu)
            rw [mem_covered_cons, mem_covered_cons, mem_covered_nil, or_false, htc]
            tauto
      · rw [if_neg ho]
        have hpast' : r1.hi ≤ s.lo := not_lt.mp fun h => ho (hov.mpr ⟨hstart, h⟩)
        refine ⟨s :: ranges2, [], by simp, hg, by simp, fun c => ?_, fun c _ => Iff.rfl⟩
        rw [mem_covered_nil, false_iff]
        rintro ⟨⟨_, h2⟩, hc⟩
        refine not_covered_of_lt (fun u hu => ?_) hc
        obtain rfl | hu := List.mem_cons.mp hu
        · exact h2.trans_le hpast'
        · exact (h2.trans_le hpast').trans (hslt.trans (hgap u hu))

/-- **The intersection loop**: the outputs cover what both lists do, and fit into the slots. -/
theorem intersectLoop_spec : ∀ ranges1 ranges2 ranges3 : List (RangeType α),
    Gaps ranges1 → Gaps ranges2 → ranges3.length + ranges2.length + ranges1.length ≤ slots →
    ∃ out, intersectLoop tc slots ranges1 ranges2 ranges3 = .ok (ranges3 ++ out) ∧
      ∀ c, c ∈ covered out ↔ c ∈ covered ranges1 ∧ c ∈ covered ranges2
  | [], _, ranges3, _, _, _ => ⟨[], by simp [intersectLoop], by simp⟩
  | r1 :: ranges1, ranges2, ranges3, hg1, hg2, hroom => by
      obtain ⟨hr, hgap, hg⟩ := gaps_cons.mp hg1
      obtain ⟨hd1, hd2, hd3, hd4⟩ := discard_spec tc hr hg2
      rw [List.length_cons] at hroom
      obtain ⟨kept, out, hloop, h⟩ := overlapLoop_spec tc slots hr (discard tc r1 ranges2) ranges3 hd1 hd3 (by omega)
      have hr1room := h.room
      have hlt := lo_lt_hi hr
      have hbehind : ∀ c, c ∈ covered ranges1 → r1.hi ≤ c := fun c hc => by
        obtain ⟨s, hs, hlo, _⟩ := mem_covered.mp hc
        exact (hgap s hs).le.trans hlo
      have hkept : ∀ c, r1.hi ≤ c → (c ∈ covered kept ↔ c ∈ covered ranges2) := fun c hc =>
        (h.ahead c hc).trans (hd4 c (hlt.le.trans hc))
      rw [intersectLoop, hloop]
      show ∃ out', (if kept.isEmpty = true then .ok (ranges3 ++ out) else
        intersectLoop tc slots ranges1 kept (ranges3 ++ out)) = _ ∧ _
      by_cases hk : kept.isEmpty = true
      · -- out of r2s: there can be no more intersections
        rw [if_pos hk]
        have hnil : kept = [] := List.isEmpty_iff.mp hk
        subst hnil
        refine ⟨out, rfl, fun c => ?_⟩
        have h1 := h.cover c
        have h2 := hbehind c
        have h3 := hkept c
        have h4 := hd4 c
        rw [mem_covered_nil] at h3
        rw [h1, mem_covered_cons]
        constructor
        · rintro ⟨hin, hc⟩
          exact ⟨.inl hin, (h4 hin.1).mp hc⟩
        · rintro ⟨hin | hin, hc⟩
          · exact ⟨hin, (h4 hin.1).mpr hc⟩
          · exact ((h3 (h2 hin)).mpr hc).elim
      · rw [if_neg hk]
        obtain ⟨out', hrest, hcov⟩ := intersectLoop_spec ranges1 kept (ranges3 ++ out) hg h.gaps
          (by rw [List.length_append]; omega)
        refine ⟨out ++ out', by rw [hrest, List.append_assoc], fun c => ?_⟩
        have h1 := h.cover c
        have h2 := hbehind c
        have h3 := hkept c
        have h4 := hd4 c
        rw [mem_covered_append, h1, hcov, mem_covered_cons]
        constructor
        · rintro (⟨hin, hc⟩ | ⟨hin, hc⟩)
          · exact ⟨.inl hin, (h4 hin.1).mp hc⟩
          · exact ⟨.inr hin, (h3 (h2 hin)).mp hc⟩
        · rintro ⟨hin | hin, hc⟩
          · exact .inl ⟨hin, (h4 hin.1).mpr hc⟩
          · exact .inr ⟨hin, (h3 (h2 hin)).mpr hc⟩

/-- **`multirange_intersect_internal`**: it succeeds, leaves gaps, and covers the intersection. -/
theorem intersect_internal_spec (h1 : Gaps ranges1) (h2 : Gaps ranges2) :
    ∃ mr, multirange_intersect_internal tc ranges1 ranges2 = .ok mr ∧ (∃ l, make_multirange tc l = .ok mr) ∧
      ∀ c, c ∈ covered mr ↔ c ∈ covered ranges1 ∧ c ∈ covered ranges2 := by
  rw [multirange_intersect_internal]
  by_cases hne : (ranges1.isEmpty || ranges2.isEmpty) = true
  · rw [if_pos hne]
    obtain ⟨mr, hmr, _, hcov⟩ := canonicalize_spec tc []
    refine ⟨mr, hmr, ⟨[], hmr⟩, fun c => ?_⟩
    rw [Bool.or_eq_true, List.isEmpty_iff, List.isEmpty_iff] at hne
    rcases hne with rfl | rfl <;> simp [hcov]
  · rw [if_neg hne]
    obtain ⟨out, hrun, hcov⟩ := intersectLoop_spec tc (ranges1.length + ranges2.length) ranges1 ranges2 [] h1 h2
      (by simp only [List.length_nil]; omega)
    obtain ⟨mr, hmr, _, hcov'⟩ := canonicalize_spec tc out
    refine ⟨mr, ?_, ⟨out, hmr⟩, fun c => (hcov' c).trans (hcov c)⟩
    rw [hrun]
    exact hmr

end Pgvec.MultirangeOps
