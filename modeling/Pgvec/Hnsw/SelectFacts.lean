/-
  File:      Pgvec/Hnsw/SelectFacts.lean
  Subject:   WHAT `SelectNeighbors` SELECTS, and that the cached `closer` flags change nothing.

  The loop decides one flag after another: a candidate is `closer` when it is farther from everything
  accepted so far than from the base. `reflag` is that decision for a whole list, without the limit
  `lm` and without the cache; the loop is `reflag` on the part of the list it looks at
  (`selectLoop_reflag`). The cache is right when the flags of the old candidates are the ones `reflag`
  gives (`FlagsOf`), and the fast path then decides the same flags (`selectLoop_cached`).

  * **`select_spec`** -- the accepted candidates, then the nearest rejected ones;
  * `updateConnection_perm` -- a full array holds afterwards exactly what was selected;
  * **`closer_cache`** -- the arrays of a run are those of the run that recomputes every flag.
-/
import Pgvec.Hnsw.Neighbors

namespace Pgvec.Hnsw

variable {E δ : Type} [LinearOrder δ] {ptr : E → Nat} {pd : E → E → δ} {lm : Nat}

/-! ## 1. The order of the candidates -/

/-- A candidate without its flag. -/
def HnswCandidate.core (c : HnswCandidate E δ) : E × δ := (c.element, c.distance)

/-- The order in which the candidates are looked at, `sortsBefore` from the other end. -/
def looksBefore (ptr : E → Nat) (a b : HnswCandidate E δ) : Prop := sortsBefore ptr b a = true

theorem sortsBefore_iff {a b : HnswCandidate E δ} : sortsBefore ptr a b = true ↔
    b.distance < a.distance ∨ (a.distance = b.distance ∧ ptr b.element ≤ ptr a.element) := by
  unfold sortsBefore
  rcases lt_trichotomy a.distance b.distance with h | h | h
  · simp [h, h.not_gt, h.ne]
  · simp [h]
  · simp [h, h.not_gt]

theorem sortsBefore_total (a b : HnswCandidate E δ) :
    sortsBefore ptr a b = true ∨ sortsBefore ptr b a = true := by
  rw [sortsBefore_iff, sortsBefore_iff]
  rcases lt_trichotomy a.distance b.distance with h | h | h
  · exact Or.inr (Or.inl h)
  · exact (Nat.le_total (ptr a.element) (ptr b.element)).symm.imp (fun k => Or.inr ⟨h, k⟩)
      fun k => Or.inr ⟨h.symm, k⟩
  · exact Or.inl (Or.inl h)

theorem sortsBefore_trans {a b c : HnswCandidate E δ} (h1 : sortsBefore ptr a b = true)
    (h2 : sortsBefore ptr b c = true) : sortsBefore ptr a c = true := by
  rw [sortsBefore_iff] at *
  rcases h1 with h1 | ⟨h1, k1⟩ <;> rcases h2 with h2 | ⟨h2, k2⟩
  · exact Or.inl (h2.trans h1)
  · exact Or.inl (h2 ▸ h1)
  · exact Or.inl (h1 ▸ h2)
  · exact Or.inr ⟨h1.trans h2, k2.trans k1⟩

theorem sortsBefore_antisymm {a b : HnswCandidate E δ} (h1 : sortsBefore ptr a b = true)
    (h2 : sortsBefore ptr b a = true) : ptr a.element = ptr b.element := by
  rw [sortsBefore_iff] at *
  rcases h1 with h1 | ⟨h1, k1⟩ <;> rcases h2 with h2 | ⟨h2, k2⟩
  · exact absurd h1 h2.not_gt
  · exact absurd h2 h1.ne
  · exact absurd h1 h2.ne
  · exact Nat.le_antisymm k2 k1

/-- The candidates in the order in which a sorted selection looks at them. -/
def nearestFirst (ptr : E → Nat) (c : List (HnswCandidate E δ)) : List (HnswCandidate E δ) :=
  (c.insertionSort fun a b => sortsBefore ptr a b).reverse

theorem nearestFirst_perm (c : List (HnswCandidate E δ)) : (nearestFirst ptr c).Perm c :=
  (List.reverse_perm _).trans (List.perm_insertionSort _ _)

theorem nearestFirst_pairwise (c : List (HnswCandidate E δ)) :
    (nearestFirst ptr c).Pairwise (looksBefore ptr) := by
  have : Std.Total fun a b : HnswCandidate E δ => sortsBefore ptr a b = true := ⟨sortsBefore_total⟩
  have : IsTrans (HnswCandidate E δ) fun a b => sortsBefore ptr a b = true :=
    ⟨fun _ _ _ => sortsBefore_trans⟩
  exact List.pairwise_reverse.mpr (List.pairwise_insertionSort (fun a b => sortsBefore ptr a b = true) c)

/-- **The order is the only one**: a list with the candidates in order is `nearestFirst` of them. -/
theorem eq_nearestFirst {l c : List (HnswCandidate E δ)} (hl : l.Pairwise (looksBefore ptr))
    (hp : l.Perm c) (hc : (c.map fun x => ptr x.element).Nodup) : l = nearestFirst ptr c := by
  refine List.Perm.eq_of_pairwise (fun a b ha hb h1 h2 => ?_) hl (nearestFirst_pairwise c)
    (hp.trans (nearestFirst_perm c).symm)
  exact List.inj_on_of_nodup_map hc (hp.mem_iff.mp ha) ((nearestFirst_perm c).mem_iff.mp hb)
    (sortsBefore_antisymm h2 h1)

/-! ## 2. The flags -/

/-- A candidate with the flag it gets when `r` has been accepted. -/
def HnswCandidate.flag (pd : E → E → δ) (r : List (HnswCandidate E δ)) (e : HnswCandidate E δ) :
    HnswCandidate E δ :=
  { e with closer := CheckElementCloser pd e r }

@[simp] theorem core_flag (r : List (HnswCandidate E δ)) (e : HnswCandidate E δ) :
    (e.flag pd r).core = e.core := rfl

@[simp] theorem element_flag (r : List (HnswCandidate E δ)) (e : HnswCandidate E δ) :
    (e.flag pd r).element = e.element := rfl

/-- What is accepted once `e` has its flag. -/
def accept (r : List (HnswCandidate E δ)) (e : HnswCandidate E δ) : List (HnswCandidate E δ) :=
  if e.closer then r ++ [e] else r

/-- **The flags of a whole list** on top of the accepted `r`, decided in order and without a limit. -/
def reflag (pd : E → E → δ) : List (HnswCandidate E δ) → List (HnswCandidate E δ) →
    List (HnswCandidate E δ)
  | _, [] => []
  | r, e :: w => e.flag pd r :: reflag pd (accept r (e.flag pd r)) w

theorem checkElementCloser_iff {e : HnswCandidate E δ} {r : List (HnswCandidate E δ)} :
    CheckElementCloser pd e r = true ↔ ∀ x ∈ r, e.distance < pd e.element x.element := by
  simp [CheckElementCloser]

theorem checkElementCloser_map {e : HnswCandidate E δ} {r : List (HnswCandidate E δ)} :
    CheckElementCloser pd e r = true ↔ ∀ x ∈ r.map (·.element), e.distance < pd e.element x := by
  rw [checkElementCloser_iff, List.forall_mem_map]

theorem reflag_core (w : List (HnswCandidate E δ)) :
    ∀ r, (reflag pd r w).map (·.core) = w.map (·.core) := by
  induction w with
  | nil => exact fun _ => rfl
  | cons e w ih => exact fun r => congrArg (e.core :: ·) (ih _)

/-- The lists after a candidate got its flag. -/
def SelectState.next (s : SelectState E δ) (e : HnswCandidate E δ) : SelectState E δ :=
  if e.closer then { s with r := s.r ++ [e] } else { s with wd := s.wd ++ [e] }

theorem selectLoop_cons (mc : Bool) (isNew : E → Bool) (e : HnswCandidate E δ)
    (w : List (HnswCandidate E δ)) (s : SelectState E δ) :
    selectLoop pd lm mc isNew (e :: w) s =
      if s.r.length < lm then
        selectLoop pd lm mc isNew w ((setCloser pd mc isNew s e).2.next (setCloser pd mc isNew s e).1)
      else (s, e :: w) := by
  rw [selectLoop]
  by_cases hlt : s.r.length < lm
  · rw [if_pos hlt, if_pos hlt]
    unfold SelectState.next
    by_cases hc : (setCloser pd mc isNew s e).1.closer = true
    · rw [if_pos hc]
      exact if_pos hc
    · rw [if_neg hc]
      exact if_neg hc
  · rw [if_neg hlt, if_neg hlt]

/-- The loop that recomputes every flag gives the flags of the part `w₁` it looks at; it leaves
    candidates out only when `lm` are accepted. -/
theorem selectLoop_reflag (isNew : E → Bool) (w : List (HnswCandidate E δ)) :
    ∀ s : SelectState E δ, s.r.length ≤ lm → ∃ w₁ rest, w = w₁ ++ rest ∧
      (selectLoop pd lm true isNew w s).2 = rest ∧
      (selectLoop pd lm true isNew w s).1.r = s.r ++ (reflag pd s.r w₁).filter (·.closer) ∧
      (selectLoop pd lm true isNew w s).1.wd = s.wd ++ (reflag pd s.r w₁).filter (!·.closer) ∧
      (rest ≠ [] → (selectLoop pd lm true isNew w s).1.r.length = lm) := by
  induction w with
  | nil =>
      intro s _
      exact ⟨[], [], rfl, rfl, by simp [selectLoop, reflag], by simp [selectLoop, reflag], fun h => absurd rfl h⟩
  | cons e w ih =>
      intro s hs
      rw [selectLoop_cons]
      by_cases hlt : s.r.length < lm
      · rw [if_pos hlt]
        have hset : setCloser pd true isNew s e = (e.flag pd s.r, s) := rfl
        rw [hset]
        simp only [SelectState.next]
        by_cases hc : (e.flag pd s.r).closer = true
        · rw [if_pos hc]
          obtain ⟨w₁, rest, h1, h2, h3, h4, h5⟩ := ih { s with r := s.r ++ [e.flag pd s.r] } (by simpa using hlt)
          refine ⟨e :: w₁, rest, by rw [h1, List.cons_append], h2, ?_, ?_, h5⟩
          · rw [h3, reflag, List.filter_cons_of_pos hc, accept, if_pos hc, List.append_assoc,
              List.singleton_append]
          · rw [h4, reflag, List.filter_cons_of_neg (by simpa using hc), accept, if_pos hc]
        · rw [if_neg hc]
          obtain ⟨w₁, rest, h1, h2, h3, h4, h5⟩ := ih { s with wd := s.wd ++ [e.flag pd s.r] } hs
          refine ⟨e :: w₁, rest, by rw [h1, List.cons_append], h2, ?_, ?_, h5⟩
          · rw [h3, reflag, List.filter_cons_of_neg hc, accept, if_neg hc]
          · rw [h4, reflag, List.filter_cons_of_pos (by simpa using hc), accept, if_neg hc,
              List.append_assoc, List.singleton_append]
      · rw [if_neg hlt]
        exact ⟨[], e :: w, rfl, rfl, by simp [reflag], by simp [reflag],
          fun _ => Nat.le_antisymm hs (Nat.le_of_not_lt hlt)⟩

/-! ## 3. The cache -/

/-- The flags of `w` are the ones that are decided when `old` has been accepted before. -/
def FlagsOf (pd : E → E → δ) : List (HnswCandidate E δ) → List (HnswCandidate E δ) → Prop
  | _, [] => True
  | old, e :: w => e.closer = CheckElementCloser pd e old ∧ FlagsOf pd (accept old e) w

/-- **The invariant of the fast path**: `old` is what the cached flags accepted so far, `s` what the
    loop has accepted, and the two differ by what was `added` and, with `removedAny`, by removals. -/
structure CacheInv (pd : E → E → δ) (isNew : E → Bool) (old w : List (HnswCandidate E δ))
    (s : SelectState E δ) : Prop where
  flags : FlagsOf pd old (w.filter fun x => !isNew x.element)
  sub : ∀ x ∈ s.r, x.element ∈ s.added.map (·.element) ∨ x.element ∈ old.map (·.element)
  added : ∀ x ∈ s.added, x.element ∈ s.r.map (·.element)
  kept : s.removedAny = false → ∀ x ∈ old, x.element ∈ s.r.map (·.element)
  unchanged : s.added = [] → s.removedAny = false
  once : (w.filter fun x => isNew x.element).length ≤ 1
  spent : s.added ≠ [] → ∀ x ∈ w, isNew x.element = false

section Cached

variable {isNew : E → Bool} {old w : List (HnswCandidate E δ)} {s : SelectState E δ}
  {e : HnswCandidate E δ}

/-- A candidate that keeps its cached flag, when that flag is still right. -/
theorem CacheInv.keep (h : CacheInv pd isNew old (e :: w) s) (hnew : isNew e.element = false)
    (hflag : e.closer = CheckElementCloser pd e s.r) :
    e = e.flag pd s.r ∧ CacheInv pd isNew (accept old e) w (s.next e) := by
  have hf := h.flags
  rw [List.filter_cons_of_pos (by simp [hnew]), FlagsOf] at hf
  have honce : (w.filter fun x => isNew x.element).length ≤ 1 := by
    have := h.once
    rwa [List.filter_cons_of_neg (by simp [hnew])] at this
  refine ⟨by rw [HnswCandidate.flag, ← hflag], ?_⟩
  unfold accept SelectState.next
  by_cases hc : e.closer = true
  · rw [if_pos hc, if_pos hc]
    refine ⟨by simpa only [accept, if_pos hc] using hf.2, ?_, ?_, ?_, h.unchanged, honce,
      fun ha x hx => h.spent ha x (List.mem_cons_of_mem _ hx)⟩
    · intro x hx
      rcases List.mem_append.mp hx with hx | hx
      · exact (h.sub x hx).imp_right fun k => by simp only [List.map_append]; exact List.mem_append_left _ k
      · rw [List.mem_singleton.mp hx]
        exact Or.inr (by simp)
    · intro x hx
      simp only [List.map_append]
      exact List.mem_append_left _ (h.added x hx)
    · intro hr x hx
      simp only [List.map_append]
      rcases List.mem_append.mp hx with hx | hx
      · exact List.mem_append_left _ (h.kept hr x hx)
      · rw [List.mem_singleton.mp hx]
        simp
  · rw [if_neg hc, if_neg hc]
    exact ⟨by simpa only [accept, if_neg hc] using hf.2, h.sub, h.added, h.kept, h.unchanged, honce,
      fun ha x hx => h.spent ha x (List.mem_cons_of_mem _ hx)⟩

/-- A candidate whose flag is computed against everything accepted, and which the cache did not count
    among the accepted ones. -/
theorem CacheInv.recompute (h : CacheInv pd isNew old (e :: w) s) 
    (hw : FlagsOf pd old (w.filter fun x => !isNew x.element))
    (hrest : (e.flag pd s.r).closer = true → ∀ x ∈ w, isNew x.element = false) :
    CacheInv pd isNew old w
      ((if (e.flag pd s.r).closer then { s with added := s.added ++ [e.flag pd s.r] } else s).next
        (e.flag pd s.r)) := by
  have honce : (w.filter fun x => isNew x.element).length ≤ 1 :=
    Nat.le_trans (((List.sublist_cons_self e w).filter _).length_le) h.once
  have hspent : s.added ≠ [] → ∀ x ∈ w, isNew x.element = false := fun ha x hx =>
    h.spent ha x (List.mem_cons_of_mem _ hx)
  unfold SelectState.next
  by_cases hc : (e.flag pd s.r).closer = true
  · rw [if_pos hc, if_pos hc]
    refine ⟨hw, ?_, ?_, ?_, fun ha => absurd ha (by simp), honce, fun _ => hrest hc⟩
    · intro x hx
      simp only [List.map_append]
      rcases List.mem_append.mp hx with hx | hx
      · exact (h.sub x hx).imp_left (List.mem_append_left _)
      · rw [List.mem_singleton.mp hx]
        exact Or.inl (by simp)
    · intro x hx
      simp only [List.map_append]
      rcases List.mem_append.mp hx with hx | hx
      · exact List.mem_append_left _ (h.added x hx)
      · rw [List.mem_singleton.mp hx]
        simp
    · intro hr x hx
      simp only [List.map_append]
      exact List.mem_append_left _ (h.kept hr x hx)
  · rw [if_neg hc, if_neg hc]
    exact ⟨hw, h.sub, h.added, h.kept, h.unchanged, honce, hspent⟩

/-- **One step of the fast path** gives the flag that would be recomputed, and keeps the invariant. -/
theorem CacheInv.step (h : CacheInv pd isNew old (e :: w) s) :
    (setCloser pd false isNew s e).1 = e.flag pd s.r ∧
      ∃ old', CacheInv pd isNew old' w
        ((setCloser pd false isNew s e).2.next (setCloser pd false isNew s e).1) := by
  have hf := h.flags
  by_cases hadd : s.added = []
  · have hset : setCloser pd false isNew s e =
        if isNew e.element then (e.flag pd s.r,
          if (e.flag pd s.r).closer then { s with added := s.added ++ [e.flag pd s.r] } else s)
        else (e, s) := by
      simp only [setCloser, hadd, List.isEmpty_nil]
      rfl
    rw [hset]
    by_cases hnew : isNew e.element = true
    · -- the new candidate: compared with everything accepted
      rw [List.filter_cons_of_neg (by simp [hnew])] at hf
      rw [if_pos hnew]
      refine ⟨rfl, old, h.recompute hf fun _ x hx => ?_⟩
      have := h.once
      rw [List.filter_cons_of_pos (by simpa using hnew), List.length_cons] at this
      have hnil : w.filter (fun x => isNew x.element) = [] := List.eq_nil_of_length_eq_zero (by omega)
      exact Bool.eq_false_of_not_eq_true (List.filter_eq_nil_iff.mp hnil x hx)
    · -- nothing has changed before it
      rw [List.filter_cons_of_pos (by simp [hnew]), FlagsOf] at hf
      rw [if_neg hnew]
      have hflag : e.closer = CheckElementCloser pd e s.r := by
        rw [hf.1, Bool.eq_iff_iff, checkElementCloser_map, checkElementCloser_map]
        constructor
        · intro hold x hx
          obtain ⟨y, hy, rfl⟩ := List.mem_map.mp hx
          have := h.sub y hy
          rw [hadd] at this
          exact hold _ (this.resolve_left (by simp))
        · intro hr x hx
          obtain ⟨y, hy, rfl⟩ := List.mem_map.mp hx
          exact hr _ (h.kept (h.unchanged hadd) y hy)
      obtain ⟨h1, h2⟩ := h.keep (Bool.eq_false_of_not_eq_true hnew) hflag
      exact ⟨h1, _, h2⟩
  · have hnew := h.spent hadd e List.mem_cons_self
    rw [List.filter_cons_of_pos (by simp [hnew]), FlagsOf] at hf
    have hne : (!s.added.isEmpty) = true := by simpa using hadd
    by_cases hc : e.closer = true
    · -- it was closer: only what was added can be nearer to it
      have hset : setCloser pd false isNew s e =
          ({ e with closer := CheckElementCloser pd e s.added },
            { s with removedAny := s.removedAny || !CheckElementCloser pd e s.added }) := by
        simp [setCloser, hne, hc]
      have hcheck : CheckElementCloser pd e s.added = CheckElementCloser pd e s.r := by
        rw [Bool.eq_iff_iff, checkElementCloser_map, checkElementCloser_map]
        have hold : ∀ x ∈ old.map (·.element), e.distance < pd e.element x :=
          checkElementCloser_map.mp (hf.1.symm.trans hc)
        constructor
        · intro ha x hx
          obtain ⟨y, hy, rfl⟩ := List.mem_map.mp hx
          exact (h.sub y hy).elim (ha _) (hold _)
        · intro hr x hx
          obtain ⟨y, hy, rfl⟩ := List.mem_map.mp hx
          exact hr _ (h.added y hy)
      rw [hset, hcheck]
      refine ⟨rfl, old ++ [e], ?_⟩
      rw [accept, if_pos hc] at hf
      have h' : CacheInv pd isNew old (e :: w) { s with removedAny := s.removedAny || !CheckElementCloser pd e s.r } :=
        ⟨h.flags, h.sub, h.added, fun hr => h.kept (Bool.or_eq_false_iff.mp hr).1, fun ha => absurd ha hadd,
          h.once, h.spent⟩
      by_cases hcl : CheckElementCloser pd e s.r = true
      · obtain ⟨h1, h2⟩ := h'.keep hnew (hc.trans hcl.symm)
        rw [accept, if_pos hc] at h2
        rw [show ({ e with closer := CheckElementCloser pd e s.r } : HnswCandidate E δ) = e by rw [hcl, ← hc]]
        exact h2
      · -- it falls out, so a candidate the cache rejected may come back later
        have hcl : CheckElementCloser pd e s.r = false := Bool.eq_false_of_not_eq_true hcl
        rw [hcl]
        simp only [SelectState.next, Bool.not_false, Bool.or_true, Bool.false_eq_true, if_false]
        refine ⟨hf.2, fun x hx => (h.sub x hx).imp_right fun k => ?_, h.added, fun hr => ?_, fun ha => absurd ha hadd,
          ?_, fun _ x hx => h.spent hadd x (List.mem_cons_of_mem _ hx)⟩
        · rw [List.map_append]
          exact List.mem_append_left _ k
        · exact absurd hr (by simp)
        · exact Nat.le_trans (((List.sublist_cons_self e w).filter _).length_le) h.once
    · have hc : e.closer = false := Bool.eq_false_of_not_eq_true hc
      by_cases hrem : s.removedAny = true
      · -- after a removal it is compared with everything accepted
        have hset : setCloser pd false isNew s e = (e.flag pd s.r,
            if (e.flag pd s.r).closer then { s with added := s.added ++ [e.flag pd s.r] } else s) := by
          simp only [setCloser, hne, hc, hrem, if_true, Bool.false_eq_true, if_false]
          rfl
        rw [hset]
        rw [accept, if_neg (by simp [hc])] at hf
        exact ⟨rfl, old, h.recompute hf.2 fun _ x hx => h.spent hadd x (List.mem_cons_of_mem _ hx)⟩
      · -- what made the cache reject it is still there
        have hrem : s.removedAny = false := Bool.eq_false_of_not_eq_true hrem
        have hset : setCloser pd false isNew s e = (e, s) := by
          simp only [setCloser, hne, hc, hrem, if_true, Bool.false_eq_true, if_false]
        rw [hset]
        have hflag : e.closer = CheckElementCloser pd e s.r := by
          rw [hc, eq_comm, ← Bool.not_eq_true, checkElementCloser_map]
          intro hr
          have : CheckElementCloser pd e old = true := checkElementCloser_map.mpr fun x hx => by
            obtain ⟨y, hy, rfl⟩ := List.mem_map.mp hx
            exact hr _ (h.kept hrem y hy)
          rw [← hf.1, hc] at this
          cases this
        obtain ⟨h1, h2⟩ := h.keep hnew hflag
        exact ⟨h1, _, h2⟩

/-- **The fast path in lockstep** with the loop that recomputes every flag. -/
theorem selectLoop_cached (w : List (HnswCandidate E δ)) : ∀ {old : List (HnswCandidate E δ)}
    {s t : SelectState E δ}, CacheInv pd isNew old w s → s.r = t.r → s.wd = t.wd →
    (selectLoop pd lm false isNew w s).1.r = (selectLoop pd lm true isNew w t).1.r ∧
    (selectLoop pd lm false isNew w s).1.wd = (selectLoop pd lm true isNew w t).1.wd ∧
    (selectLoop pd lm false isNew w s).2 = (selectLoop pd lm true isNew w t).2 := by
  induction w with
  | nil => exact fun _ h1 h2 => ⟨h1, h2, rfl⟩
  | cons e w ih =>
      intro old s t h h1 h2
      rw [selectLoop_cons, selectLoop_cons, h1]
      by_cases hlt : t.r.length < lm
      · rw [if_pos hlt, if_pos hlt]
        obtain ⟨hflag, old', hnext⟩ := h.step
        obtain ⟨_, k1, k2⟩ : (setCloser pd false isNew s e).1.element = e.element ∧
            (setCloser pd false isNew s e).2.r = s.r ∧ (setCloser pd false isNew s e).2.wd = s.wd :=
          setCloser_facts false isNew s e
        refine ih hnext ?_ ?_ <;>
          rw [hflag, show setCloser pd true isNew t e = (e.flag pd t.r, t) from rfl, ← h1] <;>
          unfold SelectState.next <;> split <;> simp only [k1, k2, h1, h2]
      · rw [if_neg hlt, if_neg hlt]
        exact ⟨h1, h2, rfl⟩

end Cached

/-! ## 4. What is selected -/

/-- The candidates of `l` accepted on top of `acc`: each is farther from everything accepted before
    it than from the base, until `lm` are accepted. -/
def accepted (pd : E → E → δ) (lm : Nat) : List (HnswCandidate E δ) → List (HnswCandidate E δ) →
    List (HnswCandidate E δ)
  | acc, [] => acc
  | acc, e :: l =>
      if acc.length < lm ∧ ∀ a ∈ acc, e.distance < pd e.element a.element then accepted pd lm (acc ++ [e]) l
      else accepted pd lm acc l

/-- **The selection from `l`** (nearest first): the accepted candidates, and after them the nearest
    of the others until there are `lm`. -/
def selection (ptr : E → Nat) (pd : E → E → δ) (lm : Nat) (l : List (HnswCandidate E δ)) :
    List (HnswCandidate E δ) :=
  let acc := accepted pd lm [] l
  acc ++ (l.filter fun e => decide (∀ a ∈ acc, ptr a.element ≠ ptr e.element)).take (lm - acc.length)

theorem accepted_full {acc : List (HnswCandidate E δ)} (h : lm ≤ acc.length)
    (l : List (HnswCandidate E δ)) : accepted pd lm acc l = acc := by
  induction l with
  | nil => rfl
  | cons e l ih => rw [accepted, if_neg (fun k => absurd k.1 (Nat.not_lt.mpr h)), ih]

theorem checkElementCloser_core {e : HnswCandidate E δ} {r acc : List (HnswCandidate E δ)}
    (h : r.map (·.core) = acc.map (·.core)) :
    CheckElementCloser pd e r = true ↔ ∀ a ∈ acc, e.distance < pd e.element a.element := by
  have hmap : ∀ l : List (HnswCandidate E δ), l.map (·.element) = (l.map (·.core)).map (·.1) := fun l => by
    rw [List.map_map]
    rfl
  rw [checkElementCloser_map, hmap, h, ← hmap, List.forall_mem_map]

theorem selectLoop_accepted (isNew : E → Bool) (l : List (HnswCandidate E δ)) :
    ∀ {s : SelectState E δ} {acc : List (HnswCandidate E δ)}, s.r.map (·.core) = acc.map (·.core) →
      (selectLoop pd lm true isNew l s).1.r.map (·.core) = (accepted pd lm acc l).map (·.core) := by
  induction l with
  | nil => exact fun h => h
  | cons e l ih =>
      intro s acc h
      have hlen : s.r.length = acc.length := by simpa using congrArg List.length h
      rw [selectLoop_cons, hlen]
      by_cases hlt : acc.length < lm
      · rw [if_pos hlt, show setCloser pd true isNew s e = (e.flag pd s.r, s) from rfl, accepted]
        unfold SelectState.next
        by_cases hc : (e.flag pd s.r).closer = true
        · rw [if_pos hc, if_pos ⟨hlt, (checkElementCloser_core h).mp hc⟩]
          exact ih (by simp [h])
        · rw [if_neg hc, if_neg fun k => hc ((checkElementCloser_core h).mpr k.2)]
          exact ih h
      · rw [if_neg hlt, accepted_full (Nat.le_of_not_lt hlt)]
        exact h

theorem setCloser_core (mc : Bool) (isNew : E → Bool) (s : SelectState E δ) (e : HnswCandidate E δ) :
    (setCloser pd mc isNew s e).1.core = e.core := by
  simp only [setCloser]
  repeat' split
  all_goals rfl

/-- Whatever the flags are, the loop only sorts the candidates into its lists, and it stops early
    only when `lm` are accepted. -/
theorem selectLoop_shape (mc : Bool) (isNew : E → Bool) (w : List (HnswCandidate E δ)) :
    ∀ s : SelectState E δ, s.r.length ≤ lm →
      (((selectLoop pd lm mc isNew w s).1.r ++ (selectLoop pd lm mc isNew w s).1.wd ++
        (selectLoop pd lm mc isNew w s).2).map (·.core)).Perm ((s.r ++ s.wd ++ w).map (·.core)) ∧
      (selectLoop pd lm mc isNew w s).1.r.length ≤ lm ∧
      ((selectLoop pd lm mc isNew w s).2 ≠ [] → (selectLoop pd lm mc isNew w s).1.r.length = lm) := by
  induction w with
  | nil => exact fun s h => ⟨.refl _, h, fun k => absurd rfl k⟩
  | cons e w ih =>
      intro s h
      rw [selectLoop_cons]
      by_cases hlt : s.r.length < lm
      · rw [if_pos hlt]
        obtain ⟨_, h2, h3⟩ := setCloser_facts mc isNew s e
        have h1 : (setCloser pd mc isNew s e).1.core = e.core := setCloser_core mc isNew s e
        generalize setCloser pd mc isNew s e = x at h1 h2 h3
        obtain ⟨e', s'⟩ := x
        simp only at h1 h2 h3
        unfold SelectState.next
        by_cases hc : e'.closer = true
        · rw [if_pos hc]
          obtain ⟨k1, k2, k3⟩ := ih { s' with r := s'.r ++ [e'] } (by simpa [h2] using hlt)
          refine ⟨k1.trans ?_, k2, k3⟩
          simp only [h2, h3, List.map_append, List.map_cons, List.map_nil, h1, List.append_assoc]
          exact List.Perm.append_left _ (List.perm_append_comm_assoc [e.core] _ _)
        · rw [if_neg hc]
          obtain ⟨k1, k2, k3⟩ := ih { s' with wd := s'.wd ++ [e'] } (by simpa [h2] using h)
          refine ⟨k1.trans ?_, k2, k3⟩
          simp only [h2, h3, List.map_append, List.map_cons, h1, List.append_assoc, List.singleton_append]
          exact .refl _
      · rw [if_neg hlt]
        exact ⟨.refl _, h, fun _ => Nat.le_antisymm h (Nat.le_of_not_lt hlt)⟩

/-- The order in which the loop looks at the candidates. -/
def lookOrder (ptr : E → Nat) (sortCandidates : Bool) (c : List (HnswCandidate E δ)) :
    List (HnswCandidate E δ) :=
  if sortCandidates then nearestFirst ptr c else c.reverse

theorem lookOrder_perm (sc : Bool) (c : List (HnswCandidate E δ)) : (lookOrder ptr sc c).Perm c := by
  unfold lookOrder
  split
  · exact nearestFirst_perm c
  · exact List.reverse_perm c

/-- What is made of the lists the loop leaves. -/
def finishSelect (lm : Nat) (sortCandidates : Bool)
    (out : SelectState E δ × List (HnswCandidate E δ)) : SelectResult E δ where
  r := out.1.r ++ out.1.wd.take (lm - out.1.r.length)
  pruned := match out.1.wd.drop (lm - out.1.r.length) with
    | p :: _ => some p
    | [] => out.2.getLast?
  closerSet := sortCandidates
  flags := out.1.r ++ out.1.wd ++ out.2

section Result

variable {c : List (HnswCandidate E δ)} {cs sc : Bool} {isNew : E → Bool}

theorem select_eq (h : lm < c.length) : SelectNeighbors ptr pd c lm cs isNew sc =
    finishSelect lm sc (selectLoop pd lm (!cs) isNew (lookOrder ptr sc c) ⟨[], [], [], false⟩) := by
  unfold SelectNeighbors
  rw [if_neg (Nat.not_le.mpr h)]
  cases sc <;> rfl

/-- The result holds the candidates, and exactly `lm` of them are selected. -/
theorem select_full (h : lm < c.length) :
    ((SelectNeighbors ptr pd c lm cs isNew sc).flags.map (·.core)).Perm (c.map (·.core)) ∧
    (SelectNeighbors ptr pd c lm cs isNew sc).r.length = lm ∧
    ∃ rest, (SelectNeighbors ptr pd c lm cs isNew sc).flags =
      (SelectNeighbors ptr pd c lm cs isNew sc).r ++ rest ∧
      ∀ p, rest = [p] → (SelectNeighbors ptr pd c lm cs isNew sc).pruned = some p := by
  rw [select_eq h]
  obtain ⟨h1, h2, h3⟩ := selectLoop_shape (!cs) isNew (lookOrder ptr sc c)
    ⟨[], [], [], false⟩ (Nat.zero_le _)
  generalize selectLoop pd lm (!cs) isNew (lookOrder ptr sc c) ⟨[], [], [], false⟩ = out at *
  have hperm := h1.trans ((lookOrder_perm sc c).map _)
  have hlen := hperm.length_eq
  simp only [List.length_map, List.length_append] at hlen
  refine ⟨hperm, ?_, out.1.wd.drop (lm - out.1.r.length) ++ out.2, ?_, ?_⟩
  · simp only [finishSelect, List.length_append, List.length_take]
    by_cases hrest : out.2 = []
    · rw [hrest, List.length_nil] at hlen
      omega
    · have := h3 hrest
      omega
  · simp only [finishSelect, List.append_assoc]
    rw [← List.append_assoc (out.1.wd.take _), List.take_append_drop]
  · intro p hp
    simp only [finishSelect]
    cases hd : out.1.wd.drop (lm - out.1.r.length) with
    | nil =>
        rw [hd, List.nil_append] at hp
        rw [hp]
        rfl
    | cons q qs =>
        rw [hd, List.cons_append] at hp
        rw [List.cons.inj hp |>.1]

/-- With one candidate too many, the pruned one is the one that was not selected. -/
theorem select_pruned (h : c.length = lm + 1) :
    ∃ p, (SelectNeighbors ptr pd c lm cs isNew sc).pruned = some p ∧
      (SelectNeighbors ptr pd c lm cs isNew sc).flags =
        (SelectNeighbors ptr pd c lm cs isNew sc).r ++ [p] := by
  obtain ⟨h1, h2, rest, h3, h4⟩ := select_full
    (h ▸ Nat.lt_succ_self lm : lm < c.length)
  have hlen := h1.length_eq
  rw [List.length_map, List.length_map, h, h3, List.length_append, h2] at hlen
  obtain ⟨p, rfl⟩ := List.length_eq_one_iff.mp (by omega : rest.length = 1)
  exact ⟨p, h4 p rfl, h3⟩

/-- The selection, flags aside, when every flag is computed. -/
theorem select_selection (hd : (c.map fun x => ptr x.element).Nodup) (h : lm < c.length) :
    (SelectNeighbors ptr pd c lm false isNew sc).r.map (·.core) =
      (selection ptr pd lm (lookOrder ptr sc c)).map (·.core) := by
  have hnodup : ((lookOrder ptr sc c).map fun x => ptr x.element).Nodup :=
    ((lookOrder_perm sc c).map _).nodup_iff.mpr hd
  rw [select_eq h]
  show ((selectLoop pd lm true isNew (lookOrder ptr sc c) ⟨[], [], [], false⟩).1.r ++
    (selectLoop pd lm true isNew (lookOrder ptr sc c) ⟨[], [], [], false⟩).1.wd.take (lm -
      (selectLoop pd lm true isNew (lookOrder ptr sc c) ⟨[], [], [], false⟩).1.r.length)).map (·.core) = _
  generalize lookOrder ptr sc c = l at *
  have hacc : (selectLoop pd lm true isNew l ⟨[], [], [], false⟩).1.r.map (·.core) =
      (accepted pd lm [] l).map (·.core) := selectLoop_accepted isNew l rfl
  obtain ⟨w₁, rest, e1, e2, e3, e4, e5⟩ := selectLoop_reflag isNew l ⟨[], [], [], false⟩
    (Nat.zero_le _)
  generalize selectLoop pd lm true isNew l ⟨[], [], [], false⟩ = out at *
  have hlen : out.1.r.length = (accepted pd lm [] l).length := by simpa using congrArg List.length hacc
  unfold selection
  rw [List.map_append, List.map_append, hacc, ← hlen]
  congr 1
  by_cases hrest : rest = []
  · -- everything was looked at: rejected is what was not accepted
    subst hrest
    rw [List.append_nil] at e1
    subst e1
    rw [List.nil_append] at e3 e4
    have hmem : ∀ x ∈ reflag pd [] l, (!x.closer) =
        decide (∀ a ∈ accepted pd lm [] l, ptr a.element ≠ ptr x.element) := by
      intro x hx
      have hacc' : (∀ a ∈ accepted pd lm [] l, ptr a.element ≠ ptr x.element) ↔
          ∀ a ∈ out.1.r, ptr a.element ≠ ptr x.element := by
        have hc : ∀ k : List (HnswCandidate E δ), (∀ a ∈ k, ptr a.element ≠ ptr x.element) ↔
            ∀ a ∈ k.map (·.core), ptr a.1 ≠ ptr x.element := fun k => by
          rw [List.forall_mem_map]
          rfl
        rw [hc, hc, hacc]
      rw [Bool.eq_iff_iff, decide_eq_true_iff, hacc', e3]
      constructor
      · intro hx' a ha hptr
        have ha' := List.mem_filter.mp ha
        have hnd : ((reflag pd [] l).map fun x => ptr x.element).Nodup := by
          have : (reflag pd [] l).map (fun x => ptr x.element) = l.map fun x => ptr x.element := by
            have hcore : (reflag pd [] l).map (·.core) = l.map (·.core) := reflag_core l []
            have := congrArg (List.map fun p : E × δ => ptr p.1) hcore
            simpa [List.map_map, Function.comp_def, HnswCandidate.core] using this
          rw [this]
          exact hnodup
        have : a = x := List.inj_on_of_nodup_map hnd ha'.1 hx hptr
        rw [this] at ha'
        simp [ha'.2] at hx'
      · intro hall
        by_contra hcl
        exact hall x (List.mem_filter.mpr ⟨hx, by simpa using hcl⟩) rfl
    rw [e4, List.filter_congr hmem, List.map_take, List.map_take]
    congr 1
    -- the filter looks at the pointer only
    have hf : ∀ k : List (HnswCandidate E δ),
        (k.filter fun x => decide (∀ a ∈ accepted pd lm [] l, ptr a.element ≠ ptr x.element)).map (·.core) =
          (k.map (·.core)).filter fun q => decide (∀ a ∈ accepted pd lm [] l, ptr a.element ≠ ptr q.1) := fun k => by
      rw [List.filter_map]
      rfl
    rw [hf, hf, reflag_core]
  · rw [e5 hrest, Nat.sub_self, List.take_zero, List.take_zero]

end Result

/-! ## 5. A full array -/

omit [LinearOrder δ] in
theorem ptr_core {l k : List (HnswCandidate E δ)} (h : (l.map (·.core)).Perm (k.map (·.core))) :
    (l.map fun x => ptr x.element).Perm (k.map fun x => ptr x.element) := by
  have := h.map fun q : E × δ => ptr q.1
  simpa [List.map_map, Function.comp_def, HnswCandidate.core] using this

/-- A candidate with the flag that the entry of its pointer has in `fl`. -/
def lookupFlag (ptr : E → Nat) (fl : List (HnswCandidate E δ)) (hc : HnswCandidate E δ) :
    HnswCandidate E δ :=
  match fl.find? fun x => ptr x.element == ptr hc.element with
  | some x => { hc with closer := x.closer }
  | none => hc

omit [LinearOrder δ] in
/-- The flags of a result, looked up by the pointer, are the entries of the result. -/
theorem lookup_flags {c fl : List (HnswCandidate E δ)} (hd : (c.map fun x => ptr x.element).Nodup)
    (hp : (fl.map (·.core)).Perm (c.map (·.core))) : (c.map (lookupFlag ptr fl)).Perm fl := by
  have hfl : (fl.map fun x => ptr x.element).Nodup := (ptr_core hp).nodup_iff.mpr hd
  have hget : ∀ hc ∈ c, lookupFlag ptr fl hc ∈ fl ∧ (lookupFlag ptr fl hc).element = hc.element := by
    intro hc hm
    obtain ⟨y, hy, hcore⟩ := List.mem_map.mp (hp.mem_iff.mpr (List.mem_map_of_mem (f := (·.core)) hm))
    have hel : y.element = hc.element := congrArg Prod.fst hcore
    have hdist : y.distance = hc.distance := congrArg Prod.snd hcore
    unfold lookupFlag
    cases hf : fl.find? fun x => ptr x.element == ptr hc.element with
    | none => exact absurd (List.find?_eq_none.mp hf y hy) (by simp [hel])
    | some x =>
        have hx := List.mem_of_find?_eq_some hf
        have hpx : ptr x.element = ptr hc.element := by simpa using List.find?_some hf
        have hxy : x = y := List.inj_on_of_nodup_map hfl hx hy (by rw [hpx, hel])
        subst hxy
        have he : ({ hc with closer := x.closer } : HnswCandidate E δ) = x := by rw [← hel, ← hdist]
        exact ⟨he ▸ hx, rfl⟩
  refine (List.subperm_of_subset ?_ ?_).perm_of_length_le ?_
  · refine List.Nodup.of_map (fun x => ptr x.element) ?_
    rw [List.map_map]
    exact (List.map_congr_left fun hc hm => congrArg ptr (hget hc hm).2.symm) ▸ hd
  · intro y hy
    obtain ⟨hc, hm, rfl⟩ := List.mem_map.mp hy
    exact (hget hc hm).1
  · have := hp.length_eq
    simp only [List.length_map] at this ⊢
    omega

/-- The array after an update that has selected `res`. -/
def replacePruned (ptr : E → Nat) (items : List (HnswCandidate E δ)) (newHc : HnswCandidate E δ)
    (res : SelectResult E δ) : HnswNeighborArray E δ × Int :=
  match res.pruned with
  | none => (⟨items.map (lookupFlag ptr res.flags), res.closerSet⟩, -1)
  | some p =>
      match (items.map (lookupFlag ptr res.flags)).findIdx? fun x => ptr x.element == ptr p.element with
      | some i => (⟨(items.map (lookupFlag ptr res.flags)).set i (lookupFlag ptr res.flags newHc),
          res.closerSet⟩, i)
      | none => (⟨items.map (lookupFlag ptr res.flags), res.closerSet⟩, -1)

theorem updateConnection_full {a : HnswNeighborArray E δ} {x : E} {d : δ} (hlen : a.items.length = lm) :
    HnswUpdateConnection ptr pd a x d lm = replacePruned ptr a.items ⟨x, d, false⟩
      (SelectNeighbors ptr pd (a.items ++ [⟨x, d, false⟩]) lm a.closerSet (fun e => ptr e == ptr x) true) := by
  unfold HnswUpdateConnection
  rw [if_neg (by omega)]
  rfl

/-- **A full array after the update**: what was selected from its entries and the new one. -/
theorem updateConnection_perm {a : HnswNeighborArray E δ} {x : E} {d : δ} (hlen : a.items.length = lm)
    (hd : ((a.items ++ [(⟨x, d, false⟩ : HnswCandidate E δ)]).map fun c => ptr c.element).Nodup) :
    (HnswUpdateConnection ptr pd a x d lm).1.items.Perm
      (SelectNeighbors ptr pd (a.items ++ [⟨x, d, false⟩]) lm a.closerSet (fun e => ptr e == ptr x) true).r ∧
    (HnswUpdateConnection ptr pd a x d lm).1.closerSet = true := by
  have hc : (a.items ++ [(⟨x, d, false⟩ : HnswCandidate E δ)]).length = lm + 1 := by simp [hlen]
  rw [updateConnection_full hlen]
  generalize hnew : (⟨x, d, false⟩ : HnswCandidate E δ) = newHc at *
  have hcs : (SelectNeighbors ptr pd (a.items ++ [newHc]) lm a.closerSet
      (fun e => ptr e == ptr x) true).closerSet = true := by
    rw [select_eq (by omega)]
    rfl
  obtain ⟨p, hpr, hfl⟩ := select_pruned hc
  obtain ⟨hperm, _⟩ := select_full (by omega : lm < (a.items ++ [newHc]).length)
  generalize SelectNeighbors ptr pd (a.items ++ [newHc]) lm a.closerSet (fun e => ptr e == ptr x) true = res at *
  have hptr : (res.flags.map fun x => ptr x.element).Nodup := (ptr_core hperm).nodup_iff.mpr hd
  have hall := lookup_flags hd hperm
  unfold replacePruned
  simp only [hpr]
  generalize lookupFlag ptr res.flags = f at *
  rw [List.map_append, List.map_singleton, hfl] at hall
  have hsame : ∀ y ∈ a.items.map f, ptr y.element = ptr p.element → y = p := fun y hy hy' =>
    List.inj_on_of_nodup_map hptr (hfl ▸ hall.mem_iff.mp (List.mem_append_left _ hy)) (hfl ▸ by simp) hy'
  cases hi : (a.items.map f).findIdx? fun x => ptr x.element == ptr p.element with
  | none =>
      -- the new candidate was pruned
      simp only
      refine ⟨?_, hcs⟩
      have hnot : p ∉ a.items.map f := fun hm => by
        simpa using List.findIdx?_eq_none_iff.mp hi p hm
      have hpn : p = f newHc := by
        have hm : p ∈ a.items.map f ++ [f newHc] := hall.mem_iff.mpr (by simp)
        exact List.mem_singleton.mp ((List.mem_append.mp hm).resolve_left hnot)
      rw [← hpn] at hall
      exact (List.perm_append_right_iff [p]).mp hall
  | some i =>
      simp only
      refine ⟨?_, hcs⟩
      obtain ⟨hlt, hget, _⟩ := List.findIdx?_eq_some_iff_getElem.mp hi
      have hip : (a.items.map f)[i] = p := hsame _ (List.getElem_mem hlt) (by simpa using hget)
      show ((a.items.map f).set i (f newHc)).Perm res.r
      have hsplit : a.items.map f = (a.items.map f).take i ++ p :: (a.items.map f).drop (i + 1) := by
        rw [← hip, List.getElem_cons_drop, List.take_append_drop]
      rw [List.set_eq_take_append_cons_drop, if_pos hlt]
      rw [hsplit] at hall
      refine (List.perm_append_right_iff [p]).mp (List.Perm.trans ?_ hall)
      rw [List.append_assoc, List.append_assoc, List.cons_append, List.cons_append]
      refine List.Perm.append_left _ ?_
      exact ((List.perm_append_singleton _ _).cons _).trans ((List.Perm.swap _ _ _).trans
        ((List.perm_append_singleton _ _).symm.cons _))

/-! ## 6. A run of updates -/

theorem flagsOf_reflag (w : List (HnswCandidate E δ)) : ∀ r, FlagsOf pd r (reflag pd r w) := by
  induction w with
  | nil => exact fun _ => trivial
  | cons e w ih => exact fun r => ⟨rfl, ih _⟩

/-- Leaving out candidates that are not accepted keeps the flags right. -/
theorem FlagsOf.filter {q : HnswCandidate E δ → Bool} {w : List (HnswCandidate E δ)} :
    ∀ {old : List (HnswCandidate E δ)}, FlagsOf pd old w →
      (∀ x ∈ w, q x = false → x.closer = false) → FlagsOf pd old (w.filter q) := by
  induction w with
  | nil => exact fun h _ => h
  | cons e w ih =>
      intro old h hq
      have hrest := ih h.2 fun x hx => hq x (List.mem_cons_of_mem _ hx)
      by_cases hqe : q e = true
      · rw [List.filter_cons_of_pos hqe]
        exact ⟨h.1, hrest⟩
      · rw [List.filter_cons_of_neg hqe]
        rwa [accept, hq e List.mem_cons_self (Bool.eq_false_of_not_eq_true hqe), if_neg Bool.false_ne_true] at hrest

theorem looksBefore_core {l k : List (HnswCandidate E δ)} (h : l.map (·.core) = k.map (·.core))
    (hk : k.Pairwise (looksBefore ptr)) : l.Pairwise (looksBefore ptr) := by
  have hmap : ∀ m : List (HnswCandidate E δ), m.Pairwise (looksBefore ptr) ↔
      (m.map (·.core)).Pairwise fun a b => looksBefore ptr ⟨a.1, a.2, false⟩ ⟨b.1, b.2, false⟩ := fun m => by
    rw [List.pairwise_map]
    rfl
  rw [hmap, h, ← hmap]
  exact hk

/-- What is selected from one candidate too many has, in its order, the flags decided without the
    pruned one: that one was rejected, or stands behind all the others. -/
theorem flagsOf_selected {c items : List (HnswCandidate E δ)} {isNew : E → Bool}
    (hd : (c.map fun x => ptr x.element).Nodup) (hc : c.length = lm + 1)
    (hp : items.Perm (SelectNeighbors ptr pd c lm false isNew true).r) :
    FlagsOf pd [] (nearestFirst ptr items) := by
  obtain ⟨p, _, hfl⟩ := select_pruned hc
  obtain ⟨hperm, hlen, _⟩ := select_full
    (by omega : lm < c.length)
  have hptr : (((SelectNeighbors ptr pd c lm false isNew true).flags).map fun x => ptr x.element).Nodup :=
    (ptr_core hperm).nodup_iff.mpr hd
  rw [hfl] at hptr
  rw [select_eq (by omega)] at hfl hlen hp hptr
  simp only [lookOrder, Bool.not_false, if_true] at hfl hlen hp hptr
  have hsort : (nearestFirst ptr c).Pairwise (looksBefore ptr) := nearestFirst_pairwise c
  obtain ⟨w₁, rest, e1, e2, e3, e4, e5⟩ := selectLoop_reflag isNew (nearestFirst ptr c)
    ⟨[], [], [], false⟩ (Nat.zero_le _)
  generalize selectLoop pd lm true isNew (nearestFirst ptr c) ⟨[], [], [], false⟩ = out at *
  rw [List.nil_append] at e3 e4
  simp only [finishSelect] at hfl hlen hp hptr
  generalize hr : out.1.r ++ out.1.wd.take (lm - out.1.r.length) = r at *
  have hpnot : ∀ x ∈ r, ptr x.element ≠ ptr p.element := by
    rw [List.map_append, List.nodup_append] at hptr
    exact fun x hx => hptr.2.2 _ (List.mem_map_of_mem hx) _ (by simp)
  -- the looked-at candidates without the pruned one are the selected ones, in their order
  have hF : ((reflag pd [] w₁).filter fun x => ptr x.element != ptr p.element).Perm r := by
    have hsplit : (reflag pd [] w₁ ++ rest).Perm (r ++ [p]) := by
      rw [← hfl, e3, e4, e2]
      exact (List.filter_append_perm HnswCandidate.closer _).symm.append_right _
    have hrest : rest.filter (fun x => ptr x.element != ptr p.element) = [] := by
      refine List.filter_eq_nil_iff.mpr fun x hx => ?_
      have hfull := e5 (List.ne_nil_of_mem hx)
      rw [hfull, Nat.sub_self, List.take_zero, List.append_nil] at hr
      rw [hr, e2, List.append_assoc] at hfl
      have hx' : x ∈ out.1.wd ++ rest := List.mem_append_right _ hx
      rw [List.append_cancel_left hfl, List.mem_singleton] at hx'
      simp [hx']
    have hkeep : r.filter (fun x => ptr x.element != ptr p.element) = r :=
      List.filter_eq_self.mpr fun x hx => by simpa using hpnot x hx
    have := hsplit.filter fun x => ptr x.element != ptr p.element
    rwa [List.filter_append, List.filter_append, hrest, hkeep, List.append_nil,
      List.filter_cons_of_neg (by simp), List.filter_nil, List.append_nil] at this
  have horder : (reflag pd [] w₁).Pairwise (looksBefore ptr) := by
    rw [e1] at hsort
    exact looksBefore_core (reflag_core w₁ []) (List.pairwise_append.mp hsort).1
  have hnd : (items.map fun x => ptr x.element).Nodup := by
    rw [List.map_append, List.nodup_append] at hptr
    exact (hp.map _).nodup_iff.mpr hptr.1
  rw [← eq_nearestFirst (horder.filter fun x => ptr x.element != ptr p.element) (hF.trans hp.symm) hnd]
  refine (flagsOf_reflag w₁ []).filter fun x hx hq => ?_
  by_contra hcl
  have hcl : x.closer = true := Bool.eq_true_of_not_eq_false hcl
  have hxr : x ∈ r := hr ▸ List.mem_append_left _ (e3 ▸ List.mem_filter.mpr ⟨hx, hcl⟩)
  exact hpnot x hxr (by simpa using hq)

/-- **The cache is right**: distinct entries, and once the flags are cached the array is full and they
    are the flags of its entries. -/
structure HnswNeighborArray.Cached (ptr : E → Nat) (pd : E → E → δ) (lm : Nat)
    (a : HnswNeighborArray E δ) : Prop where
  nodup : (a.items.map fun c => ptr c.element).Nodup
  room : a.items.length ≤ lm
  full : a.closerSet = true → a.items.length = lm
  flags : a.closerSet = true → FlagsOf pd [] (nearestFirst ptr a.items)

/-- With a right cache the selection is the one that recomputes every flag. -/
theorem select_cached {items : List (HnswCandidate E δ)} {newHc : HnswCandidate E δ}
    (hd : ((items ++ [newHc]).map fun c => ptr c.element).Nodup) (hlen : items.length = lm)
    (hf : FlagsOf pd [] (nearestFirst ptr items)) :
    SelectNeighbors ptr pd (items ++ [newHc]) lm true (fun e => ptr e == ptr newHc.element) true =
      SelectNeighbors ptr pd (items ++ [newHc]) lm false (fun e => ptr e == ptr newHc.element) true := by
  have hlt : lm < (items ++ [newHc]).length := by simp [hlen]
  have hperm : (nearestFirst ptr (items ++ [newHc])).Perm (items ++ [newHc]) := nearestFirst_perm _
  have hd' := hd
  rw [List.map_append, List.nodup_append] at hd'
  have hnew : ∀ x ∈ items, ptr x.element ≠ ptr newHc.element := fun x hx =>
    hd'.2.2 _ (List.mem_map_of_mem hx) _ (by simp)
  have hitems : ((items ++ [newHc]).filter fun x => !(ptr x.element == ptr newHc.element)) = items := by
    rw [List.filter_append, List.filter_eq_self.mpr fun x hx => by simpa using hnew x hx,
      List.filter_cons_of_neg (by simp), List.filter_nil, List.append_nil]
  have hone : ((items ++ [newHc]).filter fun x => ptr x.element == ptr newHc.element) = [newHc] := by
    rw [List.filter_append, List.filter_eq_nil_iff.mpr fun x hx => by simpa using hnew x hx,
      List.filter_cons_of_pos (by simp), List.filter_nil, List.nil_append]
  have hold : ((nearestFirst ptr (items ++ [newHc])).filter fun x => !(ptr x.element == ptr newHc.element)) =
      nearestFirst ptr items := by
    refine eq_nearestFirst ((nearestFirst_pairwise _).filter _) ?_ hd'.1
    have := hperm.filter fun x => !(ptr x.element == ptr newHc.element)
    rwa [hitems] at this
  have hinv : CacheInv pd (fun e => ptr e == ptr newHc.element) [] (nearestFirst ptr (items ++ [newHc]))
      ⟨[], [], [], false⟩ := by
    refine ⟨by rw [hold]; exact hf, by simp, by simp, by simp, fun _ => rfl, ?_, fun h => absurd rfl h⟩
    have := (hperm.filter fun x => ptr x.element == ptr newHc.element).length_eq
    rw [hone] at this
    exact Nat.le_of_eq this
  obtain ⟨h1, h2, h3⟩ := selectLoop_cached _ hinv (t := ⟨[], [], [], false⟩) rfl rfl
  rw [select_eq hlt, select_eq hlt]
  simp only [lookOrder, if_true, Bool.not_true, Bool.not_false]
  unfold finishSelect
  rw [h1, h2, h3]

/-- **One update**: with a right cache it does what it does without one, and the cache is right
    afterwards. -/
theorem HnswNeighborArray.Cached.update {a : HnswNeighborArray E δ} {x : E} {d : δ} (h : a.Cached ptr pd lm)
    (hx : ∀ c ∈ a.items, ptr c.element ≠ ptr x) :
    HnswUpdateConnection ptr pd a x d lm = HnswUpdateConnection ptr pd { a with closerSet := false } x d lm ∧
      (HnswUpdateConnection ptr pd a x d lm).1.Cached ptr pd lm := by
  have hd : ((a.items ++ [(⟨x, d, false⟩ : HnswCandidate E δ)]).map fun c => ptr c.element).Nodup := by
    rw [List.map_append, List.nodup_append]
    refine ⟨h.nodup, by simp, fun p hp q hq => ?_⟩
    obtain ⟨c, hc, rfl⟩ := List.mem_map.mp hp
    rw [List.map_singleton, List.mem_singleton] at hq
    rw [hq]
    exact hx c hc
  by_cases hlt : a.items.length < lm
  · -- there is room: no flag is looked at
    have hset : a.closerSet = false := by
      by_contra hcs
      have := h.full (Bool.eq_true_of_not_eq_false hcs)
      omega
    have hres : ∀ b : HnswNeighborArray E δ, b.items.length < lm → HnswUpdateConnection ptr pd b x d lm =
        ({ b with items := b.items ++ [⟨x, d, false⟩] }, -2) := fun b hb => by
      unfold HnswUpdateConnection
      rw [if_pos hb]
    rw [show ({ a with closerSet := false } : HnswNeighborArray E δ) = a by rw [← hset], hres a hlt]
    refine ⟨rfl, hd, by simpa using hlt, fun hcs => ?_, fun hcs => ?_⟩ <;>
      exact absurd (hset.symm.trans hcs) Bool.false_ne_true
  · have hlen : a.items.length = lm := Nat.le_antisymm h.room (Nat.le_of_not_lt hlt)
    have heq : HnswUpdateConnection ptr pd a x d lm =
        HnswUpdateConnection ptr pd { a with closerSet := false } x d lm := by
      cases hcs : a.closerSet with
      | false => rw [← hcs]
      | true =>
          rw [updateConnection_full hlen, updateConnection_full (a := { a with closerSet := false }) hlen, hcs,
            select_cached hd hlen (h.flags hcs)]
    refine ⟨heq, ?_⟩
    rw [heq]
    obtain ⟨hperm, _⟩ := updateConnection_perm (a := { a with closerSet := false })
      hlen hd
    obtain ⟨hcore, hr, rest, hfl, _⟩ := select_full
      (by simp [hlen] : lm < (a.items ++ [(⟨x, d, false⟩ : HnswCandidate E δ)]).length)
    have hnd : ((SelectNeighbors ptr pd (a.items ++ [⟨x, d, false⟩]) lm false (fun e => ptr e == ptr x)
        true).flags.map fun c => ptr c.element).Nodup := (ptr_core hcore).nodup_iff.mpr hd
    rw [hfl, List.map_append, List.nodup_append] at hnd
    exact ⟨(hperm.map _).nodup_iff.mpr hnd.1, (hperm.length_eq.trans hr).le,
      fun _ => hperm.length_eq.trans hr, fun _ => flagsOf_selected hd (by simp [hlen]) hperm⟩

/-- Calls of `HnswUpdateConnection` on one array, one after the other: the array and the tracked index
    after each call. With `forget`, `closerSet` is set to false before each call. -/
def updateConnections (ptr : E → Nat) (pd : E → E → δ) (lm : Nat) (forget : Bool) :
    HnswNeighborArray E δ → List (E × δ) → List (HnswNeighborArray E δ × Int)
  | _, [] => []
  | a, (x, d) :: calls =>
      let r := HnswUpdateConnection ptr pd (if forget then { a with closerSet := false } else a) x d lm
      r :: updateConnections ptr pd lm forget r.1 calls

theorem updateConnections_cached (calls : List (E × δ)) : ∀ {a : HnswNeighborArray E δ},
    a.Cached ptr pd lm → (calls.map fun c => ptr c.1).Nodup →
    (∀ c ∈ a.items, ∀ call ∈ calls, ptr c.element ≠ ptr call.1) →
    updateConnections ptr pd lm false a calls = updateConnections ptr pd lm true a calls := by
  induction calls with
  | nil => exact fun _ _ _ => rfl
  | cons call calls ih =>
      obtain ⟨x, d⟩ := call
      intro a ha hd hx
      rw [List.map_cons, List.nodup_cons] at hd
      obtain ⟨heq, hnext⟩ := ha.update (d := d) fun c hc => hx c hc (x, d) List.mem_cons_self
      simp only [updateConnections, if_true, Bool.false_eq_true, if_false, ← heq]
      refine congrArg _ (ih hnext hd.2 fun c hc call' hcall => ?_)
      rcases updateConnection_mem hc with he | ⟨y, hy, he⟩
      · rw [he]
        exact fun hne => hd.1 (hne ▸ List.mem_map_of_mem hcall)
      · rw [← he]
        exact hx y hy call' (List.mem_cons_of_mem _ hcall)

/-- **The cached flags change nothing**: every array of a run, its flags included, and every tracked
    index are those of the run that recomputes the flags. -/
theorem closer_cache (ptr : E → Nat) (pd : E → E → δ) (lm : Nat) (calls : List (E × δ))
    (h : (calls.map fun c => ptr c.1).Nodup) :
    updateConnections ptr pd lm false HnswInitNeighborArray calls =
      updateConnections ptr pd lm true HnswInitNeighborArray calls :=
  updateConnections_cached calls ⟨List.nodup_nil, Nat.zero_le _, nofun, nofun⟩ h nofun

/-- Five points of a line, at their distances from the point 10, in an array of two places. -/
theorem closer_cache_line :
    (([20, 7, 9, 12, 8] : List Nat).map id).Nodup ∧
    updateConnections id (fun i j => max i j - min i j) 2 false HnswInitNeighborArray
        ([20, 7, 9, 12, 8].map fun i => (i, max i 10 - min i 10)) =
      updateConnections id (fun i j => max i j - min i j) 2 true HnswInitNeighborArray
        ([20, 7, 9, 12, 8].map fun i => (i, max i 10 - min i 10)) :=
  ⟨by decide, closer_cache id _ 2 _ (by decide)⟩

/-! ## 7. The specification of the selection -/

/-- **`SelectNeighbors` and the update of a full array.** Distinct candidates (`ptr` tells them apart),
    in order of non-increasing distance or sorted by the selection itself. -/
theorem select_spec (ptr : E → Nat) (pd : E → E → δ) (lm : Nat) (c : List (HnswCandidate E δ))
    (isNew : E → Bool) (sortCandidates : Bool) (hd : (c.map fun x => ptr x.element).Nodup)
    (horder : sortCandidates = false → c.Pairwise fun a b => b.distance ≤ a.distance) :
    let res := SelectNeighbors ptr pd c lm false isNew sortCandidates
    (res.r.map (·.core)).Subperm (c.map (·.core)) ∧
    (res.r.map fun x => ptr x.element).Nodup ∧
    res.r.length = min lm c.length ∧
    (lookOrder ptr sortCandidates c).Perm c ∧
    (lookOrder ptr sortCandidates c).Pairwise (fun a b => a.distance ≤ b.distance) ∧
    (lm < c.length →
      res.r.map (·.core) = (selection ptr pd lm (lookOrder ptr sortCandidates c)).map (·.core)) ∧
    (c.length = lm + 1 → ∃ p, res.pruned = some p ∧ (res.r.map (·.core) ++ [p.core]).Perm (c.map (·.core))) ∧
    ∀ (a : HnswNeighborArray E δ) (x : E) (d : δ), c = a.items ++ [⟨x, d, false⟩] → a.items.length = lm →
      (HnswUpdateConnection ptr pd a x d lm).1.items.Perm
        (SelectNeighbors ptr pd c lm a.closerSet (fun e => ptr e == ptr x) true).r := by
  intro res
  have hsorted : (lookOrder ptr sortCandidates c).Pairwise fun a b => a.distance ≤ b.distance := by
    cases hs : sortCandidates with
    | true =>
        refine (nearestFirst_pairwise c).imp fun hab => ?_
        exact (sortsBefore_iff.mp hab).elim (fun h => h.le) fun h => h.1.ge
    | false => exact List.pairwise_reverse.mpr (horder hs)
  by_cases hlt : lm < c.length
  · obtain ⟨hperm, hlen, rest, hfl, _⟩ := select_full hlt
    have hsub : (res.r.map (·.core)).Subperm (c.map (·.core)) := by
      rw [← hperm.subperm_left, hfl, List.map_append]
      exact (List.sublist_append_left _ _).subperm
    have hnd : (res.flags.map fun x => ptr x.element).Nodup := (ptr_core hperm).nodup_iff.mpr hd
    rw [show res.flags = res.r ++ rest from hfl, List.map_append, List.nodup_append] at hnd
    refine ⟨hsub, hnd.1, by rw [hlen, Nat.min_eq_left hlt.le], lookOrder_perm _ _, hsorted,
      fun _ => select_selection hd hlt, fun hc => ?_, ?_⟩
    · obtain ⟨p, hpr, hfp⟩ := select_pruned hc
      refine ⟨p, hpr, ?_⟩
      rw [hfp, List.map_append] at hperm
      exact hperm
    · rintro a x d rfl hl
      exact (updateConnection_perm hl hd).1
  · have hres : res = ⟨c, none, false, c⟩ := by
      show SelectNeighbors ptr pd c lm false isNew sortCandidates = _
      unfold SelectNeighbors
      rw [if_pos (Nat.le_of_not_lt hlt)]
    rw [hres]
    refine ⟨List.Subperm.refl _, hd, by rw [Nat.min_eq_right (Nat.le_of_not_lt hlt)], lookOrder_perm _ _,
      hsorted, fun h => absurd h hlt, fun hc => absurd (hc ▸ Nat.lt_succ_self lm) hlt, ?_⟩
    rintro a x d rfl hl
    exact absurd (by simp [hl]) hlt

/-- Three points of a line around the point 10, two places. -/
theorem select_spec_line :
    let c : List (HnswCandidate Nat Nat) := [⟨20, 10, false⟩, ⟨7, 3, false⟩, ⟨8, 2, false⟩]
    let res := SelectNeighbors id (fun i j => max i j - min i j) c 2 false (fun _ => false) false
    res.r.map (·.core) = [(8, 2), (20, 10)] ∧ (res.r.map fun x => id x.element).Nodup :=
  ⟨by decide, (select_spec id (fun i j => max i j - min i j) 2
    [⟨20, 10, false⟩, ⟨7, 3, false⟩, ⟨8, 2, false⟩] (fun _ => false) false (by decide) (fun _ => by decide)).2.1⟩

end Pgvec.Hnsw
