/-
  File:      Pgvec/Storage/FreeSpaceFacts.lean
  Subject:   WHAT THE RECURSIVE VACUUM OF THE FREE SPACE MAP LEAVES BEHIND.

  Every function below changes slots of pages and resets hints, so a change of the map is described by the
  set of the slots it visits: `Visits D fsm fsm'` says that a slot outside `D` keeps its value and a slot in
  `D` has the value at the root of its child. The loop over the slots of a page composes such steps
  (`Visits.trans`), and the recursion gives the slots that cover a block of the range.

  * `Meets` -- the page covers a block of the range; `slotRange_iff` -- the slot numbers the code computes
    are those whose child meets the range;
  * **`vacuum_page_spec`** -- `fsm_vacuum_page` visits exactly the slots below its page that cover the range.
-/
import Pgvec.Storage.FreeSpace

namespace Pgvec.Storage.Fsm

variable {fsm fsm' fsm'' : Fork} {a b : FSMAddress} {start stop : Nat}

/-! ## 1. The pages that cover a block -/

/-- The page of a level that covers a heap block. -/
def pageOf (level heapblk : Nat) : Nat := (locate heapblk level).1.logpageno

theorem pageOf_zero (blk : Nat) : pageOf 0 blk = blk / SlotsPerFSMPage := rfl

theorem pageOf_succ (level blk : Nat) : pageOf (level + 1) blk = pageOf level blk / SlotsPerFSMPage := rfl

theorem locate_succ (level blk : Nat) : (locate blk (level + 1)).2 = pageOf level blk % SlotsPerFSMPage := rfl

/-- The page that is `k` levels further up. -/
def up : Nat → Nat → Nat
  | 0, n => n
  | k + 1, n => up k n / SlotsPerFSMPage

theorem up_child (k n s : Nat) (hs : s < SlotsPerFSMPage) : up (k + 1) (n * SlotsPerFSMPage + s) = up k n := by
  induction k with
  | zero =>
      show (n * SlotsPerFSMPage + s) / SlotsPerFSMPage = n
      rw [slotsPerFSMPage_eq] at *
      omega
  | succ k ih =>
      show up (k + 1) (n * SlotsPerFSMPage + s) / SlotsPerFSMPage = up (k + 1) n
      rw [ih]
      rfl

/-- The page covers a block between `start` and `stop - 1`. -/
def Meets (start stop : Nat) (a : FSMAddress) : Prop :=
  pageOf a.level start ≤ a.logpageno ∧ a.logpageno ≤ pageOf a.level (stop - 1)

theorem pageOf_mono (level : Nat) {x y : Nat} (h : x ≤ y) : pageOf level x ≤ pageOf level y := by
  induction level with
  | zero => exact Nat.div_le_div_right h
  | succ level ih => exact Nat.div_le_div_right ih

theorem meets_of_covers {blk : Nat} (h1 : start ≤ blk) (h2 : blk < stop)
    (h : pageOf a.level blk = a.logpageno) : Meets start stop a := by
  rw [Meets, ← h]
  exact ⟨pageOf_mono _ h1, pageOf_mono _ (by omega)⟩

/-- The pages above a page that meets the range meet it too. -/
theorem meets_up {level n : Nat} (h : Meets start stop ⟨level, n⟩) (k : Nat) :
    Meets start stop ⟨level + k, up k n⟩ := by
  induction k with
  | zero => exact h
  | succ k ih => exact ⟨Nat.div_le_div_right ih.1, Nat.div_le_div_right ih.2⟩

/-- **The slot numbers `fsm_vacuum_page` computes** are those whose child meets the range. -/
theorem slotRange_iff {level n s : Nat} (hs : s < SlotsPerFSMPage) :
    (startSlot start ⟨level + 1, n⟩ ≤ s ∧ s < stopSlot stop ⟨level + 1, n⟩) ↔
      Meets start stop ⟨level, n * SlotsPerFSMPage + s⟩ := by
  have h1 : startSlot start ⟨level + 1, n⟩ ≤ s ↔ pageOf level start ≤ n * SlotsPerFSMPage + s := by
    unfold startSlot
    simp only [locate_succ]
    rw [show (locate start (level + 1)).1.logpageno = pageOf level start / SlotsPerFSMPage from rfl]
    rw [slotsPerFSMPage_eq] at *
    split
    · omega
    · split <;> omega
  have h2 : s < stopSlot stop ⟨level + 1, n⟩ ↔ n * SlotsPerFSMPage + s ≤ pageOf level (stop - 1) := by
    unfold stopSlot
    simp only [locate_succ]
    rw [show (locate (stop - 1) (level + 1)).1.logpageno = pageOf level (stop - 1) / SlotsPerFSMPage from rfl]
    rw [slotsPerFSMPage_eq] at *
    split
    · omega
    · split <;> omega
  rw [h1, h2]
  rfl

theorem locate_lt (blk level : Nat) : (locate blk level).2 < SlotsPerFSMPage := by
  have hpos : 0 < SlotsPerFSMPage := by
    rw [slotsPerFSMPage_eq]
    omega
  cases level with
  | zero => exact Nat.mod_lt _ hpos
  | succ level => exact Nat.mod_lt _ hpos

theorem startSlot_le : startSlot start a ≤ SlotsPerFSMPage := by
  have hslot : (locate start a.level).2 < SlotsPerFSMPage := locate_lt start a.level
  unfold startSlot
  simp only
  split
  · omega
  · split <;> omega

theorem stopSlot_le : stopSlot stop a ≤ SlotsPerFSMPage := by
  have hslot : (locate (stop - 1) a.level).2 < SlotsPerFSMPage := locate_lt (stop - 1) a.level
  unfold stopSlot
  simp only
  split
  · omega
  · split <;> omega

/-! ## 2. A change of the map as a set of slots -/

/-- **The slots in `D` are brought in step, the others stay.** -/
structure Visits (D : FSMAddress → Nat → Prop) (fsm fsm' : Fork) : Prop where
  length : fsm'.length = fsm.length
  trees : Trees fsm'
  same : ∀ a, a.Ok → ∀ s, s < SlotsPerFSMPage → ¬ D a s → slot fsm' a s = slot fsm a s
  done : ∀ a, a.Upper → ∀ s, s < SlotsPerFSMPage → D a s → slot fsm' a s = top fsm' (fsm_get_child a s)

variable {D E : FSMAddress → Nat → Prop}

theorem Visits.readbuf_none (h : Visits D fsm fsm') : fsm_readbuf fsm' a = none ↔ fsm_readbuf fsm a = none := by
  rw [readbuf_eq_none, readbuf_eq_none, h.length]

/-- The root of a page none of whose slots is visited stays. -/
theorem Visits.top_same (h : Visits D fsm fsm') (ht : Trees fsm) (ha : a.Ok) (hD : ∀ s, ¬ D a s) :
    top fsm' a = top fsm a :=
  top_congr ht h.trees fun s hs => h.same a ha s hs (hD s)

theorem Visits.trans (ht : Trees fsm') (h : Visits D fsm fsm') (h' : Visits E fsm' fsm'')
    (hapart : ∀ a, a.Upper → ∀ s, s < SlotsPerFSMPage → D a s → ∀ s', ¬ E (fsm_get_child a s) s') :
    Visits (fun a s => D a s ∨ E a s) fsm fsm'' where
  length := h'.length.trans h.length
  trees := h'.trees
  same a ha s hs hn := by
    rw [not_or] at hn
    rw [h'.same a ha s hs hn.2, h.same a ha s hs hn.1]
  done a ha s hs hd := by
    by_cases he : E a s
    · exact h'.done a ha s hs he
    · have hd' : D a s := hd.resolve_right he
      rw [h'.same a ha.1 s hs he, h.done a ha s hs hd',
        h'.top_same ht (child_ok ha hs) (hapart a ha s hs hd')]

theorem Visits.congr (h : Visits D fsm fsm')
    (he : ∀ a, a.Upper → ∀ s, s < SlotsPerFSMPage → (E a s ↔ D a s)) (hlow : ∀ a s, D a s → 0 < a.level) :
    Visits E fsm fsm' where
  length := h.length
  trees := h.trees
  same a ha s hs hn := by
    refine h.same a ha s hs fun hd => hn ?_
    exact (he a ⟨ha, hlow a s hd⟩ s hs).mpr hd
  done a ha s hs hd := h.done a ha s hs ((he a ha s hs).mp hd)

/-- Nothing is done where the visited pages do not exist. -/
theorem visits_missing (ht : Trees fsm) (h : ∀ a, a.Upper → ∀ s, D a s → fsm_readbuf fsm a = none) :
    Visits D fsm fsm where
  length := rfl
  trees := ht
  same _ _ _ _ _ := rfl
  done a ha s hs hd := by
    have hm := h a ha s hd
    rw [slot_none hm, top_none (child_missing ha hs hm)]

theorem slot_setPage (ha : a.Ok) (hb : b.Ok) {page : FSMPage} (hp : fsm_readbuf fsm a = some page)
    (page' : FSMPage) (s : Nat) : slot (setPage fsm a page') b s =
      if b = a then fsm_get_avail page' s else slot fsm b s := by
  unfold slot
  rw [readbuf_setPage ha hb]
  split
  · rw [hp, Option.map_some, Option.elim_some]
  · rfl

/-- A page gets another hint. -/
theorem visits_hint (ht : Trees fsm) (ha : a.Ok) {page page' : FSMPage} (hp : fsm_readbuf fsm a = some page)
    (hn : page'.fp_nodes = page.fp_nodes) : Visits (fun _ _ => False) fsm (setPage fsm a page') where
  length := setPage_length page'
  trees := trees_setPage ht (by
    have := readbuf_ok ht hp
    unfold FSMPage.Ok at *
    rw [hn]
    exact this)
  same b hb s _ _ := by
    rw [slot_setPage ha hb hp]
    split
    · rename_i e
      rw [e, slot_some hp, fsm_get_avail, fsm_get_avail, hn]
    · rfl
  done _ _ _ _ hd := hd.elim

/-- `updateSlot` writes the one slot. -/
theorem updateSlot_spec (ht : Trees fsm) (ha : a.Ok) {s : Nat} (hs : s < SlotsPerFSMPage)
    (hex : fsm_readbuf fsm a ≠ none) (v : Nat) :
    (updateSlot fsm a s v).length = fsm.length ∧ Trees (updateSlot fsm a s v) ∧
      ∀ b, b.Ok → ∀ s', slot (updateSlot fsm a s v) b s' = if b = a ∧ s' = s then v else slot fsm b s' := by
  obtain ⟨page, hp⟩ := Option.ne_none_iff_exists'.mp hex
  unfold updateSlot
  rw [hp]
  simp only
  obtain ⟨h1, h2⟩ := set_avail_spec (readbuf_ok ht hp) hs
  split
  · refine ⟨setPage_length _, trees_setPage ht h1, fun b hb s' => ?_⟩
    rw [slot_setPage ha hb hp, h2]
    by_cases e : b = a
    · subst e
      rw [if_pos rfl, slot_some hp]
      by_cases es : s' = s
      · rw [if_pos es, if_pos ⟨rfl, es⟩]
      · rw [if_neg es, if_neg fun h => es h.2]
    · rw [if_neg e, if_neg fun h => e h.1]
  · rename_i hv
    refine ⟨rfl, ht, fun b hb s' => ?_⟩
    split
    · rename_i e
      rw [e.1, e.2, slot_some hp]
      exact not_not.mp hv
    · rfl

/-! ## 3. `fsm_vacuum_page` -/

/-- The slots below a page, its own among them, that cover a block of the range. -/
def Sub (start stop level n : Nat) (b : FSMAddress) (s : Nat) : Prop :=
  0 < b.level ∧ b.level ≤ level ∧ up (level - b.level) b.logpageno = n ∧
    Meets start stop (fsm_get_child b s)

/-- The end of the vacuum of a page. -/
theorem vacuumFinish_spec (ht : Trees fsm) (ha : a.Ok) :
    Visits (fun _ _ => False) fsm (vacuumFinish fsm a).1 ∧ (vacuumFinish fsm a).2.1 = top fsm a ∧
      ((vacuumFinish fsm a).2.2 = true ↔ fsm_readbuf fsm a = none) := by
  unfold vacuumFinish
  cases hp : fsm_readbuf fsm a with
  | none => exact ⟨visits_missing ht fun _ _ _ h => h.elim, (top_none hp).symm, by simp⟩
  | some page => exact ⟨visits_hint ht ha hp rfl, (top_some hp).symm, by simp⟩

/-- What the slots from `lo` up to `hi` of a page stand for. -/
def SubRange (start stop level n lo hi : Nat) (b : FSMAddress) (s : Nat) : Prop :=
  (b = ⟨level + 1, n⟩ ∧ lo ≤ s ∧ s < hi) ∨
    ∃ i, lo ≤ i ∧ i < hi ∧ Sub start stop level (n * SlotsPerFSMPage + i) b s

theorem subRange_congr {level n lo hi hi' s : Nat} (h : ∀ i, lo ≤ i → (i < hi ↔ i < hi')) :
    SubRange start stop level n lo hi b s ↔ SubRange start stop level n lo hi' b s := by
  refine or_congr (and_congr_right fun _ => and_congr_right fun hs => h s hs) ?_
  refine exists_congr fun i => and_congr_right fun hi => ?_
  rw [h i hi]

theorem subRange_level {level n lo hi s : Nat} (h : SubRange start stop level n lo hi b s) : 0 < b.level := by
  rcases h with ⟨rfl, _⟩ | ⟨_, _, _, h⟩
  · exact Nat.succ_pos level
  · exact h.1

/-- The page of a level that a page below it falls under does not depend on the way down. -/
theorem sub_child {level m s s' : Nat} (hs : s < SlotsPerFSMPage) (h : 0 < b.level ∧ b.level ≤ level)
    (hc : Sub start stop level m (fsm_get_child b s) s') : up (level - b.level) b.logpageno = m := by
  obtain ⟨_, _, hu, _⟩ := hc
  have e : level - (fsm_get_child b s).level = (level - b.level) + 1 := by
    show level - (b.level - 1) = level - b.level + 1
    omega
  rw [e] at hu
  exact (up_child _ _ _ hs).symm.trans hu

/-- **The slots of one page and all below them**: the range of slots that the code computes gives the slots
    that cover a block of the range of blocks. -/
theorem subRange_iff {level n : Nat} {s : Nat} (hs : s < SlotsPerFSMPage) :
    SubRange start stop level n (startSlot start ⟨level + 1, n⟩) (stopSlot stop ⟨level + 1, n⟩) b s ↔
      Sub start stop (level + 1) n b s := by
  constructor
  · intro h
    rcases h with ⟨rfl, h1, h2⟩ | ⟨i, h1, h2, h0, hl, hu, hm⟩
    · exact ⟨Nat.succ_pos level, Nat.le_refl _, by rw [Nat.sub_self]; rfl, (slotRange_iff hs).mp ⟨h1, h2⟩⟩
    · refine ⟨h0, by omega, ?_, hm⟩
      have hi : i < SlotsPerFSMPage := h2.trans_le stopSlot_le
      rw [show level + 1 - b.level = (level - b.level) + 1 by omega]
      show up (level - b.level) b.logpageno / SlotsPerFSMPage = n
      rw [hu]
      rw [slotsPerFSMPage_eq] at *
      omega
  · intro h
    obtain ⟨h0, hl, hu, hm⟩ := h
    by_cases e : b.level = level + 1
    · refine Or.inl ?_
      obtain ⟨bl, bn⟩ := b
      cases e
      rw [Nat.sub_self] at hu
      cases hu
      exact ⟨rfl, (slotRange_iff hs).mpr hm⟩
    · refine Or.inr ⟨up (level - b.level) b.logpageno % SlotsPerFSMPage, ?_⟩
      have hu' : up (level - b.level) b.logpageno / SlotsPerFSMPage = n := by
        rw [show level + 1 - b.level = (level - b.level) + 1 by omega] at hu
        exact hu
      have hx : n * SlotsPerFSMPage + up (level - b.level) b.logpageno % SlotsPerFSMPage =
          up (level - b.level) b.logpageno := by
        rw [← hu', Nat.mul_comm]
        exact Nat.div_add_mod _ _
      have hmod : up (level - b.level) b.logpageno % SlotsPerFSMPage < SlotsPerFSMPage :=
        Nat.mod_lt _ (by rw [slotsPerFSMPage_eq]; omega)
      have hmeet := meets_up hm (level - (b.level - 1))
      rw [show b.level - 1 + (level - (b.level - 1)) = level by omega,
        show level - (b.level - 1) = (level - b.level) + 1 by omega] at hmeet
      rw [up_child _ _ _ hs, ← hx] at hmeet
      obtain ⟨h1, h2⟩ := (slotRange_iff hmod).mpr hmeet
      exact ⟨h1, h2, h0, by omega, hx.symm, hm⟩

/-- One slot is brought in step. -/
theorem visits_updateSlot (ht : Trees fsm) (ha : a.Upper) {s : Nat} (hs : s < SlotsPerFSMPage)
    (hex : fsm_readbuf fsm a ≠ none) :
    Visits (fun b s' => b = a ∧ s' = s) fsm (updateSlot fsm a s (top fsm (fsm_get_child a s))) := by
  obtain ⟨h1, h2, h3⟩ := updateSlot_spec ht ha.1 hs hex (top fsm (fsm_get_child a s))
  refine ⟨h1, h2, fun b hb s' _ hn => ?_, fun b hb s' _ hd => ?_⟩
  · rw [h3 b hb, if_neg hn]
  · rw [h3 b hb.1, if_pos hd, hd.1, hd.2]
    refine (top_congr ht h2 fun s'' _ => ?_).symm
    rw [h3 _ (child_ok ha hs), if_neg]
    intro e
    have hl : a.level - 1 = a.level := congrArg FSMAddress.level e.1
    have := ha.2
    omega

/-- What `fsm_vacuum_page` is to do on a page. -/
def VacuumsPage (start stop level n : Nat) : Prop :=
  ∀ fsm : Fork, Trees fsm → Visits (Sub start stop level n) fsm (fsm_vacuum_page start stop level n fsm).1 ∧
    (fsm_vacuum_page start stop level n fsm).2.1 =
      top (fsm_vacuum_page start stop level n fsm).1 ⟨level, n⟩ ∧
    ((fsm_vacuum_page start stop level n fsm).2.2 = true ↔ fsm_readbuf fsm ⟨level, n⟩ = none)

/-- The body of the loop over the slots of a page. -/
def vacuumSlot (start stop level n : Nat) (r : Fork × Bool) (s : Nat) : Fork × Bool :=
  let child := if r.2 then (r.1, 0, true)
    else fsm_vacuum_page start stop level (fsm_get_child ⟨level + 1, n⟩ s).logpageno r.1
  (updateSlot child.1 ⟨level + 1, n⟩ s child.2.1, child.2.2)

section Slots

variable {level n : Nat} (hup : (⟨level + 1, n⟩ : FSMAddress).Upper)

include hup in
/-- The pages below a page that does not exist do not exist: there is no more than one level of them. -/
theorem sub_missing {s : Nat} (h : fsm_readbuf fsm ⟨level, n * SlotsPerFSMPage + s⟩ = none)
    {b : FSMAddress} {s' : Nat} (hd : Sub start stop level (n * SlotsPerFSMPage + s) b s') :
    fsm_readbuf fsm b = none := by
  obtain ⟨h0, hl, hu, _⟩ := hd
  have hlevel : level + 1 ≤ 2 := by
    have hok := hup.1
    unfold FSMAddress.Ok at hok
    simp only at hok
    omega
  obtain ⟨bl, bn⟩ := b
  simp only at h0 hl hu
  have e : bl = level := by omega
  rw [e, Nat.sub_self] at hu
  have e' : bn = n * SlotsPerFSMPage + s := hu
  rw [e, e']
  exact h

include hup in
theorem later_missing {s s' : Nat} (hs : s ≤ s') (hs' : s' < SlotsPerFSMPage)
    (h : fsm_readbuf fsm ⟨level, n * SlotsPerFSMPage + s⟩ = none) :
    fsm_readbuf fsm ⟨level, n * SlotsPerFSMPage + s'⟩ = none := by
  rw [readbuf_eq_none] at h ⊢
  exact h.trans (phys_mono (child_ok hup (hs.trans_lt hs')) (child_ok hup hs') rfl
    (Nat.add_le_add_left hs _))

include hup in
/-- **One slot of the loop.** -/
theorem vacuumSlot_spec (hpage : ∀ s, s < SlotsPerFSMPage →
      VacuumsPage start stop level (n * SlotsPerFSMPage + s))
    {r : Fork × Bool} (ht : Trees r.1) (hex : fsm_readbuf r.1 ⟨level + 1, n⟩ ≠ none) {s : Nat}
    (hs : s < SlotsPerFSMPage)
    (heof : r.2 = true → fsm_readbuf r.1 ⟨level, n * SlotsPerFSMPage + s⟩ = none) :
    Visits (SubRange start stop level n s (s + 1)) r.1 (vacuumSlot start stop level n r s).1 ∧
      ((vacuumSlot start stop level n r s).2 = true →
        fsm_readbuf r.1 ⟨level, n * SlotsPerFSMPage + s⟩ = none) := by
  -- the child first, then the slot that stands for it
  have hchild : ∃ child : Fork × Nat × Bool,
      vacuumSlot start stop level n r s = (updateSlot child.1 ⟨level + 1, n⟩ s child.2.1, child.2.2) ∧
      Visits (Sub start stop level (n * SlotsPerFSMPage + s)) r.1 child.1 ∧
      child.2.1 = top child.1 (fsm_get_child ⟨level + 1, n⟩ s) ∧
      (child.2.2 = true → fsm_readbuf r.1 ⟨level, n * SlotsPerFSMPage + s⟩ = none) := by
    unfold vacuumSlot
    cases he : r.2 with
    | true =>
        have hm := heof he
        refine ⟨(r.1, 0, true), rfl, visits_missing ht fun b _ s' hd => sub_missing hup hm hd, ?_,
          fun _ => hm⟩
        exact (top_none hm).symm
    | false =>
        obtain ⟨h1, h2, h3⟩ := hpage s hs r.1 ht
        exact ⟨_, rfl, h1, h2, h3.mp⟩
  obtain ⟨child, hv, h1, h2, h3⟩ := hchild
  rw [hv]
  refine ⟨?_, h3⟩
  rw [h2]
  have hex' : fsm_readbuf child.1 ⟨level + 1, n⟩ ≠ none := fun h => hex (h1.readbuf_none.mp h)
  refine (h1.trans h1.trees (visits_updateSlot h1.trees hup hs hex') fun b hb s' _ hd s'' he => ?_).congr
    (fun b hb s' _ => ?_) fun b s' hd => ?_
  · have hl : b.level - 1 = level + 1 := congrArg FSMAddress.level he.1
    have := hd.2.1
    omega
  · constructor
    · intro h
      rcases h with ⟨e, h1, h2⟩ | ⟨i, h1, h2, h⟩
      · exact Or.inr ⟨e, by omega⟩
      · have e : i = s := by omega
        rw [e] at h
        exact Or.inl h
    · intro h
      rcases h with h | ⟨e, h⟩
      · exact Or.inr ⟨s, Nat.le_refl _, Nat.lt_succ_self _, h⟩
      · exact Or.inl ⟨e, by omega, by omega⟩
  · rcases hd with hd | hd
    · exact hd.1
    · rw [hd.1]
      exact Nat.succ_pos level

include hup in
/-- **The loop over the slots.** -/
theorem vacuumSlots_spec (hpage : ∀ s, s < SlotsPerFSMPage →
      VacuumsPage start stop level (n * SlotsPerFSMPage + s)) (count : Nat) :
    ∀ (lo : Nat) {r : Fork × Bool}, lo + count ≤ SlotsPerFSMPage → Trees r.1 →
      fsm_readbuf r.1 ⟨level + 1, n⟩ ≠ none →
      (∀ s, lo ≤ s → s < SlotsPerFSMPage → r.2 = true →
        fsm_readbuf r.1 ⟨level, n * SlotsPerFSMPage + s⟩ = none) →
      Visits (SubRange start stop level n lo (lo + count)) r.1
        ((List.range' lo count).foldl (vacuumSlot start stop level n) r).1 := by
  induction count with
  | zero =>
      intro lo r _ ht _ _
      refine visits_missing ht fun b _ s hd => ?_
      rcases hd with ⟨_, h1, h2⟩ | ⟨i, h1, h2, _⟩ <;> omega
  | succ count ih =>
      intro lo r hlo ht hex heof
      rw [List.range'_succ, List.foldl_cons]
      obtain ⟨h1, h2⟩ := vacuumSlot_spec hup hpage ht hex (s := lo) (by omega)
        (heof lo (Nat.le_refl _) (by omega))
      have h3 := ih (lo + 1) (r := vacuumSlot start stop level n r lo) (by omega) h1.trees
        (fun h => hex (h1.readbuf_none.mp h)) fun s hs hs' he => h1.readbuf_none.mpr
          (later_missing hup (by omega) hs' (h2 he))
      refine (h1.trans h1.trees h3 fun b hb s hs hd s' he => ?_).congr (fun b _ s _ => ?_) fun b s hd => ?_
      · -- the children of the slots done lie under other pages than those still to do
        rcases he with ⟨e, _⟩ | ⟨i, hi, _, he⟩
        · have hl : b.level - 1 = level + 1 := congrArg FSMAddress.level e
          rcases hd with ⟨rfl, _⟩ | ⟨_, _, _, hd⟩
          · simp only at hl
            omega
          · have := hd.2.1
            omega
        · rcases hd with ⟨rfl, hs1, hs2⟩ | ⟨j, hj1, hj2, hd⟩
          · have hu : up (level - level) (n * SlotsPerFSMPage + s) = n * SlotsPerFSMPage + i := he.2.2.1
            rw [Nat.sub_self] at hu
            have hu' : n * SlotsPerFSMPage + s = n * SlotsPerFSMPage + i := hu
            omega
          · have := sub_child hs ⟨hd.1, hd.2.1⟩ he
            have := hd.2.2.1
            omega
      · constructor
        · intro h
          rcases h with ⟨e, h1, h2⟩ | ⟨i, h1, h2, h⟩
          · by_cases hs : s = lo
            · exact Or.inl (Or.inl ⟨e, by omega, by omega⟩)
            · exact Or.inr (Or.inl ⟨e, by omega, by omega⟩)
          · by_cases hi : i = lo
            · exact Or.inl (Or.inr ⟨i, by omega, by omega, h⟩)
            · exact Or.inr (Or.inr ⟨i, by omega, by omega, h⟩)
        · intro h
          rcases h with (⟨e, h1, h2⟩ | ⟨i, h1, h2, h⟩) | (⟨e, h1, h2⟩ | ⟨i, h1, h2, h⟩)
          · exact Or.inl ⟨e, by omega, by omega⟩
          · exact Or.inr ⟨i, by omega, by omega, h⟩
          · exact Or.inl ⟨e, by omega, by omega⟩
          · exact Or.inr ⟨i, by omega, by omega, h⟩
      · rcases hd with hd | hd <;> exact subRange_level hd

end Slots

/-- **`fsm_vacuum_page`**, by induction on the level. -/
theorem vacuum_page_spec (level : Nat) :
    ∀ n, (⟨level, n⟩ : FSMAddress).Ok → VacuumsPage start stop level n := by
  induction level with
  | zero =>
      intro n ha fsm ht
      obtain ⟨h1, h2, h3⟩ := vacuumFinish_spec ht ha
      refine ⟨h1.congr (fun b hb s _ => ?_) fun _ _ h => h.elim, ?_, h3⟩
      · exact ⟨fun h => absurd (h.2.1.trans_lt h.1) (Nat.lt_irrefl _), fun h => h.elim⟩
      · exact h2.trans (h1.top_same ht ha fun _ h => h).symm
  | succ level ih =>
      intro n ha fsm ht
      have hup : (⟨level + 1, n⟩ : FSMAddress).Upper := ⟨ha, Nat.succ_pos level⟩
      rw [fsm_vacuum_page]
      cases hp : fsm_readbuf fsm ⟨level + 1, n⟩ with
      | none =>
          refine ⟨visits_missing ht fun b hb s hd => ?_, (top_none hp).symm, by simp⟩
          -- a page below a missing one is missing
          obtain ⟨h0, hl, hu, _⟩ := hd
          rw [readbuf_eq_none] at hp ⊢
          have h1 := phys_cases ha
          have h2 := phys_cases hb.1
          simp only at h1
          have hu1 : b.level = level + 1 → b.logpageno = n := by
            intro e
            rw [e, Nat.sub_self] at hu
            exact hu
          have hu2 : b.level + 1 = level + 1 → b.logpageno / SlotsPerFSMPage = n := by
            intro e
            rw [← e, show b.level + 1 - b.level = 1 by omega] at hu
            exact hu
          rw [slotsPerFSMPage_eq] at *
          omega
      | some page =>
          have hstart : startSlot start ⟨level + 1, n⟩ ≤ SlotsPerFSMPage := startSlot_le
          have hstop : stopSlot stop ⟨level + 1, n⟩ ≤ SlotsPerFSMPage := stopSlot_le
          have h1 := vacuumSlots_spec (r := (fsm, false)) hup (fun s hs => ih _ (child_ok hup hs))
            (stopSlot stop ⟨level + 1, n⟩ - startSlot start ⟨level + 1, n⟩)
            (startSlot start ⟨level + 1, n⟩) (by omega) ht
            (by rw [hp]; exact Option.some_ne_none page) fun _ _ _ h => Bool.noConfusion h
          obtain ⟨h2, h3, h4⟩ := vacuumFinish_spec h1.trees ha
          refine ⟨(h1.trans h1.trees h2 fun _ _ _ _ _ _ h => h).congr (fun b hb s hs => ?_) fun b s hd =>
            subRange_level (hd.resolve_right id), h3.trans (h2.top_same h1.trees ha fun _ h => h).symm, ?_⟩
          · rw [← subRange_iff hs, or_false]
            exact subRange_congr fun i hi => by omega
          · have h5 := h4.trans h1.readbuf_none
            rw [hp] at h5
            exact h5

end Pgvec.Storage.Fsm
