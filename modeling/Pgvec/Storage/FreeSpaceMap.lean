/-
  File:      Pgvec/Storage/FreeSpaceMap.lean
  Subject:   THE FREE SPACE MAP OVER RUNS: what records and vacuums reach, and what a search then finds.

  A run is a list of `RecordPageWithFreeSpace` and `FreeSpaceMapVacuum` calls on an empty map. The slot of a
  block on the bottom level always holds the category it was last recorded with (`recorded`); the upper
  levels may lag behind until a vacuum.

  * `Inv` -- the pages are trees, the bottom level is what was recorded, and no slot speaks of blocks that
    do not have a number; `inv_run` -- it holds after every run;
  * `Synced` -- every slot of an upper page has the value at the root of its child; two such maps with the
    same bottom level have the same slots (`Synced.unique`);
  * `search_synced` -- in a map in step the search goes straight down;
  * `Synced.stale` -- records leave out of step what lies above the pages of their blocks;
  * **`free_space_map`** -- the three results together.
-/
import Pgvec.Storage.FreeSpaceFacts

namespace Pgvec.Storage.Fsm

variable {fsm fsm' : Fork} {a b : FSMAddress} {start stop : Nat}

/-! ## 1. Runs -/

/-- A call on the map. -/
inductive Op where
  | record (heapBlk spaceAvail : Nat)
  | vacuum
  deriving DecidableEq, Repr

/-- The block has a number. -/
def Op.Ok : Op → Prop
  | .record heapBlk _ => heapBlk < InvalidBlockNumber
  | .vacuum => True

def Op.apply (fsm : Fork) : Op → Fork
  | .record heapBlk spaceAvail => RecordPageWithFreeSpace fsm heapBlk spaceAvail
  | .vacuum => FreeSpaceMapVacuum fsm

/-- The map after the calls, the first one first. -/
def run (ops : List Op) : Fork := ops.foldl Op.apply []

/-- The category of a block after one more call. -/
def Op.category (blk cat : Nat) : Op → Nat
  | .record heapBlk spaceAvail => if heapBlk = blk then fsm_space_avail_to_cat spaceAvail else cat
  | .vacuum => cat

/-- The category that a block was last recorded with, zero if it never was. -/
def recorded (ops : List Op) (blk : Nat) : Nat := ops.foldl (Op.category blk) 0

/-- **Every slot of an upper page has the value at the root of its child.** -/
def Synced (fsm : Fork) : Prop :=
  ∀ a : FSMAddress, a.Upper → ∀ s, s < SlotsPerFSMPage → slot fsm a s = top fsm (fsm_get_child a s)

/-- The bottom page of the last block that has a number. -/
def lastLeaf : FSMAddress := ⟨FSM_BOTTOM_LEVEL, pageOf 0 (InvalidBlockNumber - 1)⟩

/-- **What holds of every map that a run reaches**; `cat` is what was recorded. -/
structure Inv (cat : Nat → Nat) (fsm : Fork) : Prop where
  trees : Trees fsm
  length : fsm.length ≤ fsm_logical_to_physical lastLeaf + 1
  bottom : ∀ n s, n < SlotsPerFSMPage * SlotsPerFSMPage → s < SlotsPerFSMPage →
    slot fsm ⟨FSM_BOTTOM_LEVEL, n⟩ s = cat (n * SlotsPerFSMPage + s)
  past : ∀ a : FSMAddress, a.Upper → ∀ s, s < SlotsPerFSMPage →
    ¬ Meets 0 InvalidBlockNumber (fsm_get_child a s) → slot fsm a s = 0

/-! ## 2. Setting a slot of the map -/

theorem extend_length (k : Nat) : (fsm_extend fsm k).length = max fsm.length k := by
  rw [fsm_extend, List.length_append, List.length_replicate]
  omega

theorem trees_extend (h : Trees fsm) (k : Nat) : Trees (fsm_extend fsm k) := by
  intro page hp
  rcases List.mem_append.mp hp with hp | hp
  · exact h page hp
  · rw [List.eq_of_mem_replicate hp]
    exact zero_ok

/-- The new pages hold zeros, as the missing ones did. -/
theorem slot_extend (k s : Nat) : slot (fsm_extend fsm k) a s = slot fsm a s := by
  unfold slot fsm_readbuf fsm_extend
  by_cases h : fsm_logical_to_physical a < fsm.length
  · rw [List.getElem?_append_left h]
  · rw [List.getElem?_append_right (Nat.le_of_not_lt h), List.getElem?_replicate,
      List.getElem?_eq_none (Nat.le_of_not_lt h)]
    split <;> rfl

/-- **`fsm_set_and_search`** without a search sets the one slot. -/
theorem setAndSearch_spec (ht : Trees fsm) (ha : a.Ok) {s : Nat} (hs : s < SlotsPerFSMPage) (v : Nat) :
    Trees (fsm_set_and_search fsm a s v 0).1 ∧
      (fsm_set_and_search fsm a s v 0).1.length = max fsm.length (fsm_logical_to_physical a + 1) ∧
      ∀ b, b.Ok → ∀ s', slot (fsm_set_and_search fsm a s v 0).1 b s' =
        if b = a ∧ s' = s then v else slot fsm b s' := by
  have ht' := trees_extend ht (fsm_logical_to_physical a + 1)
  have hlen : fsm_logical_to_physical a < (fsm_extend fsm (fsm_logical_to_physical a + 1)).length := by
    rw [extend_length]
    omega
  obtain ⟨page, hp⟩ : ∃ page, fsm_readbuf (fsm_extend fsm (fsm_logical_to_physical a + 1)) a = some page :=
    ⟨_, List.getElem?_eq_getElem hlen⟩
  obtain ⟨h1, h2⟩ := @set_avail_spec _ (readbuf_ok ht' hp) _ v hs
  unfold fsm_set_and_search
  simp only [hp]
  rw [if_neg (fun h => h rfl)]
  refine ⟨trees_setPage ht' h1, (setPage_length _).trans (extend_length _), fun b hb s' => ?_⟩
  rw [slot_setPage ha hb hp, h2]
  by_cases e : b = a
  · subst e
    rw [if_pos rfl, ← slot_some hp, slot_extend]
    by_cases es : s' = s
    · rw [if_pos es, if_pos ⟨rfl, es⟩]
    · rw [if_neg es, if_neg fun h => es h.2]
  · rw [if_neg e, if_neg fun h => e h.1, slot_extend]

/-! ## 3. The vacuum from the root -/

theorem root_eq : FSM_ROOT_ADDRESS = ⟨2, 0⟩ := by rw [FSM_ROOT_ADDRESS, rootLevel_eq]

/-- Every page is below the root. -/
theorem up_root (ha : a.Ok) : up (2 - a.level) a.logpageno = 0 := by
  unfold FSMAddress.Ok at ha
  rcases ha with ⟨h, hn⟩ | ⟨h, hn⟩ | ⟨h, hn⟩
  · rw [h]
    show a.logpageno / SlotsPerFSMPage / SlotsPerFSMPage = 0
    rw [slotsPerFSMPage_eq] at *
    omega
  · rw [h]
    exact Nat.div_eq_of_lt hn
  · rw [h, hn]
    rfl

/-- **`fsm_vacuum_page` from the root** visits the slots that cover a block of the range. -/
theorem vacuum_visits (start stop : Nat) (ht : Trees fsm) :
    Visits (fun a s => 0 < a.level ∧ Meets start stop (fsm_get_child a s)) fsm
      (fsm_vacuum_page start stop FSM_ROOT_ADDRESS.level FSM_ROOT_ADDRESS.logpageno fsm).1 := by
  have hroot : (⟨2, 0⟩ : FSMAddress).Ok := Or.inr (Or.inr ⟨rfl, rfl⟩)
  rw [root_eq]
  refine (vacuum_page_spec 2 0 hroot fsm ht).1.congr (fun a ha s _ => ?_) fun a s h => h.1
  have hlevel : a.level ≤ 2 := by
    have := ha.1
    unfold FSMAddress.Ok at this
    omega
  exact ⟨fun h => ⟨h.1, hlevel, up_root ha.1, h.2⟩, fun h => ⟨h.1, h.2.2.2⟩⟩

/-- The pages that cover no block with a number do not exist. -/
theorem past_missing (hlen : fsm.length ≤ fsm_logical_to_physical lastLeaf + 1) (ha : a.Ok)
    (hm : ¬ Meets 0 InvalidBlockNumber a) : fsm_readbuf fsm a = none := by
  have hp : pageOf a.level (InvalidBlockNumber - 1) < a.logpageno := by
    by_contra h
    refine hm ⟨?_, Nat.le_of_not_lt h⟩
    have : ∀ level, pageOf level 0 = 0 := fun level => by
      induction level with
      | zero => exact Nat.zero_div _
      | succ level ih => rw [pageOf_succ, ih, Nat.zero_div]
    rw [this]
    exact Nat.zero_le _
  have hlast : fsm_logical_to_physical lastLeaf =
      pageOf 0 (InvalidBlockNumber - 1) + pageOf 0 (InvalidBlockNumber - 1) / SlotsPerFSMPage + 2 := by
    refine phys_bottom ?_
    rw [pageOf_zero, slotsPerFSMPage_eq, InvalidBlockNumber]
    omega
  have h1 := phys_cases ha
  rw [readbuf_eq_none]
  rw [hlast, pageOf_zero] at hlen
  rcases h1 with ⟨h1, h2, h3⟩ | ⟨h1, h2, h3⟩ | ⟨h1, h2, h3⟩
  · rw [h1, pageOf_zero] at hp
    rw [slotsPerFSMPage_eq] at *
    omega
  · rw [h1, pageOf_succ, pageOf_zero] at hp
    rw [slotsPerFSMPage_eq] at *
    omega
  · rw [h2] at hp
    exact absurd hp (Nat.not_lt_zero _)

/-- A slot for pages that do not exist is in step when it is zero. -/
theorem Inv.past_synced {cat : Nat → Nat} (h : Inv cat fsm) (ha : a.Upper) {s : Nat}
    (hs : s < SlotsPerFSMPage) (hm : ¬ Meets 0 InvalidBlockNumber (fsm_get_child a s)) :
    slot fsm a s = top fsm (fsm_get_child a s) := by
  rw [h.past a ha s hs hm, top_none (past_missing h.length (child_ok ha hs) hm)]

/-- A vacuum of any range keeps the invariant. -/
theorem Inv.visits {cat : Nat → Nat} (h : Inv cat fsm)
    (hv : Visits (fun a s => 0 < a.level ∧ Meets start stop (fsm_get_child a s)) fsm fsm') : Inv cat fsm' where
  trees := hv.trees
  length := hv.length.trans_le h.length
  bottom n s hn hs := by
    rw [hv.same _ (Or.inl ⟨rfl, hn⟩) s hs fun hd => absurd hd.1 (Nat.lt_irrefl 0)]
    exact h.bottom n s hn hs
  past a ha s hs hm := by
    by_cases hd : 0 < a.level ∧ Meets start stop (fsm_get_child a s)
    · rw [hv.done a ha s hs hd]
      exact top_none (past_missing (hv.length.trans_le h.length) (child_ok ha hs) hm)
    · rw [hv.same a ha.1 s hs hd]
      exact h.past a ha s hs hm

theorem Inv.vacuum {cat : Nat → Nat} (h : Inv cat fsm) : Inv cat (FreeSpaceMapVacuum fsm) :=
  h.visits (vacuum_visits _ _ h.trees)

/-- **After `FreeSpaceMapVacuum` the levels are in step.** -/
theorem Inv.synced {cat : Nat → Nat} (h : Inv cat fsm) : Synced (FreeSpaceMapVacuum fsm) := by
  intro a ha s hs
  have hv : Visits _ fsm (FreeSpaceMapVacuum fsm) :=
    vacuum_visits 0 InvalidBlockNumber h.trees
  by_cases hm : Meets 0 InvalidBlockNumber (fsm_get_child a s)
  · exact hv.done a ha s hs ⟨ha.2, hm⟩
  · exact h.vacuum.past_synced ha hs hm

/-! ## 4. The invariant over runs -/

theorem inv_empty : Inv (fun _ => 0) [] where
  trees := fun _ h => absurd h (List.not_mem_nil)
  length := Nat.zero_le _
  bottom _ _ _ _ := rfl
  past _ _ _ _ _ := rfl

theorem Inv.record {cat : Nat → Nat} (h : Inv cat fsm) {heapBlk : Nat} (hb : heapBlk < InvalidBlockNumber)
    (spaceAvail : Nat) : Inv (fun blk => (Op.record heapBlk spaceAvail).category blk (cat blk))
      (RecordPageWithFreeSpace fsm heapBlk spaceAvail) := by
  have hpage : pageOf 0 heapBlk < SlotsPerFSMPage * SlotsPerFSMPage := by
    rw [pageOf_zero, slotsPerFSMPage_eq]
    unfold InvalidBlockNumber at hb
    omega
  have ha : (⟨FSM_BOTTOM_LEVEL, pageOf 0 heapBlk⟩ : FSMAddress).Ok := Or.inl ⟨rfl, hpage⟩
  have hlast : lastLeaf.Ok := by
    refine Or.inl ⟨rfl, ?_⟩
    show pageOf 0 (InvalidBlockNumber - 1) < _
    rw [pageOf_zero, slotsPerFSMPage_eq, InvalidBlockNumber]
    omega
  obtain ⟨h1, h2, h3⟩ := setAndSearch_spec h.trees ha (locate_lt heapBlk 0) (fsm_space_avail_to_cat spaceAvail)
  refine ⟨h1, ?_, fun n s hn hs => ?_, fun a hup s hs hm => ?_⟩
  · refine h2.trans_le (max_le h.length (Nat.succ_le_succ (phys_mono ha hlast rfl ?_)))
    exact pageOf_mono 0 (by unfold InvalidBlockNumber at *; omega)
  · rw [RecordPageWithFreeSpace]
    refine (h3 ⟨FSM_BOTTOM_LEVEL, n⟩ (Or.inl ⟨rfl, hn⟩) s).trans ?_
    -- the page and the slot are the two digits of the block number
    have hiff : ((⟨FSM_BOTTOM_LEVEL, n⟩ : FSMAddress) = ⟨FSM_BOTTOM_LEVEL, pageOf 0 heapBlk⟩ ∧
        s = (locate heapBlk 0).2) ↔ heapBlk = n * SlotsPerFSMPage + s := by
      have hs' : (locate heapBlk 0).2 = heapBlk % SlotsPerFSMPage := rfl
      rw [hs', FSMAddress.mk.injEq, pageOf_zero]
      rw [slotsPerFSMPage_eq] at *
      omega
    rw [h.bottom n s hn hs]
    exact if_congr hiff rfl rfl
  · rw [RecordPageWithFreeSpace]
    refine (h3 a hup.1 s).trans ?_
    rw [if_neg]
    · exact h.past a hup s hs hm
    · intro e
      exact absurd hup.2 (by rw [e.1]; exact Nat.lt_irrefl 0)

/-- **The invariant after every run.** -/
theorem inv_run (ops : List Op) (hops : ∀ op ∈ ops, op.Ok) : Inv (recorded ops) (run ops) := by
  induction ops using List.reverseRecOn with
  | nil => exact inv_empty
  | append_singleton ops op ih =>
      have h := ih fun op hop => hops op (List.mem_append_left _ hop)
      have e : recorded (ops ++ [op]) = fun blk => op.category blk (recorded ops blk) := by
        funext blk
        rw [recorded, recorded, List.foldl_append, List.foldl_cons, List.foldl_nil]
      rw [e, run, List.foldl_append, List.foldl_cons, List.foldl_nil]
      cases op with
      | record heapBlk spaceAvail =>
          exact h.record (hops (.record heapBlk spaceAvail) (List.mem_append_right _ (List.mem_singleton_self _)))
            spaceAvail
      | vacuum => exact h.vacuum

/-! ## 5. The vacuum of a range -/

/-- The pages have the same slots. -/
def SameSlots (fsm fsm' : Fork) : Prop := ∀ a : FSMAddress, a.Ok → ∀ s, s < SlotsPerFSMPage →
  slot fsm a s = slot fsm' a s

/-- **A map in step is determined by its bottom level.** -/
theorem Synced.unique (h : Synced fsm) (h' : Synced fsm') (ht : Trees fsm) (ht' : Trees fsm')
    (hbottom : ∀ n s, (⟨FSM_BOTTOM_LEVEL, n⟩ : FSMAddress).Ok → s < SlotsPerFSMPage →
      slot fsm ⟨FSM_BOTTOM_LEVEL, n⟩ s = slot fsm' ⟨FSM_BOTTOM_LEVEL, n⟩ s) : SameSlots fsm fsm' := by
  intro a ha
  obtain ⟨level, n⟩ := a
  -- by induction on the level: the slots of a page are the roots of its children
  induction level generalizing n with
  | zero => exact fun s hs => hbottom n s ha hs
  | succ level ih =>
      intro s hs
      have hup : (⟨level + 1, n⟩ : FSMAddress).Upper := ⟨ha, Nat.succ_pos level⟩
      rw [h _ hup s hs, h' _ hup s hs]
      exact top_congr ht' ht fun s' hs' => ih _ (child_ok hup hs) s' hs'

/-- A page that covers a block of the range lies below one that does. -/
theorem meets_parent {s : Nat} (hs : s < SlotsPerFSMPage) (hl : 0 < a.level)
    (h : Meets start stop (fsm_get_child a s)) : Meets start stop a := by
  obtain ⟨h1, h2⟩ := h
  have hlevel : a.level = (fsm_get_child a s).level + 1 := (Nat.sub_add_cancel hl).symm
  have hpage : (fsm_get_child a s).logpageno = a.logpageno * SlotsPerFSMPage + s := rfl
  rw [Meets, hlevel, pageOf_succ, pageOf_succ]
  rw [hpage] at h1 h2
  rw [slotsPerFSMPage_eq] at *
  omega

/-- **A range that covers every slot out of step brings the levels in step.** -/
theorem range_synced (ht : Trees fsm)
    (hstale : ∀ a : FSMAddress, a.Upper → ∀ s, s < SlotsPerFSMPage →
      slot fsm a s ≠ top fsm (fsm_get_child a s) →
        ∃ blk, start ≤ blk ∧ blk < stop ∧ pageOf (fsm_get_child a s).level blk = (fsm_get_child a s).logpageno) :
    Synced (FreeSpaceMapVacuumRange fsm start stop) := by
  intro a ha s hs
  unfold FreeSpaceMapVacuumRange
  split
  · have hv := vacuum_visits start stop ht
    by_cases hm : Meets start stop (fsm_get_child a s)
    · exact hv.done a ha s hs ⟨ha.2, hm⟩
    · -- the slot was in step, and nothing below its child is visited
      have hsync : slot fsm a s = top fsm (fsm_get_child a s) := by
        by_contra hne
        obtain ⟨blk, h1, h2, h3⟩ := hstale a ha s hs hne
        exact hm (meets_of_covers h1 h2 h3)
      rw [hv.same a ha.1 s hs fun hd => hm hd.2, hsync]
      refine (top_congr ht hv.trees fun s' hs' => ?_).symm
      exact hv.same _ (child_ok ha hs) s' hs' fun hd => hm (meets_parent hs' hd.1 hd.2)
  · by_contra hne
    obtain ⟨blk, h1, h2, _⟩ := hstale a ha s hs hne
    omega

/-- The range leaves the bottom level. -/
theorem range_bottom (start stop : Nat) (ht : Trees fsm) :
    Trees (FreeSpaceMapVacuumRange fsm start stop) ∧
    ∀ n s, (⟨FSM_BOTTOM_LEVEL, n⟩ : FSMAddress).Ok → s < SlotsPerFSMPage →
      slot (FreeSpaceMapVacuumRange fsm start stop) ⟨FSM_BOTTOM_LEVEL, n⟩ s =
        slot fsm ⟨FSM_BOTTOM_LEVEL, n⟩ s := by
  unfold FreeSpaceMapVacuumRange
  split
  · have hv := vacuum_visits start stop ht
    exact ⟨hv.trees, fun n s hn hs => hv.same _ hn s hs fun hd => absurd hd.1 (Nat.lt_irrefl 0)⟩
  · exact ⟨ht, fun _ _ _ _ => rfl⟩

/-! ## 6. The search -/

theorem slot_le_top (ht : Trees fsm) {s : Nat} (hs : s < SlotsPerFSMPage) : slot fsm a s ≤ top fsm a := by
  cases hp : fsm_readbuf fsm a with
  | none =>
      rw [slot_none hp]
      exact Nat.zero_le _
  | some page =>
      rw [slot_some hp, top_some hp]
      exact get_avail_le_max (readbuf_ok ht hp) hs

/-- **No page of a map in step has more than the root.** -/
theorem Synced.le_root (h : Synced fsm) (ht : Trees fsm) (ha : a.Ok) : top fsm a ≤ top fsm FSM_ROOT_ADDRESS := by
  -- a page with a parent has no more than the parent
  have hstep : ∀ b : FSMAddress, b.Ok → b.level < 2 →
      (fsm_get_parent b).1.Ok ∧ top fsm b ≤ top fsm (fsm_get_parent b).1 := by
    intro b hb hl
    have hs : (fsm_get_parent b).2 < SlotsPerFSMPage := Nat.mod_lt _ (by rw [slotsPerFSMPage_eq]; omega)
    have hup : (fsm_get_parent b).1.Upper := by
      refine ⟨?_, Nat.succ_pos _⟩
      unfold FSMAddress.Ok fsm_get_parent at *
      simp only
      rw [slotsPerFSMPage_eq] at *
      omega
    have hchild : fsm_get_child (fsm_get_parent b).1 (fsm_get_parent b).2 = b := by
      rw [fsm_get_child, FSMAddress.mk.injEq]
      exact ⟨Nat.add_sub_cancel _ 1, Nat.div_add_mod' _ _⟩
    refine ⟨hup.1, ?_⟩
    calc top fsm b = top fsm (fsm_get_child (fsm_get_parent b).1 (fsm_get_parent b).2) := by rw [hchild]
      _ = slot fsm (fsm_get_parent b).1 (fsm_get_parent b).2 := (h _ hup _ hs).symm
      _ ≤ top fsm (fsm_get_parent b).1 := slot_le_top ht hs
  induction hd : 2 - a.level generalizing a with
  | zero =>
      obtain ⟨level, n⟩ := a
      have e : level = 2 ∧ n = 0 := by
        unfold FSMAddress.Ok at ha
        simp only at ha hd
        omega
      rw [e.1, e.2, root_eq]
  | succ d ih =>
      obtain ⟨h1, h2⟩ := hstep a ha (by omega)
      refine h2.trans (ih h1 ?_)
      show 2 - (a.level + 1) = d
      omega

/-- What a search may leave behind: other hints. -/
theorem search_hint (ht : Trees fsm) (ha : a.Ok) {page : FSMPage} (hp : fsm_readbuf fsm a = some page)
    {minvalue : Nat} (hmin : 0 < minvalue) (advancenext : Bool) :
    Visits (fun _ _ => False) fsm (setPage fsm a (fsm_search_avail page minvalue advancenext).1) :=
  visits_hint ht ha hp (search_avail_spec (readbuf_ok ht hp) hmin advancenext).1

/-- A page with enough space has a slot with enough space, and the search returns one. -/
theorem search_here (ht : Trees fsm) {min_cat : Nat} (hmin : 0 < min_cat) (hle : min_cat ≤ top fsm a) :
    ∃ page, fsm_readbuf fsm a = some page ∧ ∃ s,
      (fsm_search_avail page min_cat (a.level == FSM_BOTTOM_LEVEL)).2 = some s ∧ s < SlotsPerFSMPage ∧
      min_cat ≤ slot fsm a s := by
  obtain ⟨page, hp⟩ : ∃ page, fsm_readbuf fsm a = some page := by
    refine Option.ne_none_iff_exists'.mp fun hp => ?_
    rw [top_none hp] at hle
    omega
  refine ⟨page, hp, ?_⟩
  rw [top_some hp] at hle
  obtain ⟨_, ⟨_, hlt⟩ | ⟨s, hs, hlt, hslot⟩⟩ :=
    search_avail_spec (readbuf_ok ht hp) hmin (a.level == FSM_BOTTOM_LEVEL)
  · exact absurd hlt (Nat.not_lt.mpr hle)
  · refine ⟨s, hs, hlt, ?_⟩
    rw [slot_some hp]
    exact hslot

/-- Other hints leave a map in step. -/
theorem Synced.hint (h : Synced fsm) (ht : Trees fsm) (hv : Visits (fun _ _ => False) fsm fsm') :
    Synced fsm' := by
  intro a ha s hs
  rw [hv.same a ha.1 s hs id, h a ha s hs]
  exact (hv.top_same ht (child_ok ha hs) fun _ => id).symm

theorem Inv.hint {cat : Nat → Nat} (h : Inv cat fsm) (hv : Visits (fun _ _ => False) fsm fsm') :
    Inv cat fsm' where
  trees := hv.trees
  length := hv.length.trans_le h.length
  bottom n s hn hs := by
    rw [hv.same _ (Or.inl ⟨rfl, hn⟩) s hs id]
    exact h.bottom n s hn hs
  past a ha s hs hm := by
    rw [hv.same a ha.1 s hs id]
    exact h.past a ha s hs hm

/-- **The search below a page with enough space** ends in a block with enough space. -/
theorem search_down {rel : MainFork} {min_cat : Nat} (hmin : 0 < min_cat) {cat : Nat → Nat}
    (hcat : ∀ blk, cat blk ≠ 0 → blk < rel.nblocks) (hrel : rel.nblocks ≤ InvalidBlockNumber) (restarts : Nat)
    (level : Nat) : ∀ {fsm : Fork} {n : Nat}, Synced fsm → Inv cat fsm → (⟨level, n⟩ : FSMAddress).Ok →
      min_cat ≤ top fsm ⟨level, n⟩ →
        (searchLoop rel min_cat fsm restarts ⟨level, n⟩).2 < rel.nblocks ∧
          min_cat ≤ cat (searchLoop rel min_cat fsm restarts ⟨level, n⟩).2 := by
  induction level with
  | zero =>
      intro fsm n hsync hinv ha hle
      obtain ⟨page, hp, s, hs, hlt, hslot⟩ := search_here hinv.trees hmin hle
      have hn : n < SlotsPerFSMPage * SlotsPerFSMPage := by
        rcases ha with h | h | h
        · exact h.2
        · exact absurd h.1 (by simp)
        · exact absurd h.1 (by simp)
      -- the slot is not zero, so its block was recorded and has a number
      have hblk : min_cat ≤ cat (n * SlotsPerFSMPage + s) := by
        rw [← hinv.bottom n s hn hlt]
        exact hslot
      have hex : n * SlotsPerFSMPage + s < rel.nblocks := hcat _ (by omega)
      have hget : fsm_get_heap_blk ⟨0, n⟩ s = n * SlotsPerFSMPage + s := by
        refine Nat.mod_eq_of_lt ?_
        unfold InvalidBlockNumber at hrel
        show n * SlotsPerFSMPage + s < 2 ^ 32
        omega
      rw [searchLoop]
      simp only [hp, hs]
      rw [if_pos (show 0 = FSM_BOTTOM_LEVEL from rfl), hget, if_pos (by simp [fsm_does_block_exist, hex])]
      exact ⟨hex, hblk⟩
  | succ level ih =>
      intro fsm n hsync hinv ha hle
      obtain ⟨page, hp, s, hs, hlt, hslot⟩ := search_here hinv.trees hmin hle
      have hup : (⟨level + 1, n⟩ : FSMAddress).Upper := ⟨ha, Nat.succ_pos level⟩
      have hv := search_hint hinv.trees ha hp hmin ((level + 1) == FSM_BOTTOM_LEVEL)
      rw [searchLoop]
      simp only [hp, hs]
      rw [if_neg (show level + 1 ≠ FSM_BOTTOM_LEVEL from Nat.succ_ne_zero level)]
      refine ih (hsync.hint hinv.trees hv) (hinv.hint hv) (child_ok hup hlt) ?_
      refine hslot.trans (le_of_eq ?_)
      rw [← hv.same _ ha s hlt id]
      exact hsync.hint hinv.trees hv _ hup s hlt

/-- **`fsm_search` in a map in step**: a block with enough space, or none where the root has less. -/
theorem search_synced {rel : MainFork} {min_cat : Nat} (hmin : 0 < min_cat) {cat : Nat → Nat}
    (hsync : Synced fsm) (hinv : Inv cat fsm) (hcat : ∀ blk, cat blk ≠ 0 → blk < rel.nblocks)
    (hrel : rel.nblocks ≤ InvalidBlockNumber) :
    (top fsm FSM_ROOT_ADDRESS < min_cat ∧ (fsm_search rel fsm min_cat).2 = InvalidBlockNumber) ∨
      ((fsm_search rel fsm min_cat).2 < rel.nblocks ∧ min_cat ≤ cat (fsm_search rel fsm min_cat).2) := by
  unfold fsm_search
  by_cases hle : min_cat ≤ top fsm FSM_ROOT_ADDRESS
  · exact Or.inr (search_down hmin hcat hrel 0 _ hsync hinv root_ok hle)
  · have hlt := Nat.lt_of_not_le hle
    refine Or.inl ⟨hlt, ?_⟩
    have hnone : ∀ page, fsm_readbuf fsm FSM_ROOT_ADDRESS = some page →
        (fsm_search_avail page min_cat (FSM_ROOT_ADDRESS.level == FSM_BOTTOM_LEVEL)).2 = none := by
      intro page hp
      rw [top_some hp] at hlt
      obtain ⟨_, ⟨h, _⟩ | ⟨s, _, hs, hle'⟩⟩ := search_avail_spec (readbuf_ok hinv.trees hp) hmin
        (FSM_ROOT_ADDRESS.level == FSM_BOTTOM_LEVEL)
      · exact h
      · have := get_avail_le_max (readbuf_ok hinv.trees hp) hs
        omega
    rw [searchLoop]
    cases hp : fsm_readbuf fsm FSM_ROOT_ADDRESS with
    | none =>
        simp only
        rw [if_pos (show FSM_ROOT_ADDRESS.level = FSM_ROOT_LEVEL from rfl)]
    | some page =>
        simp only [hnone page hp]
        rw [if_pos (show FSM_ROOT_ADDRESS.level = FSM_ROOT_LEVEL from rfl)]

/-! ## 7. Records since the last vacuum -/

/-- **Records leave every page but the bottom pages of their blocks.** -/
theorem records_spec {cat : Nat → Nat} (hinv : Inv cat fsm) (ops : List Op)
    (hops : ∀ op ∈ ops, ∃ blk n, op = .record blk n ∧ blk < InvalidBlockNumber) :
    Trees (ops.foldl Op.apply fsm) ∧ ∀ b : FSMAddress, b.Ok →
      (∀ blk n, Op.record blk n ∈ ops → b ≠ ⟨FSM_BOTTOM_LEVEL, pageOf 0 blk⟩) → ∀ s,
        slot (ops.foldl Op.apply fsm) b s = slot fsm b s := by
  induction ops generalizing fsm cat with
  | nil => exact ⟨hinv.trees, fun _ _ _ _ => rfl⟩
  | cons op ops ih =>
      obtain ⟨blk, n, rfl, hblk⟩ := hops op List.mem_cons_self
      obtain ⟨h1, h2⟩ := ih (hinv.record hblk n) fun op h => hops op (List.mem_cons_of_mem _ h)
      refine ⟨h1, fun b hb hne s => ?_⟩
      rw [List.foldl_cons]
      refine (h2 b hb (fun blk n h => hne blk n (List.mem_cons_of_mem _ h)) s).trans ?_
      have hpage : (⟨FSM_BOTTOM_LEVEL, pageOf 0 blk⟩ : FSMAddress).Ok := by
        refine Or.inl ⟨rfl, ?_⟩
        show pageOf 0 blk < _
        rw [pageOf_zero, slotsPerFSMPage_eq]
        unfold InvalidBlockNumber at hblk
        omega
      refine ((setAndSearch_spec hinv.trees hpage (locate_lt blk 0) (fsm_space_avail_to_cat n)).2.2 b hb s).trans ?_
      exact if_neg fun e => hne blk n List.mem_cons_self e.1

/-- **What is out of step after records on a map in step** lies above the bottom page of a recorded block. -/
theorem Synced.stale {cat : Nat → Nat} (hsync : Synced fsm) (hinv : Inv cat fsm) {ops : List Op}
    (hops : ∀ op ∈ ops, ∃ blk n, op = .record blk n ∧ blk < InvalidBlockNumber) (ha : a.Upper) {s : Nat}
    (hs : s < SlotsPerFSMPage)
    (hne : slot (ops.foldl Op.apply fsm) a s ≠ top (ops.foldl Op.apply fsm) (fsm_get_child a s)) :
    ∃ blk n, Op.record blk n ∈ ops ∧
      pageOf (fsm_get_child a s).level blk = (fsm_get_child a s).logpageno := by
  obtain ⟨ht, hsame⟩ := records_spec hinv ops hops
  by_contra hall
  push Not at hall
  refine hne ?_
  calc slot (ops.foldl Op.apply fsm) a s = slot fsm a s := hsame a ha.1 (fun blk n _ e => by
        have := ha.2
        rw [e] at this
        exact absurd this (Nat.lt_irrefl 0)) s
    _ = top fsm (fsm_get_child a s) := hsync a ha s hs
    _ = top (ops.foldl Op.apply fsm) (fsm_get_child a s) :=
        (top_congr hinv.trees ht fun s' _ => hsame _ (child_ok ha hs) (fun blk n hm e => by
          refine hall blk n hm ?_
          rw [e]
          rfl) s').symm

/-! ## 8. Categories and bytes -/

theorem maxRequest_eq : MaxFSMRequestSize = 8160 := rfl

theorem needed_to_cat_spec {n : Nat} (h : n ≤ MaxFSMRequestSize) :
    ∃ cat, fsm_space_needed_to_cat n = .ok cat ∧ 0 < cat ∧
      ∀ c, cat ≤ c → n ≤ fsm_space_cat_to_avail c := by
  rw [maxRequest_eq] at h
  have hstep : FSM_CAT_STEP = 32 := rfl
  unfold fsm_space_needed_to_cat
  rw [if_neg (by rw [maxRequest_eq]; omega)]
  have havail : ∀ c, n ≤ c * 32 → n ≤ fsm_space_cat_to_avail c := by
    intro c hc
    unfold fsm_space_cat_to_avail
    rw [maxRequest_eq, hstep]
    split <;> omega
  split
  · exact ⟨1, rfl, by omega, fun c hc => havail c (by omega)⟩
  · simp only [hstep]
    refine ⟨_, rfl, by split <;> omega, fun c hc => havail c ?_⟩
    split at hc <;> omega

/-- No category on record is above the root of a map in step. -/
theorem Inv.le_root {cat : Nat → Nat} (h : Inv cat fsm) (hsync : Synced fsm) {blk : Nat}
    (hblk : blk < InvalidBlockNumber) : cat blk ≤ top fsm FSM_ROOT_ADDRESS := by
  have hn : blk / SlotsPerFSMPage < SlotsPerFSMPage * SlotsPerFSMPage := by
    unfold InvalidBlockNumber at hblk
    rw [slotsPerFSMPage_eq]
    omega
  have hs := h.bottom (blk / SlotsPerFSMPage) (blk % SlotsPerFSMPage) hn (locate_lt blk 0)
  rw [Nat.div_add_mod'] at hs
  rw [← hs]
  exact (slot_le_top h.trees (locate_lt blk 0)).trans (hsync.le_root h.trees (Or.inl ⟨rfl, hn⟩))

/-- The free space on record is that of the category. -/
theorem Inv.recorded_space {cat : Nat → Nat} (h : Inv cat fsm) {blk : Nat} (hblk : blk < InvalidBlockNumber)
    (hpos : 0 < cat blk) : GetRecordedFreeSpace fsm blk = fsm_space_cat_to_avail (cat blk) := by
  have hn : blk / SlotsPerFSMPage < SlotsPerFSMPage * SlotsPerFSMPage := by
    unfold InvalidBlockNumber at hblk
    rw [slotsPerFSMPage_eq]
    omega
  have hs := h.bottom (blk / SlotsPerFSMPage) (blk % SlotsPerFSMPage) hn (locate_lt blk 0)
  rw [Nat.div_add_mod'] at hs
  unfold GetRecordedFreeSpace fsm_get_location
  simp only
  cases hp : fsm_readbuf fsm ⟨FSM_BOTTOM_LEVEL, blk / SlotsPerFSMPage⟩ with
  | none =>
      rw [slot_none hp] at hs
      omega
  | some page =>
      rw [slot_some hp] at hs
      simp only [hs]

/-- **The free space map after any run**: a vacuum brings the levels in step; the vacuum of a range that
    covers what is out of step reaches the same slots; and then a request is met exactly when some block is
    on record with enough space. -/
theorem free_space_map (ops : List Op) (hops : ∀ op ∈ ops, op.Ok) :
    Synced (FreeSpaceMapVacuum (run ops)) ∧
    (∀ start stop, (∀ a : FSMAddress, a.Upper → ∀ s, s < SlotsPerFSMPage →
        slot (run ops) a s ≠ top (run ops) (fsm_get_child a s) →
          ∃ blk, start ≤ blk ∧ blk < stop ∧
            pageOf (fsm_get_child a s).level blk = (fsm_get_child a s).logpageno) →
      SameSlots (FreeSpaceMapVacuumRange (run ops) start stop) (FreeSpaceMapVacuum (run ops))) ∧
    ∀ rel : MainFork, rel.nblocks ≤ InvalidBlockNumber → (∀ blk, recorded ops blk ≠ 0 → blk < rel.nblocks) →
      ∀ n, n ≤ MaxFSMRequestSize → ∃ min_cat fsm' blk, fsm_space_needed_to_cat n = .ok min_cat ∧
        GetPageWithFreeSpace rel (FreeSpaceMapVacuum (run ops)) n = .ok (fsm', blk) ∧
        ((blk = InvalidBlockNumber ∧ ∀ b, recorded ops b < min_cat) ∨
          (blk ≠ InvalidBlockNumber ∧ min_cat ≤ recorded ops blk ∧
            n ≤ GetRecordedFreeSpace (FreeSpaceMapVacuum (run ops)) blk)) := by
  have hinv := inv_run ops hops
  have hvac : FreeSpaceMapVacuumRange (run ops) 0 InvalidBlockNumber = FreeSpaceMapVacuum (run ops) :=
    if_pos (by decide)
  refine ⟨hinv.synced, fun start stop hstale => ?_, fun rel hrel hcat n hn => ?_⟩
  · obtain ⟨h1, h2⟩ := range_bottom start stop hinv.trees
    have h3 := (range_bottom 0 InvalidBlockNumber hinv.trees).2
    rw [hvac] at h3
    refine (range_synced hinv.trees hstale).unique hinv.synced h1 hinv.vacuum.trees fun m s hm hs => ?_
    rw [h2 m s hm hs, h3 m s hm hs]
  · obtain ⟨min_cat, hcatn, hpos, havail⟩ := needed_to_cat_spec hn
    refine ⟨min_cat, _, _, hcatn, by rw [GetPageWithFreeSpace, hcatn], ?_⟩
    rcases search_synced hpos hinv.synced hinv.vacuum hcat hrel with ⟨hroot, hnone⟩ | ⟨hlt, hle⟩
    · refine Or.inl ⟨hnone, fun b => ?_⟩
      by_contra hle
      have hb := hcat b (by omega)
      exact absurd (hinv.vacuum.le_root hinv.synced (hb.trans_le hrel)) (by omega)
    · refine Or.inr ⟨by omega, hle, ?_⟩
      rw [hinv.vacuum.recorded_space (by omega) (by omega)]
      exact havail _ hle

/-- Two blocks on record, of which only one can take a hundred bytes. -/
def twoBlocks : List Op := [.record 5 8160, .record 9 40]

/-- **The three results for `twoBlocks`** and a relation of ten blocks. The records leave the slot above the
    first bottom page out of step; the vacuum of blocks 5 to 9 covers it. -/
theorem free_space_map_two_blocks : Synced (FreeSpaceMapVacuum (run twoBlocks)) ∧
    slot (run twoBlocks) ⟨1, 0⟩ 0 ≠ top (run twoBlocks) ⟨0, 0⟩ ∧
    SameSlots (FreeSpaceMapVacuumRange (run twoBlocks) 5 10) (FreeSpaceMapVacuum (run twoBlocks)) ∧
    ∃ min_cat fsm' blk, fsm_space_needed_to_cat 100 = .ok min_cat ∧
      GetPageWithFreeSpace ⟨10, none⟩ (FreeSpaceMapVacuum (run twoBlocks)) 100 = .ok (fsm', blk) ∧
      ((blk = InvalidBlockNumber ∧ ∀ b, recorded twoBlocks b < min_cat) ∨
        (blk ≠ InvalidBlockNumber ∧ min_cat ≤ recorded twoBlocks blk ∧
          100 ≤ GetRecordedFreeSpace (FreeSpaceMapVacuum (run twoBlocks)) blk)) := by
  have hops : ∀ op ∈ twoBlocks, op.Ok := by simp [twoBlocks, Op.Ok, InvalidBlockNumber]
  have hrecords : ∀ op ∈ twoBlocks, ∃ blk n, op = .record blk n ∧ blk < InvalidBlockNumber := by
    simp [twoBlocks, InvalidBlockNumber]
  have hslots : 5 < SlotsPerFSMPage := by
    rw [slotsPerFSMPage_eq]
    decide
  refine ⟨(free_space_map twoBlocks hops).1, ?_, (free_space_map twoBlocks hops).2.1 5 10 fun a ha s hs hne => ?_,
    (free_space_map twoBlocks hops).2.2 ⟨10, none⟩ (by decide) (fun blk h => ?_) 100 (by decide)⟩
  · -- the slot is still that of the empty map, the bottom page has the category of block 5
    have hup : slot (run twoBlocks) ⟨1, 0⟩ 0 = 0 :=
      (records_spec inv_empty twoBlocks hrecords).2 ⟨1, 0⟩ (Or.inr (Or.inl ⟨rfl, Nat.zero_lt_of_lt hslots⟩))
        (fun _ _ _ e => by cases e) 0
    have hdown : slot (run twoBlocks) ⟨0, 0⟩ 5 = 255 :=
      ((inv_run twoBlocks hops).bottom 0 5 (Nat.mul_pos (by omega) (by omega)) hslots).trans (by
        rw [Nat.zero_mul, Nat.zero_add]
        decide)
    have := slot_le_top (a := ⟨0, 0⟩) (inv_run twoBlocks hops).trees hslots
    omega
  · have hsync : Synced ([] : Fork) := fun _ _ _ _ => rfl
    obtain ⟨blk, n, hm, hpage⟩ := hsync.stale inv_empty hrecords ha hs hne
    refine ⟨blk, ?_, ?_, hpage⟩ <;> simp [twoBlocks] at hm <;> omega
  · by_contra hge
    have h5 : 5 ≠ blk := by
      intro e
      exact hge (by rw [← e]; decide)
    have h9 : 9 ≠ blk := by
      intro e
      exact hge (by rw [← e]; decide)
    exact h (by simp [recorded, twoBlocks, Op.category, h5, h9])

end Pgvec.Storage.Fsm
