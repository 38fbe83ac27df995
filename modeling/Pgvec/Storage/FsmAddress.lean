/-
  File:      Pgvec/Storage/FsmAddress.lean
  Subject:   WHERE THE PAGES OF THE FREE SPACE MAP LIE, AND WHERE THE MAP IS CUT OFF.

  An address is in use when its page covers a heap block that has a number. The tree of all addresses is
  larger than that: the addresses in use are the first ones of it in depth-first order.

  * `depthFirst` -- a page, then the subtrees of its children, one after the other;
  * `phys_depthFirst` -- `fsm_logical_to_physical` counts the tree in this order;
  * `logicalToPhysicalInt` -- the same computation with every `int` and `BlockNumber` checked;
  * `FreeSpaceMapPrepareTruncateRel` -- where the map ends after a truncation; `truncation_keeps` and
    `truncation_drops`;
  * **`addressing`** -- the results together.
-/
import Pgvec.Storage.FreeSpaceFacts

namespace Pgvec.Storage.Fsm

variable {a b : FSMAddress} {blk : Nat}

/-! ## 1. The addresses in use -/

/-- The page covers the heap block. -/
def Covers (a : FSMAddress) (heapblk : Nat) : Prop :=
  a.level ≤ FSM_ROOT_LEVEL ∧ (locate heapblk a.level).1 = a

/-- The page covers a heap block that has a number. -/
def InUse (a : FSMAddress) : Prop := ∃ heapblk, heapblk < InvalidBlockNumber ∧ Covers a heapblk

theorem locate_level (heapblk level : Nat) : (locate heapblk level).1.level = level := by
  cases level with
  | zero => rfl
  | succ level => rw [locate, fsm_get_parent, locate_level heapblk level]

theorem covers_iff : Covers a blk ↔ a.level ≤ 2 ∧ a.logpageno = pageOf a.level blk := by
  unfold Covers
  rw [rootLevel_eq]
  refine and_congr_right fun _ => ⟨fun h => ?_, fun h => ?_⟩
  · rw [pageOf, h]
  · have hl := locate_level blk a.level
    have hp : (locate blk a.level).1.logpageno = a.logpageno := h.symm
    generalize locate blk a.level = r at hl hp
    obtain ⟨⟨level, logpageno⟩, _⟩ := r
    simp only at hl hp
    rw [hl, hp]

/-- The page of each level that covers a block. -/
theorem covers_cases (h : Covers a blk) :
    (a.level = 0 ∧ a.logpageno = blk / 4069) ∨ (a.level = 1 ∧ a.logpageno = blk / 4069 / 4069) ∨
      (a.level = 2 ∧ a.logpageno = blk / 4069 / 4069 / 4069) := by
  obtain ⟨hl, hp⟩ := covers_iff.mp h
  have hcases : a.level = 0 ∨ a.level = 1 ∨ a.level = 2 := by omega
  rcases hcases with e | e | e
  · rw [e, pageOf_zero, slotsPerFSMPage_eq] at hp
    exact Or.inl ⟨e, hp⟩
  · rw [e, pageOf_succ, pageOf_zero, slotsPerFSMPage_eq] at hp
    exact Or.inr (Or.inl ⟨e, hp⟩)
  · rw [e, pageOf_succ, pageOf_succ, pageOf_zero, slotsPerFSMPage_eq] at hp
    exact Or.inr (Or.inr ⟨e, hp⟩)

/-- **The addresses in use**: the first pages of each level. -/
theorem inUse_iff : InUse a ↔ (a.level = 0 ∧ a.logpageno < 1055534) ∨ (a.level = 1 ∧ a.logpageno < 260) ∨
    (a.level = 2 ∧ a.logpageno = 0) := by
  constructor
  · intro ⟨blk, hblk, hc⟩
    have hcases := covers_cases hc
    unfold InvalidBlockNumber at hblk
    omega
  · intro h
    have hp : ∀ blk, pageOf 0 blk = blk / 4069 ∧ pageOf 1 blk = blk / 4069 / 4069 ∧
        pageOf 2 blk = blk / 4069 / 4069 / 4069 := by
      intro blk
      rw [pageOf_succ 1, pageOf_succ 0, pageOf_zero, slotsPerFSMPage_eq]
      exact ⟨rfl, rfl, rfl⟩
    unfold InUse InvalidBlockNumber
    rcases h with ⟨e, h⟩ | ⟨e, h⟩ | ⟨e, h⟩
    · refine ⟨a.logpageno * 4069, by omega, covers_iff.mpr ⟨by omega, ?_⟩⟩
      rw [e, (hp _).1]
      omega
    · refine ⟨a.logpageno * 4069 * 4069, by omega, covers_iff.mpr ⟨by omega, ?_⟩⟩
      rw [e, (hp _).2.1]
      omega
    · refine ⟨0, by omega, covers_iff.mpr ⟨by omega, ?_⟩⟩
      rw [e, h, (hp _).2.2]

instance : DecidablePred InUse := fun _ => decidable_of_iff _ inUse_iff.symm

theorem InUse.ok (h : InUse a) : a.Ok := by
  unfold FSMAddress.Ok
  rw [slotsPerFSMPage_eq]
  have h' := inUse_iff.mp h
  omega

/-! ## 2. Depth-first order -/

/-- The pages of a subtree: its root, then the subtrees of the root's children in order. -/
def depthFirst : Nat → Nat → List FSMAddress
  | 0, logpageno => [⟨0, logpageno⟩]
  | level + 1, logpageno =>
      ⟨level + 1, logpageno⟩ :: (List.range SlotsPerFSMPage).flatMap fun slot =>
        depthFirst level (fsm_get_child ⟨level + 1, logpageno⟩ slot).logpageno

/-- The number of pages of a subtree. -/
def treeSize : Nat → Nat
  | 0 => 1
  | level + 1 => 1 + SlotsPerFSMPage * treeSize level

theorem treeSize_eq : treeSize 0 = 1 ∧ treeSize 1 = 4070 ∧ treeSize 2 = 16560831 := by
  refine ⟨rfl, ?_, ?_⟩
  · rw [treeSize, treeSize, slotsPerFSMPage_eq]
  · rw [treeSize, treeSize, treeSize, slotsPerFSMPage_eq]

/-- **A child lies behind its parent and the subtrees of the children before it.** -/
theorem phys_get_child (h : a.Upper) {slot : Nat} (hs : slot < SlotsPerFSMPage) :
    fsm_logical_to_physical (fsm_get_child a slot) =
      fsm_logical_to_physical a + 1 + slot * treeSize (a.level - 1) := by
  have h1 := phys_cases h.1
  have h2 := phys_cases (child_ok h hs)
  have e1 : (fsm_get_child a slot).level = a.level - 1 := rfl
  have e2 : (fsm_get_child a slot).logpageno = a.logpageno * SlotsPerFSMPage + slot := rfl
  have hl := h.2
  obtain ⟨t0, t1, -⟩ := treeSize_eq
  rw [e1, e2] at h2
  rw [slotsPerFSMPage_eq] at *
  have hcases : a.level = 1 ∨ a.level = 2 := by omega
  rcases hcases with e | e
  · rw [e] at h1 h2
    rw [e, t0]
    omega
  · rw [e] at h1 h2
    rw [e, t1]
    omega

/-- Blocks of one size side by side. -/
theorem flatMap_range' (start size k : Nat) :
    (List.range k).flatMap (fun i => List.range' (start + i * size) size) = List.range' start (k * size) := by
  induction k with
  | zero => rw [Nat.zero_mul]; rfl
  | succ k ih =>
      rw [List.range_succ, List.flatMap_append, ih, List.flatMap_singleton, List.range'_append_1,
        Nat.succ_mul]

/-- **`fsm_logical_to_physical` counts the pages in depth-first order.** -/
theorem phys_depthFirst (level logpageno : Nat) (h : FSMAddress.Ok ⟨level, logpageno⟩) :
    (depthFirst level logpageno).map fsm_logical_to_physical =
      List.range' (fsm_logical_to_physical ⟨level, logpageno⟩) (treeSize level) := by
  induction level generalizing logpageno with
  | zero => rfl
  | succ level ih =>
      have hup : FSMAddress.Upper ⟨level + 1, logpageno⟩ := ⟨h, Nat.succ_pos level⟩
      -- the subtree of each child fills the block that `phys_get_child` gives it
      have hchildren : ∀ slot ∈ List.range SlotsPerFSMPage,
          (depthFirst level (fsm_get_child ⟨level + 1, logpageno⟩ slot).logpageno).map
              fsm_logical_to_physical =
            List.range' (fsm_logical_to_physical ⟨level + 1, logpageno⟩ + 1 + slot * treeSize level)
              (treeSize level) := by
        intro slot hs
        have hs' := List.mem_range.mp hs
        have e := phys_get_child hup hs'
        have hsub := ih (fsm_get_child ⟨level + 1, logpageno⟩ slot).logpageno (child_ok hup hs')
        exact hsub.trans (congrArg (List.range' · (treeSize level)) e)
      rw [depthFirst, List.map_cons, List.map_flatMap, List.flatMap_congr hchildren, flatMap_range',
        treeSize, Nat.add_comm 1, List.range'_succ]

/-- The whole tree. -/
theorem phys_tree : (depthFirst FSM_ROOT_LEVEL 0).map fsm_logical_to_physical =
    List.range (treeSize FSM_ROOT_LEVEL) := by
  have h := phys_depthFirst FSM_ROOT_LEVEL 0 root_ok
  rw [h, rootLevel_eq, phys_root, List.range_eq_range']

theorem depthFirst_ok {level logpageno : Nat} (h : FSMAddress.Ok ⟨level, logpageno⟩)
    (ha : a ∈ depthFirst level logpageno) : a.Ok := by
  induction level generalizing logpageno with
  | zero =>
      rw [List.mem_singleton.mp ha]
      exact h
  | succ level ih =>
      rcases List.mem_cons.mp ha with rfl | ha
      · exact h
      · obtain ⟨slot, hs, ha⟩ := List.mem_flatMap.mp ha
        exact ih (child_ok ⟨h, Nat.succ_pos level⟩ (List.mem_range.mp hs)) ha

/-- Every address is in the tree. -/
theorem mem_depthFirst (h : a.Ok) : a ∈ depthFirst FSM_ROOT_LEVEL 0 := by
  have hlt : fsm_logical_to_physical a ∈ List.range (treeSize FSM_ROOT_LEVEL) := by
    have h' := phys_cases h
    rw [slotsPerFSMPage_eq] at h'
    rw [List.mem_range, rootLevel_eq, treeSize_eq.2.2]
    omega
  rw [← phys_tree] at hlt
  obtain ⟨b, hb, e⟩ := List.mem_map.mp hlt
  rw [← phys_inj (depthFirst_ok root_ok hb) h e]
  exact hb

/-- The addresses in use are the first ones of the tree. -/
theorem inUse_iff_phys (h : a.Ok) : InUse a ↔ fsm_logical_to_physical a < 1055795 := by
  have h' := phys_cases h
  rw [slotsPerFSMPage_eq] at h'
  rw [inUse_iff]
  omega

/-- **The pages in use, in depth-first order, are the blocks 0, 1, 2 and so on.** -/
theorem phys_inUse : ((depthFirst FSM_ROOT_LEVEL 0).filter InUse).map fsm_logical_to_physical =
    List.range 1055795 := by
  have hfilter : (depthFirst FSM_ROOT_LEVEL 0).filter InUse =
      (depthFirst FSM_ROOT_LEVEL 0).filter
        ((fun n => decide (n < 1055795)) ∘ fsm_logical_to_physical) :=
    List.filter_congr fun a ha => decide_eq_decide.mpr (inUse_iff_phys (depthFirst_ok root_ok ha))
  rw [hfilter, ← List.filter_map, phys_tree, rootLevel_eq, treeSize_eq.2.2, ← List.Ico.zero_bot,
    List.Ico.filter_lt, ← List.Ico.zero_bot]
  rfl

/-! ## 3. No overflow -/

/-- A value of an `int` that does not go below zero. -/
def checkInt (n : Nat) : Option Nat := if n < 2 ^ 31 then some n else none

/-- A value of a `BlockNumber`. -/
def checkBlockNumber (n : Nat) : Option Nat := if n < 2 ^ 32 then some n else none

/-- `fsm_logical_to_physical`; `none` where a value does not fit into its variable. -/
def logicalToPhysicalInt (addr : FSMAddress) : Option Nat := do
  let leafno ← checkInt addr.logpageno
  let leafno ← (List.range addr.level).foldlM (fun leafno _ => checkInt (leafno * SlotsPerFSMPage)) leafno
  let r ← (List.range FSM_TREE_DEPTH).foldlM (fun r _ => do
    let next ← checkInt (r.2 + 1)
    let pages ← checkBlockNumber (r.1 + next)
    return (pages, r.2 / SlotsPerFSMPage)) (0, leafno)
  if addr.level + 1 ≤ r.1 then some (r.1 - addr.level - 1) else none

theorem checkInt_of_lt {n : Nat} (h : n < 2147483648) : checkInt n = some n := if_pos h

theorem checkBlockNumber_of_lt {n : Nat} (h : n < 4294967296) : checkBlockNumber n = some n := if_pos h

/-- **No value overflows** for an address in use. -/
theorem logicalToPhysicalInt_eq (h : InUse a) :
    logicalToPhysicalInt a = some (fsm_logical_to_physical a) := by
  obtain ⟨level, n⟩ := a
  have h' := inUse_iff.mp h
  simp only at h'
  unfold logicalToPhysicalInt fsm_logical_to_physical
  rw [treeDepth_eq, slotsPerFSMPage_eq]
  rcases h' with ⟨rfl, h'⟩ | ⟨rfl, h'⟩ | ⟨rfl, rfl⟩
  · simp (disch := omega) only [List.range_succ, List.range_zero, List.nil_append, List.cons_append,
      List.foldlM_cons, List.foldlM_nil, List.foldl_cons, List.foldl_nil, checkInt_of_lt,
      checkBlockNumber_of_lt, Option.bind_eq_bind, Option.bind_some, Option.pure_def]
    rw [if_pos (by omega)]
  · simp (disch := omega) only [List.range_succ, List.range_zero, List.nil_append, List.cons_append,
      List.foldlM_cons, List.foldlM_nil, List.foldl_cons, List.foldl_nil, checkInt_of_lt,
      checkBlockNumber_of_lt, Option.bind_eq_bind, Option.bind_some, Option.pure_def]
    rw [if_pos (by omega)]
  · decide

/-! ## 4. Truncation -/

/-- **`FreeSpaceMapPrepareTruncateRel`**: the map (`none` where the fork does not exist), and the new number
    of its blocks (`none` for `InvalidBlockNumber`: there is nothing to truncate). -/
def FreeSpaceMapPrepareTruncateRel (fsm : Option Fork) (nblocks : Nat) : Option Fork × Option Nat :=
  match fsm with
  | none => (none, none)
  | some fsm =>
      let (first_removed_address, first_removed_slot) := fsm_get_location nblocks
      if 0 < first_removed_slot then
        match fsm_readbuf fsm first_removed_address with
        | none => (some fsm, none)
        | some page =>
            (some (setPage fsm first_removed_address (fsm_truncate_avail page first_removed_slot).1),
              some (fsm_logical_to_physical first_removed_address + 1))
      else
        let new_nfsmblocks := fsm_logical_to_physical first_removed_address
        if fsm.length ≤ new_nfsmblocks then (some fsm, none) else (some fsm, some new_nfsmblocks)

/-- The pages that are left once the caller has truncated the fork. -/
def pagesLeft : Option Fork × Option Nat → Fork
  | (fsm, some nblocks) => (fsm.getD []).take nblocks
  | (fsm, none) => fsm.getD []

/-- The page covers removed blocks only. -/
def Removed (nblocks : Nat) (a : FSMAddress) : Prop :=
  ∀ heapblk, heapblk < InvalidBlockNumber → Covers a heapblk → nblocks ≤ heapblk

/-- The number of blocks that the code computes, where there are so many. -/
def newBlocks (nblocks : Nat) : Nat :=
  fsm_logical_to_physical (fsm_get_location nblocks).1 + (if 0 < (fsm_get_location nblocks).2 then 1 else 0)

theorem prepare_result {fsm : Option Fork} {nblocks n : Nat}
    (h : (FreeSpaceMapPrepareTruncateRel fsm nblocks).2 = some n) : n = newBlocks nblocks := by
  unfold FreeSpaceMapPrepareTruncateRel at h
  unfold newBlocks
  cases fsm with
  | none => cases h
  | some fsm =>
      simp only at h
      split at h
      · rename_i hs
        rw [if_pos hs]
        split at h
        · cases h
        · cases h
          rfl
      · rename_i hs
        rw [if_neg hs]
        split at h
        · cases h
        · cases h
          rfl

theorem newBlocks_eq {nblocks : Nat} (h : nblocks < 2 ^ 32) :
    newBlocks nblocks = nblocks / 4069 + nblocks / 4069 / 4069 + 2 + (if 0 < nblocks % 4069 then 1 else 0) := by
  unfold newBlocks fsm_get_location
  have hlt : nblocks / SlotsPerFSMPage < SlotsPerFSMPage * SlotsPerFSMPage := by
    rw [slotsPerFSMPage_eq]
    omega
  rw [FSM_BOTTOM_LEVEL, phys_bottom hlt, slotsPerFSMPage_eq]

/-- **A page that covers a kept block is kept.** -/
theorem kept_lt_newBlocks {nblocks : Nat} (h : nblocks < 2 ^ 32) (hb : blk < nblocks) (hc : Covers a blk) :
    fsm_logical_to_physical a < newBlocks nblocks := by
  have hcases := covers_cases hc
  have hok : a.Ok := by
    unfold FSMAddress.Ok
    rw [slotsPerFSMPage_eq]
    omega
  have hphys := phys_cases hok
  rw [slotsPerFSMPage_eq] at hphys
  rw [newBlocks_eq h]
  split <;> omega

/-- **A page of the bottom level that covers only removed blocks is dropped.** -/
theorem newBlocks_le_removed {nblocks : Nat} (h : nblocks < 2 ^ 32) (ha : InUse a)
    (hl : a.level = FSM_BOTTOM_LEVEL) (hr : Removed nblocks a) :
    newBlocks nblocks ≤ fsm_logical_to_physical a := by
  have hl' : a.level = 0 := hl
  have hn : a.logpageno < 1055534 := by
    have h' := inUse_iff.mp ha
    omega
  -- the first block that the page covers
  have hfirst : nblocks ≤ a.logpageno * 4069 := by
    refine hr _ (by unfold InvalidBlockNumber; omega) (covers_iff.mpr ⟨by omega, ?_⟩)
    rw [hl', pageOf_zero, slotsPerFSMPage_eq]
    omega
  have hphys := phys_cases ha.ok
  rw [slotsPerFSMPage_eq] at hphys
  rw [newBlocks_eq h]
  split <;> omega

/-- What is left of the fork. -/
theorem pagesLeft_cases (fsm : Option Fork) (nblocks : Nat) :
    ((pagesLeft (FreeSpaceMapPrepareTruncateRel fsm nblocks) = fsm.getD [] ∧
      (fsm.getD []).length ≤ newBlocks nblocks) ∨
      ∃ fsm' : Fork, fsm'.length = (fsm.getD []).length ∧
        pagesLeft (FreeSpaceMapPrepareTruncateRel fsm nblocks) = fsm'.take (newBlocks nblocks)) := by
  unfold FreeSpaceMapPrepareTruncateRel newBlocks
  cases fsm with
  | none => exact Or.inl ⟨rfl, Nat.zero_le _⟩
  | some fsm =>
      simp only [Option.getD_some]
      split
      · split
        · rename_i hnone
          exact Or.inl ⟨rfl, (readbuf_eq_none.mp hnone).trans (Nat.le_add_right _ _)⟩
        · exact Or.inr ⟨_, setPage_length _, rfl⟩
      · split
        · rename_i hle
          exact Or.inl ⟨rfl, hle⟩
        · exact Or.inr ⟨fsm, rfl, rfl⟩

/-- Which pages exist after the truncation. -/
theorem readbuf_pagesLeft (fsm : Option Fork) (nblocks : Nat) :
    fsm_readbuf (pagesLeft (FreeSpaceMapPrepareTruncateRel fsm nblocks)) a = none ↔
      fsm_readbuf (fsm.getD []) a = none ∨ newBlocks nblocks ≤ fsm_logical_to_physical a := by
  rw [readbuf_eq_none, readbuf_eq_none]
  rcases pagesLeft_cases fsm nblocks with ⟨e, hle⟩ | ⟨fsm', hlen, e⟩
  · rw [e]
    omega
  · rw [e, List.length_take, hlen]
    omega

/-! ## 5. The addresses together -/

/-- A page above the bottom is the parent of its children. -/
theorem get_parent_child (h : a.Upper) {slot : Nat} (hs : slot < SlotsPerFSMPage) :
    fsm_get_parent (fsm_get_child a slot) = (a, slot) := by
  have hl := h.2
  rw [slotsPerFSMPage_eq] at hs
  have e1 : a.level - 1 + 1 = a.level := by omega
  have e2 : (a.logpageno * 4069 + slot) / 4069 = a.logpageno := by omega
  have e3 : (a.logpageno * 4069 + slot) % 4069 = slot := by omega
  simp only [fsm_get_parent, fsm_get_child, slotsPerFSMPage_eq, e1, e2, e3]

/-- A page is a child of its parent. -/
theorem get_child_parent (a : FSMAddress) :
    fsm_get_child (fsm_get_parent a).1 (fsm_get_parent a).2 = a := by
  have e : a.logpageno / 4069 * 4069 + a.logpageno % 4069 = a.logpageno := by omega
  simp only [fsm_get_parent, fsm_get_child, slotsPerFSMPage_eq, Nat.add_sub_cancel, e]

theorem get_parent_inUse (h : InUse a) (hl : a.level < FSM_ROOT_LEVEL) :
    InUse (fsm_get_parent a).1 ∧ (fsm_get_parent a).2 < SlotsPerFSMPage := by
  rw [rootLevel_eq] at hl
  rw [inUse_iff] at h ⊢
  simp only [fsm_get_parent, slotsPerFSMPage_eq]
  omega

theorem get_heap_blk_location (h : blk < InvalidBlockNumber) :
    InUse (fsm_get_location blk).1 ∧ (fsm_get_location blk).2 < SlotsPerFSMPage ∧
      fsm_get_heap_blk (fsm_get_location blk).1 (fsm_get_location blk).2 = blk := by
  refine ⟨⟨blk, h, ?_, rfl⟩, ?_, ?_⟩
  · rw [rootLevel_eq]
    exact Nat.zero_le 2
  · simp only [fsm_get_location, slotsPerFSMPage_eq]
    omega
  · unfold InvalidBlockNumber at h
    simp only [fsm_get_heap_blk, fsm_get_location, slotsPerFSMPage_eq]
    omega

theorem get_location_heap_blk (hl : a.level = FSM_BOTTOM_LEVEL) {slot : Nat} (hs : slot < SlotsPerFSMPage)
    (hb : a.logpageno * SlotsPerFSMPage + slot < InvalidBlockNumber) :
    fsm_get_location (fsm_get_heap_blk a slot) = (a, slot) := by
  unfold InvalidBlockNumber at hb
  rw [slotsPerFSMPage_eq] at hs hb
  have e : (a.logpageno * 4069 + slot) % 2 ^ 32 = a.logpageno * 4069 + slot :=
    Nat.mod_eq_of_lt (by omega)
  have e1 : (a.logpageno * 4069 + slot) / 4069 = a.logpageno := by omega
  have e2 : (a.logpageno * 4069 + slot) % 4069 = slot := by omega
  simp only [fsm_get_location, fsm_get_heap_blk, slotsPerFSMPage_eq, e, e1, e2, ← hl]

/-- The fork may end at `n` once the heap ends at `nblocks`. -/
def CutsAt (nblocks n : Nat) : Prop :=
  (∀ a heapblk, heapblk < nblocks → Covers a heapblk → fsm_logical_to_physical a < n) ∧
    ∀ a, InUse a → a.level = FSM_BOTTOM_LEVEL → Removed nblocks a → n ≤ fsm_logical_to_physical a

/-- **Truncation**: the number that is computed cuts the fork off behind the pages of the kept blocks and
    before the pages of removed ones; afterwards the former are as they were and the latter are gone. -/
theorem truncation (fsm : Option Fork) {nblocks : Nat} (h : nblocks < 2 ^ 32) :
    (∀ n, (FreeSpaceMapPrepareTruncateRel fsm nblocks).2 = some n → CutsAt nblocks n) ∧
      (∀ a heapblk, heapblk < nblocks → Covers a heapblk →
        (fsm_readbuf (pagesLeft (FreeSpaceMapPrepareTruncateRel fsm nblocks)) a = none ↔
          fsm_readbuf (fsm.getD []) a = none)) ∧
      ∀ a, InUse a → a.level = FSM_BOTTOM_LEVEL → Removed nblocks a →
        fsm_readbuf (pagesLeft (FreeSpaceMapPrepareTruncateRel fsm nblocks)) a = none := by
  refine ⟨fun n hn => ?_, fun a blk hb hc => ?_, fun a ha hl hr => ?_⟩
  · rw [prepare_result hn]
    exact ⟨fun a blk hb hc => kept_lt_newBlocks h hb hc, fun a ha hl hr => newBlocks_le_removed h ha hl hr⟩
  · rw [readbuf_pagesLeft]
    exact or_iff_left (Nat.not_le.mpr (kept_lt_newBlocks h hb hc))
  · exact (readbuf_pagesLeft fsm nblocks).mpr (Or.inr (newBlocks_le_removed h ha hl hr))

/-- **The addresses of the free space map**: injective, in depth-first order from 0, in step with the
    functions between addresses; and the cut of a truncation. -/
theorem addressing :
    (∀ a b, InUse a → InUse b → fsm_logical_to_physical a = fsm_logical_to_physical b → a = b) ∧
    (∀ a, InUse a → logicalToPhysicalInt a = some (fsm_logical_to_physical a)) ∧
    (∀ a, InUse a → a ∈ depthFirst FSM_ROOT_LEVEL 0) ∧
    ((depthFirst FSM_ROOT_LEVEL 0).filter InUse).map fsm_logical_to_physical = List.range 1055795 ∧
    (∀ a, InUse a → a.level < FSM_ROOT_LEVEL →
      InUse (fsm_get_parent a).1 ∧ (fsm_get_parent a).2 < SlotsPerFSMPage ∧
        fsm_get_child (fsm_get_parent a).1 (fsm_get_parent a).2 = a ∧
        fsm_logical_to_physical a = fsm_logical_to_physical (fsm_get_parent a).1 + 1 +
          (fsm_get_parent a).2 * treeSize a.level) ∧
    (∀ a slot, InUse a → FSM_BOTTOM_LEVEL < a.level → slot < SlotsPerFSMPage →
      fsm_get_parent (fsm_get_child a slot) = (a, slot)) ∧
    (∀ blk, blk < InvalidBlockNumber →
      InUse (fsm_get_location blk).1 ∧ (fsm_get_location blk).2 < SlotsPerFSMPage ∧
        fsm_get_heap_blk (fsm_get_location blk).1 (fsm_get_location blk).2 = blk) ∧
    (∀ a slot, a.level = FSM_BOTTOM_LEVEL → slot < SlotsPerFSMPage →
      a.logpageno * SlotsPerFSMPage + slot < InvalidBlockNumber →
      fsm_get_location (fsm_get_heap_blk a slot) = (a, slot)) ∧
    ∀ (fsm : Option Fork) (nblocks : Nat), nblocks < 2 ^ 32 →
      (∀ n, (FreeSpaceMapPrepareTruncateRel fsm nblocks).2 = some n → CutsAt nblocks n) ∧
        (∀ a heapblk, heapblk < nblocks → Covers a heapblk →
          (fsm_readbuf (pagesLeft (FreeSpaceMapPrepareTruncateRel fsm nblocks)) a = none ↔
            fsm_readbuf (fsm.getD []) a = none)) ∧
        ∀ a, InUse a → a.level = FSM_BOTTOM_LEVEL → Removed nblocks a →
          fsm_readbuf (pagesLeft (FreeSpaceMapPrepareTruncateRel fsm nblocks)) a = none := by
  refine ⟨fun a b ha hb => phys_inj ha.ok hb.ok, fun a ha => logicalToPhysicalInt_eq ha,
    fun a ha => mem_depthFirst ha.ok, phys_inUse, fun a ha hl => ?_,
    fun a slot ha hl hs => get_parent_child ⟨ha.ok, hl⟩ hs, fun blk hb => get_heap_blk_location hb,
    fun a slot hl hs hb => get_location_heap_blk hl hs hb, fun fsm nblocks h => truncation fsm h⟩
  obtain ⟨hp, hs⟩ := get_parent_inUse ha hl
  have hphys := phys_get_child ⟨hp.ok, Nat.succ_pos a.level⟩ hs
  rw [get_child_parent] at hphys
  exact ⟨hp, hs, get_child_parent a, hphys⟩

end Pgvec.Storage.Fsm
