/-
  File:      Pgvec/Storage/FreeSpace.lean
  Subject:   THE FREE SPACE MAP OF A RELATION (`src/backend/storage/freespace/freespace.c`): three levels of
             pages, stored depth first in one fork.

  The map is the list of the pages of its fork; a page past the end does not exist, and an extension adds
  pages of zeros (`fsm_readbuf` asks for the size of the fork again before it says so, and nothing here
  makes the fork shorter, so its cached size has no part in it). Block and page numbers are natural
  numbers: of the arithmetic only `fsm_get_heap_blk` can leave 32 bits, and it is cut off there.

  * `RecordPageWithFreeSpace`, `FreeSpaceMapVacuum`, `FreeSpaceMapVacuumRange`, `GetPageWithFreeSpace`,
    `GetRecordedFreeSpace` -- the interface; `fsm_vacuum_page` and `fsm_search` do the work;
  * `pageOf` -- the page of a level that covers a block; `phys_inj`, `phys_mono`, `phys_child` -- where the
    pages lie in the fork;
  * `slot`, `top` -- the value of a slot and the value at the root of a page, zero for a missing page.
-/
import Pgvec.Storage.FsmPage

namespace Pgvec.Storage.Fsm

/-! ## 1. Addresses -/

def InvalidBlockNumber : Nat := 0xFFFFFFFF

/-- **`FSMAddress`**: a level and the number of a page within it. -/
structure FSMAddress where
  level : Nat
  logpageno : Nat
  deriving DecidableEq, Repr

def FSM_TREE_DEPTH : Nat := if 1626 ≤ SlotsPerFSMPage then 3 else 4

def FSM_ROOT_LEVEL : Nat := FSM_TREE_DEPTH - 1

def FSM_BOTTOM_LEVEL : Nat := 0

def FSM_ROOT_ADDRESS : FSMAddress := ⟨FSM_ROOT_LEVEL, 0⟩

theorem treeDepth_eq : FSM_TREE_DEPTH = 3 := by
  rw [FSM_TREE_DEPTH, slotsPerFSMPage_eq]
  rfl

theorem rootLevel_eq : FSM_ROOT_LEVEL = 2 := by rw [FSM_ROOT_LEVEL, treeDepth_eq]

/-- The block of the fork that holds the page. -/
def fsm_logical_to_physical (addr : FSMAddress) : Nat :=
  let leafno := (List.range addr.level).foldl (fun leafno _ => leafno * SlotsPerFSMPage) addr.logpageno
  let pages := ((List.range FSM_TREE_DEPTH).foldl
    (fun r _ => (r.1 + (r.2 + 1), r.2 / SlotsPerFSMPage)) (0, leafno)).1
  pages - addr.level - 1

/-- The page and the slot of a heap block. -/
def fsm_get_location (heapblk : Nat) : FSMAddress × Nat :=
  (⟨FSM_BOTTOM_LEVEL, heapblk / SlotsPerFSMPage⟩, heapblk % SlotsPerFSMPage)

def fsm_get_heap_blk (addr : FSMAddress) (slot : Nat) : Nat :=
  (addr.logpageno * SlotsPerFSMPage + slot) % 2 ^ 32

/-- The parent page, and the slot that stands for the child there. -/
def fsm_get_parent (child : FSMAddress) : FSMAddress × Nat :=
  (⟨child.level + 1, child.logpageno / SlotsPerFSMPage⟩, child.logpageno % SlotsPerFSMPage)

def fsm_get_child (parent : FSMAddress) (slot : Nat) : FSMAddress :=
  ⟨parent.level - 1, parent.logpageno * SlotsPerFSMPage + slot⟩

/-! ## 2. Categories -/

def FSM_CATEGORIES : Nat := 256

def FSM_CAT_STEP : Nat := BLCKSZ / FSM_CATEGORIES

/-- `MaxHeapTupleSize`. -/
def MaxFSMRequestSize : Nat := BLCKSZ - MAXALIGN (SizeOfPageHeaderData + sizeofItemIdData)

def fsm_space_avail_to_cat (avail : Nat) : Nat :=
  if MaxFSMRequestSize ≤ avail then 255
  else
    let cat := avail / FSM_CAT_STEP
    if 254 < cat then 254 else cat

def fsm_space_cat_to_avail (cat : Nat) : Nat := if cat = 255 then MaxFSMRequestSize else cat * FSM_CAT_STEP

def fsm_space_needed_to_cat (needed : Nat) : Except String Nat :=
  if MaxFSMRequestSize < needed then .error ("invalid FSM request size " ++ toString needed)
  else if needed = 0 then .ok 1
  else
    let cat := (needed + FSM_CAT_STEP - 1) / FSM_CAT_STEP
    .ok (if 255 < cat then 255 else cat)

/-! ## 3. The map -/

/-- The pages of the fork. -/
abbrev Fork := List FSMPage

/-- The main fork, as `fsm_does_block_exist` sees it: its size, and the size that is cached. -/
structure MainFork where
  nblocks : Nat
  cachedNblocks : Option Nat

def fsm_does_block_exist (rel : MainFork) (blknumber : Nat) : Bool :=
  rel.cachedNblocks.any (fun n => decide (blknumber < n)) || decide (blknumber < rel.nblocks)

/-- `fsm_readbuf` without `extend`. -/
def fsm_readbuf (fsm : Fork) (addr : FSMAddress) : Option FSMPage := fsm[fsm_logical_to_physical addr]?

/-- `fsm_extend`. -/
def fsm_extend (fsm : Fork) (fsm_nblocks : Nat) : Fork :=
  fsm ++ List.replicate (fsm_nblocks - fsm.length) FSMPage.zero

/-- The buffer of a page is written. -/
def setPage (fsm : Fork) (addr : FSMAddress) (page : FSMPage) : Fork :=
  List.set fsm (fsm_logical_to_physical addr) page

/-- `fsm_set_and_search`: the map, and the slot that was found (`none` for `-1`). -/
def fsm_set_and_search (fsm : Fork) (addr : FSMAddress) (slot newValue minValue : Nat) :
    Fork × Option Nat :=
  let fsm := fsm_extend fsm (fsm_logical_to_physical addr + 1)
  match fsm_readbuf fsm addr with
  | none => (fsm, none)
  | some page =>
      let page := (fsm_set_avail page slot newValue).1
      if minValue ≠ 0 then
        let r := fsm_search_avail page minValue (addr.level == FSM_BOTTOM_LEVEL)
        (setPage fsm addr r.1, r.2)
      else (setPage fsm addr page, none)

/-- **`RecordPageWithFreeSpace`.** -/
def RecordPageWithFreeSpace (fsm : Fork) (heapBlk spaceAvail : Nat) : Fork :=
  let new_cat := fsm_space_avail_to_cat spaceAvail
  let (addr, slot) := fsm_get_location heapBlk
  (fsm_set_and_search fsm addr slot new_cat 0).1

/-- **`GetRecordedFreeSpace`.** -/
def GetRecordedFreeSpace (fsm : Fork) (heapBlk : Nat) : Nat :=
  let (addr, slot) := fsm_get_location heapBlk
  match fsm_readbuf fsm addr with
  | none => 0
  | some page => fsm_space_cat_to_avail (fsm_get_avail page slot)

/-- The loop of **`fsm_search`**. -/
def searchLoop (rel : MainFork) (min_cat : Nat) (fsm : Fork) (restarts : Nat) (addr : FSMAddress) :
    Fork × Nat :=
  let r := match fsm_readbuf fsm addr with
    | some page =>
        let s := fsm_search_avail page min_cat (addr.level == FSM_BOTTOM_LEVEL)
        (setPage fsm addr s.1, s.2, s.1)
    | none => (fsm, none, FSMPage.zero)
  let fsm := r.1
  match r.2.1 with
  | some slot =>
      if addr.level = FSM_BOTTOM_LEVEL then
        let blkno := fsm_get_heap_blk addr slot
        if fsm_does_block_exist rel blkno then (fsm, blkno)
        else
          let fsm := setPage fsm addr (fsm_set_avail r.2.2 slot 0).1
          if 10000 < restarts then (fsm, InvalidBlockNumber)
          -- the search goes on below the root, in the slot of that number
          else searchLoop rel min_cat fsm (restarts + 1) (fsm_get_child FSM_ROOT_ADDRESS slot)
      else searchLoop rel min_cat fsm restarts (fsm_get_child addr slot)
  | none =>
      if addr.level = FSM_ROOT_LEVEL then (fsm, InvalidBlockNumber)
      else
        let max_avail := fsm_get_max_avail r.2.2
        let (parent, parentslot) := fsm_get_parent addr
        let fsm := (fsm_set_and_search fsm parent parentslot max_avail 0).1
        if 10000 < restarts then (fsm, InvalidBlockNumber)
        else searchLoop rel min_cat fsm (restarts + 1) FSM_ROOT_ADDRESS
termination_by (10001 - restarts, addr.level)
decreasing_by
  · exact Prod.Lex.left _ _ (by omega)
  · refine Prod.Lex.right _ ?_
    rename_i h
    have h' : addr.level ≠ 0 := h
    show addr.level - 1 < addr.level
    omega
  · exact Prod.Lex.left _ _ (by omega)

def fsm_search (rel : MainFork) (fsm : Fork) (min_cat : Nat) : Fork × Nat :=
  searchLoop rel min_cat fsm 0 FSM_ROOT_ADDRESS

/-- **`GetPageWithFreeSpace`.** -/
def GetPageWithFreeSpace (rel : MainFork) (fsm : Fork) (spaceNeeded : Nat) : Except String (Fork × Nat) :=
  match fsm_space_needed_to_cat spaceNeeded with
  | .error e => .error e
  | .ok min_cat => .ok (fsm_search rel fsm min_cat)

/-! ## 4. `FreeSpaceMapVacuum` -/

/-- The page on a level, and its slot, that a heap block falls under: `fsm_get_location`, then
    `fsm_get_parent` up to the level. -/
def locate (heapblk : Nat) : Nat → FSMAddress × Nat
  | 0 => fsm_get_location heapblk
  | level + 1 => fsm_get_parent (locate heapblk level).1

/-- `start_slot` of `fsm_vacuum_page`. -/
def startSlot (start : Nat) (addr : FSMAddress) : Nat :=
  let fsm_start := locate start addr.level
  if fsm_start.1.logpageno = addr.logpageno then fsm_start.2
  else if addr.logpageno < fsm_start.1.logpageno then SlotsPerFSMPage
  else 0

/-- `end_slot + 1` of `fsm_vacuum_page`. -/
def stopSlot (stop : Nat) (addr : FSMAddress) : Nat :=
  let fsm_end := locate (stop - 1) addr.level
  if fsm_end.1.logpageno = addr.logpageno then fsm_end.2 + 1
  else if addr.logpageno < fsm_end.1.logpageno then SlotsPerFSMPage
  else 0

/-- Update information about the child. -/
def updateSlot (fsm : Fork) (addr : FSMAddress) (slot child_avail : Nat) : Fork :=
  match fsm_readbuf fsm addr with
  | none => fsm
  | some page =>
      if fsm_get_avail page slot ≠ child_avail
      then setPage fsm addr (fsm_set_avail page slot child_avail).1 else fsm

/-- The end of `fsm_vacuum_page`: the maximum value of the page, with its hint reset. -/
def vacuumFinish (fsm : Fork) (addr : FSMAddress) : Fork × Nat × Bool :=
  match fsm_readbuf fsm addr with
  | none => (fsm, 0, true)
  | some page => (setPage fsm addr { page with fp_next_slot := 0 }, fsm_get_max_avail page, false)

/-- **`fsm_vacuum_page`**, level by level: the map, the maximum of the page, and whether the page is past
    the end. -/
def fsm_vacuum_page (start stop : Nat) : Nat → Nat → Fork → Fork × Nat × Bool
  | 0, logpageno, fsm => vacuumFinish fsm ⟨FSM_BOTTOM_LEVEL, logpageno⟩
  | level + 1, logpageno, fsm =>
      let addr : FSMAddress := ⟨level + 1, logpageno⟩
      match fsm_readbuf fsm addr with
      | none => (fsm, 0, true)
      | some _ =>
          let start_slot := startSlot start addr
          let r := (List.range' start_slot (stopSlot stop addr - start_slot)).foldl
            (fun r slot =>
              -- after we hit end-of-file, just clear the rest of the slots
              let child := if r.2 then (r.1, 0, true)
                else fsm_vacuum_page start stop level (fsm_get_child addr slot).logpageno r.1
              (updateSlot child.1 addr slot child.2.1, child.2.2)) (fsm, false)
          vacuumFinish r.1 addr

/-- **`FreeSpaceMapVacuum`.** -/
def FreeSpaceMapVacuum (fsm : Fork) : Fork :=
  (fsm_vacuum_page 0 InvalidBlockNumber FSM_ROOT_ADDRESS.level FSM_ROOT_ADDRESS.logpageno fsm).1

/-- **`FreeSpaceMapVacuumRange`.** -/
def FreeSpaceMapVacuumRange (fsm : Fork) (start stop : Nat) : Fork :=
  if start < stop then
    (fsm_vacuum_page start stop FSM_ROOT_ADDRESS.level FSM_ROOT_ADDRESS.logpageno fsm).1
  else fsm

/-! ## 5. Where the pages lie -/

/-- An address of the tree: one root, as many pages below it as it has slots, and so on. -/
def FSMAddress.Ok (a : FSMAddress) : Prop :=
  (a.level = 0 ∧ a.logpageno < SlotsPerFSMPage * SlotsPerFSMPage) ∨
    (a.level = 1 ∧ a.logpageno < SlotsPerFSMPage) ∨ (a.level = 2 ∧ a.logpageno = 0)

/-- The address is above the bottom. -/
def FSMAddress.Upper (a : FSMAddress) : Prop := a.Ok ∧ 0 < a.level

theorem root_ok : FSM_ROOT_ADDRESS.Ok := Or.inr (Or.inr ⟨rootLevel_eq, rfl⟩)

theorem child_ok {a : FSMAddress} (h : a.Upper) {slot : Nat} (hs : slot < SlotsPerFSMPage) :
    (fsm_get_child a slot).Ok := by
  obtain ⟨h, hl⟩ := h
  unfold FSMAddress.Ok at h ⊢
  simp only [fsm_get_child]
  rw [slotsPerFSMPage_eq] at *
  omega

theorem phys_bottom {n : Nat} (h : n < SlotsPerFSMPage * SlotsPerFSMPage) :
    fsm_logical_to_physical ⟨0, n⟩ = n + n / SlotsPerFSMPage + 2 := by
  rw [slotsPerFSMPage_eq] at h
  simp only [fsm_logical_to_physical, treeDepth_eq, List.range_succ, List.range_zero, List.nil_append,
    List.cons_append, List.foldl_cons, List.foldl_nil, slotsPerFSMPage_eq]
  omega

theorem phys_middle {n : Nat} (h : n < SlotsPerFSMPage) :
    fsm_logical_to_physical ⟨1, n⟩ = n * SlotsPerFSMPage + n + 1 := by
  rw [slotsPerFSMPage_eq] at h
  simp only [fsm_logical_to_physical, treeDepth_eq, List.range_succ, List.range_zero, List.nil_append,
    List.cons_append, List.foldl_cons, List.foldl_nil, slotsPerFSMPage_eq]
  omega

theorem phys_root : fsm_logical_to_physical ⟨2, 0⟩ = 0 := by
  simp [fsm_logical_to_physical, treeDepth_eq, List.range_succ, slotsPerFSMPage_eq]

theorem phys_cases {a : FSMAddress} (h : a.Ok) :
    (a.level = 0 ∧ a.logpageno < SlotsPerFSMPage * SlotsPerFSMPage ∧
      fsm_logical_to_physical a = a.logpageno + a.logpageno / SlotsPerFSMPage + 2) ∨
    (a.level = 1 ∧ a.logpageno < SlotsPerFSMPage ∧
      fsm_logical_to_physical a = a.logpageno * SlotsPerFSMPage + a.logpageno + 1) ∨
    (a.level = 2 ∧ a.logpageno = 0 ∧ fsm_logical_to_physical a = 0) := by
  obtain ⟨level, n⟩ := a
  unfold FSMAddress.Ok at h
  simp only at h ⊢
  rcases h with ⟨rfl, h⟩ | ⟨rfl, h⟩ | ⟨rfl, rfl⟩
  · exact Or.inl ⟨rfl, h, phys_bottom h⟩
  · exact Or.inr (Or.inl ⟨rfl, h, phys_middle h⟩)
  · exact Or.inr (Or.inr ⟨rfl, rfl, phys_root⟩)

/-- **No two pages lie in one block.** -/
theorem phys_inj {a b : FSMAddress} (ha : a.Ok) (hb : b.Ok)
    (h : fsm_logical_to_physical a = fsm_logical_to_physical b) : a = b := by
  have h1 := phys_cases ha
  have h2 := phys_cases hb
  rw [slotsPerFSMPage_eq] at h1 h2
  have hlevel : a.level = b.level := by omega
  have hpage : a.logpageno = b.logpageno := by omega
  cases a
  cases b
  cases hlevel
  cases hpage
  rfl

/-- The pages of a level lie in order. -/
theorem phys_mono {a b : FSMAddress} (ha : a.Ok) (hb : b.Ok) (hl : a.level = b.level)
    (hn : a.logpageno ≤ b.logpageno) : fsm_logical_to_physical a ≤ fsm_logical_to_physical b := by
  have h1 := phys_cases ha
  have h2 := phys_cases hb
  rw [slotsPerFSMPage_eq] at h1 h2
  omega

/-- A page lies before its children. -/
theorem phys_child {a : FSMAddress} (h : a.Upper) {slot : Nat} (hs : slot < SlotsPerFSMPage) :
    fsm_logical_to_physical a < fsm_logical_to_physical (fsm_get_child a slot) := by
  have h1 := phys_cases h.1
  have h2 := phys_cases (child_ok h hs)
  have hl := h.2
  have e1 : (fsm_get_child a slot).level = a.level - 1 := rfl
  have e2 : (fsm_get_child a slot).logpageno = a.logpageno * SlotsPerFSMPage + slot := rfl
  rw [e1, e2] at h2
  rw [slotsPerFSMPage_eq] at *
  omega

/-! ## 6. Slots and roots of pages that may be missing -/

/-- The value of a slot; zero where the page does not exist. -/
def slot (fsm : Fork) (a : FSMAddress) (s : Nat) : Nat := (fsm_readbuf fsm a).elim 0 (fsm_get_avail · s)

/-- The value at the root of a page; zero where the page does not exist. -/
def top (fsm : Fork) (a : FSMAddress) : Nat := (fsm_readbuf fsm a).elim 0 fsm_get_max_avail

/-- Every page is a tree. -/
def Trees (fsm : Fork) : Prop := ∀ page ∈ fsm, page.Ok

variable {fsm fsm' : Fork} {a b : FSMAddress} {page : FSMPage}

theorem readbuf_setPage (ha : a.Ok) (hb : b.Ok) (page : FSMPage) : fsm_readbuf (setPage fsm a page) b =
    if b = a then (fsm_readbuf fsm a).map fun _ => page else fsm_readbuf fsm b := by
  unfold fsm_readbuf setPage
  split
  · rename_i e
    subst e
    rw [List.getElem?_set_self']
    rfl
  · rename_i hne
    exact List.getElem?_set_ne fun e => hne (phys_inj hb ha e.symm)

theorem setPage_length (page : FSMPage) : (setPage fsm a page).length = fsm.length := List.length_set

theorem readbuf_ok (h : Trees fsm) (hp : fsm_readbuf fsm a = some page) : page.Ok :=
  h page (List.mem_of_getElem? hp)

theorem trees_setPage (h : Trees fsm) (hp : page.Ok) : Trees (setPage fsm a page) := by
  intro q hq
  rcases List.mem_or_eq_of_mem_set hq with hq | rfl
  · exact h q hq
  · exact hp

theorem readbuf_eq_none : fsm_readbuf fsm a = none ↔ fsm.length ≤ fsm_logical_to_physical a :=
  List.getElem?_eq_none_iff

theorem slot_none (h : fsm_readbuf fsm a = none) (s : Nat) : slot fsm a s = 0 := by
  rw [slot, h, Option.elim_none]

theorem top_none (h : fsm_readbuf fsm a = none) : top fsm a = 0 := by
  rw [top, h, Option.elim_none]

theorem slot_some (h : fsm_readbuf fsm a = some page) (s : Nat) : slot fsm a s = fsm_get_avail page s := by
  rw [slot, h, Option.elim_some]

theorem top_some (h : fsm_readbuf fsm a = some page) : top fsm a = fsm_get_max_avail page := by
  rw [top, h, Option.elim_some]

/-- The children of a page that does not exist do not exist. -/
theorem child_missing (ha : a.Upper) {s : Nat} (hs : s < SlotsPerFSMPage) (h : fsm_readbuf fsm a = none) :
    fsm_readbuf fsm (fsm_get_child a s) = none := by
  rw [readbuf_eq_none] at h ⊢
  exact h.trans (phys_child ha hs).le

/-- **The root follows the slots**; a page that does not exist is one of zeros. -/
theorem top_congr (h : Trees fsm) (h' : Trees fsm')
    (hs : ∀ s, s < SlotsPerFSMPage → slot fsm' a s = slot fsm a s) : top fsm' a = top fsm a := by
  have hok : ∀ {f : Fork}, Trees f → ((fsm_readbuf f a).getD FSMPage.zero).Ok := by
    intro f hf
    cases hp : fsm_readbuf f a with
    | none => exact zero_ok
    | some page => exact readbuf_ok hf hp
  have htop : ∀ f : Fork, top f a = fsm_get_max_avail ((fsm_readbuf f a).getD FSMPage.zero) := by
    intro f
    cases hp : fsm_readbuf f a with
    | none => exact top_none hp
    | some page => exact top_some hp
  have hslot : ∀ (f : Fork) s, slot f a s = fsm_get_avail ((fsm_readbuf f a).getD FSMPage.zero) s := by
    intro f s
    cases hp : fsm_readbuf f a with
    | none => exact slot_none hp s
    | some page => exact slot_some hp s
  rw [htop, htop]
  refine max_avail_congr (hok h') (hok h) fun s hlt => ?_
  rw [← hslot, ← hslot]
  exact hs s hlt

end Pgvec.Storage.Fsm
