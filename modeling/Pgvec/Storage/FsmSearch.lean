/-
  File:      Pgvec/Storage/FsmSearch.lean
  Subject:   THE PAGES THAT `fsm_search` EXAMINES, one for each iteration of its loop.

  The loop descends, corrects a parent that promised too much, and discards a block past the end of the
  relation. After the last of the three the source sets `addr` to the root, and then falls through to the
  descent: the next page is the child of the root in the slot that was found on the bottom page.

  * `searchStep` -- one iteration, `searchLoop_eq` -- the loop iterates it; `searchStep_cases` -- all that
    an iteration can do;
  * `examined` -- the variables at the start of each iteration of a run;
  * **`walks_iff`** -- a run goes from the root to a child, to a child of that, and back to the root,
    exactly when no iteration that is followed by another one discards a block.
-/
import Pgvec.Storage.FreeSpace

namespace Pgvec.Storage.Fsm

/-! ## 1. One iteration -/

/-- The variables of `fsm_search` at the start of an iteration, and the map. -/
structure SearchState where
  fsm : Fork
  restarts : Nat
  addr : FSMAddress

/-- The start of `fsm_search`. -/
def SearchState.start (fsm : Fork) : SearchState := ⟨fsm, 0, FSM_ROOT_ADDRESS⟩

/-- The search within the page: the map, the slot, and the page. -/
def searchPage (min_cat : Nat) (s : SearchState) : Fork × Option Nat × FSMPage :=
  match fsm_readbuf s.fsm s.addr with
  | some page =>
      let r := fsm_search_avail page min_cat (s.addr.level == FSM_BOTTOM_LEVEL)
      (setPage s.fsm s.addr r.1, r.2, r.1)
  | none => (s.fsm, none, FSMPage.zero)

/-- **One iteration of `fsm_search`**: the map and the block it returns, or the variables of the next
    iteration. -/
def searchStep (rel : MainFork) (min_cat : Nat) (s : SearchState) : (Fork × Nat) ⊕ SearchState :=
  let r := searchPage min_cat s
  let fsm := r.1
  match r.2.1 with
  | some slot =>
      if s.addr.level = FSM_BOTTOM_LEVEL then
        let blkno := fsm_get_heap_blk s.addr slot
        if fsm_does_block_exist rel blkno then .inl (fsm, blkno)
        else
          let fsm := setPage fsm s.addr (fsm_set_avail r.2.2 slot 0).1
          if 10000 < s.restarts then .inl (fsm, InvalidBlockNumber)
          else .inr ⟨fsm, s.restarts + 1, fsm_get_child FSM_ROOT_ADDRESS slot⟩
      else .inr ⟨fsm, s.restarts, fsm_get_child s.addr slot⟩
  | none =>
      if s.addr.level = FSM_ROOT_LEVEL then .inl (fsm, InvalidBlockNumber)
      else
        let max_avail := fsm_get_max_avail r.2.2
        let (parent, parentslot) := fsm_get_parent s.addr
        let fsm := (fsm_set_and_search fsm parent parentslot max_avail 0).1
        if 10000 < s.restarts then .inl (fsm, InvalidBlockNumber)
        else .inr ⟨fsm, s.restarts + 1, FSM_ROOT_ADDRESS⟩

/-- The slot that `fsm_search_avail` returns in an iteration. -/
def SearchState.slot (min_cat : Nat) (s : SearchState) : Option Nat := (searchPage min_cat s).2.1

variable {rel : MainFork} {min_cat : Nat} {s t : SearchState}

/-- **The loop iterates `searchStep`.** -/
theorem searchLoop_eq (s : SearchState) : searchLoop rel min_cat s.fsm s.restarts s.addr =
    match searchStep rel min_cat s with
    | .inl r => r
    | .inr t => searchLoop rel min_cat t.fsm t.restarts t.addr := by
  rw [searchLoop]
  unfold searchStep searchPage
  cases fsm_readbuf s.fsm s.addr with
  | none =>
      simp only
      split
      · rfl
      · split <;> rfl
  | some page =>
      simp only
      cases (fsm_search_avail page min_cat (s.addr.level == FSM_BOTTOM_LEVEL)).2 with
      | none =>
          simp only
          split
          · rfl
          · split <;> rfl
      | some slot =>
          simp only
          split
          · split
            · rfl
            · split <;> rfl
          · rfl

/-- The block that was found lies past the end of the relation. -/
def Discards (rel : MainFork) (min_cat : Nat) (s : SearchState) : Prop :=
  s.addr.level = FSM_BOTTOM_LEVEL ∧
    ∃ slot, s.slot min_cat = some slot ∧ fsm_does_block_exist rel (fsm_get_heap_blk s.addr slot) = false

/-- **What an iteration that does not return has done**: it has descended, discarded a block, or corrected
    a parent. -/
theorem searchStep_cases (h : searchStep rel min_cat s = .inr t) :
    (s.addr.level ≠ FSM_BOTTOM_LEVEL ∧ t.restarts = s.restarts ∧
      ∃ slot, s.slot min_cat = some slot ∧ t.addr = fsm_get_child s.addr slot) ∨
    (Discards rel min_cat s ∧ s.restarts ≤ 10000 ∧ t.restarts = s.restarts + 1 ∧
      ∃ slot, s.slot min_cat = some slot ∧ t.addr = fsm_get_child FSM_ROOT_ADDRESS slot) ∨
    (s.slot min_cat = none ∧ s.restarts ≤ 10000 ∧ t.restarts = s.restarts + 1 ∧
      t.addr = FSM_ROOT_ADDRESS) := by
  unfold searchStep at h
  simp only at h
  split at h
  · rename_i slot he
    split at h
    · rename_i hl
      split at h
      · cases h
      · rename_i hex
        split at h
        · cases h
        · rename_i hr
          cases h
          refine Or.inr (Or.inl ⟨⟨hl, slot, he, ?_⟩, Nat.le_of_not_lt hr, rfl, slot, he, rfl⟩)
          exact Bool.eq_false_iff.mpr hex
    · rename_i hl
      cases h
      exact Or.inl ⟨hl, rfl, slot, he, rfl⟩
  · rename_i he
    split at h
    · cases h
    · split at h
      · cases h
      · rename_i hr
        cases h
        exact Or.inr (Or.inr ⟨he, Nat.le_of_not_lt hr, rfl, rfl⟩)

/-- A block is discarded and the search goes on. -/
theorem discards_goes_on (h : Discards rel min_cat s) (hr : s.restarts ≤ 10000) :
    ∃ t, searchStep rel min_cat s = .inr t := by
  obtain ⟨hl, slot, hs, hex⟩ := h
  unfold SearchState.slot at hs
  unfold searchStep
  simp only [hs]
  rw [if_pos hl, hex, if_neg Bool.false_ne_true, if_neg (Nat.not_lt.mpr hr)]
  exact ⟨_, rfl⟩

/-! ## 2. Runs -/

theorem searchStep_decreases (h : searchStep rel min_cat s = .inr t) :
    Prod.Lex (· < ·) (· < ·) (10001 - t.restarts, t.addr.level) (10001 - s.restarts, s.addr.level) := by
  rcases searchStep_cases h with ⟨hl, hr, slot, -, ht⟩ | ⟨-, hr, ht, -⟩ | ⟨-, hr, ht, -⟩
  · rw [hr, ht]
    refine Prod.Lex.right _ ?_
    have hl' : s.addr.level ≠ 0 := hl
    show s.addr.level - 1 < s.addr.level
    omega
  · exact Prod.Lex.left _ _ (by omega)
  · exact Prod.Lex.left _ _ (by omega)

/-- **The variables at the start of each iteration** from `s` on, the first one first. -/
def examined (rel : MainFork) (min_cat : Nat) (s : SearchState) : List SearchState :=
  s :: match _h : searchStep rel min_cat s with
    | .inl _ => []
    | .inr t => examined rel min_cat t
termination_by (10001 - s.restarts, s.addr.level)
decreasing_by exact searchStep_decreases _h

/-- The iterations of a run of `fsm_search`. -/
def searchRun (rel : MainFork) (fsm : Fork) (min_cat : Nat) : List SearchState :=
  examined rel min_cat (SearchState.start fsm)

theorem examined_return {r : Fork × Nat} (h : searchStep rel min_cat s = .inl r) :
    examined rel min_cat s = [s] := by
  rw [examined]
  split
  · rfl
  · rename_i h'
    rw [h] at h'
    cases h'

theorem examined_next (h : searchStep rel min_cat s = .inr t) :
    examined rel min_cat s = s :: examined rel min_cat t := by
  rw [examined]
  split
  · rename_i h'
    rw [h] at h'
    cases h'
  · rename_i h'
    rw [h] at h'
    cases h'
    rfl

theorem head_examined (rel : MainFork) (min_cat : Nat) (s : SearchState) : ∃ l, examined rel min_cat s = s :: l := by
  rw [examined]
  exact ⟨_, rfl⟩

/-- An iteration of a run that goes on is followed by the next one. -/
theorem mem_examined_next {u : SearchState} (hu : u ∈ examined rel min_cat s)
    (h : searchStep rel min_cat u = .inr t) :
    ∃ l l', examined rel min_cat s = l ++ u :: t :: l' := by
  induction s using examined.induct rel min_cat with
  | case1 s ih =>
      obtain ⟨lt, hlt⟩ := head_examined rel min_cat t
      by_cases e : u = s
      · subst e
        exact ⟨[], lt, by rw [examined_next h, hlt]; rfl⟩
      · cases hs : searchStep rel min_cat s with
        | inl r =>
            rw [examined_return hs] at hu
            exact absurd (List.mem_singleton.mp hu) e
        | inr s' =>
            rw [examined_next hs] at hu
            obtain ⟨l, l', hl⟩ := ih s' hs ((List.mem_cons.mp hu).resolve_left e)
            exact ⟨s :: l, l', by rw [examined_next hs, hl]; rfl⟩

/-! ## 3. The walk -/

/-- The page of `t` is the child of the page of `s` in the slot that was found there. -/
def ChildOf (min_cat : Nat) (s t : SearchState) : Prop :=
  FSM_BOTTOM_LEVEL < s.addr.level ∧
    ∃ slot, s.slot min_cat = some slot ∧ t.addr = fsm_get_child s.addr slot

/-- What the law asks of two iterations one after the other. -/
def Follows (rel : MainFork) (min_cat : Nat) (s t : SearchState) : Prop :=
  (t.addr = FSM_ROOT_ADDRESS ∨ ChildOf min_cat s t) ∧
    (Discards rel min_cat s → t.addr = FSM_ROOT_ADDRESS)

/-- **The search walks the tree from the root**: the first page is the root, and each page is the root or
    the child of the page before; after a block has been discarded it is the root. -/
def WalksFromRoot (rel : MainFork) (fsm : Fork) (min_cat : Nat) : Prop :=
  (searchRun rel fsm min_cat).head?.map SearchState.addr = some FSM_ROOT_ADDRESS ∧
    (searchRun rel fsm min_cat).IsChain (Follows rel min_cat)

/-- An iteration that discards no block is followed by the root or by a child. -/
theorem follows_of_kept (hs : ¬ Discards rel min_cat s) (h : searchStep rel min_cat s = .inr t) :
    Follows rel min_cat s t := by
  refine ⟨?_, fun hd => absurd hd hs⟩
  rcases searchStep_cases h with ⟨hl, -, slot, hslot, ht⟩ | ⟨hd, -⟩ | ⟨-, -, -, ht⟩
  · exact Or.inr ⟨Nat.pos_of_ne_zero hl, slot, hslot, ht⟩
  · exact absurd hd hs
  · exact Or.inl ht

/-- After a block has been discarded the search goes on below the root. -/
theorem discarded_below_root (hd : Discards rel min_cat s) (h : searchStep rel min_cat s = .inr t) :
    t.addr.level = 1 ∧ s.slot min_cat = some t.addr.logpageno := by
  rcases searchStep_cases h with ⟨hl, -⟩ | ⟨-, -, -, slot, hslot, ht⟩ | ⟨hn, -⟩
  · exact absurd hd.1 hl
  · rw [ht, hslot]
    refine ⟨?_, ?_⟩
    · show FSM_ROOT_LEVEL - 1 = 1
      rw [rootLevel_eq]
    · show some slot = some (0 * SlotsPerFSMPage + slot)
      rw [Nat.zero_mul, Nat.zero_add]
  · obtain ⟨-, slot, hslot, -⟩ := hd
    rw [hn] at hslot
    cases hslot

theorem not_follows_of_discards (hd : Discards rel min_cat s) (h : searchStep rel min_cat s = .inr t) :
    ¬ Follows rel min_cat s t := by
  intro hf
  have hl := (discarded_below_root hd h).1
  have hroot := hf.2 hd
  rw [hroot] at hl
  have e : FSM_ROOT_LEVEL = 1 := hl
  rw [rootLevel_eq] at e
  cases e

theorem chain_of_kept (h : ∀ u ∈ examined rel min_cat s, Discards rel min_cat u → 10000 < u.restarts) :
    (examined rel min_cat s).IsChain (Follows rel min_cat) := by
  induction s using examined.induct rel min_cat with
  | case1 s ih =>
      cases hs : searchStep rel min_cat s with
      | inl r =>
          rw [examined_return hs]
          exact List.isChain_singleton s
      | inr t =>
          have htail := ih t hs fun u hu => h u (by
            rw [examined_next hs]
            exact List.mem_cons_of_mem _ hu)
          have hkept : ¬ Discards rel min_cat s := by
            intro hd
            have hr := h s (by rw [examined_next hs]; exact List.mem_cons_self) hd
            rcases searchStep_cases hs with ⟨hl, -⟩ | ⟨-, hr', -⟩ | ⟨-, hr', -⟩
            · exact absurd hd.1 hl
            · omega
            · omega
          obtain ⟨l, hl⟩ := head_examined rel min_cat t
          rw [examined_next hs, hl]
          rw [hl] at htail
          exact List.isChain_cons_cons.mpr ⟨follows_of_kept hkept hs, htail⟩

/-- A run in which a block is discarded and the search goes on. -/
theorem not_walks_of_discards {fsm : Fork} (hs : s ∈ searchRun rel fsm min_cat)
    (hd : Discards rel min_cat s) (hr : s.restarts ≤ 10000) : ¬ WalksFromRoot rel fsm min_cat := by
  intro ⟨_, hchain⟩
  obtain ⟨t, ht⟩ := discards_goes_on hd hr
  obtain ⟨l, l', hl⟩ := mem_examined_next hs ht
  unfold searchRun at hchain
  rw [hl] at hchain
  exact not_follows_of_discards hd ht (List.isChain_cons_cons.mp hchain.right_of_append).1

/-- **A run walks the tree from the root exactly when** no block is discarded in an iteration that is
    followed by another one. -/
theorem walks_iff (rel : MainFork) (fsm : Fork) (min_cat : Nat) :
    WalksFromRoot rel fsm min_cat ↔
      ∀ s ∈ searchRun rel fsm min_cat, Discards rel min_cat s → 10000 < s.restarts := by
  constructor
  · intro h s hs hd
    exact Nat.lt_of_not_le fun hr => not_walks_of_discards hs hd hr h
  · intro h
    refine ⟨?_, chain_of_kept h⟩
    obtain ⟨l, hl⟩ := head_examined rel min_cat (SearchState.start fsm)
    rw [searchRun, hl]
    rfl

/-! ## 4. A map that outlived its relation -/

/-- A page whose slot 0 is full and whose other slots are empty. -/
def firstSlot : FSMPage := ⟨0, fun x => if (x + 1) &&& x = 0 then 255 else 0⟩

theorem firstSlot_search (advancenext : Bool) :
    (fsm_search_avail firstSlot 1 advancenext).2 = some 0 := by
  have hclimb : climb firstSlot.fp_nodes 1 NonLeafNodesPerPage = NonLeafNodesPerPage := by
    rw [climb, nonLeafNodesPerPage_eq, dif_pos (by decide), if_pos (by decide)]
  have hdescend : descend firstSlot.fp_nodes 1 NonLeafNodesPerPage = some NonLeafNodesPerPage := by
    rw [descend, if_neg (Nat.lt_irrefl _)]
  have hsearch : searchOnce firstSlot 1 = .found 0 := by
    have hroot : ¬ firstSlot.fp_nodes 0 < 1 := by decide
    unfold searchOnce
    rw [if_neg hroot]
    have htarget : (if firstSlot.fp_next_slot < 0 ∨ (LeafNodesPerPage : Int) ≤ firstSlot.fp_next_slot then 0
        else firstSlot.fp_next_slot.toNat) = 0 := by
      split <;> rfl
    simp only [htarget, Nat.zero_add, hclimb, hdescend, Nat.sub_self]
  unfold fsm_search_avail
  rw [hsearch]
  rfl

/-- The three pages above block 0. -/
def staleMap : Fork := [firstSlot, firstSlot, firstSlot]

/-- The relation is empty. -/
def emptyRel : MainFork := ⟨0, none⟩

/-- Above the bottom the search goes down in slot 0. -/
theorem descends_firstSlot (rel : MainFork) {fsm : Fork} {addr : FSMAddress} (hl : addr.level ≠ FSM_BOTTOM_LEVEL)
    (hp : fsm_readbuf fsm addr = some firstSlot) : ∃ page, searchStep rel 1 ⟨fsm, 0, addr⟩ =
      .inr ⟨setPage fsm addr page, 0, fsm_get_child addr 0⟩ := by
  unfold searchStep searchPage
  simp only [hp, firstSlot_search, if_neg hl]
  exact ⟨_, rfl⟩

/-- **The law fails**: the block is discarded on the third page, and the fourth one is not the root. -/
theorem not_walks_stale : ¬ WalksFromRoot emptyRel staleMap 1 := by
  have hroot : FSM_ROOT_ADDRESS = ⟨2, 0⟩ := by rw [FSM_ROOT_ADDRESS, rootLevel_eq]
  have hchild : fsm_get_child ⟨2, 0⟩ 0 = ⟨1, 0⟩ := by simp [fsm_get_child]
  have hchild' : fsm_get_child ⟨1, 0⟩ 0 = ⟨0, 0⟩ := by simp [fsm_get_child]
  have hslots : 0 < SlotsPerFSMPage := by
    rw [slotsPerFSMPage_eq]
    omega
  have ok2 : FSMAddress.Ok ⟨2, 0⟩ := Or.inr (Or.inr ⟨rfl, rfl⟩)
  have ok1 : FSMAddress.Ok ⟨1, 0⟩ := Or.inr (Or.inl ⟨rfl, hslots⟩)
  have ok0 : FSMAddress.Ok ⟨0, 0⟩ := Or.inl ⟨rfl, Nat.mul_pos hslots hslots⟩
  have h2 : fsm_readbuf staleMap ⟨2, 0⟩ = some firstSlot := by
    rw [fsm_readbuf, phys_root]
    rfl
  have h1 : fsm_readbuf staleMap ⟨1, 0⟩ = some firstSlot := by
    rw [fsm_readbuf, phys_middle hslots, Nat.zero_mul]
    rfl
  have h0 : fsm_readbuf staleMap ⟨0, 0⟩ = some firstSlot := by
    rw [fsm_readbuf, phys_bottom (Nat.mul_pos hslots hslots), Nat.zero_div]
    rfl
  obtain ⟨p, hp⟩ := descends_firstSlot emptyRel (Nat.succ_ne_zero 1) h2
  rw [hchild] at hp
  have h1' : fsm_readbuf (setPage staleMap ⟨2, 0⟩ p) ⟨1, 0⟩ = some firstSlot := by
    rw [readbuf_setPage ok2 ok1, if_neg (by decide), h1]
  obtain ⟨q, hq⟩ := descends_firstSlot emptyRel (Nat.succ_ne_zero 0) h1'
  rw [hchild'] at hq
  have h0' : fsm_readbuf (setPage (setPage staleMap ⟨2, 0⟩ p) ⟨1, 0⟩ q) ⟨0, 0⟩ = some firstSlot := by
    rw [readbuf_setPage ok1 ok0, if_neg (by decide), readbuf_setPage ok2 ok0, if_neg (by decide), h0]
  refine not_walks_of_discards (s := ⟨setPage (setPage staleMap ⟨2, 0⟩ p) ⟨1, 0⟩ q, 0, ⟨0, 0⟩⟩) ?_
    ⟨rfl, 0, ?_, rfl⟩ (Nat.zero_le _)
  · rw [searchRun, SearchState.start, hroot, examined_next hp, examined_next hq]
    obtain ⟨l, hl⟩ := head_examined emptyRel 1
      ⟨setPage (setPage staleMap ⟨2, 0⟩ p) ⟨1, 0⟩ q, 0, ⟨0, 0⟩⟩
    rw [hl]
    simp
  · unfold SearchState.slot searchPage
    simp only [h0', firstSlot_search]

end Pgvec.Storage.Fsm
