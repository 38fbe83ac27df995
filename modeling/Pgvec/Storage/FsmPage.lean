/-
  File:      Pgvec/Storage/FsmPage.lean
  Subject:   ONE PAGE OF THE FREE SPACE MAP (`src/backend/storage/freespace/fsmpage.c`).

  A page is a maximum tree in an array of bytes, and a hint where the next search starts. A byte is a
  number here: every value comes from `fsm_space_avail_to_cat` or from another byte, and the code only
  compares and copies them. Buffer locks have no part in it: the operations run one at a time.

  * `fsm_set_avail` -- sets a slot and climbs until a node needs no change; `fsm_truncate_avail`,
    `fsm_rebuild_page`;
  * `fsm_search_avail` -- climbs from the hint, descends, and rebuilds the page and starts again when it
    is torn: a rebuilt page is not torn (`rebuild_ok`, `searchOnce_ne_torn`), so once is enough;
  * **`set_avail_spec`**, **`truncate_avail_spec`**, **`search_avail_spec`** -- what they do on a page that is
    a tree.
-/
import Pgvec.Lib.MaxTree
import Pgvec.Storage.Page

namespace Pgvec.Storage.Fsm

open MaxTree (parentof TreeBut)

/-- `offsetof(FSMPageData, fp_nodes)`. -/
def offsetofFpNodes : Nat := 4

def NodesPerPage : Nat := BLCKSZ - MAXALIGN SizeOfPageHeaderData - offsetofFpNodes

def NonLeafNodesPerPage : Nat := BLCKSZ / 2 - 1

def LeafNodesPerPage : Nat := NodesPerPage - NonLeafNodesPerPage

/-- The number of slots of a page. -/
def SlotsPerFSMPage : Nat := LeafNodesPerPage

theorem nodesPerPage_eq : NodesPerPage = 8164 := rfl

theorem nonLeafNodesPerPage_eq : NonLeafNodesPerPage = 4095 := rfl

theorem slotsPerFSMPage_eq : SlotsPerFSMPage = 4069 := rfl

attribute [irreducible] NodesPerPage NonLeafNodesPerPage

/-- **`FSMPageData`**; the array has `NodesPerPage` bytes. -/
structure FSMPage where
  fp_next_slot : Int
  fp_nodes : Nat → Nat

/-- A page of zeros. -/
def FSMPage.zero : FSMPage := ⟨0, fun _ => 0⟩

/-! ## 1. The functions of the page -/

def leftchild (x : Nat) : Nat := 2 * x + 1

/-- The right neighbor, wrapping around within the level. -/
def rightneighbor (x : Nat) : Nat :=
  if (x + 1 + 1) &&& (x + 1) = 0 then parentof (x + 1) else x + 1

/-- The loop of `fsm_set_avail` over the ancestors of `nodeno`. -/
def propagate (fp_nodes : Nat → Nat) (nodeno : Nat) : Nat → Nat :=
  let parent := parentof nodeno
  let lchild := leftchild parent
  let rchild := lchild + 1
  let newvalue := if rchild < NodesPerPage then max (fp_nodes lchild) (fp_nodes rchild) else fp_nodes lchild
  if fp_nodes parent = newvalue then fp_nodes
  else if _h : 0 < parent then propagate (Function.update fp_nodes parent newvalue) parent
  else Function.update fp_nodes parent newvalue
termination_by nodeno
decreasing_by
  have h : 0 < (nodeno - 1) / 2 := _h
  show (nodeno - 1) / 2 < nodeno
  omega

/-- The loop of `fsm_rebuild_page`: the nodes below `nodeno`, the last one first. -/
def rebuildLoop (fp_nodes : Nat → Nat) : Nat → Nat → Nat
  | 0 => fp_nodes
  | nodeno + 1 =>
      let lchild := leftchild nodeno
      let rchild := lchild + 1
      let newvalue := if lchild < NodesPerPage then fp_nodes lchild else 0
      let newvalue := if rchild < NodesPerPage then max newvalue (fp_nodes rchild) else newvalue
      rebuildLoop (Function.update fp_nodes nodeno newvalue) nodeno

def fsm_rebuild_page (page : FSMPage) : FSMPage :=
  { page with fp_nodes := rebuildLoop page.fp_nodes NonLeafNodesPerPage }

/-- The loop of `fsm_truncate_avail` over the leaf nodes from `ptr` on: the nodes, and `changed`. -/
def clearLoop (fp_nodes : Nat → Nat) (ptr : Nat) : (Nat → Nat) × Bool :=
  (List.range' ptr (NodesPerPage - ptr)).foldl
    (fun r ptr => (Function.update r.1 ptr 0, r.2 || r.1 ptr != 0)) (fp_nodes, false)

/-- `fsm_truncate_avail`: the page, and whether it was modified. -/
def fsm_truncate_avail (page : FSMPage) (nslots : Nat) : FSMPage × Bool :=
  let r := clearLoop page.fp_nodes (NonLeafNodesPerPage + nslots)
  let page := { page with fp_nodes := r.1 }
  if r.2 then (fsm_rebuild_page page, true) else (page, false)

/-- `fsm_set_avail`: the page, and whether it was modified. -/
def fsm_set_avail (page : FSMPage) (slot value : Nat) : FSMPage × Bool :=
  let nodeno := NonLeafNodesPerPage + slot
  if page.fp_nodes nodeno = value ∧ value ≤ page.fp_nodes 0 then (page, false)
  else
    let page := { page with fp_nodes := propagate (Function.update page.fp_nodes nodeno value) nodeno }
    -- sanity check: if the new value is (still) higher than the value at the top, the tree is corrupt
    if page.fp_nodes 0 < value then (fsm_rebuild_page page, true) else (page, true)

def fsm_get_avail (page : FSMPage) (slot : Nat) : Nat := page.fp_nodes (NonLeafNodesPerPage + slot)

def fsm_get_max_avail (page : FSMPage) : Nat := page.fp_nodes 0

theorem parentof_rightneighbor_lt {x : Nat} (h : 0 < x) : parentof (rightneighbor x) < x := by
  unfold rightneighbor parentof
  split <;> omega

/-- Right, then up, until there is enough space. -/
def climb (fp_nodes : Nat → Nat) (minvalue nodeno : Nat) : Nat :=
  if _h : 0 < nodeno then
    if minvalue ≤ fp_nodes nodeno then nodeno
    else climb fp_nodes minvalue (parentof (rightneighbor nodeno))
  else nodeno
termination_by nodeno
decreasing_by exact parentof_rightneighbor_lt _h

/-- Down to the bottom along nodes with enough space; `none` where neither child has it. -/
def descend (fp_nodes : Nat → Nat) (minvalue nodeno : Nat) : Option Nat :=
  if nodeno < NonLeafNodesPerPage then
    if leftchild nodeno < NodesPerPage ∧ minvalue ≤ fp_nodes (leftchild nodeno) then
      descend fp_nodes minvalue (leftchild nodeno)
    else if leftchild nodeno + 1 < NodesPerPage ∧ minvalue ≤ fp_nodes (leftchild nodeno + 1) then
      descend fp_nodes minvalue (leftchild nodeno + 1)
    else none
  else some nodeno
termination_by NonLeafNodesPerPage - nodeno
decreasing_by
  all_goals
    unfold leftchild
    omega

/-- What one pass of `fsm_search_avail` ends with. -/
inductive SearchResult where
  | notFound
  | found (slot : Nat)
  | torn
  deriving DecidableEq, Repr

/-- `fsm_search_avail` from `restart` on. -/
def searchOnce (page : FSMPage) (minvalue : Nat) : SearchResult :=
  if page.fp_nodes 0 < minvalue then .notFound
  else
    let target := if page.fp_next_slot < 0 ∨ (LeafNodesPerPage : Int) ≤ page.fp_next_slot then 0
      else page.fp_next_slot.toNat
    match descend page.fp_nodes minvalue (climb page.fp_nodes minvalue (target + NonLeafNodesPerPage)) with
    | some nodeno => .found (nodeno - NonLeafNodesPerPage)
    | none => .torn

/-- The end of `fsm_search_avail`: the hint moves to the slot or past it. -/
def searchFinish (page : FSMPage) (advancenext : Bool) : SearchResult → FSMPage × Option Nat
  | .found slot => ({ page with fp_next_slot := slot + (if advancenext then 1 else 0) }, some slot)
  | _ => (page, none)

/-- **`fsm_search_avail`**: the page, and the slot (`none` for `-1`). -/
def fsm_search_avail (page : FSMPage) (minvalue : Nat) (advancenext : Bool) : FSMPage × Option Nat :=
  match searchOnce page minvalue with
  | .torn =>
      let page := fsm_rebuild_page page
      searchFinish page advancenext (searchOnce page minvalue)
  | r => searchFinish page advancenext r

/-! ## 2. Setting a slot -/

/-- **The page is a tree.** -/
def FSMPage.Ok (page : FSMPage) : Prop := MaxTree.Tree NodesPerPage NonLeafNodesPerPage page.fp_nodes

theorem zero_ok : FSMPage.zero.Ok := by
  intro x _
  simp [FSMPage.zero, MaxTree.childMax, MaxTree.node]

/-- What the two loops compute is the larger of the children. -/
theorem rebuild_value (f : Nat → Nat) (x : Nat) :
    (if leftchild x + 1 < NodesPerPage
      then max (if leftchild x < NodesPerPage then f (leftchild x) else 0) (f (leftchild x + 1))
      else if leftchild x < NodesPerPage then f (leftchild x) else 0) =
      MaxTree.childMax NodesPerPage f x := by
  unfold MaxTree.childMax MaxTree.node leftchild
  split <;> simp

theorem propagate_value {f : Nat → Nat} {x : Nat} (h : leftchild x < NodesPerPage) :
    (if leftchild x + 1 < NodesPerPage then max (f (leftchild x)) (f (leftchild x + 1))
      else f (leftchild x)) = MaxTree.childMax NodesPerPage f x := by
  rw [← rebuild_value, if_pos h]

/-- **The climb ends in a tree**, and the leaves stay. -/
theorem propagate_spec {f : Nat → Nat} {nodeno : Nat} (h0 : 0 < nodeno) (hn : nodeno < NodesPerPage)
    (h : TreeBut NodesPerPage NonLeafNodesPerPage f (parentof nodeno)) :
    MaxTree.Tree NodesPerPage NonLeafNodesPerPage (propagate f nodeno) ∧
      ∀ x, NonLeafNodesPerPage ≤ x → propagate f nodeno x = f x := by
  induction nodeno using Nat.strong_induction_on generalizing f with
  | _ nodeno ih =>
      have hp : parentof nodeno < NonLeafNodesPerPage := by
        rw [nodesPerPage_eq] at hn
        rw [nonLeafNodesPerPage_eq]
        unfold parentof
        omega
      have hl : leftchild (parentof nodeno) < NodesPerPage := by
        unfold leftchild parentof
        omega
      have hstay : ∀ v x, NonLeafNodesPerPage ≤ x → Function.update f (parentof nodeno) v x = f x :=
        fun v x hx => Function.update_of_ne (by omega) v f
      rw [propagate]
      simp only [propagate_value hl]
      split
      · rename_i he
        exact ⟨h.done he, fun _ _ => rfl⟩
      · split
        · rename_i hpos
          have hlt := MaxTree.parentof_lt h0
          obtain ⟨h1, h2⟩ := ih _ hlt hpos (hlt.trans hn) (h.fix hpos)
          exact ⟨h1, fun x hx => (h2 x hx).trans (hstay _ x hx)⟩
        · rename_i hpos
          have hroot : parentof nodeno = 0 := by omega
          refine ⟨?_, hstay _⟩
          rw [hroot] at h ⊢
          exact h.fix_root

theorem rebuildLoop_spec (f : Nat → Nat) (m : Nat)
    (h : ∀ x, m ≤ x → x < NonLeafNodesPerPage → f x = MaxTree.childMax NodesPerPage f x)
    (hm : m ≤ NonLeafNodesPerPage) :
    MaxTree.Tree NodesPerPage NonLeafNodesPerPage (rebuildLoop f m) ∧
      ∀ x, m ≤ x → rebuildLoop f m x = f x := by
  induction m generalizing f with
  | zero => exact ⟨fun x hx => h x (Nat.zero_le x) hx, fun _ _ => rfl⟩
  | succ m ih =>
      rw [rebuildLoop]
      simp only [rebuild_value]
      -- node `m` is set last; its own children and those above it have larger numbers
      have hchild : ∀ x, m ≤ x → MaxTree.childMax NodesPerPage
          (Function.update f m (MaxTree.childMax NodesPerPage f m)) x = MaxTree.childMax NodesPerPage f x :=
        fun x hx => MaxTree.childMax_congr fun y hy => Function.update_of_ne (by omega) _ f
      obtain ⟨h1, h2⟩ := ih (Function.update f m (MaxTree.childMax NodesPerPage f m))
        (by
          intro x hx hk
          rw [hchild x hx]
          by_cases e : x = m
          · rw [e, Function.update_self]
          · rw [Function.update_of_ne e]
            exact h x (by omega) hk) (by omega)
      exact ⟨h1, fun x hx => (h2 x (by omega)).trans (Function.update_of_ne (by omega) _ f)⟩

theorem rebuild_nodes (page : FSMPage) :
    (fsm_rebuild_page page).fp_nodes = rebuildLoop page.fp_nodes NonLeafNodesPerPage := by
  rw [fsm_rebuild_page]

/-- **A rebuilt page is a tree**, and its slots are the same. -/
theorem rebuild_ok (page : FSMPage) : (fsm_rebuild_page page).Ok ∧
    ∀ slot, fsm_get_avail (fsm_rebuild_page page) slot = fsm_get_avail page slot := by
  have h := rebuildLoop_spec page.fp_nodes NonLeafNodesPerPage
    (fun x hx hk => absurd hk (Nat.not_lt.mpr hx)) (Nat.le_refl _)
  rw [← rebuild_nodes] at h
  refine ⟨h.1, fun slot => ?_⟩
  rw [fsm_get_avail, fsm_get_avail]
  rw [h.2 (NonLeafNodesPerPage + slot) (Nat.le_add_right _ _)]

/-- **`fsm_set_avail`** sets the slot and keeps the tree. -/
theorem set_avail_spec {page : FSMPage} (h : page.Ok) {slot value : Nat} (hs : slot < SlotsPerFSMPage) :
    (fsm_set_avail page slot value).1.Ok ∧
      ∀ s, fsm_get_avail (fsm_set_avail page slot value).1 s =
        if s = slot then value else fsm_get_avail page s := by
  have hslot : NonLeafNodesPerPage + slot < NodesPerPage := by
    rw [slotsPerFSMPage_eq] at hs
    rw [nonLeafNodesPerPage_eq, nodesPerPage_eq]
    omega
  have hpos : 0 < NonLeafNodesPerPage + slot := by
    rw [nonLeafNodesPerPage_eq]
    omega
  obtain ⟨h1, h2⟩ := propagate_spec hpos hslot
    (h.set_leaf (v := value) (Nat.le_add_right NonLeafNodesPerPage slot))
  have hget : ∀ s, propagate (Function.update page.fp_nodes (NonLeafNodesPerPage + slot) value)
      (NonLeafNodesPerPage + slot) (NonLeafNodesPerPage + s) =
        if s = slot then value else fsm_get_avail page s := by
    intro s
    rw [h2 _ (Nat.le_add_right _ _)]
    split
    · rename_i e
      rw [e, Function.update_self]
    · exact Function.update_of_ne (by omega) _ _
  unfold fsm_set_avail
  simp only
  split
  · rename_i hsame
    refine ⟨h, fun s => ?_⟩
    split
    · rename_i e
      rw [e]
      exact hsame.1
    · rfl
  · split
    · obtain ⟨h3, h4⟩ := rebuild_ok ⟨page.fp_next_slot, propagate
        (Function.update page.fp_nodes (NonLeafNodesPerPage + slot) value) (NonLeafNodesPerPage + slot)⟩
      exact ⟨h3, fun s => (h4 s).trans (hget s)⟩
    · exact ⟨h1, hget⟩

/-- What the loop of `fsm_truncate_avail` leaves, and when it reports a change. -/
theorem clear_foldl (k : Nat) (f : Nat → Nat) (ptr : Nat) (changed : Bool) :
    (∀ x, ((List.range' ptr k).foldl (fun r ptr => (Function.update r.1 ptr 0, r.2 || r.1 ptr != 0))
        (f, changed)).1 x = if ptr ≤ x ∧ x < ptr + k then 0 else f x) ∧
      (((List.range' ptr k).foldl (fun r ptr => (Function.update r.1 ptr 0, r.2 || r.1 ptr != 0))
        (f, changed)).2 = false → changed = false ∧ ∀ x, ptr ≤ x → x < ptr + k → f x = 0) := by
  induction k generalizing f ptr changed with
  | zero =>
      refine ⟨fun x => ?_, fun hc => ⟨hc, fun x h1 h2 => absurd h2 (by omega)⟩⟩
      rw [if_neg (by omega)]
      rfl
  | succ k ih =>
      rw [List.range'_succ, List.foldl_cons]
      obtain ⟨h1, h2⟩ := ih (Function.update f ptr 0) (ptr + 1) (changed || f ptr != 0)
      refine ⟨fun x => ?_, fun hc => ?_⟩
      · rw [h1 x]
        by_cases e : x = ptr
        · rw [e, Function.update_self, ite_self, if_pos ⟨Nat.le_refl _, by omega⟩]
        · rw [Function.update_of_ne e]
          refine if_congr ?_ rfl rfl
          omega
      · obtain ⟨hflag, hclear⟩ := h2 hc
        obtain ⟨hchanged, hptr⟩ := Bool.or_eq_false_iff.mp hflag
        refine ⟨hchanged, fun x hx hk => ?_⟩
        by_cases e : x = ptr
        · rw [e]
          exact not_not.mp fun hne => Bool.eq_false_iff.mp hptr (bne_iff_ne.mpr hne)
        · have h := hclear x (by omega) (by omega)
          rwa [Function.update_of_ne e] at h

theorem clearLoop_spec (f : Nat → Nat) (ptr : Nat) :
    (∀ x, (clearLoop f ptr).1 x = if ptr ≤ x ∧ x < NodesPerPage then 0 else f x) ∧
      ((clearLoop f ptr).2 = false → ∀ x, ptr ≤ x → x < NodesPerPage → f x = 0) := by
  obtain ⟨h1, h2⟩ := clear_foldl (NodesPerPage - ptr) f ptr false
  refine ⟨fun x => (h1 x).trans (if_congr ?_ rfl rfl), fun hc x hx hn => (h2 hc).2 x hx (by omega)⟩
  omega

/-- **`fsm_truncate_avail`** clears the slots from `nslots` on, of any page, and keeps the tree. -/
theorem truncate_avail_spec (page : FSMPage) (nslots : Nat) :
    (page.Ok → (fsm_truncate_avail page nslots).1.Ok) ∧
      ∀ slot, slot < SlotsPerFSMPage → fsm_get_avail (fsm_truncate_avail page nslots).1 slot =
        if nslots ≤ slot then 0 else fsm_get_avail page slot := by
  obtain ⟨h1, h2⟩ := clearLoop_spec page.fp_nodes (NonLeafNodesPerPage + nslots)
  have hleaf : ∀ slot, slot < SlotsPerFSMPage →
      (clearLoop page.fp_nodes (NonLeafNodesPerPage + nslots)).1 (NonLeafNodesPerPage + slot) =
        if nslots ≤ slot then 0 else fsm_get_avail page slot := by
    intro slot hs
    rw [h1]
    refine if_congr ?_ rfl rfl
    rw [slotsPerFSMPage_eq] at hs
    rw [nonLeafNodesPerPage_eq, nodesPerPage_eq]
    omega
  unfold fsm_truncate_avail
  simp only
  split
  · obtain ⟨h3, h4⟩ := rebuild_ok
      { page with fp_nodes := (clearLoop page.fp_nodes (NonLeafNodesPerPage + nslots)).1 }
    exact ⟨fun _ => h3, fun slot hs => (h4 slot).trans (hleaf slot hs)⟩
  · rename_i hc
    refine ⟨fun hok => ?_, hleaf⟩
    -- the slots that were cleared were empty
    have hsame : (clearLoop page.fp_nodes (NonLeafNodesPerPage + nslots)).1 = page.fp_nodes := by
      funext x
      rw [h1]
      split
      · rename_i hx
        exact (h2 (Bool.eq_false_iff.mpr hc) x hx.1 hx.2).symm
      · rfl
    unfold FSMPage.Ok
    simp only [hsame]
    exact hok

/-! ## 3. Searching a page -/

theorem climb_spec {f : Nat → Nat} {minvalue nodeno : Nat} (h0 : minvalue ≤ f 0)
    (hn : nodeno < NodesPerPage) :
    climb f minvalue nodeno < NodesPerPage ∧ minvalue ≤ f (climb f minvalue nodeno) := by
  induction nodeno using Nat.strong_induction_on with
  | _ nodeno ih =>
      rw [climb]
      split
      · rename_i hpos
        split
        · exact ⟨hn, ‹_›⟩
        · have hlt := parentof_rightneighbor_lt hpos
          exact ih _ hlt (by omega)
      · rename_i hpos
        have e : nodeno = 0 := by omega
        rw [e]
        exact ⟨by rw [nodesPerPage_eq]; omega, h0⟩

theorem descend_spec {f : Nat → Nat} (h : MaxTree.Tree NodesPerPage NonLeafNodesPerPage f) {minvalue : Nat}
    (hmin : 0 < minvalue) {nodeno : Nat} (hn : nodeno < NodesPerPage) (hle : minvalue ≤ f nodeno) :
    ∃ r, descend f minvalue nodeno = some r ∧ NonLeafNodesPerPage ≤ r ∧ r < NodesPerPage ∧
      minvalue ≤ f r := by
  induction hd : NodesPerPage - nodeno using Nat.strong_induction_on generalizing nodeno with
  | _ d ih =>
      rw [descend]
      split
      · rename_i hk
        have hlt : nodeno < leftchild nodeno := by
          unfold leftchild
          omega
        split
        · rename_i hl
          exact ih _ (by omega) hl.1 hl.2 rfl
        · rename_i hl
          split
          · rename_i hr
            exact ih _ (by omega) hr.1 hr.2 rfl
          · rename_i hr
            rcases h.exists_child hk hmin hle with hc | hc
            · exact absurd hc hl
            · exact absurd hc hr
      · rename_i hk
        exact ⟨nodeno, rfl, Nat.le_of_not_lt hk, hn, hle⟩

/-- A page that is a tree is not torn. -/
theorem searchOnce_spec {page : FSMPage} (h : page.Ok) {minvalue : Nat} (hmin : 0 < minvalue) :
    (searchOnce page minvalue = .notFound ∧ fsm_get_max_avail page < minvalue) ∨
      ∃ slot, searchOnce page minvalue = .found slot ∧ slot < SlotsPerFSMPage ∧
        minvalue ≤ fsm_get_avail page slot := by
  unfold searchOnce
  split
  · exact Or.inl ⟨rfl, ‹_›⟩
  · rename_i hroot
    refine Or.inr ?_
    have htarget : ∀ t : Int, (if t < 0 ∨ (LeafNodesPerPage : Int) ≤ t then 0 else t.toNat) +
        NonLeafNodesPerPage < NodesPerPage := by
      intro t
      have hl : LeafNodesPerPage = 4069 := slotsPerFSMPage_eq
      rw [nonLeafNodesPerPage_eq, nodesPerPage_eq, hl]
      split <;> omega
    obtain ⟨h1, h2⟩ := climb_spec (Nat.le_of_not_lt hroot) (htarget page.fp_next_slot)
    obtain ⟨r, hr, hk, hrn, hle⟩ := descend_spec h hmin h1 h2
    simp only [hr]
    refine ⟨r - NonLeafNodesPerPage, rfl, ?_, ?_⟩
    · unfold SlotsPerFSMPage LeafNodesPerPage
      omega
    · unfold fsm_get_avail
      rw [Nat.add_sub_cancel' hk]
      exact hle

/-- **`fsm_search_avail`** finds a slot with enough space exactly when the root has it, and leaves the
    nodes as they are. -/
theorem search_avail_spec {page : FSMPage} (h : page.Ok) {minvalue : Nat} (hmin : 0 < minvalue)
    (advancenext : Bool) :
    (fsm_search_avail page minvalue advancenext).1.fp_nodes = page.fp_nodes ∧
      (((fsm_search_avail page minvalue advancenext).2 = none ∧ fsm_get_max_avail page < minvalue) ∨
        ∃ slot, (fsm_search_avail page minvalue advancenext).2 = some slot ∧ slot < SlotsPerFSMPage ∧
          minvalue ≤ fsm_get_avail page slot) := by
  unfold fsm_search_avail
  rcases searchOnce_spec h hmin with ⟨e, hlt⟩ | ⟨slot, e, hs, hle⟩
  · rw [e]
    exact ⟨rfl, Or.inl ⟨rfl, hlt⟩⟩
  · rw [e]
    exact ⟨rfl, Or.inr ⟨slot, rfl, hs, hle⟩⟩

/-! ## 4. The root of a page -/

theorem nodes_le : NodesPerPage ≤ 2 * NonLeafNodesPerPage + 1 := by
  rw [nodesPerPage_eq, nonLeafNodesPerPage_eq]
  omega

theorem get_avail_le_max {page : FSMPage} (h : page.Ok) {slot : Nat} (hs : slot < SlotsPerFSMPage) :
    fsm_get_avail page slot ≤ fsm_get_max_avail page := by
  refine h.le_root nodes_le ?_
  rw [slotsPerFSMPage_eq] at hs
  rw [nonLeafNodesPerPage_eq, nodesPerPage_eq]
  omega

/-- The root is determined by the slots. -/
theorem max_avail_congr {p q : FSMPage} (hp : p.Ok) (hq : q.Ok)
    (h : ∀ slot, slot < SlotsPerFSMPage → fsm_get_avail p slot = fsm_get_avail q slot) :
    fsm_get_max_avail p = fsm_get_max_avail q := by
  refine MaxTree.Tree.root_eq hp hq nodes_le (by rw [nodesPerPage_eq]; omega) fun x hk hn => ?_
  have he := h (x - NonLeafNodesPerPage) (by unfold SlotsPerFSMPage LeafNodesPerPage; omega)
  unfold fsm_get_avail at he
  rwa [Nat.add_sub_cancel' hk] at he

end Pgvec.Storage.Fsm
