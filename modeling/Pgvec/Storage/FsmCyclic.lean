/-
  File:      Pgvec/Storage/FsmCyclic.lean
  Subject:   `fsm_search_avail` FINDS THE FIRST SLOT TO THE RIGHT of where it starts, around the end of the
             page.

  The climb moves to the right and then up. A node `j` levels above the bottom stands for `2 ^ j` positions
  there; the bottom level would have 4096 of them, and those past the last slot are missing.

  * `Behind` -- every slot between the start and a position is too small, perhaps around the end;
    `Behind.grow` -- the positions below a node that is too small join it;
  * `Climbing` -- the invariant of the climb; `Climbing.next` -- a step to the right and up keeps it;
  * `descend_first` -- the descent takes the first slot below its node that is large enough;
  * `searchAvailLoop` -- the function with its `goto restart`; one rebuild is enough (`searchAvailLoop_eq`);
  * **`search_first`**, **`page_search`** -- the results for one page.
-/
import Pgvec.Storage.FsmPage

namespace Pgvec.Storage.Fsm

open MaxTree (parentof Below below_iff)

variable {f : Nat → Nat} {minvalue target stop nodeno j : Nat}

/-! ## 1. What the climb leaves behind -/

/-- The node is missing or too small. -/
def Small (fp_nodes : Nat → Nat) (minvalue x : Nat) : Prop := x < NodesPerPage → fp_nodes x < minvalue

/-- The position lies at or to the right of `target` and to the left of `stop`, around the end where `stop`
    is to the left of `target`. -/
def Passed (target stop x : Nat) : Prop :=
  if target ≤ stop then target ≤ x ∧ x < stop else target ≤ x ∨ x < stop

/-- The positions that have been passed are too small. -/
def Behind (fp_nodes : Nat → Nat) (minvalue target stop : Nat) : Prop :=
  ∀ x, 4095 ≤ x → x < 8191 → Passed target stop x → Small fp_nodes minvalue x

/-- Some more positions are too small. -/
theorem Behind.grow (h : Behind f minvalue target stop) {w : Nat}
    (hw : ∀ x, stop ≤ x → x < stop + w → Small f minvalue x) : Behind f minvalue target (stop + w) := by
  intro x h1 h2 hp
  by_cases hx : stop ≤ x ∧ x < stop + w
  · exact hw x hx.1 hx.2
  · refine h x h1 h2 ?_
    unfold Passed at hp ⊢
    split at hp <;> split <;> omega

/-- The end of the level has been reached: the search goes on at its first position. -/
theorem Behind.wrap (h : Behind f minvalue target 8191) : Behind f minvalue target 4095 := by
  intro x h1 h2 hp
  refine h x h1 h2 ?_
  unfold Passed at hp ⊢
  split at hp <;> split <;> omega

/-! ## 2. A step to the right and up -/

/-- **The invariant of the climb** at a node `j` levels above the bottom. -/
structure Climbing (fp_nodes : Nat → Nat) (minvalue target nodeno j : Nat) : Prop where
  level : 4096 ≤ (nodeno + 1) * 2 ^ j ∧ (nodeno + 1) * 2 ^ j < 8192
  behind : Behind fp_nodes minvalue target ((nodeno + 1) * 2 ^ j - 1)

theorem climbing_leaf (h1 : 4095 ≤ target) (h2 : target < 8191) : Climbing f minvalue target target 0 := by
  refine ⟨by omega, fun x _ _ hp => ?_⟩
  unfold Passed at hp
  rw [pow_zero, Nat.mul_one, Nat.add_sub_cancel, if_pos (Nat.le_refl _)] at hp
  omega

/-- The numbers at the end of a level. -/
theorem rightneighbor_eq (x : Nat) :
    rightneighbor x = if (x + 2).isPowerOfTwo then parentof (x + 1) else x + 1 := by
  unfold rightneighbor
  exact if_congr (Nat.and_sub_one_eq_zero_iff_isPowerOfTwo (Nat.succ_ne_zero (x + 1))) rfl rfl

/-- A level ends where the next number is a power of two. -/
theorem level_end (hlevel : 4096 ≤ (nodeno + 1) * 2 ^ j ∧ (nodeno + 1) * 2 ^ j < 8192) :
    (nodeno + 2).isPowerOfTwo ↔ (nodeno + 2) * 2 ^ j = 8192 := by
  have hpos := Nat.two_pow_pos j
  have hsucc : (nodeno + 2) * 2 ^ j = (nodeno + 1) * 2 ^ j + 2 ^ j := Nat.succ_mul (nodeno + 1) (2 ^ j)
  have hle : 1 * 2 ^ j ≤ (nodeno + 1) * 2 ^ j := Nat.mul_le_mul_right _ (by omega)
  constructor
  · intro ⟨m, hm⟩
    -- a power of two above 4096 and at most `2 * 8191`
    have h : (nodeno + 2) * 2 ^ j = 2 ^ (m + j) := by rw [hm, ← pow_add]
    have hlow : 2 ^ 12 < 2 ^ (m + j) := by omega
    have hhigh : 2 ^ (m + j) < 2 ^ 14 := by omega
    have h12 := (Nat.pow_lt_pow_iff_right Nat.one_lt_two).mp hlow
    have h14 := (Nat.pow_lt_pow_iff_right Nat.one_lt_two).mp hhigh
    have e : m + j = 13 := by omega
    rw [h, e]
    rfl
  · intro h
    have hdvd : nodeno + 2 ∣ 2 ^ 13 := ⟨2 ^ j, h.symm⟩
    obtain ⟨m, -, hm⟩ := (Nat.dvd_prime_pow Nat.prime_two).mp hdvd
    exact ⟨m, hm⟩

/-- The positions below the nodes of a level fill the bottom level. -/
theorem level_le (h : (nodeno + 1) * 2 ^ j < 8192) : (nodeno + 2) * 2 ^ j ≤ 8192 := by
  have hle : 1 * 2 ^ j ≤ (nodeno + 1) * 2 ^ j := Nat.mul_le_mul_right _ (by omega)
  have hj : j < 13 := (Nat.pow_lt_pow_iff_right Nat.one_lt_two).mp (by omega : 2 ^ j < 2 ^ 13)
  have hsplit : 2 ^ (13 - j) * 2 ^ j = 8192 := by
    rw [← pow_add, Nat.sub_add_cancel hj.le]
    rfl
  rw [← hsplit] at h ⊢
  exact Nat.mul_le_mul_right _ (Nat.lt_of_mul_lt_mul_right h)

/-- From the end of a level the climb goes to the first node of the level above. -/
theorem first_of_level (h0 : 0 < nodeno) (hpow : (nodeno + 2).isPowerOfTwo)
    (he : (nodeno + 2) * 2 ^ j = 8192) : (parentof (parentof (nodeno + 1)) + 1) * 2 ^ (j + 1) = 4096 := by
  obtain ⟨m, hm⟩ := hpow
  have htwo : 2 ≤ m := by
    by_contra hlt
    have hle : 2 ^ m ≤ 2 ^ 1 := Nat.pow_le_pow_right Nat.two_pos (by omega)
    omega
  obtain ⟨i, rfl⟩ : ∃ i, m = i + 2 := ⟨m - 2, by omega⟩
  have hfour : 2 ^ (i + 2) = 4 * 2 ^ i := by rw [pow_add, Nat.mul_comm (2 ^ i)]; rfl
  have hipos := Nat.two_pow_pos i
  have hnext : parentof (parentof (nodeno + 1)) + 1 = 2 ^ i := by
    unfold parentof
    omega
  have hdouble : 2 ^ i * 2 ^ (j + 1) * 2 = 8192 := by
    calc 2 ^ i * 2 ^ (j + 1) * 2 = 4 * 2 ^ i * 2 ^ j := by rw [pow_succ]; ring
      _ = 8192 := by rw [← hfour, ← hm, he]
  rw [hnext]
  omega

/-- A right child: the positions below its parent's right neighbor start behind it. -/
theorem right_child_end (e : nodeno = 2 * (nodeno / 2)) :
    (nodeno / 2 + 1) * 2 ^ (j + 1) = (nodeno + 2) * 2 ^ j :=
  calc (nodeno / 2 + 1) * 2 ^ (j + 1) = (2 * (nodeno / 2) + 2) * 2 ^ j := by rw [pow_succ]; ring
    _ = (nodeno + 2) * 2 ^ j := by rw [← e]

/-- A left child: its parent has the same first position. -/
theorem left_child_start (e : nodeno = 2 * (nodeno / 2) + 1) :
    (nodeno / 2 + 1) * 2 ^ (j + 1) = (nodeno + 1) * 2 ^ j :=
  calc (nodeno / 2 + 1) * 2 ^ (j + 1) = (2 * (nodeno / 2) + 1 + 1) * 2 ^ j := by rw [pow_succ]; ring
    _ = (nodeno + 1) * 2 ^ j := by rw [← e]

/-- All that lies below a node that is too small is too small. -/
theorem small_below (h : MaxTree.Tree NodesPerPage NonLeafNodesPerPage f) (hsmall : f nodeno < minvalue) {x : Nat}
    (hb : Below j nodeno x) : Small f minvalue x := fun hx =>
  lt_of_le_of_lt (h.le_above nodes_le hx hb) hsmall

/-- **One step of the climb**: the node is too small, and with it all that lies below it. -/
theorem Climbing.next (hc : Climbing f minvalue target nodeno j)
    (h : MaxTree.Tree NodesPerPage NonLeafNodesPerPage f) (h0 : 0 < nodeno) (hsmall : f nodeno < minvalue) :
    Climbing f minvalue target (parentof (rightneighbor nodeno)) (j + 1) := by
  obtain ⟨hlevel, hbehind⟩ := hc
  have hsucc : (nodeno + 2) * 2 ^ j = (nodeno + 1) * 2 ^ j + 2 ^ j := Nat.succ_mul (nodeno + 1) (2 ^ j)
  have hpos := Nat.two_pow_pos j
  have hstart : (nodeno + 2) * 2 ^ j - 1 = (nodeno + 1) * 2 ^ j - 1 + 2 ^ j := by omega
  have hgrown : Behind f minvalue target ((nodeno + 2) * 2 ^ j - 1) := by
    rw [hstart]
    refine hbehind.grow fun x h1 h2 => small_below (j := j) h hsmall (below_iff.mpr ?_)
    omega
  rw [rightneighbor_eq]
  split
  · rename_i hpow
    have he := (level_end hlevel).mp hpow
    have hfirst := first_of_level h0 hpow he
    refine ⟨by omega, ?_⟩
    rw [he] at hgrown
    rw [hfirst]
    exact hgrown.wrap
  · rename_i hpow
    have hne : (nodeno + 2) * 2 ^ j ≠ 8192 := fun e => hpow ((level_end hlevel).mpr e)
    have hnext : 4096 ≤ (nodeno + 2) * 2 ^ j ∧ (nodeno + 2) * 2 ^ j < 8192 := by
      have hle := level_le hlevel.2
      omega
    have hparent : parentof (nodeno + 1) = nodeno / 2 := by
      unfold parentof
      omega
    rw [hparent]
    have hparity : nodeno = 2 * (nodeno / 2) ∨ nodeno = 2 * (nodeno / 2) + 1 := by omega
    rcases hparity with e | e
    · rw [← right_child_end e] at hgrown hnext
      exact ⟨hnext, hgrown⟩
    · rw [← left_child_start e] at hlevel hbehind
      exact ⟨hlevel, hbehind⟩

/-- **The climb** ends at a node that is large enough, with all before it too small. -/
theorem climb_first (h : MaxTree.Tree NodesPerPage NonLeafNodesPerPage f) (hroot : minvalue ≤ f 0)
    (hc : Climbing f minvalue target nodeno j) :
    ∃ i, Climbing f minvalue target (climb f minvalue nodeno) i ∧ minvalue ≤ f (climb f minvalue nodeno) := by
  induction nodeno using Nat.strong_induction_on generalizing j with
  | _ nodeno ih =>
      rw [climb]
      split
      · rename_i hpos
        split
        · exact ⟨j, hc, ‹_›⟩
        · rename_i hsmall
          exact ih _ (parentof_rightneighbor_lt hpos) (hc.next h hpos (Nat.lt_of_not_le hsmall))
      · rename_i hpos
        have e : nodeno = 0 := by omega
        rw [e] at hc ⊢
        exact ⟨j, hc, hroot⟩

/-! ## 3. The descent -/

/-- What the descent from a node returns: the first leaf below it that is large enough. -/
structure FirstBelow (fp_nodes : Nat → Nat) (minvalue j nodeno r : Nat) : Prop where
  below : Below j nodeno r
  leaf : NonLeafNodesPerPage ≤ r ∧ r < NodesPerPage
  enough : minvalue ≤ fp_nodes r
  first : ∀ x, Below j nodeno x → x < r → Small fp_nodes minvalue x

/-- The nodes below a node are below its left or its right child. -/
theorem below_children {x : Nat} (hb : Below (j + 1) nodeno x) :
    Below j (leftchild nodeno) x ∨ Below j (leftchild nodeno + 1) x := by
  obtain ⟨z, hz, hpos, hp⟩ := hb.up
  have hcases : z = leftchild nodeno ∨ z = leftchild nodeno + 1 := by
    unfold parentof at hp
    unfold leftchild
    omega
  rcases hcases with rfl | rfl
  · exact Or.inl hz
  · exact Or.inr hz

theorem below_of_child {x c : Nat} (hb : Below j c x) (hc : 0 < c) (hp : parentof c = nodeno) :
    Below (j + 1) nodeno x := by
  unfold Below at hb ⊢
  unfold parentof at hp
  rw [pow_succ, ← Nat.div_div_eq_div_mul, hb]
  omega

/-- What is below the left child lies before what is below the right one. -/
theorem below_left_lt {x y : Nat} (hx : Below j nodeno x) (hy : Below j (nodeno + 1) y) : x < y := by
  have h1 : x + 1 < (nodeno + 2) * 2 ^ j := (below_iff.mp hx).2
  have h2 : (nodeno + 2) * 2 ^ j ≤ y + 1 := (below_iff.mp hy).1
  omega

/-- A left child is not the last node of its level. -/
theorem right_child_level (hlevel : 4096 ≤ (leftchild nodeno + 1) * 2 ^ j ∧
      (leftchild nodeno + 1) * 2 ^ j < 8192) :
    4096 ≤ (leftchild nodeno + 1 + 1) * 2 ^ j ∧ (leftchild nodeno + 1 + 1) * 2 ^ j < 8192 := by
  have hle : (leftchild nodeno + 2) * 2 ^ j ≤ 8192 := level_le hlevel.2
  have hsucc : (leftchild nodeno + 2) * 2 ^ j = (leftchild nodeno + 1) * 2 ^ j + 2 ^ j :=
    Nat.succ_mul (leftchild nodeno + 1) (2 ^ j)
  have hpos := Nat.two_pow_pos j
  have hne : (leftchild nodeno + 2) * 2 ^ j ≠ 8192 := by
    intro he
    obtain ⟨m, hm⟩ := (level_end hlevel).mpr he
    unfold leftchild at hm
    -- the number is odd and not 1
    cases m with
    | zero => omega
    | succ m =>
        rw [pow_succ] at hm
        omega
  show 4096 ≤ (leftchild nodeno + 2) * 2 ^ j ∧ (leftchild nodeno + 2) * 2 ^ j < 8192
  omega

/-- **The descent** finds the first leaf below its node that is large enough. -/
theorem descend_first (h : MaxTree.Tree NodesPerPage NonLeafNodesPerPage f)
    (hlevel : 4096 ≤ (nodeno + 1) * 2 ^ j ∧ (nodeno + 1) * 2 ^ j < 8192) (hn : nodeno < NodesPerPage)
    (hle : minvalue ≤ f nodeno) (hmin : 0 < minvalue ∨ j = 0) :
    ∃ r, descend f minvalue nodeno = some r ∧ FirstBelow f minvalue j nodeno r := by
  induction j generalizing nodeno with
  | zero =>
      have hleaf : NonLeafNodesPerPage ≤ nodeno := by
        rw [nonLeafNodesPerPage_eq]
        omega
      rw [descend, if_neg (Nat.not_lt.mpr hleaf)]
      have hself : Below 0 nodeno nodeno := by rw [Below, pow_zero, Nat.div_one]
      refine ⟨nodeno, rfl, hself, ⟨hleaf, hn⟩, hle, fun x hb hx => ?_⟩
      unfold Below at hb
      omega
  | succ j ih =>
      have hpos := hmin.resolve_right (Nat.succ_ne_zero j)
      have hinner : nodeno < NonLeafNodesPerPage := by
        have hle : (nodeno + 1) * 2 ≤ (nodeno + 1) * 2 ^ (j + 1) := by
          refine Nat.mul_le_mul_left _ ?_
          exact Nat.le_self_pow (Nat.succ_ne_zero j) 2
        rw [nonLeafNodesPerPage_eq]
        omega
      -- both children are `j` levels above the bottom
      have hl : (leftchild nodeno + 1) * 2 ^ j = (nodeno + 1) * 2 ^ (j + 1) := by
        unfold leftchild
        rw [pow_succ]
        ring
      have hleft : 4096 ≤ (leftchild nodeno + 1) * 2 ^ j ∧ (leftchild nodeno + 1) * 2 ^ j < 8192 := by
        rw [hl]
        exact hlevel
      rw [descend, if_pos hinner]
      split
      · rename_i hgood
        obtain ⟨r, hr, hfirst⟩ := ih hleft hgood.1 hgood.2 (Or.inl hpos)
        refine ⟨r, hr, below_of_child hfirst.below (by unfold leftchild; omega)
          (by unfold parentof leftchild; omega), hfirst.leaf, hfirst.enough, fun x hb hx => ?_⟩
        rcases below_children hb with hb | hb
        · exact hfirst.first x hb hx
        · exact absurd (below_left_lt hfirst.below hb) (by omega)
      · rename_i hbad
        -- nothing below the left child is large enough
        have hsmall : ∀ x, Below j (leftchild nodeno) x → Small f minvalue x := by
          intro x hb hx
          have hlt : leftchild nodeno < NodesPerPage := lt_of_le_of_lt hb.le hx
          exact small_below h (Nat.lt_of_not_le fun hle => hbad ⟨hlt, hle⟩) hb hx
        have hright : leftchild nodeno + 1 < NodesPerPage ∧ minvalue ≤ f (leftchild nodeno + 1) :=
          (h.exists_child hinner hpos hle).resolve_left hbad
        rw [if_pos hright]
        have hlevel' : 4096 ≤ (leftchild nodeno + 1 + 1) * 2 ^ j ∧
            (leftchild nodeno + 1 + 1) * 2 ^ j < 8192 := right_child_level hleft
        obtain ⟨r, hr, hfirst⟩ := ih hlevel' hright.1 hright.2 (Or.inl hpos)
        refine ⟨r, hr, below_of_child hfirst.below (Nat.succ_pos _)
          (by unfold parentof leftchild; omega), hfirst.leaf, hfirst.enough, fun x hb hx => ?_⟩
        rcases below_children hb with hb | hb
        · exact hsmall x hb
        · exact hfirst.first x hb hx

/-! ## 4. The page -/

/-- The slot where the search starts. -/
def startOf (page : FSMPage) : Nat :=
  if page.fp_next_slot < 0 ∨ (LeafNodesPerPage : Int) ≤ page.fp_next_slot then 0
  else page.fp_next_slot.toNat

theorem startOf_lt (page : FSMPage) : startOf page < SlotsPerFSMPage := by
  have hl : LeafNodesPerPage = 4069 := slotsPerFSMPage_eq
  unfold startOf
  rw [slotsPerFSMPage_eq, hl]
  split <;> omega

/-- The first of `n` positions, from `start` to the right and around the end, of which `P` holds. -/
def FirstFrom (n start : Nat) (P : Nat → Prop) (slot : Nat) : Prop :=
  ∃ d, d < n ∧ slot = (start + d) % n ∧ P slot ∧ ∀ e, e < d → ¬ P ((start + e) % n)

/-- The slot that is found is the first one, around the end of the page. -/
theorem first_of_passed {P : Nat → Prop} {n start slot : Nat} (hstart : start < n) (hslot : slot < n)
    (hP : P slot) (hfirst : ∀ s, s < n → Passed start slot s → ¬ P s) : FirstFrom n start P slot := by
  by_cases hle : start ≤ slot
  · refine ⟨slot - start, by omega, ?_, hP, fun e he => ?_⟩
    · rw [Nat.add_sub_cancel' hle, Nat.mod_eq_of_lt hslot]
    · rw [Nat.mod_eq_of_lt (by omega)]
      refine hfirst _ (by omega) ?_
      unfold Passed
      rw [if_pos hle]
      omega
  · refine ⟨slot + n - start, by omega, ?_, hP, fun e he => ?_⟩
    · rw [Nat.add_sub_cancel' (by omega), Nat.add_mod_right, Nat.mod_eq_of_lt hslot]
    · have hmod : (start + e) % n < n := Nat.mod_lt _ (by omega)
      refine hfirst _ hmod ?_
      unfold Passed
      rw [if_neg hle]
      by_cases hwrap : start + e < n
      · rw [Nat.mod_eq_of_lt hwrap]
        omega
      · rw [Nat.mod_eq_sub_mod (by omega), Nat.mod_eq_of_lt (by omega)]
        omega

theorem small_slot {page : FSMPage} {s : Nat} (hs : s < SlotsPerFSMPage) :
    Small page.fp_nodes minvalue (NonLeafNodesPerPage + s) ↔ ¬ minvalue ≤ fsm_get_avail page s := by
  have hlt : NonLeafNodesPerPage + s < NodesPerPage := by
    rw [slotsPerFSMPage_eq] at hs
    rw [nonLeafNodesPerPage_eq, nodesPerPage_eq]
    omega
  unfold Small fsm_get_avail
  rw [Nat.not_le]
  exact ⟨fun h => h hlt, fun h _ => h⟩

/-- A value of zero is found at once. -/
theorem climb_level_zero (hmin : minvalue = 0) : climb f minvalue nodeno = nodeno := by
  rw [climb, hmin]
  split
  · exact if_pos (Nat.zero_le _)
  · rfl

theorem searchOnce_eq (page : FSMPage) (minvalue : Nat) : searchOnce page minvalue =
    if page.fp_nodes 0 < minvalue then .notFound
    else match descend page.fp_nodes minvalue
        (climb page.fp_nodes minvalue (startOf page + NonLeafNodesPerPage)) with
      | some nodeno => .found (nodeno - NonLeafNodesPerPage)
      | none => .torn := rfl

/-- Climb and descent in a tree whose root is large enough: the slot, and what has been passed. -/
theorem search_leaf {page : FSMPage} (h : page.Ok) (hroot : minvalue ≤ page.fp_nodes 0) :
    ∃ slot, slot < SlotsPerFSMPage ∧ minvalue ≤ fsm_get_avail page slot ∧
      descend page.fp_nodes minvalue (climb page.fp_nodes minvalue (startOf page + NonLeafNodesPerPage)) =
        some (NonLeafNodesPerPage + slot) ∧
      Behind page.fp_nodes minvalue (startOf page + NonLeafNodesPerPage) (NonLeafNodesPerPage + slot) := by
  have hstart := startOf_lt page
  have hslots := slotsPerFSMPage_eq
  have hinner := nonLeafNodesPerPage_eq
  have hnodes := nodesPerPage_eq
  have hbegin : Climbing page.fp_nodes minvalue (startOf page + NonLeafNodesPerPage)
      (startOf page + NonLeafNodesPerPage) 0 := climbing_leaf (by omega) (by omega)
  have hlt : climb page.fp_nodes minvalue (startOf page + NonLeafNodesPerPage) < NodesPerPage :=
    (climb_spec hroot (by omega)).1
  obtain ⟨j, hc, henough, hj⟩ : ∃ j, Climbing page.fp_nodes minvalue (startOf page + NonLeafNodesPerPage)
      (climb page.fp_nodes minvalue (startOf page + NonLeafNodesPerPage)) j ∧
      minvalue ≤ page.fp_nodes (climb page.fp_nodes minvalue (startOf page + NonLeafNodesPerPage)) ∧
      (0 < minvalue ∨ j = 0) := by
    by_cases hmin : minvalue = 0
    · rw [climb_level_zero hmin]
      exact ⟨0, hbegin, by omega, Or.inr rfl⟩
    · obtain ⟨j, hc, henough⟩ := climb_first h hroot hbegin
      exact ⟨j, hc, henough, Or.inl (Nat.pos_of_ne_zero hmin)⟩
  obtain ⟨r, hr, hfirst⟩ := descend_first h hc.level hlt henough hj
  obtain ⟨hleaf, hrn⟩ := hfirst.leaf
  obtain ⟨slot, rfl⟩ : ∃ slot, r = NonLeafNodesPerPage + slot := ⟨r - NonLeafNodesPerPage, by omega⟩
  refine ⟨slot, by omega, hfirst.enough, hr, ?_⟩
  -- the positions below the last node that lie before the slot
  generalize climb page.fp_nodes minvalue (startOf page + NonLeafNodesPerPage) = top at hc hfirst
  have hbelow := below_iff.mp hfirst.below
  have hsplit : NonLeafNodesPerPage + slot =
      (top + 1) * 2 ^ j - 1 + (NonLeafNodesPerPage + slot - ((top + 1) * 2 ^ j - 1)) := by omega
  rw [hsplit]
  refine hc.behind.grow fun x h1 h2 => hfirst.first x (below_iff.mpr ?_) (by omega)
  omega

/-- **A pass over a tree** finds the first slot, or there is none. -/
theorem searchOnce_first {page : FSMPage} (h : page.Ok) (minvalue : Nat) :
    (searchOnce page minvalue = .notFound ∧ page.fp_nodes 0 < minvalue) ∨
      ∃ slot, searchOnce page minvalue = .found slot ∧ slot < SlotsPerFSMPage ∧
        FirstFrom SlotsPerFSMPage (startOf page) (fun s => minvalue ≤ fsm_get_avail page s) slot := by
  have hslots := slotsPerFSMPage_eq
  have hinner := nonLeafNodesPerPage_eq
  rw [searchOnce_eq]
  split
  · exact Or.inl ⟨rfl, ‹_›⟩
  · rename_i hroot
    obtain ⟨slot, hs, henough, hr, hbehind⟩ := search_leaf h (Nat.le_of_not_lt hroot)
    refine Or.inr ⟨slot, ?_, hs, first_of_passed (startOf_lt page) hs henough fun s hsn hp => ?_⟩
    · simp only [hr, Nat.add_sub_cancel_left]
    · refine (small_slot hsn).mp (hbehind _ (by omega) (by omega) ?_)
      unfold Passed at hp ⊢
      split at hp <;> split <;> omega

/-- The root of a tree is too small exactly when every slot is. -/
theorem root_lt_iff {page : FSMPage} (h : page.Ok) :
    page.fp_nodes 0 < minvalue ↔ ∀ slot, slot < SlotsPerFSMPage → fsm_get_avail page slot < minvalue := by
  constructor
  · exact fun hlt slot hs => lt_of_le_of_lt (get_avail_le_max h hs) hlt
  · intro hall
    rcases searchOnce_first h minvalue with ⟨-, hlt⟩ | ⟨slot, -, hs, -, -, -, hle, -⟩
    · exact hlt
    · exact absurd hle (Nat.not_le.mpr (hall slot hs))

/-- **`fsm_search_avail`** on a tree: there is no slot that is large enough, or it returns the first one to
    the right of its start. -/
theorem search_first {page : FSMPage} (h : page.Ok) (minvalue : Nat) (advancenext : Bool) :
    ((fsm_search_avail page minvalue advancenext).2 = none ↔
      ∀ slot, slot < SlotsPerFSMPage → fsm_get_avail page slot < minvalue) ∧
    ∀ slot, (fsm_search_avail page minvalue advancenext).2 = some slot →
      FirstFrom SlotsPerFSMPage (startOf page) (fun s => minvalue ≤ fsm_get_avail page s) slot := by
  unfold fsm_search_avail
  rcases searchOnce_first h minvalue with ⟨e, hlt⟩ | ⟨slot, e, hs, hfirst⟩
  · rw [e]
    exact ⟨iff_of_true rfl ((root_lt_iff h).mp hlt), fun slot hslot => by cases hslot⟩
  · rw [e]
    refine ⟨iff_of_false (by simp [searchFinish]) fun hall => ?_, fun s hslot => ?_⟩
    · obtain ⟨d, -, -, hle, -⟩ := hfirst
      exact Nat.not_le.mpr (hall slot hs) hle
    · cases hslot
      exact hfirst

/-! ## 5. Any page -/

/-- `fsm_search_avail` with its `goto restart`, at most `fuel` passes. -/
def searchAvailLoop (minvalue : Nat) (advancenext : Bool) : Nat → FSMPage → Option (FSMPage × Option Nat)
  | 0, _ => none
  | fuel + 1, page =>
      match searchOnce page minvalue with
      | .torn => searchAvailLoop minvalue advancenext fuel (fsm_rebuild_page page)
      | r => some (searchFinish page advancenext r)

/-- **One rebuild is enough**, whatever the page holds. -/
theorem searchAvailLoop_eq (page : FSMPage) (minvalue : Nat) (advancenext : Bool) :
    searchAvailLoop minvalue advancenext 2 page = some (fsm_search_avail page minvalue advancenext) := by
  have hrebuilt : ∀ r, searchOnce (fsm_rebuild_page page) minvalue = r → r ≠ .torn := by
    intro r hr
    rcases searchOnce_first (rebuild_ok page).1 minvalue with ⟨e, -⟩ | ⟨slot, e, -⟩
    · rw [← hr, e]
      exact fun h => by cases h
    · rw [← hr, e]
      exact fun h => by cases h
  unfold searchAvailLoop searchAvailLoop fsm_search_avail
  cases searchOnce page minvalue with
  | notFound => rfl
  | found slot => rfl
  | torn =>
      simp only
      cases h : searchOnce (fsm_rebuild_page page) minvalue with
      | notFound => rfl
      | found slot => rfl
      | torn => exact absurd rfl (hrebuilt _ h)

/-- The descent ends at a leaf that is large enough. -/
theorem descend_sound {r : Nat} (hn : nodeno < NodesPerPage) (hle : minvalue ≤ f nodeno)
    (h : descend f minvalue nodeno = some r) :
    NonLeafNodesPerPage ≤ r ∧ r < NodesPerPage ∧ minvalue ≤ f r := by
  induction nodeno using descend.induct f minvalue with
  | case1 nodeno hk hl ih =>
      rw [descend, if_pos hk, if_pos hl] at h
      exact ih hl.1 hl.2 h
  | case2 nodeno hk hl hr ih =>
      rw [descend, if_pos hk, if_neg hl, if_pos hr] at h
      exact ih hr.1 hr.2 h
  | case3 nodeno hk hl hr =>
      rw [descend, if_pos hk, if_neg hl, if_neg hr] at h
      cases h
  | case4 nodeno hk =>
      rw [descend, if_neg hk] at h
      cases h
      exact ⟨Nat.le_of_not_lt hk, hn, hle⟩

/-- A pass over any page: the slot it returns is large enough. -/
theorem searchOnce_sound {page : FSMPage} {slot : Nat} (h : searchOnce page minvalue = .found slot) :
    slot < SlotsPerFSMPage ∧ minvalue ≤ fsm_get_avail page slot := by
  have hstart := startOf_lt page
  have hslots := slotsPerFSMPage_eq
  have hinner := nonLeafNodesPerPage_eq
  have hnodes := nodesPerPage_eq
  rw [searchOnce_eq] at h
  split at h
  · cases h
  · rename_i hroot
    have hleaf : startOf page + NonLeafNodesPerPage < NodesPerPage := by omega
    obtain ⟨h1, h2⟩ := climb_spec (Nat.le_of_not_lt hroot) hleaf
    split at h
    · rename_i r hr
      cases h
      obtain ⟨hleaf, hrn, hle⟩ := descend_sound h1 h2 hr
      refine ⟨by omega, ?_⟩
      unfold fsm_get_avail
      rw [Nat.add_sub_cancel' hleaf]
      exact hle
    · cases h

/-- **Any page**: a slot that is returned is large enough. -/
theorem search_sound {page : FSMPage} {advancenext : Bool} {slot : Nat}
    (h : (fsm_search_avail page minvalue advancenext).2 = some slot) :
    slot < SlotsPerFSMPage ∧ minvalue ≤ fsm_get_avail page slot := by
  have hfinish : ∀ (p : FSMPage) (r : SearchResult), (searchFinish p advancenext r).2 = some slot →
      r = .found slot := by
    intro p r hr
    cases r with
    | notFound => cases hr
    | torn => cases hr
    | found s =>
        cases hr
        rfl
  unfold fsm_search_avail at h
  split at h
  · -- the page was rebuilt, and its slots are the same
    obtain ⟨hs, hle⟩ := searchOnce_sound (hfinish _ _ h)
    rw [(rebuild_ok page).2] at hle
    exact ⟨hs, hle⟩
  · exact searchOnce_sound (hfinish _ _ h)

/-- **One page of the free space map**: what a search finds in a tree, that the other operations keep the
    tree and change only the slots they name, and that a search of any page ends. -/
theorem page_search :
    (∀ page : FSMPage, page.Ok → ∀ (minvalue : Nat) (advancenext : Bool),
      ((fsm_search_avail page minvalue advancenext).2 = none ↔
        ∀ slot, slot < SlotsPerFSMPage → fsm_get_avail page slot < minvalue) ∧
      ∀ slot, (fsm_search_avail page minvalue advancenext).2 = some slot →
        FirstFrom SlotsPerFSMPage (startOf page) (fun s => minvalue ≤ fsm_get_avail page s) slot) ∧
    (∀ page : FSMPage, page.Ok → ∀ slot, slot < SlotsPerFSMPage → ∀ value,
      (fsm_set_avail page slot value).1.Ok ∧ ∀ s, fsm_get_avail (fsm_set_avail page slot value).1 s =
        if s = slot then value else fsm_get_avail page s) ∧
    (∀ (page : FSMPage) (nslots : Nat), (page.Ok → (fsm_truncate_avail page nslots).1.Ok) ∧
      ∀ slot, slot < SlotsPerFSMPage → fsm_get_avail (fsm_truncate_avail page nslots).1 slot =
        if nslots ≤ slot then 0 else fsm_get_avail page slot) ∧
    (∀ page : FSMPage, (fsm_rebuild_page page).Ok ∧
      ∀ slot, fsm_get_avail (fsm_rebuild_page page) slot = fsm_get_avail page slot) ∧
    (∀ (page : FSMPage) (minvalue : Nat) (advancenext : Bool),
      searchAvailLoop minvalue advancenext 2 page = some (fsm_search_avail page minvalue advancenext) ∧
      ∀ slot, (fsm_search_avail page minvalue advancenext).2 = some slot →
        slot < SlotsPerFSMPage ∧ minvalue ≤ fsm_get_avail page slot) :=
  ⟨fun _ h minvalue advancenext => search_first h minvalue advancenext,
    fun _ h _ hs _ => set_avail_spec h hs,
    fun page nslots => truncate_avail_spec page nslots,
    fun page => rebuild_ok page,
    fun page minvalue advancenext =>
      ⟨searchAvailLoop_eq page minvalue advancenext, fun _ hslot => search_sound hslot⟩⟩

end Pgvec.Storage.Fsm
