/-
  File:      Pgvec/Common/Pairingheap.lean
  Subject:   THE NODES AND LINKS OF A PAIRING HEAP: `src/backend/lib/pairingheap.c`.

  The nodes are embedded in the caller's objects, so memory is a function from node pointers to nodes, and
  a node has its three links and the object that `ph_compare` looks at. The links of a node outside the heap
  are whatever they are, and so are some links of the nodes in it while a function runs: `merge` leaves
  garbage in its result, and `merge_children` threads its pairs through `next_sibling`.

  `Lib/PairingHeap.lean` is the heap as a tree. Here a tree of pointers says what memory holds.

  * `Links`, `Siblings` -- the links of a tree, and of a list of siblings, all of them;
  * `Chain` -- a list of subheaps on `next_sibling` alone, as `merge_children` has it;
  * `merge_spec`, `merge_children_spec` -- the functions do what the ones on trees do;
  * `remove_below_spec`, `remove_spec` -- so does `pairingheap_remove`, in the middle of a list of siblings;
  * **`pairing_heap`** -- so it is for every run.
-/
import Mathlib.Data.Finset.Card
import Mathlib.Data.Finset.Insert
import Pgvec.Lib.PairingHeap

namespace Pgvec.Pairingheap

open PairingHeap (Heap Ge IsTotalPreorder HeapedH mergeChildren)

/-! ## 1. The functions -/

/-- A pointer to a node, not `NULL`. -/
abbrev Ptr : Type := Nat

/-- `pairingheap_node`, and the object it is embedded in. -/
structure Node (α : Type) where
  first_child : Option Ptr
  next_sibling : Option Ptr
  prev_or_parent : Option Ptr
  object : α

/-- The memory the nodes are in. -/
abbrev Memory (α : Type) : Type := Ptr → Node α

variable {α : Type}

/-- `p->first_child = q`. -/
def setFirstChild (m : Memory α) (p : Ptr) (q : Option Ptr) : Memory α :=
  fun a => if a = p then { m a with first_child := q } else m a

/-- `p->next_sibling = q`. -/
def setNextSibling (m : Memory α) (p : Ptr) (q : Option Ptr) : Memory α :=
  fun a => if a = p then { m a with next_sibling := q } else m a

/-- `p->prev_or_parent = q`. -/
def setPrevOrParent (m : Memory α) (p : Ptr) (q : Option Ptr) : Memory α :=
  fun a => if a = p then { m a with prev_or_parent := q } else m a

/-- `p->prev_or_parent = q` under `if (p)`. -/
def setPrevOrParentIf (m : Memory α) (p : Option Ptr) (q : Option Ptr) : Memory α :=
  match p with
  | none => m
  | some p => setPrevOrParent m p q

/-- `pairingheap`: `ph_root`, and the memory. -/
structure PHeap (α : Type) where
  mem : Memory α
  ph_root : Option Ptr

section Functions

variable (ph_compare : α → α → Int)

/-- The end of `merge`: put `b` as a child of `a`. -/
def link (m : Memory α) (a b : Ptr) : Memory α :=
  let m := setPrevOrParentIf m (m a).first_child (some b)
  let m := setPrevOrParent m b (some a)
  let m := setNextSibling m b (m a).first_child
  setFirstChild m a (some b)

/-- **`merge`.** -/
def merge (m : Memory α) (a b : Option Ptr) : Memory α × Option Ptr :=
  match a, b with
  | none, b => (m, b)
  | some a, none => (m, some a)
  | some a, some b =>
      if ph_compare (m a).object (m b).object < 0 then (link m b a, some b) else (link m a b, some a)

/-- The first loop of `merge_children`: `next` and `pairs`. `none` when it follows a link that is `NULL`, or
    does not end within the fuel. -/
def pairLoop : Nat → Memory α → Option Ptr → Option Ptr → Option (Memory α × Option Ptr)
  | 0, _, _, _ => none
  | _ + 1, m, none, pairs => some (m, pairs)
  | fuel + 1, m, some curr, pairs =>
      match (m curr).next_sibling with
      | none => some (setNextSibling m curr pairs, some curr)
      | some sibling =>
          let next := (m sibling).next_sibling
          match merge ph_compare m (some curr) (some sibling) with
          | (_, none) => none
          | (m, some curr) => pairLoop fuel (setNextSibling m curr pairs) next (some curr)

/-- The second loop: `newroot` and `next`. -/
def mergeLoop : Nat → Memory α → Option Ptr → Option Ptr → Option (Memory α × Option Ptr)
  | 0, _, _, _ => none
  | _ + 1, m, newroot, none => some (m, newroot)
  | fuel + 1, m, newroot, some curr =>
      let next := (m curr).next_sibling
      let (m, newroot) := merge ph_compare m newroot (some curr)
      mergeLoop fuel m newroot next

/-- **`merge_children`.** -/
def merge_children (fuel : Nat) (m : Memory α) (children : Option Ptr) : Option (Memory α × Option Ptr) :=
  match children with
  | none => some (m, none)
  | some c =>
      if (m c).next_sibling = none then some (m, some c)
      else
        match pairLoop ph_compare fuel m (some c) none with
        | none => none
        | some (_, none) => none
        | some (m, some pairs) => mergeLoop ph_compare fuel m (some pairs) (m pairs).next_sibling

/-- The new root has no parent and no siblings. -/
def asRoot (m : Memory α) (root : Ptr) : Memory α :=
  setNextSibling (setPrevOrParent m root none) root none

/-- **`pairingheap_add`.** -/
def pairingheap_add (heap : PHeap α) (node : Ptr) : PHeap α :=
  let m := setFirstChild heap.mem node none
  match merge ph_compare m heap.ph_root (some node) with
  | (m, none) => ⟨m, none⟩
  | (m, some root) => ⟨asRoot m root, some root⟩

/-- **`pairingheap_remove_first`**: the node, and the heap. -/
def pairingheap_remove_first (fuel : Nat) (heap : PHeap α) : Option (Ptr × PHeap α) :=
  match heap.ph_root with
  | none => none
  | some result =>
      match merge_children ph_compare fuel heap.mem (heap.mem result).first_child with
      | none => none
      | some (m, none) => some (result, ⟨m, none⟩)
      | some (m, some root) => some (result, ⟨asRoot m root, some root⟩)

/-- `*prev_ptr = q`: the link of `prev` that pointed to `node`. -/
def setPrevPtr (m : Memory α) (isFirst : Bool) (prev : Ptr) (q : Option Ptr) : Memory α :=
  if isFirst then setFirstChild m prev q else setNextSibling m prev q

/-- **`pairingheap_remove`.** -/
def pairingheap_remove (fuel : Nat) (heap : PHeap α) (node : Ptr) : Option (PHeap α) :=
  if heap.ph_root = some node then (pairingheap_remove_first ph_compare fuel heap).map Prod.snd
  else
    let children := (heap.mem node).first_child
    let next_sibling := (heap.mem node).next_sibling
    match (heap.mem node).prev_or_parent with
    | none => none
    | some prev =>
        -- which of the two links `prev_ptr` points to
        let isFirst : Bool := decide ((heap.mem prev).first_child = some node)
        match children with
        | none =>
            let m := setPrevPtr heap.mem isFirst prev next_sibling
            some ⟨setPrevOrParentIf m next_sibling (m node).prev_or_parent, heap.ph_root⟩
        | some c =>
            match merge_children ph_compare fuel heap.mem (some c) with
            | none => none
            | some (_, none) => none
            | some (m, some replacement) =>
                let m := setPrevOrParent m replacement (m node).prev_or_parent
                let m := setNextSibling m replacement (m node).next_sibling
                let m := setPrevPtr m isFirst prev (some replacement)
                some ⟨setPrevOrParentIf m next_sibling (some replacement), heap.ph_root⟩

end Functions

/-! ## 2. What memory holds -/

/-- A node of the heap and its object. -/
abbrev Entry (α : Type) : Type := Ptr × α

/-- A tree of nodes. -/
abbrev Subheap (α : Type) : Type := PairingHeap.Tree (Entry α)

/-- `ph_compare` of the objects. -/
def compareEntries (ph_compare : α → α → Int) (a b : Entry α) : Int := ph_compare a.2 b.2

/-- The pointer to the root of a tree. -/
def rootPtr (t : Subheap α) : Ptr := t.root.1

/-- The pointer to the root of the first tree of a list. -/
def firstPtr : List (Subheap α) → Option Ptr
  | [] => none
  | t :: _ => some (rootPtr t)

mutual

/-- **A tree in memory**: its objects and all its links, but the root's to a parent and siblings. -/
def Links (m : Memory α) : Subheap α → Prop
  | .node a ts => (m a.1).object = a.2 ∧ (m a.1).first_child = firstPtr ts ∧ Siblings m a.1 ts

/-- A list of siblings in memory, behind a node that is the parent or the previous sibling. -/
def Siblings (m : Memory α) (prev : Ptr) : List (Subheap α) → Prop
  | [] => True
  | t :: ts => (m (rootPtr t)).prev_or_parent = some prev ∧ (m (rootPtr t)).next_sibling = firstPtr ts ∧
      Links m t ∧ Siblings m (rootPtr t) ts

end

/-- A list of trees that only `next_sibling` links. -/
def Chain (m : Memory α) : Option Ptr → List (Subheap α) → Prop
  | p, [] => p = none
  | p, t :: ts => p = some (rootPtr t) ∧ Links m t ∧ Chain m (m (rootPtr t)).next_sibling ts

/-- The pointers of a tree, and of a list of trees. -/
def ptrs (t : Subheap α) : List Ptr := t.toList.map Prod.fst

def ptrsList (ts : List (Subheap α)) : List Ptr := (PairingHeap.toLists ts).map Prod.fst

section Memory

variable {m m' : Memory α} {p q a b : Ptr} {v : Option Ptr}

@[simp] theorem setFirstChild_self : setFirstChild m p v p = { m p with first_child := v } := if_pos rfl

@[simp] theorem setNextSibling_self : setNextSibling m p v p = { m p with next_sibling := v } := if_pos rfl

@[simp] theorem setPrevOrParent_self : setPrevOrParent m p v p = { m p with prev_or_parent := v } := if_pos rfl

theorem setFirstChild_of_ne (h : q ≠ p) : setFirstChild m p v q = m q := if_neg h

theorem setNextSibling_of_ne (h : q ≠ p) : setNextSibling m p v q = m q := if_neg h

theorem setPrevOrParent_of_ne (h : q ≠ p) : setPrevOrParent m p v q = m q := if_neg h

@[simp] theorem asRoot_self :
    asRoot m p p = { m p with prev_or_parent := none, next_sibling := none } := by
  unfold asRoot
  rw [setNextSibling_self, setPrevOrParent_self]

theorem asRoot_of_ne (h : q ≠ p) : asRoot m p q = m q := by
  unfold asRoot
  rw [setNextSibling_of_ne h, setPrevOrParent_of_ne h]

theorem setPrevOrParentIf_of_ne {p : Option Ptr} (h : some q ≠ p) : setPrevOrParentIf m p v q = m q := by
  cases p with
  | none => rfl
  | some p => exact setPrevOrParent_of_ne fun he => h (congrArg some he)

@[simp] theorem setPrevOrParentIf_first_child {p : Option Ptr} :
    (setPrevOrParentIf m p v q).first_child = (m q).first_child := by
  cases p with
  | none => rfl
  | some p =>
      unfold setPrevOrParentIf setPrevOrParent
      simp only
      split <;> rfl

@[simp] theorem setPrevOrParent_first_child : (setPrevOrParent m p v q).first_child = (m q).first_child := by
  unfold setPrevOrParent
  split <;> rfl

@[simp] theorem setNextSibling_first_child : (setNextSibling m p v q).first_child = (m q).first_child := by
  unfold setNextSibling
  split <;> rfl

end Memory

section Represent

variable {m m' : Memory α}

@[simp] theorem links_node {a : Entry α} {ts : List (Subheap α)} : Links m (.node a ts) ↔
    (m a.1).object = a.2 ∧ (m a.1).first_child = firstPtr ts ∧ Siblings m a.1 ts := by
  rw [Links]

@[simp] theorem siblings_nil {prev : Ptr} : Siblings m prev [] := by
  rw [Siblings]
  exact trivial

@[simp] theorem siblings_cons {prev : Ptr} {t : Subheap α} {ts : List (Subheap α)} :
    Siblings m prev (t :: ts) ↔ (m (rootPtr t)).prev_or_parent = some prev ∧
      (m (rootPtr t)).next_sibling = firstPtr ts ∧ Links m t ∧ Siblings m (rootPtr t) ts := by
  rw [Siblings]

@[simp] theorem ptrs_node (a : Entry α) (ts : List (Subheap α)) : ptrs (.node a ts) = a.1 :: ptrsList ts := by
  unfold ptrs ptrsList
  rw [PairingHeap.Tree.toList_node, List.map_cons]

@[simp] theorem ptrsList_nil : ptrsList ([] : List (Subheap α)) = [] := by
  unfold ptrsList
  rw [PairingHeap.toLists_nil, List.map_nil]

@[simp] theorem ptrsList_cons (t : Subheap α) (ts : List (Subheap α)) :
    ptrsList (t :: ts) = ptrs t ++ ptrsList ts := by
  unfold ptrs ptrsList
  rw [PairingHeap.toLists_cons, List.map_append]

theorem rootPtr_mem (t : Subheap α) : rootPtr t ∈ ptrs t := by
  unfold ptrs rootPtr
  rw [PairingHeap.Tree.toList_eq, List.map_cons]
  exact List.mem_cons_self

mutual

/-- A tree stays in memory while its root keeps its children and every other node stays as it is. -/
theorem Links.congr : ∀ t : Subheap α, (m' (rootPtr t)).object = (m (rootPtr t)).object →
    (m' (rootPtr t)).first_child = (m (rootPtr t)).first_child →
    (∀ p ∈ ptrsList t.children, m' p = m p) → Links m t → Links m' t
  | .node a ts, ho, hf, hc, h => by
      obtain ⟨h1, h2, h3⟩ := links_node.mp h
      exact links_node.mpr ⟨ho.trans h1, hf.trans h2, Siblings.congr ts hc h3⟩

theorem Siblings.congr {prev : Ptr} : ∀ ts : List (Subheap α), (∀ p ∈ ptrsList ts, m' p = m p) →
    Siblings m prev ts → Siblings m' prev ts
  | [], _, _ => siblings_nil
  | t :: ts, hc, h => by
      obtain ⟨h1, h2, h3, h4⟩ := siblings_cons.mp h
      rw [ptrsList_cons] at hc
      have hroot := hc _ (List.mem_append_left _ (rootPtr_mem t))
      have hsub : ∀ p ∈ ptrsList t.children, m' p = m p := by
        intro p hp
        refine hc p (List.mem_append_left _ ?_)
        cases t
        rw [ptrs_node]
        exact List.mem_cons_of_mem _ hp
      refine siblings_cons.mpr ⟨by rw [hroot]; exact h1, by rw [hroot]; exact h2,
        Links.congr t (by rw [hroot]) (by rw [hroot]) hsub h3,
        Siblings.congr ts (fun p hp => hc p (List.mem_append_right _ hp)) h4⟩

end

/-- A tree stays in memory while its nodes stay as they are. -/
theorem Links.frame {t : Subheap α} (h : Links m t) (hc : ∀ p ∈ ptrs t, m' p = m p) : Links m' t := by
  have hroot := hc _ (rootPtr_mem t)
  refine Links.congr t (by rw [hroot]) (by rw [hroot]) (fun p hp => hc p ?_) h
  cases t
  rw [ptrs_node]
  exact List.mem_cons_of_mem _ hp

theorem Chain.frame {ts : List (Subheap α)} : ∀ {p : Option Ptr}, Chain m p ts →
    (∀ q ∈ ptrsList ts, m' q = m q) → Chain m' p ts := by
  induction ts with
  | nil => exact fun h _ => h
  | cons t ts ih =>
      intro p ⟨h1, h2, h3⟩ hc
      rw [ptrsList_cons] at hc
      refine ⟨h1, h2.frame fun q hq => hc q (List.mem_append_left _ hq), ?_⟩
      rw [hc _ (List.mem_append_left _ (rootPtr_mem t))]
      exact ih h3 fun q hq => hc q (List.mem_append_right _ hq)

/-- Siblings are a chain. -/
theorem Siblings.chain {ts : List (Subheap α)} : ∀ {prev : Ptr}, Siblings m prev ts →
    Chain m (firstPtr ts) ts := by
  induction ts with
  | nil => exact fun _ => rfl
  | cons t ts ih =>
      intro prev h
      obtain ⟨-, h2, h3, h4⟩ := siblings_cons.mp h
      refine ⟨rfl, h3, ?_⟩
      rw [h2]
      exact ih h4

end Represent

/-! ## 3. `merge` -/

section Link

variable {m m' : Memory α} {a b : Ptr}

theorem link_of_ne {p : Ptr} (ha : p ≠ a) (hb : p ≠ b) (hf : some p ≠ (m a).first_child) :
    link m a b p = m p := by
  unfold link
  rw [setFirstChild_of_ne ha, setNextSibling_of_ne hb, setPrevOrParent_of_ne hb, setPrevOrParentIf_of_ne hf]

theorem link_left (hne : a ≠ b) (hf : some a ≠ (m a).first_child) :
    link m a b a = { m a with first_child := some b } := by
  unfold link
  simp only
  rw [setFirstChild_self, setNextSibling_of_ne hne, setPrevOrParent_of_ne hne, setPrevOrParentIf_of_ne hf]

theorem link_right (hne : a ≠ b) (hf : some b ≠ (m a).first_child) : link m a b b =
    { m b with prev_or_parent := some a, next_sibling := (m a).first_child } := by
  unfold link
  simp only
  rw [setFirstChild_of_ne hne.symm, setNextSibling_self, setPrevOrParent_first_child,
    setPrevOrParentIf_first_child, setPrevOrParent_self, setPrevOrParentIf_of_ne hf]

theorem link_first {c : Ptr} (ha : c ≠ a) (hb : c ≠ b) (hf : (m a).first_child = some c) :
    link m a b c = { m c with prev_or_parent := some b } := by
  unfold link
  simp only
  rw [setFirstChild_of_ne ha, setNextSibling_of_ne hb, setPrevOrParent_of_ne hb, hf]
  exact setPrevOrParent_self

/-- A list of siblings moves behind another node: only its first node changes. -/
theorem Siblings.behind {ts : List (Subheap α)} {prev prev' : Ptr} (h : Siblings m prev ts)
    (hnd : (ptrsList ts).Nodup) (hc : ∀ p ∈ ptrsList ts, some p ≠ firstPtr ts → m' p = m p)
    (hf : ∀ p, firstPtr ts = some p → m' p = { m p with prev_or_parent := some prev' }) :
    Siblings m' prev' ts := by
  cases ts with
  | nil => exact siblings_nil
  | cons t ts =>
      obtain ⟨-, h2, h3, h4⟩ := siblings_cons.mp h
      rw [ptrsList_cons] at hc hnd
      have hroot := hf (rootPtr t) rfl
      have hdisj := (List.nodup_append.mp hnd).2.2
      refine siblings_cons.mpr ⟨by rw [hroot], by rw [hroot]; exact h2,
        Links.congr t (by rw [hroot]) (by rw [hroot]) (fun p hp => ?_) h3,
        Siblings.congr ts (fun p hp => ?_) h4⟩
      · cases t with
        | node x us =>
            rw [ptrs_node] at hc hnd
            refine hc p (List.mem_append_left _ (List.mem_cons_of_mem _ hp)) fun he => ?_
            obtain rfl : p = x.1 := Option.some.inj he
            exact (List.nodup_cons.mp (List.nodup_append.mp hnd).1).1 hp
      · refine hc p (List.mem_append_right _ hp) fun he => ?_
        obtain rfl : p = rootPtr t := Option.some.inj he
        exact hdisj _ (rootPtr_mem t) _ hp rfl

theorem firstPtr_mem {ts : List (Subheap α)} {p : Ptr} (h : firstPtr ts = some p) : p ∈ ptrsList ts := by
  cases ts with
  | nil => cases h
  | cons t ts =>
      cases h
      rw [ptrsList_cons]
      exact List.mem_append_left _ (rootPtr_mem t)

/-- **A tree becomes the first child** of another one. -/
theorem link_spec {a b : Entry α} {as bs : List (Subheap α)} (ha : Links m (.node a as))
    (hb : Links m (.node b bs)) (hnd : (ptrs (.node a as) ++ ptrs (.node b bs)).Nodup) :
    Links (link m a.1 b.1) (.node a (.node b bs :: as)) ∧
      ∀ p, p ∉ ptrs (.node a as) ++ ptrs (.node b bs) → link m a.1 b.1 p = m p := by
  obtain ⟨hao, haf, has⟩ := links_node.mp ha
  obtain ⟨hbo, hbf, hbs⟩ := links_node.mp hb
  rw [ptrs_node, ptrs_node] at hnd ⊢
  obtain ⟨hnda, hndb, hdisj⟩ := List.nodup_append.mp hnd
  obtain ⟨haas, hndas⟩ := List.nodup_cons.mp hnda
  obtain ⟨hbbs, hndbs⟩ := List.nodup_cons.mp hndb
  have hne : a.1 ≠ b.1 := hdisj _ List.mem_cons_self _ List.mem_cons_self
  have hfa : some a.1 ≠ (m a.1).first_child := fun he => haas (firstPtr_mem (he.trans haf).symm)
  have hfb : some b.1 ≠ (m a.1).first_child := fun he =>
    hdisj _ (List.mem_cons_of_mem _ (firstPtr_mem (he.trans haf).symm)) _ List.mem_cons_self rfl
  have hkeep : ∀ p, p ≠ a.1 → p ≠ b.1 → some p ≠ firstPtr as → link m a.1 b.1 p = m p :=
    fun p h1 h2 h3 => link_of_ne h1 h2 (haf ▸ h3)
  have hasne : ∀ p ∈ ptrsList as, p ≠ a.1 ∧ p ≠ b.1 := by
    intro p hp
    refine ⟨fun he => haas (he ▸ hp), fun he => ?_⟩
    exact hdisj _ (List.mem_cons_of_mem _ hp) _ (he ▸ List.mem_cons_self) rfl
  have hla := link_left hne hfa
  have hlb := link_right hne hfb
  refine ⟨links_node.mpr ⟨by rw [hla]; exact hao, by rw [hla]; rfl, ?_⟩, fun p hp => ?_⟩
  · refine siblings_cons.mpr ⟨?_, ?_, links_node.mpr ⟨?_, ?_, ?_⟩, ?_⟩
    · show (link m a.1 b.1 b.1).prev_or_parent = _
      rw [hlb]
    · show (link m a.1 b.1 b.1).next_sibling = _
      rw [hlb]
      exact haf
    · rw [hlb]
      exact hbo
    · rw [hlb]
      exact hbf
    · -- the children of `b` stay where they are
      refine Siblings.congr bs (fun p hp => hkeep p (fun he => ?_) (fun he => hbbs (he ▸ hp)) fun he => ?_) hbs
      · exact hdisj _ (he ▸ List.mem_cons_self) _ (List.mem_cons_of_mem _ hp) rfl
      · exact hdisj _ (List.mem_cons_of_mem _ (firstPtr_mem he.symm)) _ (List.mem_cons_of_mem _ hp) rfl
    · -- the children of `a` move behind `b`
      refine Siblings.behind has hndas (fun p hp hf => hkeep p (hasne p hp).1 (hasne p hp).2 hf) fun p hf => ?_
      have hp := hasne p (firstPtr_mem hf)
      exact link_first hp.1 hp.2 (haf.trans hf)
  · have hpa : p ≠ a.1 := fun he => hp (List.mem_append_left _ (he ▸ List.mem_cons_self))
    have hpb : p ≠ b.1 := fun he => hp (List.mem_append_right _ (he ▸ List.mem_cons_self))
    refine hkeep p hpa hpb fun he => hp (List.mem_append_left _ (List.mem_cons_of_mem _ (firstPtr_mem he.symm)))

end Link

section Merge

variable (ph_compare : α → α → Int) {m : Memory α}

/-- **`merge`** does what `merge` on trees does. -/
theorem merge_spec {ta tb : Subheap α} (ha : Links m ta) (hb : Links m tb)
    (hnd : (ptrs ta ++ ptrs tb).Nodup) :
    ∃ m', merge ph_compare m (some (rootPtr ta)) (some (rootPtr tb)) =
        (m', some (rootPtr (PairingHeap.merge (compareEntries ph_compare) ta tb))) ∧
      Links m' (PairingHeap.merge (compareEntries ph_compare) ta tb) ∧
      ∀ p, p ∉ ptrs ta ++ ptrs tb → m' p = m p := by
  cases ta with
  | node a as =>
  cases tb with
  | node b bs =>
      have hao : (m a.1).object = a.2 := (links_node.mp ha).1
      have hbo : (m b.1).object = b.2 := (links_node.mp hb).1
      have hmerge : merge ph_compare m (some a.1) (some b.1) =
          if ph_compare (m a.1).object (m b.1).object < 0 then (link m b.1 a.1, some b.1)
          else (link m a.1 b.1, some a.1) := rfl
      have htrees : PairingHeap.merge (compareEntries ph_compare) (.node a as) (.node b bs) =
          if compareEntries ph_compare a b < 0 then .node b (.node a as :: bs)
          else .node a (.node b bs :: as) := rfl
      show ∃ m', merge ph_compare m (some a.1) (some b.1) = _ ∧ _
      rw [hmerge, htrees, hao, hbo]
      by_cases hlt : ph_compare a.2 b.2 < 0
      · have hlt' : compareEntries ph_compare a b < 0 := hlt
        have hnd' := (List.perm_append_comm.nodup_iff).mp hnd
        obtain ⟨hlinks, hframe⟩ := link_spec hb ha hnd'
        rw [if_pos hlt, if_pos hlt']
        exact ⟨_, rfl, hlinks, fun p hp => hframe p fun hm => hp (List.perm_append_comm.mem_iff.mp hm)⟩
      · have hlt' : ¬ compareEntries ph_compare a b < 0 := hlt
        obtain ⟨hlinks, hframe⟩ := link_spec ha hb hnd
        rw [if_neg hlt, if_neg hlt']
        exact ⟨_, rfl, hlinks, hframe⟩

theorem ptrs_merge (ta tb : Subheap α) :
    (ptrs (PairingHeap.merge (compareEntries ph_compare) ta tb)).Perm (ptrs ta ++ ptrs tb) := by
  have h := (PairingHeap.merge_perm (compareEntries ph_compare) ta tb).map Prod.fst
  rw [List.map_append] at h
  exact h

end Merge

/-! ## 4. `merge_children` -/

section MergeChildren

variable (ph_compare : α → α → Int) {m m' : Memory α}

/-- The links of a root to its parent and siblings are not part of the tree. -/
theorem Links.setRoot {t : Subheap α} (h : Links m t) (hnd : (ptrs t).Nodup)
    (ho : (m' (rootPtr t)).object = (m (rootPtr t)).object)
    (hf : (m' (rootPtr t)).first_child = (m (rootPtr t)).first_child)
    (hc : ∀ p, p ≠ rootPtr t → m' p = m p) : Links m' t := by
  refine Links.congr t ho hf (fun p hp => hc p fun he => ?_) h
  cases t with
  | node a ts =>
      rw [ptrs_node] at hnd
      rw [he] at hp
      exact (List.nodup_cons.mp hnd).1 hp

/-- **The first loop** pairs the subheaps up. -/
theorem pairLoop_spec : ∀ (ts ps : List (Subheap α)) {m : Memory α} {next pairs : Option Ptr} {fuel : Nat},
    Chain m next ts → Chain m pairs ps → (ptrsList ts ++ ptrsList ps).Nodup → ts.length < fuel →
    ∃ m' p, pairLoop ph_compare fuel m next pairs = some (m', p) ∧
      Chain m' p (PairingHeap.pairs (compareEntries ph_compare) ts ps) ∧
      ∀ q, q ∉ ptrsList ts ++ ptrsList ps → m' q = m q
  | _, _, _, _, _, 0, _, _, _, hfuel => absurd hfuel (Nat.not_lt_zero _)
  | [], ps, m, next, pairs, fuel + 1, hts, hps, _, _ => by
      obtain rfl : next = none := hts
      exact ⟨m, pairs, rfl, hps, fun q _ => rfl⟩
  | [c], ps, m, next, pairs, fuel + 1, hts, hps, hnd, _ => by
      obtain ⟨rfl, hc, hend⟩ := hts
      rw [ptrsList_cons, ptrsList_nil, List.append_nil] at hnd ⊢
      obtain ⟨hndc, -, hdisj⟩ := List.nodup_append.mp hnd
      have hrun : pairLoop ph_compare (fuel + 1) m (some (rootPtr c)) pairs =
          some (setNextSibling m (rootPtr c) pairs, some (rootPtr c)) := by
        rw [pairLoop]
        have hend : (m (rootPtr c)).next_sibling = none := hend
        rw [hend]
      refine ⟨_, _, hrun, ⟨rfl, ?_, ?_⟩, fun q hq => setNextSibling_of_ne fun he => ?_⟩
      · exact hc.setRoot hndc (by rw [setNextSibling_self]) setNextSibling_first_child
          fun p hp => setNextSibling_of_ne hp
      · rw [setNextSibling_self]
        refine hps.frame fun q hq => setNextSibling_of_ne fun he => ?_
        exact hdisj _ (rootPtr_mem c) _ hq he.symm
      · exact hq (List.mem_append_left _ (he ▸ rootPtr_mem c))
  | c :: d :: rest, ps, m, next, pairs, fuel + 1, hts, hps, hnd, hfuel => by
      obtain ⟨rfl, hc, hsib, hd, hrest⟩ := hts
      rw [ptrsList_cons, ptrsList_cons] at hnd ⊢
      have hperm := ptrs_merge ph_compare c d
      obtain ⟨merged, hmerged⟩ : ∃ t, t = PairingHeap.merge (compareEntries ph_compare) c d := ⟨_, rfl⟩
      rw [← hmerged] at hperm
      -- the nodes of the pair, of the rest of the list, and of the pairs made before
      have hnd' : (ptrs merged ++ (ptrsList rest ++ ptrsList ps)).Nodup := by
        refine ((hperm.append_right _).nodup_iff).mpr ?_
        rw [List.append_assoc]
        rw [List.append_assoc, List.append_assoc] at hnd
        exact hnd
      obtain ⟨hndm, -, hdisj⟩ := List.nodup_append.mp hnd'
      obtain ⟨m1, hmerge, hlinks, hframe⟩ := merge_spec ph_compare hc hd
        (hperm.nodup_iff.mp hndm)
      rw [← hmerged] at hmerge hlinks
      have hframe : ∀ q, q ∉ ptrs merged → m1 q = m q := fun q hq => hframe q fun h => hq (hperm.mem_iff.mpr h)
      -- what else the two writes leave as it is
      obtain ⟨m2, hm2⟩ : ∃ m2, m2 = setNextSibling m1 (rootPtr merged) pairs := ⟨_, rfl⟩
      have hkeep : ∀ q, q ∉ ptrs merged → m2 q = m q := fun q hq => by
        have hne : q ≠ rootPtr merged := fun he => hq (he ▸ rootPtr_mem merged)
        rw [hm2, setNextSibling_of_ne hne]
        exact hframe q hq
      have hrest2 : Chain m2 (m (rootPtr d)).next_sibling rest :=
        hrest.frame fun q hq => hkeep q fun hm => hdisj q hm q (List.mem_append_left _ hq) rfl
      have hps2 : Chain m2 (some (rootPtr merged)) (merged :: ps) := by
        refine ⟨rfl, hlinks.setRoot hndm (by rw [hm2, setNextSibling_self]) ?_ fun p hp => ?_, ?_⟩
        · rw [hm2, setNextSibling_first_child]
        · rw [hm2, setNextSibling_of_ne hp]
        · rw [hm2, setNextSibling_self, ← hm2]
          exact hps.frame fun q hq => hkeep q fun hm => hdisj q hm q (List.mem_append_right _ hq) rfl
      have hnd2 : (ptrsList rest ++ ptrsList (merged :: ps)).Nodup := by
        rw [ptrsList_cons]
        exact (List.perm_append_comm_assoc (ptrs merged) (ptrsList rest) (ptrsList ps)).nodup_iff.mp hnd'
      have hlen : rest.length < fuel := by
        simp only [List.length_cons] at hfuel
        omega
      obtain ⟨m', p, hrun, hchain, hout⟩ := pairLoop_spec rest (merged :: ps) hrest2 hps2 hnd2 hlen
      refine ⟨m', p, ?_, ?_, fun q hq => ?_⟩
      · rw [pairLoop, hsib]
        simp only
        rw [hmerge]
        simp only
        rw [← hm2]
        exact hrun
      · rw [PairingHeap.pairs, ← hmerged]
        exact hchain
      · have hq' : q ∉ ptrs merged ∧ q ∉ ptrsList rest ∧ q ∉ ptrsList ps := by
          refine ⟨fun h => hq ?_, fun h => hq ?_, fun h => hq ?_⟩
          · rw [← List.append_assoc]
            exact List.mem_append_left _ (List.mem_append_left _ (hperm.mem_iff.mp h))
          · exact List.mem_append_left _ (List.mem_append_right _ (List.mem_append_right _ h))
          · exact List.mem_append_right _ h
        have hq2 : q ∉ ptrsList rest ++ ptrsList (merged :: ps) := by
          rw [ptrsList_cons, List.mem_append, List.mem_append]
          exact fun h => h.elim hq'.2.1 fun h => h.elim hq'.1 hq'.2.2
        rw [hout q hq2, hkeep q hq'.1]

/-- **The second loop** merges the pairs into one heap. -/
theorem mergeLoop_spec : ∀ (ps : List (Subheap α)) {t : Subheap α} {m : Memory α} {next : Option Ptr}
    {fuel : Nat}, Links m t → Chain m next ps → (ptrs t ++ ptrsList ps).Nodup → ps.length < fuel →
    ∃ m', mergeLoop ph_compare fuel m (some (rootPtr t)) next =
        some (m', some (rootPtr (ps.foldl (PairingHeap.merge (compareEntries ph_compare)) t))) ∧
      Links m' (ps.foldl (PairingHeap.merge (compareEntries ph_compare)) t) ∧
      ∀ q, q ∉ ptrs t ++ ptrsList ps → m' q = m q
  | _, _, _, _, 0, _, _, _, hfuel => absurd hfuel (Nat.not_lt_zero _)
  | [], t, m, next, fuel + 1, ht, hps, _, _ => by
      obtain rfl : next = none := hps
      exact ⟨m, rfl, ht, fun q _ => rfl⟩
  | c :: ps, t, m, next, fuel + 1, ht, hps, hnd, hfuel => by
      obtain ⟨rfl, hc, hrest⟩ := hps
      rw [ptrsList_cons, ← List.append_assoc] at hnd ⊢
      have hperm := ptrs_merge ph_compare t c
      obtain ⟨hndtc, -, hdisj⟩ := List.nodup_append.mp hnd
      obtain ⟨m1, hmerge, hlinks, hframe⟩ := merge_spec ph_compare ht hc hndtc
      have hrest1 : Chain m1 (m (rootPtr c)).next_sibling ps :=
        hrest.frame fun q hq => hframe q fun hm => hdisj q hm q hq rfl
      have hlen : ps.length < fuel := by
        simp only [List.length_cons] at hfuel
        omega
      obtain ⟨m', hrun, hlinks', hout⟩ := mergeLoop_spec ps hlinks hrest1
        ((hperm.append_right _).nodup_iff.mpr hnd) hlen
      refine ⟨m', ?_, hlinks', fun q hq => ?_⟩
      · rw [mergeLoop]
        simp only
        rw [hmerge]
        exact hrun
      · rw [hout q fun h => hq ((hperm.append_right _).mem_iff.mp h)]
        exact hframe q fun h => hq (List.mem_append_left _ h)

theorem length_pairs {β : Type} (cmp : β → β → Int) : ∀ ts ps : List (PairingHeap.Tree β),
    (PairingHeap.pairs cmp ts ps).length ≤ ts.length + ps.length
  | [], ps => by
      rw [PairingHeap.pairs]
      exact Nat.le_add_left _ _
  | [c], ps => by
      rw [PairingHeap.pairs, List.length_cons, List.length_singleton, Nat.add_comm]
  | c :: d :: rest, ps => by
      have ih := length_pairs cmp rest (PairingHeap.merge cmp c d :: ps)
      rw [PairingHeap.pairs]
      simp only [List.length_cons] at ih ⊢
      omega

/-- The pointer to the root of a heap. -/
def heapPtr (h : Heap (Entry α)) : Option Ptr := h.map rootPtr

/-- **`merge_children`** does what `mergeChildren` on trees does, and writes to no node but these. -/
theorem merge_children_spec {ts : List (Subheap α)} {prev : Ptr} (h : Siblings m prev ts)
    (hnd : (ptrsList ts).Nodup) {fuel : Nat} (hfuel : ts.length < fuel) :
    ∃ m', merge_children ph_compare fuel m (firstPtr ts) =
        some (m', heapPtr (mergeChildren (compareEntries ph_compare) ts)) ∧
      (∀ t, mergeChildren (compareEntries ph_compare) ts = some t → Links m' t) ∧
      ∀ q, q ∉ ptrsList ts → m' q = m q := by
  match ts with
  | [] =>
      have hnone : ∀ t, mergeChildren (compareEntries ph_compare) [] = some t → Links m t := by
        intro t ht
        cases ht
      exact ⟨m, rfl, hnone, fun q _ => rfl⟩
  | [c] =>
      obtain ⟨-, h2, h3, -⟩ := siblings_cons.mp h
      refine ⟨m, ?_, fun t ht => ?_, fun q _ => rfl⟩
      · have h2 : (m (rootPtr c)).next_sibling = none := h2
        show (if (m (rootPtr c)).next_sibling = none then some (m, some (rootPtr c)) else _) = _
        rw [if_pos h2]
        rfl
      · cases ht
        exact h3
  | c :: d :: rest =>
      obtain ⟨-, h2, -, -⟩ := siblings_cons.mp h
      have hnd0 : (ptrsList (c :: d :: rest) ++ ptrsList ([] : List (Subheap α))).Nodup := by
        rw [ptrsList_nil, List.append_nil]
        exact hnd
      obtain ⟨m1, p, hrun1, hchain, hout1⟩ := pairLoop_spec ph_compare (c :: d :: rest) []
        h.chain (rfl : Chain m none []) hnd0 hfuel
      have hlen := length_pairs (compareEntries ph_compare) (c :: d :: rest) []
      have hperm := (PairingHeap.pairs_perm (compareEntries ph_compare) (c :: d :: rest) []).map Prod.fst
      rw [PairingHeap.toLists_nil, List.append_nil] at hperm
      have hroot : (m (rootPtr c)).next_sibling ≠ none := by
        rw [h2]
        exact Option.some_ne_none _
      have hsplit : merge_children ph_compare fuel m (firstPtr (c :: d :: rest)) =
          match pairLoop ph_compare fuel m (some (rootPtr c)) none with
          | none => none
          | some (_, none) => none
          | some (m, some pairs) => mergeLoop ph_compare fuel m (some pairs) (m pairs).next_sibling :=
        if_neg hroot
      rw [hsplit]
      unfold mergeChildren
      cases hpairs : PairingHeap.pairs (compareEntries ph_compare) (c :: d :: rest) [] with
      | nil =>
          rw [hpairs] at hperm
          have hempty := hperm.length_eq
          rw [PairingHeap.toLists_cons, PairingHeap.Tree.toList_eq] at hempty
          simp at hempty
      | cons t ps =>
          rw [hpairs] at hchain hperm hlen
          obtain ⟨rfl, hlinks, hrest⟩ := hchain
          have hperm : (ptrs t ++ ptrsList ps).Perm (ptrsList (c :: d :: rest)) := by
            rw [← ptrsList_cons]
            exact hperm
          have hfuel2 : ps.length < fuel := by
            simp only [List.length_cons, List.length_nil] at hlen hfuel
            omega
          obtain ⟨m2, hrun2, hlinks2, hout2⟩ := mergeLoop_spec ph_compare ps hlinks hrest
            (hperm.nodup_iff.mpr hnd) hfuel2
          have hrun1 : pairLoop ph_compare fuel m (some (rootPtr c)) none = some (m1, some (rootPtr t)) := hrun1
          rw [hrun1]
          refine ⟨m2, hrun2, fun u hu => ?_, fun q hq => ?_⟩
          · cases hu
            exact hlinks2
          · rw [hout2 q fun h => hq (hperm.mem_iff.mp h), hout1 q]
            rw [ptrsList_nil, List.append_nil]
            exact hq

end MergeChildren

/-! ## 5. Removing a node from the middle -/

section Splice

variable {ph_compare : α → α → Int} {m m' : Memory α}

/-- **Where a subtree is** in a list of siblings behind the node `above`: what follows it, and the node that
    `prev_or_parent` of its root points to. -/
inductive Position (t : Subheap α) (rest : List (Subheap α)) (prev : Ptr) :
    Ptr → List (Subheap α) → Prop where
  | here : Position t rest prev prev (t :: rest)
  | child (above : Ptr) (a : Entry α) (us ts : List (Subheap α)) (h : Position t rest prev a.1 us) :
      Position t rest prev above (.node a us :: ts)
  | sibling (above : Ptr) (u : Subheap α) (ts : List (Subheap α))
      (h : Position t rest prev (rootPtr u) ts) : Position t rest prev above (u :: ts)

mutual

theorem exists_position_tree {x : Ptr} (above : Ptr) : ∀ (t : Subheap α) (ts : List (Subheap α)), x ∈ ptrs t →
    ∃ t' rest prev, rootPtr t' = x ∧ Position t' rest prev above (t :: ts)
  | .node a us, ts, h => by
      rw [ptrs_node] at h
      rcases List.mem_cons.mp h with rfl | h
      · exact ⟨.node a us, ts, above, rfl, .here⟩
      · obtain ⟨t', rest, prev, hroot, hpos⟩ := exists_position a.1 us h
        exact ⟨t', rest, prev, hroot, .child above a us ts hpos⟩

/-- Every node of a list of siblings has its place there. -/
theorem exists_position {x : Ptr} (above : Ptr) : ∀ ts : List (Subheap α), x ∈ ptrsList ts →
    ∃ t' rest prev, rootPtr t' = x ∧ Position t' rest prev above ts
  | [], h => by
      rw [ptrsList_nil] at h
      cases h
  | t :: ts, h => by
      rw [ptrsList_cons] at h
      rcases List.mem_append.mp h with h | h
      · exact exists_position_tree above t ts h
      · obtain ⟨t', rest, prev, hroot, hpos⟩ := exists_position (rootPtr t) ts h
        exact ⟨t', rest, prev, hroot, .sibling above t ts hpos⟩

end

variable {t : Subheap α} {rest ts : List (Subheap α)} {prev above : Ptr}

/-- The links of the root of the subtree. -/
theorem Position.links (hpos : Position t rest prev above ts) (h : Siblings m above ts) :
    (m (rootPtr t)).prev_or_parent = some prev ∧ (m (rootPtr t)).next_sibling = firstPtr rest ∧ Links m t ∧
      Siblings m (rootPtr t) rest := by
  induction hpos with
  | here => exact siblings_cons.mp h
  | child above a us ts hp ih =>
      obtain ⟨-, -, hl, -⟩ := siblings_cons.mp h
      exact ih (links_node.mp hl).2.2
  | sibling above u ts hp ih => exact ih (siblings_cons.mp h).2.2.2

/-- The subtree and what follows it are part of the list. -/
theorem Position.sublist (hpos : Position t rest prev above ts) :
    (ptrs t ++ ptrsList rest).Sublist (ptrsList ts) := by
  induction hpos with
  | here =>
      rw [ptrsList_cons]
  | child above a us ts hp ih =>
      rw [ptrsList_cons, ptrs_node]
      exact (ih.trans (List.sublist_cons_self _ _)).trans (List.sublist_append_left _ _)
  | sibling above u ts hp ih =>
      rw [ptrsList_cons]
      exact ih.trans (List.sublist_append_right _ _)

/-- The subtree is the head of the list, or the node in front of it is in the list. -/
theorem Position.front (hpos : Position t rest prev above ts) :
    (prev = above ∧ ts = t :: rest) ∨ prev ∈ ptrsList ts := by
  induction hpos with
  | here => exact Or.inl ⟨rfl, rfl⟩
  | child above a us ts hp ih =>
      rw [ptrsList_cons, ptrs_node]
      rcases ih with ⟨rfl, -⟩ | h
      · exact Or.inr (List.mem_append_left _ List.mem_cons_self)
      · exact Or.inr (List.mem_append_left _ (List.mem_cons_of_mem _ h))
  | sibling above u ts hp ih =>
      rw [ptrsList_cons]
      rcases ih with ⟨rfl, -⟩ | h
      · exact Or.inr (List.mem_append_left _ (rootPtr_mem u))
      · exact Or.inr (List.mem_append_right _ h)

/-- The node in front is not in the subtree or behind it. -/
theorem Position.prev_not_mem (hpos : Position t rest prev above ts) (hnd : (above :: ptrsList ts).Nodup) :
    prev ∉ ptrs t ++ ptrsList rest := by
  induction hpos with
  | here =>
      rw [ptrsList_cons] at hnd
      exact (List.nodup_cons.mp hnd).1
  | child above a us ts hp ih =>
      rw [ptrsList_cons, ptrs_node] at hnd
      exact ih (List.nodup_append.mp (List.nodup_cons.mp hnd).2).1
  | sibling above u ts hp ih =>
      rw [ptrsList_cons] at hnd
      obtain ⟨-, hndts, hdisj⟩ := List.nodup_append.mp (List.nodup_cons.mp hnd).2
      exact ih (List.nodup_cons.mpr ⟨fun hm => hdisj _ (rootPtr_mem u) _ hm rfl, hndts⟩)

/-- **What `pairingheap_remove` writes**, over the memory before: the merged children `r` come between `prev`
    and what follows. -/
structure Spliced (m m' : Memory α) (t : Subheap α) (rest : List (Subheap α)) (prev : Ptr)
    (r : Heap (Entry α)) : Prop where
  keep : ∀ p, p ∉ ptrs t → p ≠ prev → some p ≠ firstPtr rest → m' p = m p
  atFirst : (m prev).first_child = some (rootPtr t) →
    m' prev = { m prev with first_child := (heapPtr r).or (firstPtr rest) }
  atNext : (m prev).first_child ≠ some (rootPtr t) →
    m' prev = { m prev with next_sibling := (heapPtr r).or (firstPtr rest) }
  next : ∀ n, firstPtr rest = some n → m' n = { m n with prev_or_parent := some ((heapPtr r).getD prev) }
  merged : ∀ u, r = some u → Links m' u ∧ (m' (rootPtr u)).prev_or_parent = some prev ∧
    (m' (rootPtr u)).next_sibling = firstPtr rest

/-- Nodes that are neither in the subtree nor next to it keep their links. -/
theorem Spliced.keep_of_not_mem {r : Heap (Entry α)} (hs : Spliced m m' t rest prev r) {p : Ptr}
    (hp : p ∉ ptrs t ++ ptrsList rest) (hne : p ≠ prev) : m' p = m p :=
  hs.keep p (fun h => hp (List.mem_append_left _ h)) hne
    fun he => hp (List.mem_append_right _ (firstPtr_mem he.symm))

/-- The test for the node that `pairingheap_remove` is given. -/
def isNode (node : Ptr) (e : Entry α) : Bool := decide (e.1 = node)

/-- A tree or list without the node stays as it is. -/
theorem isNode_eq_false {x : Ptr} {l : List (Entry α)} (h : x ∉ l.map Prod.fst) :
    ∀ e ∈ l, isNode x e = false := by
  intro e he
  exact decide_eq_false fun heq => h (heq ▸ List.mem_map_of_mem he)

/-- The list starts with the subtree just when `above` is the node in front. -/
theorem Position.first_iff (hpos : Position t rest prev above ts) (hnd : (above :: ptrsList ts).Nodup) :
    (firstPtr ts = some (rootPtr t) ∧ prev = above) ∨
      (firstPtr ts ≠ some (rootPtr t) ∧ prev ∈ ptrsList ts ∧ prev ≠ above) := by
  rcases hpos.front with ⟨rfl, rfl⟩ | hmem
  · exact Or.inl ⟨rfl, rfl⟩
  · have hne : prev ≠ above := fun he => (List.nodup_cons.mp hnd).1 (he ▸ hmem)
    refine Or.inr ⟨fun hf => ?_, hmem, hne⟩
    cases hpos with
    | here => exact hne rfl
    | child above a us ts hp =>
        -- the root of the subtree is not also the head
        have hroot := hp.sublist.subset (List.mem_append_left _ (rootPtr_mem t))
        rw [ptrsList_cons, ptrs_node] at hnd
        have hnda := (List.nodup_append.mp (List.nodup_cons.mp hnd).2).1
        have he : a.1 = rootPtr t := Option.some.inj hf
        rw [← he] at hroot
        exact (List.nodup_cons.mp hnda).1 hroot
    | sibling above u ts hp =>
        have hroot := hp.sublist.subset (List.mem_append_left _ (rootPtr_mem t))
        rw [ptrsList_cons] at hnd
        have he : rootPtr u = rootPtr t := Option.some.inj hf
        rw [← he] at hroot
        exact (List.nodup_append.mp (List.nodup_cons.mp hnd).2).2.2 _ (rootPtr_mem u) _ hroot rfl

/-- The first node of the list, once the merged children have taken the place of the subtree. -/
def firstAfter (t : Subheap α) (rest ts : List (Subheap α)) (r : Heap (Entry α)) : Option Ptr :=
  if firstPtr ts = some (rootPtr t) then (heapPtr r).or (firstPtr rest) else firstPtr ts

/-- A parent keeps its links, but for its first child. -/
theorem Spliced.parent {a : Entry α} {us us' : List (Subheap α)} {r : Heap (Entry α)}
    (hs : Spliced m m' t rest prev r) (hpos : Position t rest prev a.1 us) (hnd : (a.1 :: ptrsList us).Nodup)
    (hl : Links m (.node a us)) (hsib : Siblings m' a.1 us') (hfirst : firstPtr us' = firstAfter t rest us r) :
    Links m' (.node a us') ∧ (m' a.1).prev_or_parent = (m a.1).prev_or_parent ∧
      (m' a.1).next_sibling = (m a.1).next_sibling := by
  obtain ⟨ho, hf, -⟩ := links_node.mp hl
  unfold firstAfter at hfirst
  rcases hpos.first_iff hnd with ⟨he, rfl⟩ | ⟨hne, hmem, hprev⟩
  · have ha := hs.atFirst (hf.trans he)
    rw [if_pos he] at hfirst
    exact ⟨links_node.mpr ⟨by rw [ha]; exact ho, by rw [ha, hfirst], hsib⟩, by rw [ha], by rw [ha]⟩
  · have ha : m' a.1 = m a.1 := hs.keep_of_not_mem
      (fun h => (List.nodup_cons.mp hnd).1 (hpos.sublist.subset h)) (Ne.symm hprev)
    rw [if_neg hne] at hfirst
    exact ⟨links_node.mpr ⟨by rw [ha]; exact ho, by rw [ha, hf, hfirst], hsib⟩, by rw [ha], by rw [ha]⟩

/-- A list without the node stays as it is. -/
theorem removeList_of_not_mem {x : Ptr} {us : List (Subheap α)} (h : x ∉ ptrsList us) :
    PairingHeap.removeList (compareEntries ph_compare) (isNode x) us = us :=
  PairingHeap.removeList_of_forall us (isNode_eq_false h)

/-- **The list of siblings after `pairingheap_remove`** is the one of `removeList`. -/
theorem Spliced.siblings {x : Entry α} {us : List (Subheap α)}
    (hs : Spliced m m' (.node x us) rest prev (mergeChildren (compareEntries ph_compare) us))
    (hpos : Position (.node x us) rest prev above ts) (h : Siblings m above ts) (hnd : (above :: ptrsList ts).Nodup) :
    Siblings m' above (PairingHeap.removeList (compareEntries ph_compare) (isNode x.1) ts) ∧
      firstPtr (PairingHeap.removeList (compareEntries ph_compare) (isNode x.1) ts) =
        firstAfter (.node x us) rest ts (mergeChildren (compareEntries ph_compare) us) := by
  induction hpos with
  | here =>
      obtain ⟨-, -, -, hrest⟩ := siblings_cons.mp h
      rw [ptrsList_cons] at hnd
      obtain ⟨hprev, hnd⟩ := List.nodup_cons.mp hnd
      obtain ⟨-, hndrest, hdisj⟩ := List.nodup_append.mp hnd
      have hself : isNode x.1 x = true := decide_eq_true rfl
      rw [PairingHeap.removeList_cons, PairingHeap.Tree.root_node, if_pos hself, PairingHeap.Tree.children_node]
      -- what follows moves behind the merged children, or behind `prev`
      have hbehind : Siblings m' ((heapPtr (mergeChildren (compareEntries ph_compare) us)).getD prev) rest := by
        refine Siblings.behind hrest hndrest (fun p hp hf => hs.keep p (fun hm => ?_) (fun he => ?_) hf) hs.next
        · exact hdisj _ hm _ hp rfl
        · exact hprev (List.mem_append_right _ (he ▸ hp))
      have hhead : firstPtr (.node x us :: rest) = some (rootPtr (.node x us)) := rfl
      unfold firstAfter
      rw [if_pos hhead]
      cases hr : mergeChildren (compareEntries ph_compare) us with
      | none =>
          rw [hr] at hbehind
          exact ⟨hbehind, rfl⟩
      | some u =>
          rw [hr] at hbehind
          obtain ⟨hl, hp, hn⟩ := hs.merged u hr
          exact ⟨siblings_cons.mpr ⟨hp, hn, hl, hbehind⟩, rfl⟩
  | child above a vs ts hp ih =>
      obtain ⟨h1, h2, hl, hts⟩ := siblings_cons.mp h
      have hx := hp.sublist.subset (List.mem_append_left _ (rootPtr_mem _))
      have hfirst := (Position.child above a vs ts hp).first_iff hnd
      rw [ptrsList_cons] at hnd
      obtain ⟨hnda, -, hdisj⟩ := List.nodup_append.mp (List.nodup_cons.mp hnd).2
      rw [ptrs_node] at hnda hdisj
      have hne : a.1 ≠ x.1 := fun he => (List.nodup_cons.mp hnda).1 (he ▸ hx)
      obtain ⟨hsib, hfirst'⟩ := ih (links_node.mp hl).2.2 hnda
      obtain ⟨hl', hprev', hnext'⟩ := hs.parent hp hnda hl hsib hfirst'
      have hxts : x.1 ∉ ptrsList ts := fun hm => hdisj _ (List.mem_cons_of_mem _ hx) _ hm rfl
      have hnot : isNode x.1 a = false := decide_eq_false hne
      rw [PairingHeap.removeList_cons, PairingHeap.Tree.root_node, if_neg (by rw [hnot]; exact Bool.false_ne_true),
        removeList_of_not_mem hxts, PairingHeap.Tree.remove_node]
      refine ⟨siblings_cons.mpr ⟨hprev'.trans h1, hnext'.trans h2, hl', Siblings.congr ts (fun p hm => ?_) hts⟩, ?_⟩
      · -- the nodes that follow are not the ones written to
        refine hs.keep_of_not_mem (fun hm' => ?_) fun he => ?_
        · exact hdisj _ (List.mem_cons_of_mem _ (hp.sublist.subset hm')) _ hm rfl
        · rcases hp.front with ⟨hpa, -⟩ | hmem
          · exact hdisj _ List.mem_cons_self _ hm (he.trans hpa).symm
          · exact hdisj _ (List.mem_cons_of_mem _ hmem) _ hm he.symm
      · unfold firstAfter
        have hhead : firstPtr (.node a vs :: ts) ≠ some (rootPtr (.node x us)) :=
          fun he => hne (Option.some.inj he)
        rw [if_neg hhead]
        rfl
  | sibling above u ts hp ih =>
      obtain ⟨h1, h2, hl, hts⟩ := siblings_cons.mp h
      have hx := hp.sublist.subset (List.mem_append_left _ (rootPtr_mem _))
      rw [ptrsList_cons] at hnd
      obtain ⟨hndu, hndts, hdisj⟩ := List.nodup_append.mp (List.nodup_cons.mp hnd).2
      have hxu : x.1 ∉ ptrs u := fun hm => hdisj _ hm _ hx rfl
      have hne : rootPtr u ≠ x.1 := fun he => hxu (he ▸ rootPtr_mem u)
      have hnd' : (rootPtr u :: ptrsList ts).Nodup :=
        List.nodup_cons.mpr ⟨fun hm => hdisj _ (rootPtr_mem u) _ hm rfl, hndts⟩
      obtain ⟨hsib, hfirst'⟩ := ih hts hnd'
      have hnot : isNode x.1 u.root = false := decide_eq_false hne
      rw [PairingHeap.removeList_cons, if_neg (by rw [hnot]; exact Bool.false_ne_true),
        PairingHeap.Tree.remove_of_forall u (isNode_eq_false hxu)]
      have hhead : firstPtr (u :: ts) ≠ some (rootPtr (.node x us)) := fun he => hne (Option.some.inj he)
      refine ⟨?_, by unfold firstAfter; rw [if_neg hhead]; rfl⟩
      -- below the root of `u` nothing is written to
      have hbelow : ∀ p ∈ ptrsList u.children, m' p = m p := by
        intro p hm
        have hmu : p ∈ ptrs u := by
          cases u
          rw [ptrs_node]
          exact List.mem_cons_of_mem _ hm
        refine hs.keep_of_not_mem (fun hm' => hdisj _ hmu _ (hp.sublist.subset hm') rfl) fun he => ?_
        rcases hp.front with ⟨hpu, -⟩ | hmem
        · cases u with
          | node b vs =>
              rw [ptrs_node] at hndu
              have he : p = b.1 := he.trans hpu
              exact (List.nodup_cons.mp hndu).1 (he ▸ hm)
        · exact hdisj _ hmu _ hmem he
      unfold firstAfter at hfirst'
      rcases hp.first_iff hnd' with ⟨he, hpu⟩ | ⟨hne', hmem, hpu⟩
      · rw [if_pos he] at hfirst'
        have hfc : (m prev).first_child ≠ some (rootPtr (.node x us)) := by
          rw [hpu]
          intro hf
          cases u with
          | node b vs =>
              have hm := firstPtr_mem ((links_node.mp hl).2.1.symm.trans hf)
              rw [ptrs_node] at hxu
              exact hxu (List.mem_cons_of_mem _ hm)
        have hu := hs.atNext hfc
        rw [hpu] at hu
        exact siblings_cons.mpr ⟨by rw [hu]; exact h1, by rw [hu, hfirst'],
          Links.congr u (by rw [hu]) (by rw [hu]) hbelow hl, hsib⟩
      · rw [if_neg hne'] at hfirst'
        have hu : m' (rootPtr u) = m (rootPtr u) := hs.keep_of_not_mem
          (fun hm => hdisj _ (rootPtr_mem u) _ (hp.sublist.subset hm) rfl) (Ne.symm hpu)
        exact siblings_cons.mpr ⟨by rw [hu]; exact h1, by rw [hu, h2, hfirst'],
          Links.congr u (by rw [hu]) (by rw [hu]) hbelow hl, hsib⟩

end Splice

/-! ## 6. The operations -/

/-- **What a heap in memory stands for**: a tree, whose root has no parent and no siblings. -/
structure Represents (heap : PHeap α) (t : Heap (Entry α)) : Prop where
  ph_root : heap.ph_root = heapPtr t
  links : ∀ u, t = some u → Links heap.mem u ∧ (heap.mem (rootPtr u)).prev_or_parent = none ∧
    (heap.mem (rootPtr u)).next_sibling = none

/-- The nodes of a heap. -/
def heapPtrs (t : Heap (Entry α)) : List Ptr := (PairingHeap.toList t).map Prod.fst

section Operations

variable (ph_compare : α → α → Int) {m m' : Memory α} {heap : PHeap α} {t : Heap (Entry α)}

/-- The new root loses its links to a parent and siblings. -/
theorem represents_root {u : Subheap α} (h : Links m u) (hnd : (ptrs u).Nodup) :
    Represents ⟨asRoot m (rootPtr u), some (rootPtr u)⟩ (some u) := by
  refine ⟨rfl, fun v hv => ?_⟩
  obtain rfl : u = v := Option.some.inj hv
  have hroot : asRoot m (rootPtr u) (rootPtr u) = _ := asRoot_self
  show Links (asRoot m (rootPtr u)) u ∧ (asRoot m (rootPtr u) (rootPtr u)).prev_or_parent = none ∧
    (asRoot m (rootPtr u) (rootPtr u)).next_sibling = none
  exact ⟨h.setRoot hnd (by rw [hroot]) (by rw [hroot]) fun p hp => asRoot_of_ne hp, by rw [hroot], by rw [hroot]⟩

/-- **`pairingheap_add`** does what `add` on trees does. -/
theorem add_spec (h : Represents heap t) (hnd : (heapPtrs t).Nodup) {node : Ptr} (hnew : node ∉ heapPtrs t) :
    Represents (pairingheap_add ph_compare heap node)
        (PairingHeap.add (compareEntries ph_compare) t (node, (heap.mem node).object)) ∧
      ∀ p, p ≠ node → p ∉ heapPtrs t → (pairingheap_add ph_compare heap node).mem p = heap.mem p := by
  obtain ⟨m, hm⟩ : ∃ m, m = setFirstChild heap.mem node none := ⟨_, rfl⟩
  obtain ⟨leaf, hleaf⟩ : ∃ l : Subheap α, l = .node (node, (heap.mem node).object) [] := ⟨_, rfl⟩
  have hptrs : ptrs leaf = [node] := by rw [hleaf, ptrs_node, ptrsList_nil]
  have hroot : rootPtr leaf = node := by rw [hleaf]; rfl
  have hlinks : Links m leaf := by
    rw [hleaf]
    exact links_node.mpr ⟨by rw [hm, setFirstChild_self], by rw [hm, setFirstChild_self]; rfl, siblings_nil⟩
  cases t with
  | none =>
      have hadd : pairingheap_add ph_compare heap node = ⟨asRoot m (rootPtr leaf), some (rootPtr leaf)⟩ := by
        unfold pairingheap_add
        rw [h.ph_root, ← hm, hroot]
        rfl
      have htree : PairingHeap.add (compareEntries ph_compare) none (node, (heap.mem node).object) = some leaf := by
        rw [hleaf]
        rfl
      rw [hadd, htree]
      refine ⟨represents_root hlinks (hptrs ▸ List.nodup_singleton _), fun p hp _ => ?_⟩
      show asRoot _ _ _ = _
      rw [asRoot_of_ne (hroot ▸ hp), hm, setFirstChild_of_ne hp]
  | some u =>
      have hu : Links m u := (h.links u rfl).1.frame fun p hp => by
        rw [hm]
        have hne : p ≠ node := fun he => hnew (he ▸ hp)
        exact setFirstChild_of_ne hne
      have hnd' : (ptrs u ++ ptrs leaf).Nodup := by
        rw [hptrs]
        refine List.nodup_append.mpr ⟨hnd, List.nodup_singleton _, fun p hp q hq he => hnew ?_⟩
        rw [← List.mem_singleton.mp hq, ← he]
        exact hp
      obtain ⟨m1, hmerge, hlinks1, hframe⟩ := merge_spec ph_compare hu hlinks hnd'
      have hperm := ptrs_merge ph_compare u leaf
      rw [hroot] at hmerge
      have htree : PairingHeap.add (compareEntries ph_compare) (some u) (node, (heap.mem node).object) =
          some (PairingHeap.merge (compareEntries ph_compare) u leaf) := by
        rw [hleaf]
        rfl
      generalize PairingHeap.merge (compareEntries ph_compare) u leaf = merged at *
      have hadd : pairingheap_add ph_compare heap node = ⟨asRoot m1 (rootPtr merged), some (rootPtr merged)⟩ := by
        have hph : heap.ph_root = some (rootPtr u) := h.ph_root
        unfold pairingheap_add
        rw [hph, ← hm]
        simp only
        rw [hmerge]
      rw [hadd, htree]
      refine ⟨represents_root hlinks1 (hperm.nodup_iff.mpr hnd'), fun p hp hpu => ?_⟩
      have hout : p ∉ ptrs u ++ ptrs leaf := by
        rw [hptrs, List.mem_append, List.mem_singleton]
        exact fun h => h.elim hpu hp
      have hroot : p ≠ rootPtr merged := fun he => hout (hperm.mem_iff.mp (he ▸ rootPtr_mem _))
      show asRoot _ _ _ = _
      rw [asRoot_of_ne hroot, hframe p hout, hm, setFirstChild_of_ne hp]

/-- The nodes of the merged children are the ones of the children. -/
theorem heapPtrs_mergeChildren (us : List (Subheap α)) :
    (heapPtrs (mergeChildren (compareEntries ph_compare) us)).Perm (ptrsList us) :=
  (PairingHeap.mergeChildren_perm (compareEntries ph_compare) us).map Prod.fst

/-- **`pairingheap_remove_first`** does what `removeFirst` on trees does. -/
theorem remove_first_spec {x : Entry α} {us : List (Subheap α)} (h : Represents heap (some (.node x us)))
    (hnd : (heapPtrs (some (.node x us))).Nodup) {fuel : Nat} (hfuel : us.length < fuel) :
    ∃ heap', pairingheap_remove_first ph_compare fuel heap = some (x.1, heap') ∧
      Represents heap' (mergeChildren (compareEntries ph_compare) us) ∧
      ∀ p, p ∉ ptrsList us → heap'.mem p = heap.mem p := by
  obtain ⟨-, hf, hsib⟩ := links_node.mp (h.links _ rfl).1
  have hnd' : (x.1 :: ptrsList us).Nodup := by
    rw [← ptrs_node]
    exact hnd
  have hndus := (List.nodup_cons.mp hnd').2
  obtain ⟨m1, hrun, hlinks, hout⟩ := merge_children_spec ph_compare hsib hndus hfuel
  have hperm := heapPtrs_mergeChildren ph_compare us
  have hph : heap.ph_root = some x.1 := h.ph_root
  generalize mergeChildren (compareEntries ph_compare) us = r at *
  cases r with
  | none =>
      have hfirst : pairingheap_remove_first ph_compare fuel heap = some (x.1, ⟨m1, none⟩) := by
        unfold pairingheap_remove_first
        rw [hph]
        simp only
        rw [hf, hrun]
        rfl
      have hrep : Represents ⟨m1, none⟩ (none : Heap (Entry α)) := ⟨rfl, fun u hu => by cases hu⟩
      exact ⟨_, hfirst, hrep, hout⟩
  | some u =>
      have hfirst : pairingheap_remove_first ph_compare fuel heap =
          some (x.1, ⟨asRoot m1 (rootPtr u), some (rootPtr u)⟩) := by
        unfold pairingheap_remove_first
        rw [hph]
        simp only
        rw [hf, hrun]
        rfl
      refine ⟨_, hfirst, represents_root (hlinks u rfl) (hperm.nodup_iff.mpr hndus), fun p hp => ?_⟩
      have hroot : p ≠ rootPtr u := fun he => hp (hperm.mem_iff.mp (he ▸ rootPtr_mem u))
      show asRoot _ _ _ = _
      rw [asRoot_of_ne hroot, hout p hp]

/-- **The last writes of `pairingheap_remove`**, after the children have been merged. -/
theorem spliced_of {x : Ptr} {u : Subheap α} {m3 : Memory α} {rest : List (Subheap α)} {prev : Ptr}
    (r : Heap (Entry α)) (hroot : rootPtr u = x) (hkeep : ∀ p, p ∉ ptrs u → m3 p = m p)
    (hmerged : ∀ v, r = some v → Links m3 v ∧ (m3 (rootPtr v)).prev_or_parent = some prev ∧
      (m3 (rootPtr v)).next_sibling = firstPtr rest)
    (hsub : ∀ v, r = some v → ∀ p ∈ ptrs v, p ∈ ptrs u) (hprev : prev ∉ ptrs u ++ ptrsList rest)
    (hnd : (ptrs u ++ ptrsList rest).Nodup) :
    Spliced m (setPrevOrParentIf (setPrevPtr m3 (decide ((m prev).first_child = some x)) prev
      ((heapPtr r).or (firstPtr rest))) (firstPtr rest) (some ((heapPtr r).getD prev))) u rest prev r := by
  have hdisj := (List.nodup_append.mp hnd).2.2
  have hprevu : prev ∉ ptrs u := fun h => hprev (List.mem_append_left _ h)
  have hprevr : some prev ≠ firstPtr rest := fun he => hprev (List.mem_append_right _ (firstPtr_mem he.symm))
  have hptr : ∀ (b : Bool) (v : Option Ptr) (p : Ptr), p ≠ prev → setPrevPtr m3 b prev v p = m3 p := by
    intro b v p hp
    cases b with
    | false => exact setNextSibling_of_ne hp
    | true => exact setFirstChild_of_ne hp
  refine ⟨fun p hp hne hf => ?_, fun hf => ?_, fun hf => ?_, fun n hn => ?_, fun v hv => ?_⟩
  · rw [setPrevOrParentIf_of_ne hf, hptr _ _ _ hne, hkeep p hp]
  · have hf : (m prev).first_child = some x := hroot ▸ hf
    rw [setPrevOrParentIf_of_ne hprevr, decide_eq_true hf]
    show setFirstChild _ _ _ _ = _
    rw [setFirstChild_self, hkeep prev hprevu]
  · have hf : (m prev).first_child ≠ some x := hroot ▸ hf
    rw [setPrevOrParentIf_of_ne hprevr, decide_eq_false hf]
    show setNextSibling _ _ _ _ = _
    rw [setNextSibling_self, hkeep prev hprevu]
  · have hmem := firstPtr_mem hn
    have hnu : n ∉ ptrs u := fun h => hdisj _ h _ hmem rfl
    have hnp : n ≠ prev := fun he => hprevr (he ▸ hn.symm)
    rw [hn]
    show setPrevOrParent _ _ _ _ = _
    rw [setPrevOrParent_self, hptr _ _ _ hnp, hkeep n hnu]
  · -- the merged children are not written to again
    obtain ⟨hl, hp, hn⟩ := hmerged v hv
    have hsame : ∀ p ∈ ptrs v, setPrevOrParentIf (setPrevPtr m3 (decide ((m prev).first_child = some x)) prev
        ((heapPtr r).or (firstPtr rest))) (firstPtr rest) (some ((heapPtr r).getD prev)) p = m3 p := by
      intro p hm
      have hpu := hsub v hv p hm
      have hf : some p ≠ firstPtr rest := fun he => hdisj _ hpu _ (firstPtr_mem he.symm) rfl
      have hne : p ≠ prev := fun he => hprevu (he ▸ hpu)
      rw [setPrevOrParentIf_of_ne hf, hptr _ _ _ hne]
    rw [hsame _ (rootPtr_mem v)]
    exact ⟨hl.frame hsame, hp, hn⟩

end Operations

section Remove

variable (ph_compare : α → α → Int) {heap : PHeap α}

theorem length_le_ptrsList (ts : List (Subheap α)) : ts.length ≤ (ptrsList ts).length := by
  induction ts with
  | nil => exact Nat.zero_le _
  | cons t ts ih =>
      have hpos := List.length_pos_of_mem (rootPtr_mem t)
      rw [ptrsList_cons, List.length_append, List.length_cons]
      omega

/-- **`pairingheap_remove`** of a node below the root does what `removeList` on its siblings does. -/
theorem remove_below_spec {top : Entry α} {ts : List (Subheap α)}
    (h : Represents heap (some (.node top ts))) (hnd : (top.1 :: ptrsList ts).Nodup) {node : Ptr}
    (hm : node ∈ ptrsList ts) {fuel : Nat} (hfuel : (ptrsList ts).length < fuel) :
    ∃ heap', pairingheap_remove ph_compare fuel heap node = some heap' ∧
      Represents heap' (some (.node top (PairingHeap.removeList (compareEntries ph_compare) (isNode node) ts))) ∧
      ∀ p, p ∉ top.1 :: ptrsList ts → heap'.mem p = heap.mem p := by
  obtain ⟨hlinks, hrootp, hrootn⟩ := h.links _ rfl
  obtain ⟨u, rest, prev, hroot, hpos⟩ := exists_position top.1 ts hm
  cases u with
  | node x us =>
  obtain rfl : x.1 = node := hroot
  have hne : top.1 ≠ x.1 := fun he => (List.nodup_cons.mp hnd).1 (he ▸ hm)
  obtain ⟨hxp, hxn, hl, -⟩ : (heap.mem x.1).prev_or_parent = some prev ∧
      (heap.mem x.1).next_sibling = firstPtr rest ∧ Links heap.mem (.node x us) ∧ Siblings heap.mem x.1 rest :=
    hpos.links (links_node.mp hlinks).2.2
  obtain ⟨-, hxf, hus⟩ := links_node.mp hl
  have hprev := hpos.prev_not_mem hnd
  have hndx := (List.nodup_cons.mp hnd).2.sublist hpos.sublist
  have hndu : (x.1 :: ptrsList us).Nodup := by
    rw [← ptrs_node]
    exact (List.nodup_append.mp hndx).1
  have hsubu : ∀ p ∈ ptrsList us, p ∈ ptrs (.node x us) := fun p hp => by
    rw [ptrs_node]
    exact List.mem_cons_of_mem _ hp
  have hlen : us.length < fuel := by
    have h1 := length_le_ptrsList us
    have h2 := hpos.sublist.length_le
    rw [ptrs_node, List.length_append, List.length_cons] at h2
    omega
  obtain ⟨m1, hrun, hmlinks, hout⟩ := merge_children_spec ph_compare hus
    (List.nodup_cons.mp hndu).2 hlen
  have hperm := heapPtrs_mergeChildren ph_compare us
  -- it is enough to give the memory after the last writes
  suffices hfinal : ∃ m', pairingheap_remove ph_compare fuel heap x.1 = some ⟨m', heap.ph_root⟩ ∧
      Spliced heap.mem m' (.node x us) rest prev (mergeChildren (compareEntries ph_compare) us) by
    obtain ⟨m', hremove, hs⟩ := hfinal
    obtain ⟨hsib, hfirst⟩ := hs.siblings hpos (links_node.mp hlinks).2.2 hnd
    obtain ⟨hl', hp', hn'⟩ := hs.parent hpos hnd hlinks hsib hfirst
    refine ⟨_, hremove, ⟨h.ph_root, fun v hv => ?_⟩, fun p hp => ?_⟩
    · cases hv
      exact ⟨hl', hp'.trans hrootp, hn'.trans hrootn⟩
    · refine hs.keep_of_not_mem (fun hm => hp (List.mem_cons_of_mem _ (hpos.sublist.subset hm))) fun he => hp ?_
      rcases hpos.front with ⟨hpt, -⟩ | hmem
      · rw [he, hpt]
        exact List.mem_cons_self
      · rw [he]
        exact List.mem_cons_of_mem _ hmem
  have hnotroot : heap.ph_root ≠ some x.1 := by
    rw [h.ph_root]
    exact fun he => hne (Option.some.inj he)
  unfold pairingheap_remove
  rw [if_neg hnotroot]
  simp only [hxp, hxn, hxf]
  have hxprev : x.1 ≠ prev := fun he => hprev (List.mem_append_left _ (he ▸ rootPtr_mem (.node x us)))
  have hxm1 : m1 x.1 = heap.mem x.1 := hout _ (List.nodup_cons.mp hndu).1
  cases us with
  | nil =>
      have hread : (setPrevPtr heap.mem (decide ((heap.mem prev).first_child = some x.1)) prev (firstPtr rest)
          x.1).prev_or_parent = some prev := by
        unfold setPrevPtr
        split
        · rw [setFirstChild_of_ne hxprev, hxp]
        · rw [setNextSibling_of_ne hxprev, hxp]
      refine ⟨_, rfl, ?_⟩
      rw [hread]
      have hnone : ∀ v, mergeChildren (compareEntries ph_compare) [] = some v → False := fun v hv => by cases hv
      exact spliced_of (mergeChildren (compareEntries ph_compare) []) rfl (fun p _ => rfl)
        (fun v hv => (hnone v hv).elim) (fun v hv => (hnone v hv).elim) hprev hndx
  | cons c cs =>
      have hrun : merge_children ph_compare fuel heap.mem (some (rootPtr c)) = _ := hrun
      simp only [firstPtr, hrun]
      generalize mergeChildren (compareEntries ph_compare) (c :: cs) = r at *
      cases r with
      | none =>
          -- there are children to merge
          have hempty := hperm.length_eq
          have hpos := length_le_ptrsList (c :: cs)
          rw [← hempty] at hpos
          exact absurd hpos (Nat.not_succ_le_zero _)
      | some v =>
          have hv : ∀ p ∈ ptrs v, p ∈ ptrsList (c :: cs) := fun p hp => hperm.subset hp
          have hvnd : (ptrs v).Nodup := hperm.nodup_iff.mpr (List.nodup_cons.mp hndu).2
          have hxv : x.1 ≠ rootPtr v := fun he =>
            (List.nodup_cons.mp hndu).1 (he ▸ hv _ (rootPtr_mem v))
          refine ⟨_, rfl, spliced_of (some v) rfl (fun p hp => ?_) (fun w hw => ?_) (fun w hw => ?_) hprev hndx⟩
          · have hpv : p ≠ rootPtr v := fun he => hp (hsubu _ (hv _ (he ▸ rootPtr_mem v)))
            rw [setNextSibling_of_ne hpv, setPrevOrParent_of_ne hpv, hout p fun hm => hp (hsubu _ hm)]
          · obtain rfl : v = w := Option.some.inj hw
            rw [setPrevOrParent_of_ne hxv, hxm1, hxp, hxn]
            refine ⟨(hmlinks v rfl).setRoot hvnd ?_ ?_ fun p hp => ?_, ?_, ?_⟩
            · rw [setNextSibling_self, setPrevOrParent_self]
            · rw [setNextSibling_first_child, setPrevOrParent_first_child]
            · rw [setNextSibling_of_ne hp, setPrevOrParent_of_ne hp]
            · rw [setNextSibling_self, setPrevOrParent_self]
            · rw [setNextSibling_self]
          · obtain rfl : v = w := Option.some.inj hw
            exact fun p hp => hsubu _ (hv p hp)

/-- **`pairingheap_remove`** does what `remove` on trees does. -/
theorem remove_spec {t : Heap (Entry α)} (h : Represents heap t) (hnd : (heapPtrs t).Nodup) {node : Ptr}
    (hm : node ∈ heapPtrs t) {fuel : Nat} (hfuel : (heapPtrs t).length ≤ fuel) :
    ∃ heap', pairingheap_remove ph_compare fuel heap node = some heap' ∧
      Represents heap' (PairingHeap.remove (compareEntries ph_compare) (isNode node) t) ∧
      ∀ p, p ∉ heapPtrs t → heap'.mem p = heap.mem p := by
  cases t with
  | none => cases hm
  | some u =>
  cases u with
  | node top ts =>
      have hptrs : heapPtrs (some (.node top ts)) = top.1 :: ptrsList ts := ptrs_node top ts
      rw [hptrs] at hnd hm hfuel ⊢
      have hlen := length_le_ptrsList ts
      rw [List.length_cons] at hfuel
      by_cases he : node = top.1
      · subst he
        obtain ⟨heap', hrun, hrep, hout⟩ := remove_first_spec ph_compare h (hptrs ▸ hnd)
          (show ts.length < fuel by omega)
        have hself : isNode top.1 top = true := decide_eq_true rfl
        have htree : PairingHeap.remove (compareEntries ph_compare) (isNode top.1) (some (.node top ts)) =
            mergeChildren (compareEntries ph_compare) ts := if_pos hself
        have hph : heap.ph_root = some top.1 := h.ph_root
        refine ⟨heap', ?_, htree ▸ hrep, fun p hp => hout p fun hm => hp (List.mem_cons_of_mem _ hm)⟩
        unfold pairingheap_remove
        rw [if_pos hph, hrun]
        rfl
      · have hm := (List.mem_cons.mp hm).resolve_left he
        obtain ⟨heap', hrun, hrep, hout⟩ := remove_below_spec ph_compare h hnd hm
          (show (ptrsList ts).length < fuel by omega)
        have hnot : ¬ isNode node top = true := fun ht => he (of_decide_eq_true ht).symm
        have htree : PairingHeap.remove (compareEntries ph_compare) (isNode node) (some (.node top ts)) =
            some ((PairingHeap.Tree.node top ts).remove (compareEntries ph_compare) (isNode node)) := if_neg hnot
        rw [PairingHeap.Tree.remove_node] at htree
        exact ⟨heap', hrun, htree ▸ hrep, hout⟩

end Remove

/-! ## 7. Runs -/

section Fuel

variable {ph_compare : α → α → Int}

theorem pairLoop_mono {fuel fuel' : Nat} {m : Memory α} {next pairs : Option Ptr} {r : Memory α × Option Ptr}
    (h : pairLoop ph_compare fuel m next pairs = some r) (hle : fuel ≤ fuel') :
    pairLoop ph_compare fuel' m next pairs = some r := by
  induction fuel generalizing fuel' m next pairs with
  | zero => cases h
  | succ fuel ih =>
      obtain ⟨fuel', rfl⟩ : ∃ k, fuel' = k + 1 := ⟨fuel' - 1, by omega⟩
      cases next with
      | none => exact h
      | some curr =>
          rw [pairLoop] at h ⊢
          cases hsib : (m curr).next_sibling with
          | none =>
              rw [hsib] at h
              exact h
          | some sibling =>
              rw [hsib] at h
              simp only at h ⊢
              split at h
              · cases h
              · exact ih h (by omega)

theorem mergeLoop_mono {fuel fuel' : Nat} {m : Memory α} {newroot next : Option Ptr} {r : Memory α × Option Ptr}
    (h : mergeLoop ph_compare fuel m newroot next = some r) (hle : fuel ≤ fuel') :
    mergeLoop ph_compare fuel' m newroot next = some r := by
  induction fuel generalizing fuel' m newroot next with
  | zero => cases h
  | succ fuel ih =>
      obtain ⟨fuel', rfl⟩ : ∃ k, fuel' = k + 1 := ⟨fuel' - 1, by omega⟩
      cases next with
      | none => exact h
      | some curr =>
          rw [mergeLoop] at h ⊢
          exact ih h (by omega)

theorem merge_children_mono {fuel fuel' : Nat} {m : Memory α} {children : Option Ptr}
    {r : Memory α × Option Ptr} (h : merge_children ph_compare fuel m children = some r) (hle : fuel ≤ fuel') :
    merge_children ph_compare fuel' m children = some r := by
  cases children with
  | none => exact h
  | some c =>
      unfold merge_children at h ⊢
      simp only at h ⊢
      split
      · rename_i hnone
        rw [if_pos hnone] at h
        exact h
      · rename_i hsome
        rw [if_neg hsome] at h
        cases hpairs : pairLoop ph_compare fuel m (some c) none with
        | none =>
            rw [hpairs] at h
            cases h
        | some p =>
            rw [hpairs] at h
            rw [pairLoop_mono hpairs hle]
            match p, h with
            | (m, some pairs), h => exact mergeLoop_mono h hle

theorem remove_first_mono {fuel fuel' : Nat} {heap : PHeap α} {r : Ptr × PHeap α}
    (h : pairingheap_remove_first ph_compare fuel heap = some r) (hle : fuel ≤ fuel') :
    pairingheap_remove_first ph_compare fuel' heap = some r := by
  unfold pairingheap_remove_first at h ⊢
  cases hroot : heap.ph_root with
  | none =>
      rw [hroot] at h
      cases h
  | some result =>
      rw [hroot] at h
      simp only at h ⊢
      cases hmerge : merge_children ph_compare fuel heap.mem (heap.mem result).first_child with
      | none =>
          rw [hmerge] at h
          cases h
      | some p =>
          rw [hmerge] at h
          rw [merge_children_mono hmerge hle]
          exact h

theorem remove_mono {fuel fuel' : Nat} {heap heap' : PHeap α} {node : Ptr}
    (h : pairingheap_remove ph_compare fuel heap node = some heap') (hle : fuel ≤ fuel') :
    pairingheap_remove ph_compare fuel' heap node = some heap' := by
  unfold pairingheap_remove at h ⊢
  split
  · rename_i hroot
    rw [if_pos hroot] at h
    obtain ⟨r, hrun, he⟩ := Option.map_eq_some_iff.mp h
    rw [remove_first_mono hrun hle, Option.map_some, he]
  · rename_i hroot
    rw [if_neg hroot] at h
    simp only at h ⊢
    cases hprev : (heap.mem node).prev_or_parent with
    | none =>
        rw [hprev] at h
        cases h
    | some prev =>
        rw [hprev] at h
        cases hchild : (heap.mem node).first_child with
        | none =>
            rw [hchild] at h
            exact h
        | some c =>
            rw [hchild] at h
            simp only at h ⊢
            cases hmerge : merge_children ph_compare fuel heap.mem (some c) with
            | none =>
                rw [hmerge] at h
                cases h
            | some p =>
                rw [hmerge] at h
                rw [merge_children_mono hmerge hle]
                exact h

end Fuel

section Runs

variable {ph_compare : α → α → Int} {heap heap' : PHeap α} {held : Finset Ptr}

/-- **The heaps of a run**, and the nodes added and not removed. Between the calls the callers may write to
    every node that is not in the heap. -/
inductive Reached (ph_compare : α → α → Int) : PHeap α → Finset Ptr → Prop where
  | allocate (m : Memory α) : Reached ph_compare ⟨m, none⟩ ∅
  | write (heap : PHeap α) (held : Finset Ptr) (m : Memory α) (h : Reached ph_compare heap held)
      (hm : ∀ p ∈ held, m p = heap.mem p) : Reached ph_compare ⟨m, heap.ph_root⟩ held
  | add (heap : PHeap α) (held : Finset Ptr) (node : Ptr) (h : Reached ph_compare heap held)
      (hnew : node ∉ held) : Reached ph_compare (pairingheap_add ph_compare heap node) (insert node held)
  | remove_first (heap heap' : PHeap α) (held : Finset Ptr) (result : Ptr) (fuel : Nat)
      (h : Reached ph_compare heap held)
      (hrun : pairingheap_remove_first ph_compare fuel heap = some (result, heap')) :
      Reached ph_compare heap' (held.erase result)
  | remove (heap heap' : PHeap α) (held : Finset Ptr) (node : Ptr) (fuel : Nat)
      (h : Reached ph_compare heap held) (hm : node ∈ held)
      (hrun : pairingheap_remove ph_compare fuel heap node = some heap') :
      Reached ph_compare heap' (held.erase node)

/-- **A heap with these nodes**: memory holds a tree of them with all its links, each node once, and no node
    compares higher than its parent. -/
structure Holds (ph_compare : α → α → Int) (heap : PHeap α) (held : Finset Ptr) (t : Heap (Entry α)) : Prop where
  represents : Represents heap t
  nodup : (heapPtrs t).Nodup
  mem_iff : ∀ p, p ∈ heapPtrs t ↔ p ∈ held
  heaped : HeapedH (compareEntries ph_compare) t

theorem compareEntries_preorder (hc : IsTotalPreorder ph_compare) : IsTotalPreorder (compareEntries ph_compare) :=
  ⟨fun a b => hc.total a.2 b.2, fun a b c => hc.trans a.2 b.2 c.2⟩

theorem Holds.length_eq {t : Heap (Entry α)} (h : Holds ph_compare heap held t) :
    (heapPtrs t).length = held.card := by
  have he : (heapPtrs t).toFinset = held := by
    ext p
    rw [List.mem_toFinset]
    exact h.mem_iff p
  rw [← he, List.toFinset_card_of_nodup h.nodup]

mutual

/-- The objects of a tree in memory. -/
theorem Links.objects {m : Memory α} : ∀ t : Subheap α, Links m t → ∀ e ∈ t.toList, (m e.1).object = e.2
  | .node a ts, h, e, he => by
      obtain ⟨ho, -, hts⟩ := links_node.mp h
      rw [PairingHeap.Tree.toList_node] at he
      rcases List.mem_cons.mp he with rfl | he
      · exact ho
      · exact Siblings.objects ts hts e he

theorem Siblings.objects {m : Memory α} {prev : Ptr} : ∀ ts : List (Subheap α), Siblings m prev ts →
    ∀ e ∈ PairingHeap.toLists ts, (m e.1).object = e.2
  | [], _, e, he => by
      rw [PairingHeap.toLists_nil] at he
      cases he
  | t :: ts, h, e, he => by
      obtain ⟨-, -, ht, hts⟩ := siblings_cons.mp h
      rw [PairingHeap.toLists_cons] at he
      rcases List.mem_append.mp he with he | he
      · exact Links.objects t ht e he
      · exact Siblings.objects ts hts e he

end

/-- The entry of a node in the heap. -/
theorem Holds.mem_toList {t : Heap (Entry α)} (h : Holds ph_compare heap held t) {p : Ptr} (hp : p ∈ held) :
    (p, (heap.mem p).object) ∈ PairingHeap.toList t := by
  obtain ⟨e, he, rfl⟩ := List.mem_map.mp ((h.mem_iff p).mpr hp)
  cases t with
  | none => cases he
  | some u =>
      rw [Links.objects u (h.represents.links u rfl).1 e he]
      exact he

/-- **`pairingheap_add` keeps the heap.** -/
theorem Holds.add (hc : IsTotalPreorder ph_compare) {t : Heap (Entry α)} (h : Holds ph_compare heap held t)
    {node : Ptr} (hnew : node ∉ held) :
    Holds ph_compare (pairingheap_add ph_compare heap node) (insert node held)
      (PairingHeap.add (compareEntries ph_compare) t (node, (heap.mem node).object)) := by
  have hnot : node ∉ heapPtrs t := fun hm => hnew ((h.mem_iff node).mp hm)
  have hperm := (PairingHeap.add_perm (compareEntries ph_compare) t (node, (heap.mem node).object)).map Prod.fst
  rw [List.map_cons] at hperm
  refine ⟨(add_spec ph_compare h.represents h.nodup hnot).1, hperm.nodup_iff.mpr (List.nodup_cons.mpr ⟨hnot, h.nodup⟩),
    fun p => ?_, PairingHeap.add_heaped (compareEntries_preorder hc) h.heaped _⟩
  rw [Finset.mem_insert, ← h.mem_iff p]
  exact hperm.mem_iff.trans List.mem_cons

/-- A heap without one of its nodes. -/
theorem Holds.erase {t t' : Heap (Entry α)} (h : Holds ph_compare heap held t) {node : Ptr}
    (hrep : Represents heap' t') (hperm : (heapPtrs t).Perm (node :: heapPtrs t'))
    (hh : HeapedH (compareEntries ph_compare) t') : Holds ph_compare heap' (held.erase node) t' := by
  obtain ⟨hnot, hnd⟩ := List.nodup_cons.mp (hperm.nodup_iff.mp h.nodup)
  refine ⟨hrep, hnd, fun p => ?_, hh⟩
  rw [Finset.mem_erase, ← h.mem_iff p, hperm.mem_iff, List.mem_cons]
  constructor
  · exact fun hp => ⟨fun he => hnot (he ▸ hp), Or.inr hp⟩
  · exact fun ⟨hne, hp⟩ => hp.resolve_left hne

/-- **`pairingheap_remove_first` keeps the heap** and returns a node that no other one exceeds. -/
theorem Holds.remove_first (hc : IsTotalPreorder ph_compare) {t : Heap (Entry α)}
    (h : Holds ph_compare heap held t) (hne : held.Nonempty) {fuel : Nat} (hfuel : held.card ≤ fuel) :
    ∃ result heap' t', pairingheap_remove_first ph_compare fuel heap = some (result, heap') ∧ result ∈ held ∧
      (∀ p ∈ held, Ge ph_compare (heap.mem result).object (heap.mem p).object) ∧
      Holds ph_compare heap' (held.erase result) t' := by
  have hlen := h.length_eq
  cases t with
  | none =>
      obtain ⟨p, hp⟩ := hne
      have hm := (h.mem_iff p).mpr hp
      cases hm
  | some u =>
  cases u with
  | node x us =>
      have hptrs : heapPtrs (some (.node x us)) = x.1 :: ptrsList us := ptrs_node x us
      have hchildren := length_le_ptrsList us
      rw [hptrs, List.length_cons] at hlen
      obtain ⟨heap', hrun, hrep, -⟩ := remove_first_spec ph_compare h.represents h.nodup
        (show us.length < fuel by omega)
      have hperm : (heapPtrs (some (.node x us))).Perm
          (x.1 :: heapPtrs (mergeChildren (compareEntries ph_compare) us)) := by
        rw [hptrs]
        exact (heapPtrs_mergeChildren ph_compare us).symm.cons x.1
      have hx : x.1 ∈ held := (h.mem_iff _).mp (hptrs ▸ List.mem_cons_self)
      have hheaped : HeapedH (compareEntries ph_compare) (mergeChildren (compareEntries ph_compare) us) :=
        PairingHeap.removeFirst_heaped (compareEntries_preorder hc) h.heaped rfl
      refine ⟨x.1, heap', _, hrun, hx, fun p hp => ?_, h.erase hrep hperm hheaped⟩
      have hge := PairingHeap.first_ge (compareEntries_preorder hc) h.heaped (rfl : PairingHeap.first _ = some x)
        _ (h.mem_toList hp)
      have hobj : (heap.mem x.1).object = x.2 := (links_node.mp (h.represents.links _ rfl).1).1
      rw [hobj]
      exact hge

/-- **`pairingheap_remove` keeps the heap.** -/
theorem Holds.remove (hc : IsTotalPreorder ph_compare) {t : Heap (Entry α)} (h : Holds ph_compare heap held t)
    {node : Ptr} (hm : node ∈ held) {fuel : Nat} (hfuel : held.card ≤ fuel) :
    ∃ heap' t', pairingheap_remove ph_compare fuel heap node = some heap' ∧
      Holds ph_compare heap' (held.erase node) t' := by
  obtain ⟨heap', hrun, hrep, -⟩ := remove_spec ph_compare h.represents h.nodup
    ((h.mem_iff node).mpr hm) (h.length_eq.le.trans hfuel)
  have hmem := h.mem_toList hm
  have hone : PairingHeap.OnlyNode (isNode node) (node, (heap.mem node).object) (PairingHeap.toList t) := by
    refine ⟨List.Nodup.of_map _ h.nodup, decide_eq_true rfl, fun e he hnode => ?_⟩
    exact List.inj_on_of_nodup_map h.nodup he hmem (of_decide_eq_true hnode)
  have hentries : (PairingHeap.toList t).Perm ((node, (heap.mem node).object) ::
      PairingHeap.toList (PairingHeap.remove (compareEntries ph_compare) (isNode node) t)) :=
    PairingHeap.remove_perm hone hmem
  have hperm := hentries.map Prod.fst
  rw [List.map_cons] at hperm
  exact ⟨heap', _, hrun, h.erase hrep hperm (PairingHeap.remove_heaped (compareEntries_preorder hc) h.heaped)⟩

/-- What is outside the heap may change. -/
theorem Holds.write {t : Heap (Entry α)} (h : Holds ph_compare heap held t) {m : Memory α}
    (hm : ∀ p ∈ held, m p = heap.mem p) : Holds ph_compare ⟨m, heap.ph_root⟩ held t := by
  refine ⟨⟨h.represents.ph_root, fun u hu => ?_⟩, h.nodup, h.mem_iff, h.heaped⟩
  obtain ⟨hl, hp, hn⟩ := h.represents.links u hu
  have hsame : ∀ p ∈ ptrs u, m p = heap.mem p := fun p hp => hm p ((h.mem_iff p).mp (by rw [hu]; exact hp))
  refine ⟨hl.frame hsame, ?_, ?_⟩
  · show (m (rootPtr u)).prev_or_parent = none
    rw [hsame _ (rootPtr_mem u)]
    exact hp
  · show (m (rootPtr u)).next_sibling = none
    rw [hsame _ (rootPtr_mem u)]
    exact hn

/-- Every heap of a run is a heap with the nodes added and not removed. -/
theorem Reached.holds (hc : IsTotalPreorder ph_compare) (h : Reached ph_compare heap held) :
    ∃ t, Holds ph_compare heap held t := by
  induction h with
  | allocate m =>
      have hrep : Represents ⟨m, none⟩ (none : Heap (Entry α)) := ⟨rfl, fun u hu => by cases hu⟩
      have hnil : ∀ p, p ∈ heapPtrs (none : Heap (Entry α)) ↔ p ∈ (∅ : Finset Ptr) := fun p =>
        iff_of_false List.not_mem_nil (Finset.notMem_empty p)
      exact ⟨none, hrep, List.nodup_nil, hnil, PairingHeap.heapedH_none⟩
  | write heap held m h hm ih =>
      obtain ⟨t, ht⟩ := ih
      exact ⟨t, ht.write hm⟩
  | add heap held node h hnew ih =>
      obtain ⟨t, ht⟩ := ih
      exact ⟨_, ht.add hc hnew⟩
  | remove_first heap heap' held result fuel h hrun ih =>
      obtain ⟨t, ht⟩ := ih
      have hne : held.Nonempty := by
        rw [Finset.nonempty_iff_ne_empty]
        intro he
        cases t with
        | none =>
            have hroot : heap.ph_root = none := ht.represents.ph_root
            unfold pairingheap_remove_first at hrun
            rw [hroot] at hrun
            cases hrun
        | some u =>
            have hm := (ht.mem_iff _).mp (rootPtr_mem u)
            rw [he] at hm
            exact absurd hm (Finset.notMem_empty _)
      -- more fuel gives the same
      obtain ⟨result', heap'', t', hrun', -, -, ht'⟩ := ht.remove_first hc hne (le_max_left held.card fuel)
      rw [remove_first_mono hrun (le_max_right held.card fuel)] at hrun'
      cases hrun'
      exact ⟨t', ht'⟩
  | remove heap heap' held node fuel h hm hrun ih =>
      obtain ⟨t, ht⟩ := ih
      obtain ⟨heap'', t', hrun', ht'⟩ := ht.remove hc hm (le_max_left held.card fuel)
      rw [remove_mono hrun (le_max_right held.card fuel)] at hrun'
      cases hrun'
      exact ⟨t', ht'⟩

/-- **The pairing heap.** After every run, memory holds a tree of just the nodes added and not removed, with
    consistent links and no node above its parent; `pairingheap_remove_first` of a heap that is not empty
    returns a node that no other exceeds, and `pairingheap_remove` of a node in it returns. -/
theorem pairing_heap (hc : IsTotalPreorder ph_compare) (h : Reached ph_compare heap held) :
    (∃ t, Holds ph_compare heap held t) ∧
    (held.Nonempty → ∀ fuel, held.card ≤ fuel → ∃ result heap',
      pairingheap_remove_first ph_compare fuel heap = some (result, heap') ∧ result ∈ held ∧
        ∀ p ∈ held, Ge ph_compare (heap.mem result).object (heap.mem p).object) ∧
    ∀ node ∈ held, ∀ fuel, held.card ≤ fuel →
      ∃ heap', pairingheap_remove ph_compare fuel heap node = some heap' := by
  obtain ⟨t, ht⟩ := h.holds hc
  refine ⟨⟨t, ht⟩, fun hne fuel hfuel => ?_, fun node hm fuel hfuel => ?_⟩
  · obtain ⟨result, heap', -, hrun, hmem, hge, -⟩ := ht.remove_first hc hne hfuel
    exact ⟨result, heap', hrun, hmem, hge⟩
  · obtain ⟨heap', -, hrun, -⟩ := ht.remove hc hm hfuel
    exact ⟨heap', hrun⟩

theorem sub_preorder : IsTotalPreorder fun a b : Int => a - b := by
  refine ⟨fun a b => ?_, fun a b c h1 h2 => ?_⟩
  · simp only [Ge]
    omega
  · simp only [Ge] at *
    omega

/-- Three nodes are added, the greatest one second, over links that are garbage. -/
def threeNodes : PHeap Int :=
  pairingheap_add (fun a b => a - b) (pairingheap_add (fun a b => a - b)
    (pairingheap_add (fun a b => a - b) ⟨fun p => ⟨some 7, some p, some 2, p⟩, none⟩ 1) 3) 2

theorem pairing_heap_three : ∃ result heap',
    pairingheap_remove_first (fun a b : Int => a - b) 3 threeNodes = some (result, heap') ∧
      result ∈ ({2, 3, 1} : Finset Ptr) := by
  have hreached : Reached (fun a b : Int => a - b) threeNodes {2, 3, 1} :=
    .add _ _ 2 (.add _ _ 3 (.add _ _ 1 (.allocate _) (by decide)) (by decide)) (by decide)
  obtain ⟨-, hfirst, -⟩ := pairing_heap sub_preorder hreached
  obtain ⟨result, heap', hrun, hm, -⟩ := hfirst ⟨1, by decide⟩ 3 (by decide)
  exact ⟨result, heap', hrun, hm⟩

end Runs

end Pgvec.Pairingheap
