/-
  File:      Pgvec/Lib/PairingHeap.lean
  Subject:   THE PAIRING HEAP of `src/backend/lib/pairingheap.c`, as a tree.

  A node is a value and the list of its children, the first child first. `ph_compare` is any
  function into the integers; as in the source only the sign test `ph_compare a b < 0` is used, and
  the heap is a max-heap. The functions keep their source names without the `pairingheap_` prefix.

  * `add_perm`, `removeFirst_perm` -- what the heap holds, as a list up to order;
  * `Heaped`, `add_heaped`, `removeFirst_heaped`, `first_ge` -- under a total preorder the root is
    one that no element exceeds;
  * `remove_perm`, `remove_heaped` -- removing any node, the merged children in its place;
  * `map_add`, `map_removeFirst` -- the heap commutes with renaming its elements, when the
    renaming keeps the comparison.
-/
import Mathlib.Data.List.Perm.Basic

namespace Pgvec.PairingHeap

/-- A node: its value and its children, `first_child` first. -/
inductive Tree (α : Type) : Type where
  | node (a : α) (children : List (Tree α)) : Tree α

/-- A heap: `ph_root`, or nothing. -/
abbrev Heap (α : Type) : Type := Option (Tree α)

variable {α β : Type}

/-- The value at the root. -/
def Tree.root : Tree α → α
  | .node a _ => a

section Operations

variable (ph_compare : α → α → Int)

/-- `merge`: the root that compares lower becomes the first child of the other. -/
def merge : Tree α → Tree α → Tree α
  | .node x xs, .node y ys =>
      if ph_compare x y < 0 then .node y (.node x xs :: ys) else .node x (.node y ys :: xs)

/-- The first pass of `merge_children`: merge neighbours from left to right, newest pair first. -/
def pairs : List (Tree α) → List (Tree α) → List (Tree α)
  | [], ps => ps
  | [c], ps => c :: ps
  | c :: d :: rest, ps => pairs rest (merge ph_compare c d :: ps)

/-- `merge_children`: pair the subheaps up, then merge the pairs together. -/
def mergeChildren (children : List (Tree α)) : Heap α :=
  match pairs ph_compare children [] with
  | [] => none
  | p :: ps => some (ps.foldl (merge ph_compare) p)

/-- `pairingheap_add`. -/
def add (h : Heap α) (x : α) : Heap α :=
  match h with
  | none => some (.node x [])
  | some r => some (merge ph_compare r (.node x []))

/-- `pairingheap_first`: the topmost node, `none` on an empty heap. -/
def first : Heap α → Option α
  | none => none
  | some r => some r.root

/-- `pairingheap_remove_first`: the topmost node and the heap without it. -/
def removeFirst : Heap α → Option (α × Heap α)
  | none => none
  | some (.node x xs) => some (x, mergeChildren ph_compare xs)

end Operations

/-! ## 1. What a heap holds -/

mutual

/-- The values of a tree, the root first. -/
def Tree.toList : Tree α → List α
  | .node a ts => a :: toLists ts

/-- The values of a list of trees. -/
def toLists : List (Tree α) → List α
  | [] => []
  | t :: ts => t.toList ++ toLists ts

end

/-- The values of a heap. -/
def toList : Heap α → List α
  | none => []
  | some t => t.toList

@[simp] theorem toList_none : toList (none : Heap α) = [] := rfl

@[simp] theorem toList_some (t : Tree α) : toList (some t) = t.toList := rfl

@[simp] theorem Tree.toList_node (a : α) (ts : List (Tree α)) :
    (Tree.node a ts).toList = a :: toLists ts := by
  rw [Tree.toList]

@[simp] theorem toLists_nil : toLists ([] : List (Tree α)) = [] := by rw [toLists]

@[simp] theorem toLists_cons (t : Tree α) (ts : List (Tree α)) :
    toLists (t :: ts) = t.toList ++ toLists ts := by
  rw [toLists]

section Holds

variable (ph_compare : α → α → Int)

theorem merge_perm (a b : Tree α) : (merge ph_compare a b).toList.Perm (a.toList ++ b.toList) := by
  cases a with
  | node x xs =>
    cases b with
    | node y ys =>
      simp only [merge]
      split
      · simp only [Tree.toList_node, toLists_cons, List.cons_append]
        exact (@List.perm_middle _ _ (x :: toLists xs) _).symm
      · simp only [Tree.toList_node, toLists_cons, List.cons_append]
        exact (@List.perm_append_comm _ (y :: toLists ys) _).cons x

theorem pairs_perm : ∀ (ts ps : List (Tree α)),
    (toLists (pairs ph_compare ts ps)).Perm (toLists ts ++ toLists ps)
  | [], ps => by simp only [pairs, toLists_nil, List.nil_append]; exact .refl _
  | [c], ps => by
      simp only [pairs, toLists_cons, toLists_nil, List.append_nil]
      exact .refl _
  | c :: d :: rest, ps => by
      have ih := pairs_perm rest (merge ph_compare c d :: ps)
      have hm := merge_perm ph_compare c d
      simp only [pairs, toLists_cons] at ih ⊢
      refine ih.trans ?_
      calc toLists rest ++ ((merge ph_compare c d).toList ++ toLists ps)
          _ |>.Perm ((merge ph_compare c d).toList ++ (toLists rest ++ toLists ps)) :=
            List.perm_append_comm_assoc _ _ _
          _ |>.Perm ((c.toList ++ d.toList) ++ (toLists rest ++ toLists ps)) := hm.append_right _
          _ |>.Perm (c.toList ++ (d.toList ++ toLists rest) ++ toLists ps) := by
            simp only [List.append_assoc]; exact .refl _

theorem foldl_merge_perm : ∀ (ps : List (Tree α)) (p : Tree α),
    (ps.foldl (merge ph_compare) p).toList.Perm (p.toList ++ toLists ps)
  | [], p => by simp
  | q :: ps, p => by
      have ih := foldl_merge_perm ps (merge ph_compare p q)
      simp only [List.foldl_cons, toLists_cons]
      refine ih.trans (((merge_perm ph_compare p q).append_right _).trans ?_)
      rw [List.append_assoc]

theorem mergeChildren_perm (ts : List (Tree α)) :
    (toList (mergeChildren ph_compare ts)).Perm (toLists ts) := by
  have h := pairs_perm ph_compare ts []
  rw [toLists_nil, List.append_nil] at h
  unfold mergeChildren
  split
  · rename_i hp
    rw [hp] at h
    exact h
  · rename_i p ps hp
    rw [hp] at h
    exact (foldl_merge_perm ph_compare ps p).trans (by simpa using h)

/-- Adding `x` adds `x` and nothing else. -/
theorem add_perm (h : Heap α) (x : α) : (toList (add ph_compare h x)).Perm (x :: toList h) := by
  cases h with
  | none => simp [add]
  | some r =>
      refine (merge_perm ph_compare r (.node x [])).trans ?_
      simp

/-- Removing the first node removes that one and nothing else. -/
theorem removeFirst_perm {h h' : Heap α} {x : α}
    (hr : removeFirst ph_compare h = some (x, h')) : (toList h).Perm (x :: toList h') := by
  cases h with
  | none => cases hr
  | some r =>
      cases r with
      | node a ts =>
          simp only [removeFirst, Option.some.injEq, Prod.mk.injEq] at hr
          obtain ⟨rfl, rfl⟩ := hr
          rw [toList_some, Tree.toList_node]
          exact ((mergeChildren_perm ph_compare ts).symm).cons a

/-- The node removed is the one `first` names. -/
theorem removeFirst_first {h h' : Heap α} {x : α}
    (hr : removeFirst ph_compare h = some (x, h')) : first h = some x := by
  cases h with
  | none => cases hr
  | some r =>
      cases r with
      | node a ts =>
          simp only [removeFirst, Option.some.injEq, Prod.mk.injEq] at hr
          obtain ⟨rfl, rfl⟩ := hr
          rfl

theorem removeFirst_eq_none {h : Heap α} : removeFirst ph_compare h = none ↔ h = none := by
  cases h with
  | none => simp [removeFirst]
  | some r => cases r; simp [removeFirst]

end Holds

theorem first_eq_none {h : Heap α} : first h = none ↔ h = none := by
  cases h <;> simp [first]

theorem first_mem {h : Heap α} {x : α} (hf : first h = some x) : x ∈ toList h := by
  cases h with
  | none => cases hf
  | some r =>
      cases r
      cases hf
      exact List.mem_cons_self

theorem toList_eq_nil {h : Heap α} : toList h = [] ↔ h = none := by
  cases h with
  | none => simp
  | some r => cases r; simp

/-! ## 2. The order -/

/-- `a` compares at least as high as `b`. -/
def Ge (ph_compare : α → α → Int) (a b : α) : Prop := ¬ ph_compare a b < 0

/-- A comparator that is a total preorder. -/
structure IsTotalPreorder (ph_compare : α → α → Int) : Prop where
  total : ∀ a b, Ge ph_compare a b ∨ Ge ph_compare b a
  trans : ∀ a b c, Ge ph_compare a b → Ge ph_compare b c → Ge ph_compare a c

/-- Every node of the tree compares at most as high as the root above it. -/
inductive Heaped (ph_compare : α → α → Int) : Tree α → Prop where
  | node (a : α) (ts : List (Tree α)) (hle : ∀ t ∈ ts, Ge ph_compare a t.root)
      (hts : ∀ t ∈ ts, Heaped ph_compare t) : Heaped ph_compare (.node a ts)

/-- Every tree of the heap is heaped. -/
def HeapedH (ph_compare : α → α → Int) (h : Heap α) : Prop := ∀ t, h = some t → Heaped ph_compare t

section Order

variable {ph_compare : α → α → Int}

theorem merge_heaped (hc : IsTotalPreorder ph_compare) {a b : Tree α} (ha : Heaped ph_compare a)
    (hb : Heaped ph_compare b) : Heaped ph_compare (merge ph_compare a b) := by
  cases ha with
  | node x xs hx hxs =>
    cases hb with
    | node y ys hy hys =>
      have hnx := Heaped.node x xs hx hxs
      have hny := Heaped.node y ys hy hys
      simp only [merge]
      split
      · rename_i hlt
        have hge : Ge ph_compare y x := (hc.total x y).resolve_left fun h => h hlt
        exact .node y _ (List.forall_mem_cons.mpr ⟨hge, hy⟩) (List.forall_mem_cons.mpr ⟨hnx, hys⟩)
      · rename_i hge
        exact .node x _ (List.forall_mem_cons.mpr ⟨hge, hx⟩) (List.forall_mem_cons.mpr ⟨hny, hxs⟩)

theorem pairs_heaped (hc : IsTotalPreorder ph_compare) : ∀ (ts ps : List (Tree α)),
    (∀ t ∈ ts, Heaped ph_compare t) → (∀ t ∈ ps, Heaped ph_compare t) →
    ∀ t ∈ pairs ph_compare ts ps, Heaped ph_compare t
  | [], _, _, hps => hps
  | [_], _, hts, hps => List.forall_mem_cons.mpr ⟨hts _ List.mem_cons_self, hps⟩
  | c :: d :: rest, ps, hts, hps => by
      obtain ⟨hcc, hts'⟩ := List.forall_mem_cons.mp hts
      obtain ⟨hd, hrest⟩ := List.forall_mem_cons.mp hts'
      exact pairs_heaped hc rest _ hrest
        (List.forall_mem_cons.mpr ⟨merge_heaped hc hcc hd, hps⟩)

theorem foldl_merge_heaped (hc : IsTotalPreorder ph_compare) : ∀ (ps : List (Tree α)) (p : Tree α),
    Heaped ph_compare p → (∀ t ∈ ps, Heaped ph_compare t) →
    Heaped ph_compare (ps.foldl (merge ph_compare) p)
  | [], _, hp, _ => hp
  | q :: ps, p, hp, hps => by
      obtain ⟨hq, hps'⟩ := List.forall_mem_cons.mp hps
      exact foldl_merge_heaped hc ps _ (merge_heaped hc hp hq) hps'

theorem mergeChildren_heaped (hc : IsTotalPreorder ph_compare) {ts : List (Tree α)}
    (hts : ∀ t ∈ ts, Heaped ph_compare t) : HeapedH ph_compare (mergeChildren ph_compare ts) := by
  have h := pairs_heaped hc ts [] hts (fun t ht => absurd ht List.not_mem_nil)
  intro t ht
  unfold mergeChildren at ht
  split at ht
  · cases ht
  · rename_i p ps hp
    rw [hp] at h
    obtain ⟨hp', hps⟩ := List.forall_mem_cons.mp h
    cases ht
    exact foldl_merge_heaped hc ps p hp' hps

theorem add_heaped (hc : IsTotalPreorder ph_compare) {h : Heap α} (hh : HeapedH ph_compare h)
    (x : α) : HeapedH ph_compare (add ph_compare h x) := by
  have hx : Heaped ph_compare (.node x []) :=
    .node x [] (fun t ht => absurd ht List.not_mem_nil) (fun t ht => absurd ht List.not_mem_nil)
  intro t ht
  cases h with
  | none => cases ht; exact hx
  | some r => cases ht; exact merge_heaped hc (hh r rfl) hx

theorem removeFirst_heaped (hc : IsTotalPreorder ph_compare) {h h' : Heap α} {x : α}
    (hh : HeapedH ph_compare h) (hr : removeFirst ph_compare h = some (x, h')) :
    HeapedH ph_compare h' := by
  cases h with
  | none => cases hr
  | some r =>
      cases hh r rfl with
      | node a ts hle hts =>
          simp only [removeFirst, Option.some.injEq, Prod.mk.injEq] at hr
          obtain ⟨rfl, rfl⟩ := hr
          exact mergeChildren_heaped hc hts

theorem heapedH_none : HeapedH ph_compare (none : Heap α) := fun _ h => by cases h

/-- The root of a heaped tree is not exceeded. -/
theorem root_ge (hc : IsTotalPreorder ph_compare) {t : Tree α} (ht : Heaped ph_compare t) :
    ∀ x ∈ t.toList, Ge ph_compare t.root x := by
  induction ht with
  | node a ts hle hts ih =>
      have hrefl : Ge ph_compare a a := (hc.total a a).elim id id
      intro x hx
      rw [Tree.toList_node] at hx
      rcases List.mem_cons.mp hx with rfl | hx
      · exact hrefl
      · -- `x` sits below one of the children
        have : ∀ us : List (Tree α), (∀ u ∈ us, u ∈ ts) → x ∈ toLists us → Ge ph_compare a x := by
          intro us hus hx
          induction us with
          | nil => simp at hx
          | cons u us ihu =>
              rw [toLists_cons] at hx
              rcases List.mem_append.mp hx with h | h
              · have hu := hus u List.mem_cons_self
                exact hc.trans _ _ _ (hle u hu) (ih u hu x h)
              · exact ihu (fun v hv => hus v (List.mem_cons_of_mem _ hv)) h
        exact this ts (fun _ h => h) hx

/-- **The first node is one that no node of the heap exceeds.** -/
theorem first_ge (hc : IsTotalPreorder ph_compare) {h : Heap α} (hh : HeapedH ph_compare h)
    {x : α} (hf : first h = some x) : ∀ y ∈ toList h, Ge ph_compare x y := by
  cases h with
  | none => cases hf
  | some r =>
      cases hf
      exact root_ge hc (hh r rfl)

end Order

/-! ## 3. Renaming the elements -/

mutual

/-- Rename the values of a tree. -/
def Tree.map (f : α → β) : Tree α → Tree β
  | .node a ts => .node (f a) (mapList f ts)

/-- Rename the values of a list of trees. -/
def mapList (f : α → β) : List (Tree α) → List (Tree β)
  | [] => []
  | t :: ts => t.map f :: mapList f ts

end

/-- Rename the values of a heap. -/
def map (f : α → β) : Heap α → Heap β
  | none => none
  | some t => some (t.map f)

@[simp] theorem Tree.map_node (f : α → β) (a : α) (ts : List (Tree α)) :
    (Tree.node a ts).map f = .node (f a) (mapList f ts) := by
  rw [Tree.map]

@[simp] theorem mapList_nil (f : α → β) : mapList f ([] : List (Tree α)) = [] := by rw [mapList]

@[simp] theorem mapList_cons (f : α → β) (t : Tree α) (ts : List (Tree α)) :
    mapList f (t :: ts) = t.map f :: mapList f ts := by
  rw [mapList]

@[simp] theorem map_none (f : α → β) : map f (none : Heap α) = none := rfl

@[simp] theorem map_some (f : α → β) (t : Tree α) : map f (some t) = some (t.map f) := rfl

mutual

theorem Tree.toList_map (f : α → β) : ∀ t : Tree α, (t.map f).toList = t.toList.map f
  | .node a ts => by
      rw [Tree.map_node, Tree.toList_node, Tree.toList_node, toLists_mapList f ts, List.map_cons]

theorem toLists_mapList (f : α → β) : ∀ ts : List (Tree α),
    toLists (mapList f ts) = (toLists ts).map f
  | [] => by simp only [mapList_nil, toLists_nil, List.map_nil]
  | t :: ts => by
      rw [mapList_cons, toLists_cons, toLists_cons, Tree.toList_map f t, toLists_mapList f ts,
        List.map_append]

end

theorem toList_map (f : α → β) (h : Heap α) : toList (map f h) = (toList h).map f := by
  cases h with
  | none => rfl
  | some t => exact Tree.toList_map f t

section Renaming

variable {f : α → β} {cmp : α → α → Int} {cmp' : β → β → Int}

theorem map_merge (hf : ∀ a b, cmp' (f a) (f b) = cmp a b) (a b : Tree α) :
    merge cmp' (a.map f) (b.map f) = (merge cmp a b).map f := by
  cases a with
  | node x xs =>
    cases b with
    | node y ys =>
      simp only [Tree.map_node, merge, hf]
      split <;> simp only [Tree.map_node, mapList_cons]

theorem map_pairs (hf : ∀ a b, cmp' (f a) (f b) = cmp a b) : ∀ (ts ps : List (Tree α)),
    pairs cmp' (mapList f ts) (mapList f ps) = mapList f (pairs cmp ts ps)
  | [], ps => by simp only [mapList_nil, pairs]
  | [c], ps => by simp only [mapList_cons, mapList_nil, pairs]
  | c :: d :: rest, ps => by
      have ih := map_pairs hf rest (merge cmp c d :: ps)
      simp only [mapList_cons, pairs] at ih ⊢
      rw [map_merge hf]
      exact ih

theorem map_foldl_merge (hf : ∀ a b, cmp' (f a) (f b) = cmp a b) : ∀ (ps : List (Tree α))
    (p : Tree α), (mapList f ps).foldl (merge cmp') (p.map f) = (ps.foldl (merge cmp) p).map f
  | [], p => by simp only [mapList_nil, List.foldl_nil]
  | q :: ps, p => by
      simp only [mapList_cons, List.foldl_cons]
      rw [map_merge hf]
      exact map_foldl_merge hf ps _

theorem map_mergeChildren (hf : ∀ a b, cmp' (f a) (f b) = cmp a b) (ts : List (Tree α)) :
    mergeChildren cmp' (mapList f ts) = map f (mergeChildren cmp ts) := by
  have h := map_pairs hf ts []
  rw [mapList_nil] at h
  unfold mergeChildren
  rw [h]
  cases pairs cmp ts [] with
  | nil => simp only [mapList_nil, map_none]
  | cons p ps =>
      simp only [mapList_cons, map_some]
      rw [map_foldl_merge hf]

theorem map_add (hf : ∀ a b, cmp' (f a) (f b) = cmp a b) (h : Heap α) (x : α) :
    add cmp' (map f h) (f x) = map f (add cmp h x) := by
  cases h with
  | none => simp only [map_none, add, map_some, Tree.map_node, mapList_nil]
  | some r =>
      have hx : (Tree.node x []).map f = .node (f x) [] := by
        rw [Tree.map_node, mapList_nil]
      simp only [map_some, add]
      rw [← hx, map_merge hf]

theorem map_removeFirst (hf : ∀ a b, cmp' (f a) (f b) = cmp a b) (h : Heap α) :
    removeFirst cmp' (map f h) = (removeFirst cmp h).map fun r => (f r.1, map f r.2) := by
  cases h with
  | none => rfl
  | some r =>
      cases r
      simp only [map_some, Tree.map_node, removeFirst, Option.map_some, map_mergeChildren hf]

omit cmp cmp' in
theorem map_first (h : Heap α) : first (map f h) = (first h).map f := by
  cases h with
  | none => rfl
  | some r => cases r; simp only [map_some, Tree.map_node, first, Tree.root, Option.map_some]

end Renaming

/-! ## 4. Removing a node -/

/-- The children of a node. -/
def Tree.children : Tree α → List (Tree α)
  | .node _ ts => ts

section Remove

variable (ph_compare : α → α → Int) (isNode : α → Bool)

mutual

/-- `pairingheap_remove` of a node below the root: the merged children take its place. -/
def Tree.remove : Tree α → Tree α
  | .node a ts => .node a (removeList ts)

/-- `pairingheap_remove` in a list of siblings. -/
def removeList : List (Tree α) → List (Tree α)
  | [] => []
  | t :: ts =>
      if isNode t.root then (mergeChildren ph_compare t.children).toList ++ ts
      else t.remove :: removeList ts

end

/-- `pairingheap_remove`. -/
def remove : Heap α → Heap α
  | none => none
  | some t =>
      if isNode t.root then mergeChildren ph_compare t.children
      else some (t.remove ph_compare isNode)

end Remove

@[simp] theorem Tree.root_node (a : α) (ts : List (Tree α)) : (Tree.node a ts).root = a := rfl

@[simp] theorem Tree.children_node (a : α) (ts : List (Tree α)) : (Tree.node a ts).children = ts := rfl

theorem Tree.toList_eq (t : Tree α) : t.toList = t.root :: toLists t.children := by
  cases t
  rw [Tree.toList_node, Tree.root_node, Tree.children_node]

theorem toLists_append (ts us : List (Tree α)) : toLists (ts ++ us) = toLists ts ++ toLists us := by
  induction ts with
  | nil => rw [List.nil_append, toLists_nil, List.nil_append]
  | cons t ts ih => rw [List.cons_append, toLists_cons, toLists_cons, ih, List.append_assoc]

theorem toLists_toList (h : Heap α) : toLists h.toList = toList h := by
  cases h with
  | none => rw [Option.toList_none, toLists_nil, toList_none]
  | some t => rw [Option.toList_some, toLists_cons, toLists_nil, List.append_nil, toList_some]

section RemoveFacts

variable {ph_compare : α → α → Int} {isNode : α → Bool}

@[simp] theorem Tree.remove_node (a : α) (ts : List (Tree α)) :
    (Tree.node a ts).remove ph_compare isNode = .node a (removeList ph_compare isNode ts) := by
  rw [Tree.remove]

@[simp] theorem removeList_nil : removeList ph_compare isNode [] = [] := by
  rw [removeList]

theorem removeList_cons (t : Tree α) (ts : List (Tree α)) :
    removeList ph_compare isNode (t :: ts) =
      if isNode t.root then (mergeChildren ph_compare t.children).toList ++ ts
      else t.remove ph_compare isNode :: removeList ph_compare isNode ts := by
  rw [removeList]

@[simp] theorem Tree.root_remove (t : Tree α) : (t.remove ph_compare isNode).root = t.root := by
  cases t
  rw [Tree.remove_node, Tree.root_node, Tree.root_node]

mutual

/-- Without the node nothing changes. -/
theorem Tree.remove_of_forall : ∀ t : Tree α, (∀ b ∈ t.toList, isNode b = false) →
    t.remove ph_compare isNode = t
  | .node a ts, h => by
      rw [Tree.toList_node] at h
      rw [Tree.remove_node, removeList_of_forall ts fun b hb => h b (List.mem_cons_of_mem _ hb)]

theorem removeList_of_forall : ∀ ts : List (Tree α), (∀ b ∈ toLists ts, isNode b = false) →
    removeList ph_compare isNode ts = ts
  | [], _ => removeList_nil
  | t :: ts, h => by
      rw [toLists_cons] at h
      have hroot : isNode t.root = false :=
        h _ (List.mem_append_left _ (by rw [Tree.toList_eq]; exact List.mem_cons_self))
      rw [removeList_cons, if_neg (by rw [hroot]; exact Bool.false_ne_true),
        Tree.remove_of_forall t fun b hb => h b (List.mem_append_left _ hb),
        removeList_of_forall ts fun b hb => h b (List.mem_append_right _ hb)]

end

/-- The one node of a list that is to be removed. -/
structure OnlyNode (isNode : α → Bool) (a : α) (l : List α) : Prop where
  nodup : l.Nodup
  isNode_self : isNode a = true
  eq_self : ∀ b ∈ l, isNode b = true → b = a

theorem OnlyNode.of_sublist {a : α} {l l' : List α} (h : OnlyNode isNode a l) (hs : l'.Sublist l) :
    OnlyNode isNode a l' :=
  ⟨h.nodup.sublist hs, h.isNode_self, fun b hb => h.eq_self b (hs.subset hb)⟩

/-- Where the node is not, nothing is to be removed. -/
theorem OnlyNode.isNode_eq_false {a b : α} {l : List α} (h : OnlyNode isNode a l) (hb : b ∈ l) (hne : b ≠ a) :
    isNode b = false :=
  Bool.eq_false_iff.mpr fun ht => hne (h.eq_self b hb ht)

mutual

theorem Tree.remove_perm {a : α} : ∀ t : Tree α, OnlyNode isNode a t.toList → t.root ≠ a → a ∈ t.toList →
    t.toList.Perm (a :: (t.remove ph_compare isNode).toList)
  | .node r us, hu, hne, hm => by
      rw [Tree.toList_node] at hu hm
      rcases List.mem_cons.mp hm with rfl | hm
      · exact absurd rfl hne
      · have ih := removeList_perm us (hu.of_sublist (List.sublist_cons_self _ _)) hm
        rw [Tree.remove_node, Tree.toList_node, Tree.toList_node]
        exact (ih.cons r).trans (List.Perm.swap a r _)

theorem removeList_perm {a : α} : ∀ ts : List (Tree α), OnlyNode isNode a (toLists ts) → a ∈ toLists ts →
    (toLists ts).Perm (a :: toLists (removeList ph_compare isNode ts))
  | [], _, hm => by
      rw [toLists_nil] at hm
      cases hm
  | t :: ts, hu, hm => by
      rw [toLists_cons] at hu hm
      have hroot : t.root ∈ t.toList := by
        rw [Tree.toList_eq]
        exact List.mem_cons_self
      have hleft := hu.of_sublist (List.sublist_append_left _ _)
      have hright := hu.of_sublist (List.sublist_append_right _ _)
      rw [removeList_cons, toLists_cons]
      split
      · -- the head of the list goes
        rename_i hr
        have he := hleft.eq_self _ hroot hr
        rw [toLists_append, toLists_toList, Tree.toList_eq, he, List.cons_append]
        exact ((mergeChildren_perm ph_compare _).symm.append_right _).cons a
      · rename_i hr
        have hne : t.root ≠ a := fun he => hr (he ▸ hu.isNode_self)
        rw [toLists_cons]
        rcases List.mem_append.mp hm with hmt | hmts
        · have hrest : ∀ b ∈ toLists ts, isNode b = false := fun b hb => by
            refine hright.isNode_eq_false hb fun he => ?_
            rw [he] at hb
            exact (List.nodup_append.mp hu.nodup).2.2 a hmt a hb rfl
          rw [removeList_of_forall ts hrest]
          exact (Tree.remove_perm t hleft hne hmt).append_right _
        · have hrest : ∀ b ∈ t.toList, isNode b = false := fun b hb => by
            refine hleft.isNode_eq_false hb fun he => ?_
            rw [he] at hb
            exact (List.nodup_append.mp hu.nodup).2.2 a hb a hmts rfl
          rw [Tree.remove_of_forall t hrest]
          exact ((removeList_perm ts hright hmts).append_left _).trans List.perm_middle

end

/-- **Removing a node removes that one** and nothing else. -/
theorem remove_perm {a : α} {h : Heap α} (hu : OnlyNode isNode a (toList h)) (hm : a ∈ toList h) :
    (toList h).Perm (a :: toList (remove ph_compare isNode h)) := by
  cases h with
  | none => cases hm
  | some t =>
      rw [toList_some] at hu hm
      unfold remove
      simp only
      split
      · rename_i hr
        have he := hu.eq_self _ (by rw [Tree.toList_eq]; exact List.mem_cons_self) hr
        rw [toList_some, Tree.toList_eq, he]
        exact (mergeChildren_perm ph_compare _).symm.cons a
      · rename_i hr
        exact Tree.remove_perm t hu (fun he => hr (he ▸ hu.isNode_self)) hm

/-- The root of the merged children is one of them. -/
theorem root_mergeChildren_mem {ts : List (Tree α)} {t : Tree α} (h : mergeChildren ph_compare ts = some t) :
    t.root ∈ toLists ts := by
  have hperm := mergeChildren_perm ph_compare ts
  rw [h, toList_some, Tree.toList_eq] at hperm
  exact hperm.subset List.mem_cons_self

mutual

theorem Tree.remove_heaped (hc : IsTotalPreorder ph_compare) : ∀ t : Tree α, Heaped ph_compare t →
    Heaped ph_compare (t.remove ph_compare isNode)
  | .node a ts, h => by
      cases h with
      | node _ _ hle hts =>
          obtain ⟨hle', hts'⟩ := removeList_heaped hc ts a hle hts
          rw [Tree.remove_node]
          exact .node a _ hle' hts'

theorem removeList_heaped (hc : IsTotalPreorder ph_compare) : ∀ (ts : List (Tree α)) (a : α),
    (∀ t ∈ ts, Ge ph_compare a t.root) → (∀ t ∈ ts, Heaped ph_compare t) →
    (∀ t ∈ removeList ph_compare isNode ts, Ge ph_compare a t.root) ∧
      ∀ t ∈ removeList ph_compare isNode ts, Heaped ph_compare t
  | [], a, _, _ => by
      rw [removeList_nil]
      exact ⟨fun t ht => absurd ht List.not_mem_nil, fun t ht => absurd ht List.not_mem_nil⟩
  | t :: ts, a, hle, hts => by
      obtain ⟨hlet, hlets⟩ := List.forall_mem_cons.mp hle
      obtain ⟨ht, hts'⟩ := List.forall_mem_cons.mp hts
      rw [removeList_cons]
      split
      · have hmerged : ∀ u ∈ (mergeChildren ph_compare t.children).toList,
            Ge ph_compare a u.root ∧ Heaped ph_compare u := by
          intro u hu
          have hu := Option.mem_toList.mp hu
          have hroot := root_mergeChildren_mem hu
          cases t with
          | node x us =>
              cases ht with
              | node _ _ hleu hus =>
                  have hxu := root_ge hc (Heaped.node x us hleu hus) u.root
                    (by rw [Tree.toList_node]; exact List.mem_cons_of_mem _ hroot)
                  exact ⟨hc.trans _ _ _ hlet hxu, mergeChildren_heaped hc hus u hu⟩
        refine ⟨fun u hu => ?_, fun u hu => ?_⟩
        · rcases List.mem_append.mp hu with hu | hu
          · exact (hmerged u hu).1
          · exact hlets u hu
        · rcases List.mem_append.mp hu with hu | hu
          · exact (hmerged u hu).2
          · exact hts' u hu
      · obtain ⟨hle', hheaped⟩ := removeList_heaped hc ts a hlets hts'
        refine ⟨List.forall_mem_cons.mpr ⟨?_, hle'⟩,
          List.forall_mem_cons.mpr ⟨Tree.remove_heaped hc t ht, hheaped⟩⟩
        rw [Tree.root_remove]
        exact hlet

end

theorem remove_heaped (hc : IsTotalPreorder ph_compare) {h : Heap α} (hh : HeapedH ph_compare h) :
    HeapedH ph_compare (remove ph_compare isNode h) := by
  cases h with
  | none => exact heapedH_none
  | some t =>
      have ht := hh t rfl
      unfold remove
      simp only
      split
      · cases t with
        | node a ts =>
            cases ht with
            | node _ _ hle hts => exact mergeChildren_heaped hc hts
      · intro u hu
        cases hu
        exact Tree.remove_heaped hc t ht

end RemoveFacts

end Pgvec.PairingHeap
