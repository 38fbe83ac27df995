/-
  File:      Pgvec/Common/IntegerSet.lean
  Subject:   INTEGER SETS (`src/backend/lib/integerset.c`): values added in order, kept in a buffer and in a
             B-tree of Simple-8b words that grows along its right edge.

  Nodes live in a memory of cells handed out in order; a pointer is the number of its cell, `NULL` is 0. A
  leaf and an internal node share one record, each with its own fields; an array with its count is a list.
  What raises an error returns the message and the set as it was left. The memory accounting is left out.
-/
import Pgvec.Common.Simple8b
import Pgvec.Lib.Floor
import Mathlib.Logic.Function.Basic

namespace Pgvec.Intset

/-! ## 1. The data -/

def MAX_INTERNAL_ITEMS : Nat := 64

def MAX_LEAF_ITEMS : Nat := 64

def MAX_TREE_LEVELS : Nat := 11

def MAX_VALUES_PER_LEAF_ITEM : Nat := 1 + SIMPLE8B_MAX_VALUES_PER_CODEWORD

def MAX_BUFFERED_VALUES : Nat := MAX_VALUES_PER_LEAF_ITEM * 2

def NULL : Nat := 0

/-- `leaf_item`. -/
structure leaf_item where
  first : Nat
  codeword : Nat
  deriving DecidableEq, Inhabited, Repr

/-- `intset_node`: `values` and `downlinks` of an internal node, `next` and `items` of a leaf. -/
structure intset_node where
  level : Nat
  values : List Nat
  downlinks : List Nat
  next : Nat
  items : List leaf_item
  deriving DecidableEq, Inhabited, Repr

/-- What `iter_values` points to. -/
inductive IterValues where
  | null
  | iter_values_buf
  | buffered_values
  deriving DecidableEq, Repr

/-- `struct IntegerSet`, with its nodes. -/
structure IntegerSet where
  mem : Nat → intset_node
  allocated : Nat
  num_entries : Nat
  highest_value : Nat
  num_levels : Nat
  root : Nat
  rightmost_nodes : Nat → Nat
  leftmost_leaf : Nat
  buffered_values : List Nat
  iter_active : Bool
  iter_values : IterValues
  iter_num_values : Nat
  iter_valueno : Nat
  iter_node : Nat
  iter_itemno : Nat
  iter_values_buf : List Nat

/-- `elog(ERROR)`: the message, and the set it leaves behind. -/
abbrev Result (α : Type) := Except (String × IntegerSet) α

def intset_create : IntegerSet where
  mem := fun _ => default
  allocated := 1
  num_entries := 0
  highest_value := 0
  num_levels := 0
  root := NULL
  rightmost_nodes := fun _ => NULL
  leftmost_leaf := NULL
  buffered_values := []
  iter_active := false
  iter_values := .null
  iter_num_values := 0
  iter_valueno := 0
  iter_node := NULL
  iter_itemno := 0
  iter_values_buf := []

def intset_num_entries (intset : IntegerSet) : Nat := intset.num_entries

/-! ## 2. Nodes -/

/-- A node of `intset_new_leaf_node`. -/
def leafNode : intset_node := ⟨0, [], [], NULL, []⟩

/-- A node of `intset_new_internal_node`, with what its caller sets. -/
def internalNode (level : Nat) (values downlinks : List Nat) : intset_node := ⟨level, values, downlinks, NULL, []⟩

/-- The next cell of the memory gets the node; its pointer is `intset.allocated`. -/
def newNode (intset : IntegerSet) (n : intset_node) : IntegerSet :=
  { intset with
    mem := Function.update intset.mem intset.allocated n
    allocated := intset.allocated + 1 }

def setNode (intset : IntegerSet) (p : Nat) (n : intset_node) : IntegerSet :=
  { intset with mem := Function.update intset.mem p n }

/-- `rightmost_nodes[level] = p`. -/
def setRightmost (intset : IntegerSet) (level p : Nat) : IntegerSet :=
  { intset with rightmost_nodes := Function.update intset.rightmost_nodes level p }

/-- The first value on a page. -/
def firstValue (n : intset_node) : Nat :=
  if n.level = 0 then (n.items.getD 0 default).first else n.values.getD 0 0

/-! ## 3. Growing along the right edge -/

/-- Create a new root node, if necessary. -/
def expandRoot (intset : IntegerSet) (level : Nat) : Result IntegerSet :=
  if intset.num_levels ≤ level then
    if intset.num_levels = MAX_TREE_LEVELS then
      .error ("could not expand integer set, maximum number of levels reached", intset)
    else
      let oldroot := intset.root
      let downlink_key := firstValue (intset.mem oldroot)
      let parent := intset.allocated
      .ok (setRightmost
        { newNode intset (internalNode level [downlink_key] [oldroot]) with
          num_levels := intset.num_levels + 1
          root := parent } level parent)
  else .ok intset

theorem expandRoot_ok {s t : IntegerSet} {level : Nat} (h : expandRoot s level = .ok t) :
    (level < s.num_levels ∧ t = s) ∨ (t.mem (t.rightmost_nodes level)).values.length = 1 := by
  unfold expandRoot at h
  split at h
  · split at h
    · cases h
    · cases h
      exact Or.inr (by simp [setRightmost, newNode, internalNode])
  · rename_i hlevel
    cases h
    exact Or.inl ⟨Nat.lt_of_not_le hlevel, rfl⟩

/-- **`intset_update_upper`.** -/
def intset_update_upper (intset : IntegerSet) (level child child_key : Nat) : Result IntegerSet :=
  match _h : expandRoot intset level with
  | .error e => .error e
  | .ok expanded =>
      let parent := expanded.rightmost_nodes level
      let n := expanded.mem parent
      if n.values.length < MAX_INTERNAL_ITEMS then
        .ok (setNode expanded parent
          { n with
            values := n.values ++ [child_key]
            downlinks := n.downlinks ++ [child] })
      else
        -- doesn't fit: a new parent, with the downlink as the first item on it
        let parent := expanded.allocated
        intset_update_upper
          (setRightmost (newNode expanded (internalNode level [child_key] [child])) level parent)
          (level + 1) parent child_key
termination_by intset.num_levels - level
decreasing_by
  rename_i hfull
  rcases expandRoot_ok _h with ⟨hlt, rfl⟩ | hone
  · exact Nat.sub_lt_sub_left hlt (Nat.lt_succ_self level)
  · exact absurd (hone.trans_lt (by decide)) hfull

/-- Allocate a new leaf and link it to the tree, if the old one is full. -/
def linkLeaf (intset : IntegerSet) (leaf first : Nat) : Result (IntegerSet × Nat) :=
  if MAX_LEAF_ITEMS ≤ (intset.mem leaf).items.length then
    let old_leaf := leaf
    let leaf := intset.allocated
    let intset := newNode intset leafNode
    let intset := setNode intset old_leaf { intset.mem old_leaf with next := leaf }
    match intset_update_upper (setRightmost intset 0 leaf) 1 leaf first with
    | .error e => .error e
    | .ok intset => .ok (intset, leaf)
  else .ok (intset, leaf)

/-- `leaf->items[leaf->num_items++] = item`. -/
def appendItem (intset : IntegerSet) (leaf : Nat) (item : leaf_item) : IntegerSet :=
  setNode intset leaf { intset.mem leaf with items := (intset.mem leaf).items ++ [item] }

/-- The loop of `intset_flush_buffered_values`; `num_packed` never passes the number of values. -/
def flushLoop (values : List Nat) (intset : IntegerSet) (leaf num_packed : Nat) : Result (IntegerSet × Nat) :=
  if MAX_VALUES_PER_LEAF_ITEM ≤ values.length - num_packed then
    let first := values.getD num_packed 0
    let encoded := simple8b_encode (values.drop (num_packed + 1)) first
    match linkLeaf intset leaf first with
    | .error e => .error e
    | .ok (intset, leaf) =>
        flushLoop values (appendItem intset leaf ⟨first, encoded.1⟩) leaf (num_packed + (1 + encoded.2))
  else .ok (intset, num_packed)
termination_by values.length - num_packed
decreasing_by
  simp only [MAX_VALUES_PER_LEAF_ITEM, SIMPLE8B_MAX_VALUES_PER_CODEWORD] at *
  omega

/-- If the tree is completely empty, create the first leaf page, which is also the root. -/
def firstLeaf (intset : IntegerSet) : IntegerSet :=
  if intset.rightmost_nodes 0 = NULL then
    let leaf := intset.allocated
    setRightmost
      { newNode intset leafNode with
        root := leaf
        leftmost_leaf := leaf
        num_levels := 1 } 0 leaf
  else intset

/-- **`intset_flush_buffered_values`.** -/
def intset_flush_buffered_values (intset : IntegerSet) : Result IntegerSet :=
  let intset := firstLeaf intset
  match flushLoop intset.buffered_values intset (intset.rightmost_nodes 0) 0 with
  | .error e => .error e
  | .ok (intset, num_packed) => .ok { intset with buffered_values := intset.buffered_values.drop num_packed }

/-- **`intset_add_member`.** -/
def intset_add_member (intset : IntegerSet) (x : Nat) : Result IntegerSet :=
  if intset.iter_active then
    .error ("cannot add new values to integer set while iteration is in progress", intset)
  else if x ≤ intset.highest_value ∧ 0 < intset.num_entries then
    .error ("cannot add value to integer set out of order", intset)
  else
    match (if MAX_BUFFERED_VALUES ≤ intset.buffered_values.length then intset_flush_buffered_values intset
      else .ok intset) with
    | .error e => .error e
    | .ok intset =>
        .ok { intset with
          buffered_values := intset.buffered_values ++ [x]
          num_entries := (intset.num_entries + 1) % 2 ^ 64
          highest_value := x }

/-! ## 4. Looking up -/

/-- `intset_binsrch_uint64`. -/
def intset_binsrch_uint64 (item : Nat) (arr : List Nat) (arr_elems : Nat) (nextkey : Bool) : Nat :=
  Floor.search
    (fun mid => if nextkey then decide (arr.getD mid 0 ≤ item) else decide (arr.getD mid 0 < item)) 0 arr_elems

/-- `intset_binsrch_leaf`. -/
def intset_binsrch_leaf (item : Nat) (arr : List leaf_item) (arr_elems : Nat) (nextkey : Bool) : Nat :=
  Floor.search
    (fun mid =>
      if nextkey then decide ((arr.getD mid default).first ≤ item)
      else decide ((arr.getD mid default).first < item)) 0 arr_elems

/-- The walk down the B-tree, with so many levels to go. -/
def descend (intset : IntegerSet) (x : Nat) : Nat → Nat → Option Nat
  | 0, node => some node
  | level + 1, node =>
      let n := intset.mem node
      let itemno := intset_binsrch_uint64 x n.values n.values.length true
      if itemno = 0 then none else descend intset x level (n.downlinks.getD (itemno - 1) NULL)

/-- **`intset_is_member`.** -/
def intset_is_member (intset : IntegerSet) (x : Nat) : Bool :=
  let buffered := intset.buffered_values
  if 0 < buffered.length ∧ buffered.getD 0 0 ≤ x then
    let itemno := intset_binsrch_uint64 x buffered buffered.length false
    if buffered.length ≤ itemno then false else decide (buffered.getD itemno 0 = x)
  else if intset.root = NULL then false
  else
    match descend intset x (intset.num_levels - 1) intset.root with
    | none => false
    | some leaf =>
        let items := (intset.mem leaf).items
        let itemno := intset_binsrch_leaf x items items.length true
        if itemno = 0 then false
        else
          let item := items.getD (itemno - 1) default
          if item.first = x then true else simple8b_contains item.codeword x item.first

/-! ## 5. Iterating -/

def intset_begin_iterate (intset : IntegerSet) : IntegerSet :=
  { intset with
    iter_active := true
    iter_node := intset.leftmost_leaf
    iter_itemno := 0
    iter_valueno := 0
    iter_num_values := 0
    iter_values := .iter_values_buf }

/-- The array `iter_values` points to. -/
def iterArray (intset : IntegerSet) : List Nat :=
  match intset.iter_values with
  | .null => []
  | .iter_values_buf => intset.iter_values_buf
  | .buffered_values => intset.buffered_values

/-- **`intset_iterate_next`**, with a bound on the rounds of its loop: the set, what is returned, and `*next`. -/
def intset_iterate_next : Nat → IntegerSet → Option (IntegerSet × Bool × Nat)
  | 0, _ => none
  | fuel + 1, intset =>
      let items := (intset.mem intset.iter_node).items
      -- return next iter_values[] entry if any
      if intset.iter_valueno < intset.iter_num_values then
        some ({ intset with iter_valueno := intset.iter_valueno + 1 }, true,
          (iterArray intset).getD intset.iter_valueno 0)
      -- decode next item in current leaf node, if any
      else if intset.iter_node ≠ NULL ∧ intset.iter_itemno < items.length then
        let item := items.getD intset.iter_itemno default
        let decoded := simple8b_decode item.codeword item.first
        intset_iterate_next fuel
          { intset with
            iter_itemno := intset.iter_itemno + 1
            iter_values_buf := item.first :: decoded
            iter_num_values := decoded.length + 1
            iter_valueno := 0 }
      -- no more items on this leaf, step to next node
      else if intset.iter_node ≠ NULL then
        intset_iterate_next fuel
          { intset with
            iter_node := (intset.mem intset.iter_node).next
            iter_itemno := 0 }
      -- the end of the B-tree; there might still be integers in the buffer
      else if intset.iter_values = .iter_values_buf then
        intset_iterate_next fuel
          { intset with
            iter_values := .buffered_values
            iter_num_values := intset.buffered_values.length
            iter_valueno := 0 }
      else some ({ intset with iter_active := false }, false, 0)

end Pgvec.Intset
