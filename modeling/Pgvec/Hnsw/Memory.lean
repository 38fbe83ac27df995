/-
  File:      Pgvec/Hnsw/Memory.lean
  Subject:   THE GRAPH IN MEMORY that a build fills before it writes pages (the in-memory phase of
             `hnswbuild.c`, and the `inMemory` branches of `hnswutils.c`).

  An element is known by its number, in the order in which elements were added; `head` of the source is
  the last one. Where the source compares addresses, `MemSpace` gives the address of each element; a
  shared-memory build has a base address and compares offsets from it. The locks of a parallel build
  are left out: a build here is one backend's.
-/
import Pgvec.Hnsw.Insert

namespace Pgvec.Hnsw

open PairingHeap

/-- `HnswElementData` as the build uses it: no location yet, one neighbor array for each layer. -/
structure MemElement (V δ : Type) where
  heaptids : List ItemPointer
  level : Nat
  version : Nat
  value : V
  neighbors : List (HnswNeighborArray Nat δ)

/-- `HnswGraph`: the elements in the order they were added, and the entry point. -/
structure HnswGraph (V δ : Type) where
  elements : List (MemElement V δ)
  entryPoint : Option Nat

/-- Where elements lie: an address for each, no two alike, and the base of a shared-memory area. -/
structure MemSpace where
  addr : Nat → Nat
  base : Option Nat
  addr_inj : ∀ i j, addr i = addr j → i = j
  base_le : ∀ b, base = some b → ∀ i, b ≤ addr i

/-- The key `AddToVisited` stores: the pointer, or the offset from the base. -/
def MemSpace.visitedKey (mem : MemSpace) (i : Nat) : Nat :=
  match mem.base with
  | none => mem.addr i
  | some b => mem.addr i - b

theorem MemSpace.visitedKey_inj (mem : MemSpace) {i j : Nat}
    (h : mem.visitedKey i = mem.visitedKey j) : i = j := by
  unfold visitedKey at h
  split at h
  · exact mem.addr_inj i j h
  · rename_i b hb
    have hi := mem.base_le b hb i
    have hj := mem.base_le b hb j
    exact mem.addr_inj i j (by omega)

variable {V δ : Type} [LinearOrder δ] [DecidableEq V]

/-! ## 1. Searching -/

/-- `HnswGetNeighbors`, which asserts that the element has the layer. -/
def MemElement.layer (e : MemElement V δ) (lc : Nat) : Option (List Nat) :=
  (e.neighbors[lc]?).map fun a => a.items.map (·.element)

/-- The in-memory branches of `HnswSearchLayer`. -/
def memEnv (g : HnswGraph V δ) (mem : MemSpace) (support : HnswSupport V δ) (q : V) (lc : Nat) :
    SearchEnv Option Nat Nat Nat δ where
  loadUnvisited i v :=
    match g.elements[i]? with
    | none => none
    | some e => (e.layer lc).map fun nb => unvisitedOf mem.visitedKey nb v
  loadElement i _ := (g.elements[i]?).map fun e => (some i, support.distance q e.value)
  visitedKey := mem.visitedKey
  level i := ((g.elements[i]?).map (·.level)).getD 0
  countElement _ := true

/-- The distance between two elements' values, narrowed to `float`. -/
def HnswGraph.pairDistance (g : HnswGraph V δ) (support : HnswSupport V δ) (i j : Nat) : δ :=
  valueDistance support ((g.elements[i]?).map (·.value)) ((g.elements[j]?).map (·.value))

/-- The in-memory branches of `HnswFindElementNeighbors`. -/
def memFindEnv (g : HnswGraph V δ) (mem : MemSpace) (support : HnswSupport V δ) (q : V) (m : Nat) :
    FindEnv Option Nat Nat Nat δ where
  layer := memEnv g mem support q
  removeElements := id
  ptr := mem.addr
  pairDistance := g.pairDistance support
  toFloat := support.toFloat
  m := m

/-- `HnswEntryCandidate` in memory. -/
def memEntryCandidate (g : HnswGraph V δ) (support : HnswSupport V δ) (q : V) (i : Nat) :
    Option (HnswSearchCandidate Nat δ) :=
  (g.elements[i]?).map fun e => ⟨i, support.distance q e.value⟩

/-! ## 2. Inserting -/

/-- Change one element. -/
def HnswGraph.modify (g : HnswGraph V δ) (i : Nat) (f : MemElement V δ → MemElement V δ) :
    HnswGraph V δ :=
  { g with elements := g.elements.modify i f }

/-- `FindDuplicateInMemory`: the layer-0 neighbor with the same value that has room. -/
def FindDuplicateInMemory (g : HnswGraph V δ) (value : V) : List Nat → Option Nat
  | [] => none
  | i :: rest =>
      match g.elements[i]? with
      | none => none
      | some e =>
          -- exit early since ordered by distance
          if e.value ≠ value then none
          else if e.heaptids.length = HNSW_HEAPTIDS then FindDuplicateInMemory g value rest
          else some i

/-- `AddDuplicateInMemory`, on an element with room. -/
def AddDuplicateInMemory (g : HnswGraph V δ) (i : Nat) (heaptid : ItemPointer) : HnswGraph V δ :=
  g.modify i fun e => { e with heaptids := e.heaptids ++ [heaptid] }

/-- `AddElementInMemory`. -/
def AddElementInMemory (g : HnswGraph V δ) (e : MemElement V δ) : HnswGraph V δ :=
  { g with elements := g.elements ++ [e] }

/-- `HnswUpdateConnection` on the layer-`lc` array of element `hc.element`, for the new element
    `newElement`. -/
def updateConnectionInMemory (mem : MemSpace) (support : HnswSupport V δ) (m newElement lc : Nat)
    (g : HnswGraph V δ) (hc : HnswCandidate Nat δ) : HnswGraph V δ :=
  g.modify hc.element fun e =>
    { e with neighbors := e.neighbors.modify lc fun a =>
        (HnswUpdateConnection mem.addr (g.pairDistance support) a newElement hc.distance
          (HnswGetLayerM m lc)).1 }

/-- `UpdateNeighborsInMemory`, from the top layer of the new element down. -/
def UpdateNeighborsInMemory (mem : MemSpace) (support : HnswSupport V δ) (m newElement : Nat)
    (e : MemElement V δ) (g : HnswGraph V δ) : HnswGraph V δ :=
  (List.range (e.level + 1)).reverse.foldl (fun g lc =>
    ((e.neighbors[lc]?).map (·.items)).getD [] |>.foldl
      (updateConnectionInMemory mem support m newElement lc) g) g

/-- `element->level > entryPoint->level`, or no entry point. -/
def HnswGraph.above (g : HnswGraph V δ) (level : Nat) : Bool :=
  (g.entryPoint.bind (g.elements[·]?)).all fun ep => decide (ep.level < level)

/-- `UpdateGraphInMemory`. -/
def UpdateGraphInMemory (mem : MemSpace) (support : HnswSupport V δ) (m : Nat) (g : HnswGraph V δ)
    (e : MemElement V δ) (heaptid : ItemPointer) : HnswGraph V δ :=
  -- look for duplicate
  match FindDuplicateInMemory g e.value ((e.layer 0).getD []) with
  | some dup => AddDuplicateInMemory g dup heaptid
  | none =>
      let newElement := g.elements.length
      let g' := UpdateNeighborsInMemory mem support m newElement e (AddElementInMemory g e)
      -- update entry point if needed
      if g.above e.level then { g' with entryPoint := some newElement } else g'

/-- **`InsertTupleInMemory`**, for a value with the level drawn as `rnd`. -/
def InsertTupleInMemory (mem : MemSpace) (rel : HnswRel V δ) (m : Nat) (g : HnswGraph V δ) (value : V)
    (heaptid : ItemPointer) (rnd budget : Nat) : Option (HnswGraph V δ) := do
  let level := min rnd (HnswGetMaxLevel m)
  -- find neighbors for element
  let (_, neighbors) ← HnswFindElementNeighbors (memFindEnv g mem rel.support value m) level
    (g.entryPoint.map (memEntryCandidate g rel.support value)) rel.efConstruction false budget
  return UpdateGraphInMemory mem rel.support m g ⟨[heaptid], level, 1, value, neighbors⟩ heaptid

/-- `InitGraph`. -/
def InitGraph : HnswGraph V δ := ⟨[], none⟩

end Pgvec.Hnsw
