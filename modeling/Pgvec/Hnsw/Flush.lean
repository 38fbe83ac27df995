/-
  File:      Pgvec/Hnsw/Flush.lean
  Subject:   WRITING THE GRAPH IN MEMORY TO PAGES (`FlushPages` of `hnswbuild.c`) AND THE BUILD AS A WHOLE.

  `CreateGraphPages` goes through the elements from `head` on, predicts where the neighbor tuple of
  each will stand, puts the element tuple and a blank of the size of the neighbor tuple on the pages;
  `WriteNeighborTuples` then overwrites the blanks. The fields `blkno`, `offno`, `neighborPage` and
  `neighborOffno` the source sets in an element are a `Location`.

  * `FlushPages` -- the index written and the location of each element, or the error raised;
  * `BuildCallback`, `BuildGraph` -- tuples one at a time, in memory until the graph is flushed, on disk
    from then on.
-/
import Pgvec.Hnsw.Memory

namespace Pgvec.Hnsw

open Storage

/-- Where an element and its neighbor tuple were put. -/
structure Location where
  blkno : Nat
  offno : Nat
  neighborPage : Nat
  neighborOffno : Nat
  deriving DecidableEq, Repr

def Location.tid (l : Location) : ItemPointer := ⟨l.blkno, l.offno⟩

def Location.neighbortid (l : Location) : ItemPointer := ⟨l.neighborPage, l.neighborOffno⟩

variable {V δ : Type}

/-! ## 1. `CreateGraphPages` -/

/-- `CreateMetaPage`. -/
def CreateMetaPage (m : Nat) : Index V := ⟨⟨m, none, none⟩, []⟩

/-- `HnswNewBuffer` and `HnswInitPage` for the first page. -/
def prepareFirstPage (idx : Index V) : Index V := { idx with pages := idx.pages ++ [HnswInitPage] }

/-- The block of the buffer being filled: the last one. -/
def Index.currentBlock (idx : Index V) : Nat := idx.pages.length

/-- `PageGetFreeSpace` of the buffer being filled. -/
def Index.currentFree (idx : Index V) : Nat :=
  ((idx.page? idx.currentBlock).map fun p => p.page.PageGetFreeSpace).getD 0

/-- `PageGetMaxOffsetNumber` of the buffer being filled. -/
def Index.currentMaxOffset (idx : Index V) : Nat :=
  ((idx.page? idx.currentBlock).map fun p => p.page.PageGetMaxOffsetNumber).getD 0

/-- `HnswBuildAppendPage`. -/
def HnswBuildAppendPage (idx : Index V) : Index V := (HnswInsertAppendPage idx idx.currentBlock).1

/-- `PageAddItem` to the buffer being filled, which must give the offset predicted. -/
def addPredicted (idx : Index V) (item : HnswItem V) (size offno : Nat) : Except String (Index V) :=
  match idx.addItem idx.currentBlock item size with
  | none => .error failedToAdd
  | some (idx, off) => if off ≠ offno then .error failedToAdd else .ok idx

/-- The pages with room for an element on the last one: element and neighbors are kept on the same page
    if possible. -/
def elementPage (idx : Index V) (etupSize combinedSize : Nat) : Index V :=
  if idx.currentFree < etupSize ∨ (combinedSize ≤ HNSW_MAX_SIZE ∧ idx.currentFree < combinedSize) then
    HnswBuildAppendPage idx
  else idx

/-- One round of the loop of `CreateGraphPages`. -/
def createElementPages (varsize : V → Nat) (m : Nat) (idx : Index V) (e : MemElement V δ) :
    Except String (Index V × Location) :=
  let etupSize := HNSW_ELEMENT_TUPLE_SIZE (varsize e.value)
  let ntupSize := HNSW_NEIGHBOR_TUPLE_SIZE e.level m
  let combinedSize := etupSize + ntupSize + sizeofItemIdData
  -- initial size check
  if HNSW_TUPLE_ALLOC_SIZE < etupSize then .error "index tuple too large"
  else do
    let idx := elementPage idx etupSize combinedSize
    -- calculate offsets
    let blkno := idx.currentBlock
    let offno := idx.currentMaxOffset + 1
    let loc : Location :=
      if combinedSize ≤ HNSW_MAX_SIZE then ⟨blkno, offno, blkno, offno + 1⟩
      else ⟨blkno, offno, blkno + 1, 1⟩
    let etup := HnswSetElementTuple e.level e.version e.heaptids e.value loc.neighbortid
    -- add element
    let idx ← addPredicted idx (.element etup) etupSize loc.offno
    -- add new page if needed
    let idx := if idx.currentFree < ntupSize then HnswBuildAppendPage idx else idx
    -- add placeholder for neighbors
    let idx ← addPredicted idx .blank ntupSize loc.neighborOffno
    return (idx, loc)

/-- The loop of `CreateGraphPages` over the element list. -/
def createPagesLoop (varsize : V → Nat) (m : Nat) :
    List (MemElement V δ) → Index V → Except String (Index V × List Location)
  | [], idx => .ok (idx, [])
  | e :: es, idx => do
      let (idx, loc) ← createElementPages varsize m idx e
      let (idx, locs) ← createPagesLoop varsize m es idx
      return (idx, loc :: locs)

/-- The entry point of the graph with its location. -/
def HnswGraph.entryLocation (g : HnswGraph V δ) (locs : List Location) : Option EntryPoint :=
  match g.entryPoint with
  | none => none
  | some i =>
      match g.elements[i]?, locs[i]? with
      | some e, some l => some ⟨l.blkno, l.offno, e.level⟩
      | _, _ => none

/-- **`CreateGraphPages`**: the index and the locations, by element number. -/
def CreateGraphPages (varsize : V → Nat) (m : Nat) (g : HnswGraph V δ) (idx : Index V) :
    Except String (Index V × List Location) := do
  -- the list starts with the element added last
  let (idx, locs) ← createPagesLoop varsize m g.elements.reverse (prepareFirstPage idx)
  let locs := locs.reverse
  let insertPage := some idx.currentBlock
  let metap := HnswUpdateMetaPageInfo idx.metap .always (g.entryLocation locs) insertPage
  return ({ idx with metap := metap }, locs)

/-! ## 2. `WriteNeighborTuples` -/

/-- The TIDs of the layer-`lc` neighbors of an element. -/
def MemElement.layerTids (e : MemElement V δ) (locs : List Location) (lc : Nat) : List ItemPointer :=
  ((e.layer lc).getD []).map fun i => ((locs[i]?).map Location.tid).getD .invalid

/-- Write the neighbor tuple of one element over its blank. -/
def writeNeighborTuple (m : Nat) (locs : List Location) (idx : Index V)
    (x : MemElement V δ × Location) : Except String (Index V) := do
  let ntup := HnswSetNeighborTuple x.1.level x.1.version m (x.1.layerTids locs)
  match ← idx.overwriteItem x.2.neighbortid (.neighbor ntup) (HNSW_NEIGHBOR_TUPLE_SIZE x.1.level m) with
  | none => .error failedToAdd
  | some idx => return idx

/-- **`WriteNeighborTuples`.** -/
def WriteNeighborTuples (m : Nat) (g : HnswGraph V δ) (locs : List Location) (idx : Index V) :
    Except String (Index V) :=
  (g.elements.zip locs).reverse.foldlM (writeNeighborTuple m locs) idx

/-- **`FlushPages`.** -/
def FlushPages (varsize : V → Nat) (m : Nat) (g : HnswGraph V δ) :
    Except String (Index V × List Location) := do
  let (idx, locs) ← CreateGraphPages varsize m g (CreateMetaPage m)
  let idx ← WriteNeighborTuples m g locs idx
  return (idx, locs)

/-! ## 3. The build -/

variable [LinearOrder δ] [DecidableEq V]

/-- `HnswBuildState`: the graph in memory, or the index once it is flushed. -/
inductive HnswBuildState (V δ : Type) where
  | inMemory (graph : HnswGraph V δ)
  | flushed (index : Index V)

/-- A heap tuple as the build scan passes it on, with what the code draws from outside: the level, and
    whether memory is used up (`graph->memoryUsed >= graph->memoryTotal`). -/
structure BuildTuple (V : Type) where
  tid : ItemPointer
  value : Option V
  rnd : Nat
  memoryFull : Bool

/-- The index before anyone works on it. -/
def Index.atRest (idx : Index V) : St V := ⟨idx, [], .idle⟩

/-- `HnswInsertTupleOnDisk` of a build, which no other backend sees. -/
def insertOnDisk (rel : HnswRel V δ) (idx : Index V) (value : V) (t : BuildTuple V) (budget : Nat) :
    Option (HnswBuildState V δ) :=
  (Conc.run (hnswMachine V) 0 (HnswInsertTupleOnDisk rel value t.tid t.rnd budget) idx.atRest).map
    fun r => .flushed r.2.index

/-- **`BuildCallback`** with `InsertTuple`: `none` when an error is raised (or the budget runs out). -/
def BuildCallback (mem : MemSpace) (rel : HnswRel V δ) (m budget : Nat) (b : HnswBuildState V δ)
    (t : BuildTuple V) : Option (HnswBuildState V δ) :=
  -- skip nulls and values the type does not accept
  match t.value.bind (HnswFormIndexValue rel) with
  | none => some b
  | some value =>
      match b with
      | .flushed idx => insertOnDisk rel idx value t budget
      | .inMemory g =>
          if t.memoryFull then
            match FlushPages rel.support.varsize m g with
            | .error _ => none
            | .ok (idx, _) => insertOnDisk rel idx value t budget
          else (InsertTupleInMemory mem rel m g value t.tid t.rnd budget).map .inMemory

/-- **`BuildGraph`**: the tuples of the heap in order, then the flush if there was none. -/
def BuildGraph (mem : MemSpace) (rel : HnswRel V δ) (m budget : Nat) (ts : List (BuildTuple V)) :
    Option (Index V) := do
  match ← ts.foldlM (BuildCallback mem rel m budget) (.inMemory InitGraph) with
  | .flushed idx => return idx
  | .inMemory g =>
      match FlushPages rel.support.varsize m g with
      | .error _ => none
      | .ok (idx, _) => return idx

end Pgvec.Hnsw
