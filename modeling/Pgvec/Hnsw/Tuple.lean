/-
  File:      Pgvec/Hnsw/Tuple.lean
  Subject:   THE TUPLES OF AN HNSW INDEX (`src/include/access/hnsw.h`, and the functions of
             `hnswutils.c` that fill and read one tuple).

  * the size macros of hnsw.h; a value is any type `V` with the size its varlena header gives;
  * `HnswElementTuple`, `HnswNeighborTuple` -- the two tuples on a page. The heap TID array has
    exactly `HNSW_HEAPTIDS` slots (a field says so); the neighbor slots stand layer by layer, the
    top layer first, `HnswGetLayerM` slots each, and `count` is their number;
  * `HnswElement` -- the copy of an element tuple a backend works on;
  * `HnswSetElementTuple`, `HnswSetNeighborTuple`, `HnswLoadElementFromTuple`, and the copying part
    of `HnswLoadNeighborTids` (`neighborTids`);
  * **`neighborTids_set`** -- what is read back for a layer is what was written for that layer,
    padded with invalid TIDs.
-/
import Pgvec.Storage.Page

namespace Pgvec.Hnsw

open Storage

/-! ## 1. Constants and sizes -/

/-- First element page. -/
def HNSW_HEAD_BLKNO : Nat := 1

/-- Heap TIDs one element holds. -/
def HNSW_HEAPTIDS : Nat := 10

/-- `sizeof(ItemPointerData)`. -/
def sizeofItemPointerData : Nat := 6

/-- `sizeof(HnswPageOpaqueData)`. -/
def sizeofHnswPageOpaqueData : Nat := 8

/-- `offsetof(HnswElementTupleData, data)`: four bytes, ten heap TIDs, one TID, two bytes. -/
def offsetofData : Nat := 72

/-- `offsetof(HnswNeighborTupleData, indextids)`. -/
def offsetofIndextids : Nat := 4

/-- What fits on an empty page. -/
def HNSW_MAX_SIZE : Nat :=
  BLCKSZ - MAXALIGN SizeOfPageHeaderData - MAXALIGN sizeofHnswPageOpaqueData - sizeofItemIdData

def HNSW_TUPLE_ALLOC_SIZE : Nat := BLCKSZ

def HNSW_ELEMENT_TUPLE_SIZE (size : Nat) : Nat := MAXALIGN (offsetofData + size)

def HNSW_NEIGHBOR_TUPLE_SIZE (level m : Nat) : Nat :=
  MAXALIGN (offsetofIndextids + (level + 2) * m * sizeofItemPointerData)

/-- Twice `m` connections on the ground layer. -/
def HnswGetLayerM (m layer : Nat) : Nat := if layer = 0 then m * 2 else m

/-- The largest level whose neighbor tuple fits on a page (and in a `uint8`). -/
def HnswGetMaxLevel (m : Nat) : Nat :=
  min ((BLCKSZ - MAXALIGN SizeOfPageHeaderData - MAXALIGN sizeofHnswPageOpaqueData -
    offsetofIndextids - sizeofItemIdData) / sizeofItemPointerData / m - 2) 255

/-! ## 2. Item pointers -/

/-- `ItemPointerData`. -/
structure ItemPointer where
  blkno : Nat
  offno : Nat
  deriving DecidableEq, Repr

/-- `InvalidBlockNumber`. -/
def InvalidBlockNumber : Nat := 4294967295

/-- `ItemPointerIsValid`. -/
def ItemPointer.isValid (p : ItemPointer) : Bool := p.offno != 0

/-- What `ItemPointerSetInvalid` writes. -/
def ItemPointer.invalid : ItemPointer := ⟨InvalidBlockNumber, 0⟩

@[simp] theorem ItemPointer.isValid_invalid : ItemPointer.invalid.isValid = false := rfl

/-! ## 3. Values -/

/-- `HnswSupport`, with what the code asks of a value: the distance procedure, the distance it
    takes for a NULL query, the narrowing of a distance to `float`, `VARSIZE_ANY`, and the datum
    of zero bytes that `MarkDeleted` leaves. -/
structure HnswSupport (V δ : Type) where
  distance : V → V → δ
  zeroDistance : δ
  toFloat : δ → δ
  varsize : V → Nat
  zeroDatum : V

/-! ## 4. The tuples -/

/-- `HnswElementTupleData`. -/
structure HnswElementTuple (V : Type) where
  level : Nat
  deleted : Bool
  version : Nat
  heaptids : List ItemPointer
  neighbortid : ItemPointer
  data : V
  hlen : heaptids.length = HNSW_HEAPTIDS

/-- `HnswNeighborTupleData`. -/
structure HnswNeighborTuple where
  version : Nat
  indextids : List ItemPointer
  deriving DecidableEq, Repr

/-- `ntup->count`: the number of slots. -/
def HnswNeighborTuple.count (n : HnswNeighborTuple) : Nat := n.indextids.length

/-- An item of an index page; `blank` is the zeroed placeholder the build puts where a neighbor
    tuple will stand. -/
inductive HnswItem (V : Type) : Type where
  | element (t : HnswElementTuple V) : HnswItem V
  | neighbor (t : HnswNeighborTuple) : HnswItem V
  | blank : HnswItem V

/-- `HnswElementData` as the on-disk code uses it: a backend's own copy of an element. `heaptids`
    are the first `heaptidsLength` entries, `ptr` is the address of the copy. -/
structure HnswElement (V : Type) where
  blkno : Nat
  offno : Nat
  level : Nat
  deleted : Bool
  version : Nat
  heaptids : List ItemPointer
  neighborPage : Nat
  neighborOffno : Nat
  value : Option V
  ptr : Nat
  deriving DecidableEq, Repr

variable {V : Type}

/-- The element's own index TID. -/
def HnswElement.tid (e : HnswElement V) : ItemPointer := ⟨e.blkno, e.offno⟩

/-- The index TID of the element's neighbor tuple. -/
def HnswElement.neighbortid (e : HnswElement V) : ItemPointer := ⟨e.neighborPage, e.neighborOffno⟩

/-- `ItemPointerIsValid(&etup->heaptids[0])`. -/
def HnswElementTuple.isLive (t : HnswElementTuple V) : Bool :=
  match t.heaptids with
  | [] => false
  | p :: _ => p.isValid

/-- The heap TIDs the code sees: it stops at the first invalid one. -/
def HnswElementTuple.tids (t : HnswElementTuple V) : List ItemPointer :=
  t.heaptids.takeWhile (·.isValid)

/-- The first `n` entries, padded with invalid pointers. -/
def padTids (n : Nat) (tids : List ItemPointer) : List ItemPointer :=
  tids.take n ++ List.replicate (n - tids.length) .invalid

@[simp] theorem padTids_length (n : Nat) (tids : List ItemPointer) :
    (padTids n tids).length = n := by
  simp only [padTids, List.length_append, List.length_take, List.length_replicate]
  omega

/-- `HnswSetElementTuple`; `neighbortid` is set by the caller. -/
def HnswSetElementTuple (level version : Nat) (heaptids : List ItemPointer) (value : V)
    (neighbortid : ItemPointer) : HnswElementTuple V where
  level := level
  deleted := false
  version := version
  heaptids := padTids HNSW_HEAPTIDS heaptids
  neighbortid := neighbortid
  data := value
  hlen := padTids_length _ _

/-- The slots `HnswSetNeighborTuple` writes for the layers `lc`, …, 0, from the top one down. -/
def neighborSlots (m : Nat) (neighbors : Nat → List ItemPointer) : Nat → List ItemPointer
  | 0 => padTids (HnswGetLayerM m 0) (neighbors 0)
  | lc + 1 => padTids (HnswGetLayerM m (lc + 1)) (neighbors (lc + 1)) ++ neighborSlots m neighbors lc

/-- `HnswSetNeighborTuple`: `neighbors lc` are the TIDs of the layer-`lc` neighbor array. -/
def HnswSetNeighborTuple (level version m : Nat) (neighbors : Nat → List ItemPointer) :
    HnswNeighborTuple where
  version := version
  indextids := neighborSlots m neighbors level

/-- `HnswLoadElementFromTuple`, into the copy `e`. -/
def HnswLoadElementFromTuple (e : HnswElement V) (etup : HnswElementTuple V)
    (loadHeaptids loadVec : Bool) : HnswElement V :=
  { e with
    level := etup.level
    deleted := etup.deleted
    version := etup.version
    neighborPage := etup.neighbortid.blkno
    neighborOffno := etup.neighbortid.offno
    heaptids := if loadHeaptids then etup.tids else []
    value := if loadVec then some etup.data else e.value }

/-- `HnswInitElementFromBlock`: only the location is set. -/
def HnswInitElementFromBlock (tid : ItemPointer) (ptr : Nat) : HnswElement V where
  blkno := tid.blkno
  offno := tid.offno
  level := 0
  deleted := false
  version := 0
  heaptids := []
  neighborPage := InvalidBlockNumber
  neighborOffno := 0
  value := none
  ptr := ptr

/-- `HnswLoadNeighborTids` once the neighbor tuple is at hand: `none` when the tuple is not the one
    the element was loaded with. -/
def neighborTids (ntup : HnswNeighborTuple) (level version m lm lc : Nat) :
    Option (List ItemPointer) :=
  if ntup.version ≠ version ∨ ntup.count ≠ (level + 2) * m then none
  else some ((ntup.indextids.drop ((level - lc) * m)).take lm)

/-! ## 5. Reading back what was written -/

@[simp] theorem HnswElement.tid_initFromBlock (t : ItemPointer) (ptr : Nat) :
    (HnswInitElementFromBlock t ptr : HnswElement V).tid = t := rfl

@[simp] theorem tid_loadElementFromTuple (e : HnswElement V) (etup : HnswElementTuple V)
    (a b : Bool) : (HnswLoadElementFromTuple e etup a b).tid = e.tid := rfl

theorem isLive_iff (t : HnswElementTuple V) : t.isLive = true ↔ t.tids ≠ [] := by
  unfold HnswElementTuple.isLive HnswElementTuple.tids
  split
  · rename_i h
    simp [h]
  · rename_i p ps h
    rw [h, List.takeWhile_cons]
    cases p.isValid <;> simp

theorem neighborSlots_length (m : Nat) (nb : Nat → List ItemPointer) : ∀ level : Nat,
    (neighborSlots m nb level).length = (level + 2) * m
  | 0 => by
      simp only [neighborSlots, padTids_length, HnswGetLayerM, if_true]
      omega
  | lc + 1 => by
      simp only [neighborSlots, List.length_append, padTids_length, neighborSlots_length m nb lc,
        HnswGetLayerM, Nat.succ_ne_zero, if_false]
      rw [show lc + 1 + 2 = (lc + 2) + 1 from rfl, Nat.add_mul (lc + 2) 1 m]
      omega

theorem neighborSlots_segment (m : Nat) (nb : Nat → List ItemPointer) : ∀ {level lc : Nat},
    lc ≤ level →
    ((neighborSlots m nb level).drop ((level - lc) * m)).take (HnswGetLayerM m lc) =
      padTids (HnswGetLayerM m lc) (nb lc)
  | 0, lc, h => by
      have : lc = 0 := by omega
      subst this
      simp only [neighborSlots, Nat.sub_self, Nat.zero_mul, List.drop_zero]
      exact List.take_of_length_le (by simp)
  | level + 1, lc, h => by
      have hm : HnswGetLayerM m (level + 1) = m := by simp [HnswGetLayerM]
      rcases Nat.lt_or_ge level lc with hlt | hge
      · have : lc = level + 1 := by omega
        subst this
        simp only [neighborSlots, Nat.sub_self, Nat.zero_mul, List.drop_zero]
        exact List.take_left' (by simp)
      · have hd : (level + 1 - lc) * m = m + (level - lc) * m := by
          rw [show level + 1 - lc = 1 + (level - lc) by omega, Nat.add_mul, Nat.one_mul]
        simp only [neighborSlots]
        rw [hd, ← List.drop_drop, List.drop_left' (by rw [padTids_length, hm])]
        exact neighborSlots_segment m nb hge

/-- **The segment read back for layer `lc` is the layer's array, padded.** -/
theorem neighborTids_set (m version : Nat) (nb : Nat → List ItemPointer) {level lc : Nat}
    (h : lc ≤ level) :
    neighborTids (HnswSetNeighborTuple level version m nb) level version m
      (HnswGetLayerM m lc) lc = some (padTids (HnswGetLayerM m lc) (nb lc)) := by
  unfold neighborTids HnswSetNeighborTuple HnswNeighborTuple.count
  rw [if_neg (by simp [neighborSlots_length])]
  exact congrArg some (neighborSlots_segment m nb h)

end Pgvec.Hnsw
