/-
  File:      Pgvec/Hnsw/BuildMemory.lean
  Subject:   THE SHARED AREA OF A PARALLEL BUILD (`hnswbuild.c`): what `HnswBeginParallel` reserves and what
             `InsertTuple` hands out of it through `HnswSharedMemoryAlloc`.

  `Size` is unsigned and 64 bits wide: sums and differences are taken modulo `2 ^ 64`. A chunk is where it
  starts in the area and how long it is. The sizes of the structs are those of a 64-bit build.

  * `esthnswarea`, `memoryTotal` -- the two subtractions;
  * `InsertTuple` -- the check and the allocations of one call (made under `allocatorLock`, one call at a time);
  * `tupleSpace_le` -- one tuple takes less than the slack;
  * **`chunks_inside_iff`** -- every chunk lies in the area if and only if the second subtraction does not wrap.
-/
import Pgvec.Hnsw.Chain
import Mathlib.Algebra.BigOperators.Group.List.Basic
import Mathlib.Tactic.Ring

namespace Pgvec.Hnsw.BuildMemory

open Pgvec.Storage (MAXALIGN)

/-! ## 1. Sizes -/

/-- `MAX_KILOBYTES`, the largest value of `maintenance_work_mem`. -/
def MAX_KILOBYTES : Nat := 2147483647

/-- `HNSW_MAX_DIM`. -/
def HNSW_MAX_DIM : Nat := 2000

/-- `sizeof(HnswElementData)`. -/
def sizeofHnswElementData : Nat := 128

/-- `sizeof(HnswNeighborArrayPtr)`. -/
def sizeofHnswNeighborArrayPtr : Nat := 8

/-- `sizeof(HnswCandidate)`. -/
def sizeofHnswCandidate : Nat := 16

/-- `offsetof(HnswNeighborArray, items)`. -/
def offsetofItems : Nat := 8

def HNSW_NEIGHBOR_ARRAY_SIZE (lm : Nat) : Nat := offsetofItems + sizeofHnswCandidate * lm

/-- `VECTOR_SIZE`: the header and four bytes for each dimension. -/
def VECTOR_SIZE (dim : Nat) : Nat := 8 + 4 * dim

/-! ## 2. The area and its allocator -/

/-- A chunk of the area. -/
structure Chunk where
  offset : Nat
  size : Nat
  deriving DecidableEq, Repr

/-- The counters of the shared graph, and the chunks handed out so far. -/
structure SharedGraph where
  memoryUsed : Nat
  memoryTotal : Nat
  flushed : Bool
  chunks : List Chunk

/-- What `HnswBeginParallel` reserves. -/
def esthnswarea (maintenance_work_mem : Nat) : Nat :=
  let esthnswarea := maintenance_work_mem * 1024
  let estother := 3 * 1024 * 1024
  if estother < esthnswarea then esthnswarea - estother else esthnswarea

/-- What `HnswBeginParallel` reports: less than allocated. -/
def memoryTotal (maintenance_work_mem : Nat) : Nat :=
  (esthnswarea maintenance_work_mem + 2 ^ 64 - 1024 * 1024) % 2 ^ 64

/-- `InitGraph` on the shared graph. -/
def InitGraph (memoryTotal : Nat) : SharedGraph := ⟨0, memoryTotal, false, []⟩

/-- `HnswSharedMemoryAlloc`. -/
def HnswSharedMemoryAlloc (size : Nat) (graph : SharedGraph) : SharedGraph :=
  { graph with
    memoryUsed := (graph.memoryUsed + MAXALIGN size) % 2 ^ 64
    chunks := graph.chunks ++ [⟨graph.memoryUsed, size⟩] }

/-- `HnswInitNeighborArray`. -/
def HnswInitNeighborArray (lm : Nat) (graph : SharedGraph) : SharedGraph :=
  HnswSharedMemoryAlloc (HNSW_NEIGHBOR_ARRAY_SIZE lm) graph

/-- `HnswInitNeighbors`. -/
def HnswInitNeighbors (level m : Nat) (graph : SharedGraph) : SharedGraph :=
  (List.range (level + 1)).foldl (fun graph lc => HnswInitNeighborArray (HnswGetLayerM m lc) graph)
    (HnswSharedMemoryAlloc (sizeofHnswNeighborArrayPtr * (level + 1)) graph)

/-- `HnswInitElement`; `rnd` is the level that was drawn, before the cap. -/
def HnswInitElement (m rnd maxLevel : Nat) (graph : SharedGraph) : SharedGraph :=
  HnswInitNeighbors (min rnd maxLevel) m (HnswSharedMemoryAlloc sizeofHnswElementData graph)

/-- A call of `InsertTuple`: the level drawn and the dimensions of the vector. -/
structure Call where
  rnd : Nat
  dim : Nat

/-- **`InsertTuple`**, as far as the area is concerned. -/
def InsertTuple (m : Nat) (graph : SharedGraph) (call : Call) : SharedGraph :=
  if graph.flushed then graph
  else if graph.memoryTotal ≤ graph.memoryUsed then { graph with flushed := true }
  else
    HnswSharedMemoryAlloc (VECTOR_SIZE call.dim)
      (HnswInitElement m call.rnd (HnswGetMaxLevel m) graph)

/-- The graph after some calls. -/
def build (maintenance_work_mem m : Nat) (calls : List Call) : SharedGraph :=
  calls.foldl (InsertTuple m) (InitGraph (memoryTotal maintenance_work_mem))

/-! ## 3. What one tuple takes -/

/-- The sizes asked for, in order. -/
def tupleSizes (m level dim : Nat) : List Nat :=
  sizeofHnswElementData :: sizeofHnswNeighborArrayPtr * (level + 1) ::
    ((List.range (level + 1)).map fun lc => HNSW_NEIGHBOR_ARRAY_SIZE (HnswGetLayerM m lc)) ++
      [VECTOR_SIZE dim]

/-- What sizes take in the area. -/
def space (sizes : List Nat) : Nat := (sizes.map MAXALIGN).sum

/-- Several allocations one after another. -/
def allocAll (sizes : List Nat) (graph : SharedGraph) : SharedGraph :=
  sizes.foldl (fun graph size => HnswSharedMemoryAlloc size graph) graph

/-- What a call allocates. -/
theorem insertTuple_eq (m : Nat) (graph : SharedGraph) (call : Call) (hf : graph.flushed = false)
    (hused : graph.memoryUsed < graph.memoryTotal) : InsertTuple m graph call =
      allocAll (tupleSizes m (min call.rnd (HnswGetMaxLevel m)) call.dim) graph := by
  rw [InsertTuple, hf, if_neg Bool.false_ne_true, if_neg (Nat.not_le.mpr hused)]
  simp only [allocAll, tupleSizes, List.foldl_append, List.foldl_cons, List.foldl_nil, List.foldl_map,
    List.cons_append]
  rfl

/-- **Allocations one after another** fill the area without gaps. -/
theorem allocAll_spec (sizes : List Nat) (graph : SharedGraph)
    (h : graph.memoryUsed + space sizes < 2 ^ 64) :
    (allocAll sizes graph).memoryUsed = graph.memoryUsed + space sizes ∧
      (allocAll sizes graph).memoryTotal = graph.memoryTotal ∧
      (allocAll sizes graph).flushed = graph.flushed ∧
      ∀ c ∈ (allocAll sizes graph).chunks, c ∈ graph.chunks ∨
        c.offset + c.size ≤ graph.memoryUsed + space sizes := by
  induction sizes generalizing graph with
  | nil => exact ⟨rfl, rfl, rfl, fun c hc => Or.inl hc⟩
  | cons size sizes ih =>
    have hspace : space (size :: sizes) = MAXALIGN size + space sizes := rfl
    rw [hspace] at h ⊢
    have hmod : (graph.memoryUsed + MAXALIGN size) % 2 ^ 64 = graph.memoryUsed + MAXALIGN size :=
      Nat.mod_eq_of_lt (by omega)
    have hnext : (HnswSharedMemoryAlloc size graph).memoryUsed = graph.memoryUsed + MAXALIGN size := hmod
    obtain ⟨h1, h2, h3, h4⟩ := ih (HnswSharedMemoryAlloc size graph) (by rw [hnext]; omega)
    rw [hnext] at h1 h4
    refine ⟨by rw [← Nat.add_assoc]; exact h1, h2, h3, ?_⟩
    intro c hc
    rcases h4 c hc with hc | hc
    · rcases List.mem_append.mp hc with hc | hc
      · exact Or.inl hc
      · rw [List.mem_singleton.mp hc]
        have := Storage.le_maxalign size
        exact Or.inr (show graph.memoryUsed + size ≤ _ by omega)
    · exact Or.inr (by omega)

/-- A chunk that was handed out stays in the list. -/
theorem chunks_allocAll (sizes : List Nat) (graph : SharedGraph) :
    graph.chunks ⊆ (allocAll sizes graph).chunks := by
  induction sizes generalizing graph with
  | nil => exact List.Subset.refl _
  | cons size sizes ih =>
    exact List.Subset.trans (List.subset_append_left _ _) (ih (HnswSharedMemoryAlloc size graph))

/-- The slots of an element: twice `m` on the ground layer and `m` on each other one. -/
theorem sum_layerM (m level : Nat) :
    ((List.range (level + 1)).map fun lc => HnswGetLayerM m lc).sum = (level + 2) * m := by
  induction level with
  | zero =>
    show m * 2 + 0 = 2 * m
    omega
  | succ level ih =>
    rw [List.range_succ, List.map_append, List.sum_append, ih, List.map_singleton, List.sum_singleton,
      HnswGetLayerM, if_neg (Nat.succ_ne_zero level)]
    ring

/-- What the neighbor arrays take. -/
theorem space_arrays (m : Nat) (layers : List Nat) :
    space (layers.map fun lc => HNSW_NEIGHBOR_ARRAY_SIZE (HnswGetLayerM m lc)) =
      8 * layers.length + 16 * (layers.map fun lc => HnswGetLayerM m lc).sum := by
  induction layers with
  | nil => rfl
  | cons lc layers ih =>
    have hcons : space ((lc :: layers).map fun lc => HNSW_NEIGHBOR_ARRAY_SIZE (HnswGetLayerM m lc)) =
        MAXALIGN (HNSW_NEIGHBOR_ARRAY_SIZE (HnswGetLayerM m lc)) +
          space (layers.map fun lc => HNSW_NEIGHBOR_ARRAY_SIZE (HnswGetLayerM m lc)) := rfl
    rw [hcons, ih, List.map_cons, List.sum_cons, List.length_cons]
    simp only [MAXALIGN, HNSW_NEIGHBOR_ARRAY_SIZE, offsetofItems, sizeofHnswCandidate]
    omega

theorem space_tupleSizes (m level dim : Nat) : space (tupleSizes m level dim) =
    128 + 8 * (level + 1) + (8 * (level + 1) + 16 * ((level + 2) * m)) + MAXALIGN (VECTOR_SIZE dim) := by
  have harrays := space_arrays m (List.range (level + 1))
  rw [List.length_range, sum_layerM] at harrays
  have hsplit : space (tupleSizes m level dim) =
      MAXALIGN sizeofHnswElementData + (MAXALIGN (sizeofHnswNeighborArrayPtr * (level + 1)) +
        space ((List.range (level + 1)).map fun lc => HNSW_NEIGHBOR_ARRAY_SIZE (HnswGetLayerM m lc))) +
        MAXALIGN (VECTOR_SIZE dim) := by
    simp only [space, tupleSizes, List.map_append, List.map_cons, List.map_nil, List.sum_append,
      List.sum_cons, List.sum_nil, Nat.add_zero]
  rw [hsplit, harrays]
  simp only [MAXALIGN, sizeofHnswElementData, sizeofHnswNeighborArrayPtr]
  omega

/-- **One tuple takes less than the slack.** -/
theorem tupleSpace_le {m level dim : Nat} (h2 : 2 ≤ m) (h100 : m ≤ 100) (hl : level ≤ HnswGetMaxLevel m)
    (hd : dim ≤ HNSW_MAX_DIM) : space (tupleSizes m level dim) ≤ 1024 * 1024 := by
  have hmax : HnswGetMaxLevel m ≤ 1358 / m - 2 := Nat.min_le_left _ _
  have h255 : HnswGetMaxLevel m ≤ 255 := Nat.min_le_right _ _
  have hq : 13 ≤ 1358 / m := (Nat.le_div_iff_mul_le (by omega)).mpr (by omega)
  have hslots : (level + 2) * m ≤ 1358 :=
    (Nat.le_div_iff_mul_le (by omega)).mp (show level + 2 ≤ 1358 / m by omega)
  rw [space_tupleSizes]
  simp only [MAXALIGN, VECTOR_SIZE, HNSW_MAX_DIM] at *
  omega

/-! ## 4. All calls -/

/-- The values of `maintenance_work_mem` for which the second subtraction does not wrap. -/
def Enough (maintenance_work_mem : Nat) : Prop :=
  1024 ≤ maintenance_work_mem ∧ maintenance_work_mem ≤ 3072 ∨ 4096 ≤ maintenance_work_mem

section Calls

variable {maintenance_work_mem m : Nat}

theorem esthnswarea_lt (h : maintenance_work_mem ≤ MAX_KILOBYTES) :
    esthnswarea maintenance_work_mem < 2 ^ 62 := by
  simp only [esthnswarea, MAX_KILOBYTES] at *
  split <;> omega

theorem memoryTotal_enough (hmax : maintenance_work_mem ≤ MAX_KILOBYTES)
    (h : Enough maintenance_work_mem) :
    memoryTotal maintenance_work_mem + 1024 * 1024 = esthnswarea maintenance_work_mem := by
  have harea : 1024 * 1024 ≤ esthnswarea maintenance_work_mem := by
    simp only [esthnswarea, Enough] at *
    split <;> omega
  have hlt := esthnswarea_lt hmax
  rw [memoryTotal]
  omega

theorem memoryTotal_wrapped (h : ¬ Enough maintenance_work_mem) :
    esthnswarea maintenance_work_mem < 1024 * 1024 ∧ 2 ^ 63 ≤ memoryTotal maintenance_work_mem := by
  have harea : esthnswarea maintenance_work_mem < 1024 * 1024 := by
    simp only [esthnswarea, Enough] at *
    split <;> omega
  refine ⟨harea, ?_⟩
  rw [memoryTotal]
  omega

/-- What holds between the calls when the total leaves the slack. -/
structure Inside (area : Nat) (graph : SharedGraph) : Prop where
  total : graph.memoryTotal + 1024 * 1024 = area
  used : graph.memoryUsed ≤ area
  chunks : ∀ c ∈ graph.chunks, c.offset + c.size ≤ area

/-- **One call stays inside.** -/
theorem Inside.insertTuple {area : Nat} {graph : SharedGraph} (h : Inside area graph) (ha : area < 2 ^ 62)
    (h2 : 2 ≤ m) (h100 : m ≤ 100) {call : Call} (hd : call.dim ≤ HNSW_MAX_DIM) :
    Inside area (InsertTuple m graph call) := by
  cases hf : graph.flushed with
  | true =>
    rw [InsertTuple, hf, if_pos rfl]
    exact h
  | false =>
    by_cases hused : graph.memoryTotal ≤ graph.memoryUsed
    · rw [InsertTuple, hf, if_neg Bool.false_ne_true, if_pos hused]
      exact ⟨h.total, h.used, h.chunks⟩
    · have hspace := tupleSpace_le h2 h100 (Nat.min_le_right call.rnd (HnswGetMaxLevel m)) hd
      have htotal := h.total
      rw [insertTuple_eq m graph call hf (Nat.lt_of_not_le hused)]
      obtain ⟨h1, h2, _, h5⟩ :=
        allocAll_spec (tupleSizes m (min call.rnd (HnswGetMaxLevel m)) call.dim) graph (by omega)
      refine ⟨by rw [h2]; exact htotal, by omega, ?_⟩
      intro c hc
      rcases h5 c hc with hc | hc
      · exact h.chunks c hc
      · omega

theorem Inside.run {area : Nat} (ha : area < 2 ^ 62) (h2 : 2 ≤ m) (h100 : m ≤ 100) :
    ∀ (calls : List Call) {graph : SharedGraph}, Inside area graph →
      (∀ call ∈ calls, call.dim ≤ HNSW_MAX_DIM) → Inside area (calls.foldl (InsertTuple m) graph)
  | [], _, h, _ => h
  | call :: calls, _, h, hd =>
      Inside.run ha h2 h100 calls (h.insertTuple ha h2 h100 (hd call List.mem_cons_self))
        fun c hc => hd c (List.mem_cons_of_mem _ hc)

/-- What a tuple of one dimension on the ground layer takes. -/
def smallTuple (m : Nat) : Nat := 160 + 32 * m

theorem space_smallTuple (m : Nat) : space (tupleSizes m 0 1) = smallTuple m := by
  have hvalue : MAXALIGN (VECTOR_SIZE 1) = 16 := rfl
  rw [space_tupleSizes, hvalue, smallTuple]
  omega

/-- With a total that is far away, small tuples are laid one after another. -/
theorem small_run (total : Nat) : ∀ n : Nat, n * smallTuple m < total → total < 2 ^ 64 →
    ((List.replicate n (⟨0, 1⟩ : Call)).foldl (InsertTuple m) (InitGraph total)).memoryUsed =
        n * smallTuple m ∧
      ((List.replicate n (⟨0, 1⟩ : Call)).foldl (InsertTuple m) (InitGraph total)).memoryTotal = total ∧
      ((List.replicate n (⟨0, 1⟩ : Call)).foldl (InsertTuple m) (InitGraph total)).flushed = false
  | 0, _, _ => ⟨(Nat.zero_mul _).symm, rfl, rfl⟩
  | n + 1, hn, ht => by
      have hmul : (n + 1) * smallTuple m = n * smallTuple m + smallTuple m := Nat.succ_mul n _
      obtain ⟨h1, h2, h3⟩ := small_run total n (by omega) ht
      rw [List.replicate_succ', List.foldl_append, List.foldl_cons, List.foldl_nil,
        insertTuple_eq m _ _ h3 (by rw [h1, h2]; omega), Nat.zero_min]
      obtain ⟨h4, h5, h6, _⟩ := allocAll_spec (tupleSizes m 0 1) _
        (by rw [space_smallTuple, h1]; omega)
      exact ⟨by rw [h4, h1, space_smallTuple, hmul], by rw [h5, h2], by rw [h6, h3]⟩

/-- The element of the next small tuple starts where the others end. -/
theorem small_chunk (total n : Nat) (hn : n * smallTuple m < total) (ht : total < 2 ^ 64) :
    ⟨n * smallTuple m, sizeofHnswElementData⟩ ∈
      ((List.replicate (n + 1) (⟨0, 1⟩ : Call)).foldl (InsertTuple m) (InitGraph total)).chunks := by
  obtain ⟨h1, h2, h3⟩ := small_run total n hn ht
  rw [List.replicate_succ', List.foldl_append, List.foldl_cons, List.foldl_nil,
    insertTuple_eq m _ _ h3 (by rw [h1, h2]; exact hn)]
  refine chunks_allocAll _ (HnswSharedMemoryAlloc sizeofHnswElementData _) ?_
  rw [← h1]
  exact List.mem_append_right _ List.mem_cons_self

/-- **Every chunk lies in the area reserved for it if and only if the total did not wrap**: from 1 MB to
    3 MB, and from 4 MB on. -/
theorem chunks_inside_iff (maintenance_work_mem m : Nat) (hmax : maintenance_work_mem ≤ MAX_KILOBYTES)
    (h2 : 2 ≤ m) (h100 : m ≤ 100) :
    (∀ calls : List Call, (∀ call ∈ calls, 1 ≤ call.dim ∧ call.dim ≤ HNSW_MAX_DIM) →
        ∀ chunk ∈ (build maintenance_work_mem m calls).chunks,
          chunk.offset + chunk.size ≤ esthnswarea maintenance_work_mem) ↔
      (1024 ≤ maintenance_work_mem ∧ maintenance_work_mem ≤ 3072 ∨ 4096 ≤ maintenance_work_mem) := by
  constructor
  · intro h
    by_contra hne
    obtain ⟨harea, htotal⟩ := memoryTotal_wrapped hne
    have hlt : memoryTotal maintenance_work_mem < 2 ^ 64 := Nat.mod_lt _ (by decide)
    have hsmall : 8192 * smallTuple m < memoryTotal maintenance_work_mem := by
      unfold smallTuple
      omega
    have hin := h (List.replicate 8193 ⟨0, 1⟩)
      (fun c hc => by rw [List.eq_of_mem_replicate hc]; exact ⟨Nat.le_refl 1, by decide⟩) _
      (small_chunk (memoryTotal maintenance_work_mem) 8192 hsmall hlt)
    simp only [smallTuple] at hin
    omega
  · intro h calls hdim
    refine (Inside.run (esthnswarea_lt hmax) h2 h100 calls ?_ fun c hc => (hdim c hc).2).chunks
    exact ⟨memoryTotal_enough hmax h, Nat.zero_le _, fun _ hc => nomatch hc⟩

/-- The default of 64 MB. -/
theorem chunks_inside_default :
    (∀ calls : List Call, (∀ call ∈ calls, 1 ≤ call.dim ∧ call.dim ≤ HNSW_MAX_DIM) →
        ∀ chunk ∈ (build 65536 16 calls).chunks, chunk.offset + chunk.size ≤ esthnswarea 65536) ↔
      (1024 ≤ 65536 ∧ 65536 ≤ 3072 ∨ 4096 ≤ 65536) :=
  chunks_inside_iff 65536 16 (by decide) (by decide) (by decide)

/-- **The smallest value the setting admits**: 99 tuples of one dimension, and the last one lies behind
    the area. -/
theorem chunk_outside : ∃ chunk ∈ (build 64 16 (List.replicate 99 ⟨0, 1⟩)).chunks,
    esthnswarea 64 < chunk.offset + chunk.size :=
  ⟨⟨98 * smallTuple 16, sizeofHnswElementData⟩,
    small_chunk (memoryTotal 64) 98 (by decide) (by decide), by decide⟩

end Calls

end Pgvec.Hnsw.BuildMemory
