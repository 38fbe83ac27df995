/-
  File:      Pgvec/Hnsw/MemoryFacts.lean
  Subject:   THE INVARIANT OF THE GRAPH IN MEMORY.

  * `HnswGraph.Layers` -- levels in range, one neighbor array for each layer with no more entries than the
    layer allows, which name other elements of that layer, each once;
  * `HnswGraph.HeapTids` -- heap TIDs valid, at least one and at most `HNSW_HEAPTIDS`;
  * `HnswGraph.Top` -- the entry point is of the highest level;
  * `HnswGraph.Wf` -- all of it; `MemoryBuild.lean` has that every build keeps it.
-/
import Pgvec.Hnsw.Memory

namespace Pgvec.Hnsw

variable {V δ : Type}

/-- An element of the graph that has the layer. -/
def HnswGraph.OnLayer (g : HnswGraph V δ) (lc i : Nat) : Prop :=
  ∃ e, g.elements[i]? = some e ∧ lc ≤ e.level

/-- **The neighbor arrays**: one for each layer, with room, which names other elements of that layer, each once. -/
structure HnswGraph.Layers (m : Nat) (g : HnswGraph V δ) : Prop where
  level : ∀ {i : Nat} {e : MemElement V δ}, g.elements[i]? = some e → e.level ≤ HnswGetMaxLevel m
  arrays : ∀ {i : Nat} {e : MemElement V δ}, g.elements[i]? = some e → e.neighbors.length = e.level + 1
  room : ∀ {i lc : Nat} {e : MemElement V δ} {a : HnswNeighborArray Nat δ},
    g.elements[i]? = some e → e.neighbors[lc]? = some a → a.items.length ≤ HnswGetLayerM m lc
  link : ∀ {i lc : Nat} {e : MemElement V δ} {a : HnswNeighborArray Nat δ},
    g.elements[i]? = some e → e.neighbors[lc]? = some a →
      ∀ c ∈ a.items, c.element ≠ i ∧ g.OnLayer lc c.element
  nodup : ∀ {i lc : Nat} {e : MemElement V δ} {a : HnswNeighborArray Nat δ},
    g.elements[i]? = some e → e.neighbors[lc]? = some a → (a.items.map (·.element)).Nodup

/-- **The entry point** is of the highest level. -/
structure HnswGraph.Top (g : HnswGraph V δ) : Prop where
  entry : ∀ {i}, g.entryPoint = some i → ∃ e, g.elements[i]? = some e ∧
    ∀ {j : Nat} {f : MemElement V δ}, g.elements[j]? = some f → f.level ≤ e.level
  noEntry : g.entryPoint = none → g.elements = []

/-- **The heap TIDs** of every element: valid, at least one, and no more than there is room for. -/
structure HnswGraph.HeapTids (g : HnswGraph V δ) : Prop where
  heaptids : ∀ {i : Nat} {e : MemElement V δ}, g.elements[i]? = some e → e.heaptids ≠ [] ∧
    e.heaptids.length ≤ HNSW_HEAPTIDS ∧ ∀ t ∈ e.heaptids, t.isValid = true

/-- **The invariant of the graph in memory.** -/
structure HnswGraph.Wf (m : Nat) (g : HnswGraph V δ) : Prop extends g.Layers m, g.HeapTids, g.Top

/-- Two elements of level 0, each naming the other. -/
def pairGraph : HnswGraph Nat Nat where
  elements :=
    [⟨[⟨7, 1⟩], 0, 1, 10, [⟨[⟨1, 10, false⟩], false⟩]⟩,
      ⟨[⟨7, 2⟩, ⟨7, 3⟩], 0, 1, 20, [⟨[⟨0, 10, false⟩], false⟩]⟩]
  entryPoint := some 0

/-- The elements of the graph. -/
theorem pairGraph_elements {i : Nat} {e : MemElement Nat Nat} (h : pairGraph.elements[i]? = some e) :
    (i = 0 ∧ e = ⟨[⟨7, 1⟩], 0, 1, 10, [⟨[⟨1, 10, false⟩], false⟩]⟩) ∨
      (i = 1 ∧ e = ⟨[⟨7, 2⟩, ⟨7, 3⟩], 0, 1, 20, [⟨[⟨0, 10, false⟩], false⟩]⟩) := by
  match i, h with
  | 0, h => exact Or.inl ⟨rfl, (Option.some.inj h).symm⟩
  | 1, h => exact Or.inr ⟨rfl, (Option.some.inj h).symm⟩

/-- Their only arrays. -/
theorem pairGraph_array {i lc : Nat} {e : MemElement Nat Nat} {a : HnswNeighborArray Nat Nat}
    (h : pairGraph.elements[i]? = some e) (ha : e.neighbors[lc]? = some a) :
    lc = 0 ∧ ((i = 0 ∧ a = ⟨[⟨1, 10, false⟩], false⟩) ∨ (i = 1 ∧ a = ⟨[⟨0, 10, false⟩], false⟩)) := by
  match lc, ha with
  | 0, ha =>
      rcases pairGraph_elements h with ⟨rfl, rfl⟩ | ⟨rfl, rfl⟩
      · exact ⟨rfl, Or.inl ⟨rfl, (Option.some.inj ha).symm⟩⟩
      · exact ⟨rfl, Or.inr ⟨rfl, (Option.some.inj ha).symm⟩⟩
  | lc + 1, ha => rcases pairGraph_elements h with ⟨rfl, rfl⟩ | ⟨rfl, rfl⟩ <;> cases ha

theorem pairGraph_wf : pairGraph.Wf 2 where
  level h := by rcases pairGraph_elements h with ⟨rfl, rfl⟩ | ⟨rfl, rfl⟩ <;> decide
  arrays h := by rcases pairGraph_elements h with ⟨rfl, rfl⟩ | ⟨rfl, rfl⟩ <;> rfl
  room h ha := by
    obtain ⟨rfl, ⟨rfl, rfl⟩ | ⟨rfl, rfl⟩⟩ := pairGraph_array h ha <;> decide
  link h ha c hc := by
    obtain ⟨rfl, ⟨rfl, rfl⟩ | ⟨rfl, rfl⟩⟩ := pairGraph_array h ha
    all_goals
      rw [List.mem_singleton.mp hc]
      exact ⟨by decide, _, rfl, Nat.zero_le _⟩
  nodup h ha := by
    obtain ⟨rfl, ⟨rfl, rfl⟩ | ⟨rfl, rfl⟩⟩ := pairGraph_array h ha <;> exact List.nodup_singleton _
  heaptids h := by rcases pairGraph_elements h with ⟨rfl, rfl⟩ | ⟨rfl, rfl⟩ <;> decide
  entry h := by
    cases h
    refine ⟨_, rfl, fun hf => ?_⟩
    rcases pairGraph_elements hf with ⟨rfl, rfl⟩ | ⟨rfl, rfl⟩ <;> exact Nat.le_refl _
  noEntry h := by cases h

end Pgvec.Hnsw
