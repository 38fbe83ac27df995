/-
  File:      Pgvec/Hnsw/Graph.lean
  Subject:   THE GRAPH AN INDEX STORES: when its links make sense.

  * `segment` -- the slots of one layer; `Packed` -- the valid ones stand in front;
  * `Index.Linked` -- every element tuple has its own neighbor tuple, and what slots and the entry point
    name are element tuples; `Index.Shaped` -- the two tuples agree on version and size, and the
    segments are packed;
  * `Index.layerLinks` -- the elements a layer names.
-/
import Mathlib.Data.List.TakeWhile
import Pgvec.Hnsw.Lookup
import Pgvec.Hnsw.Search

namespace Pgvec.Hnsw

open Storage

/-! ## 1. Slots -/

/-- The slots of layer `lc` in the neighbor tuple of an element of the given level. -/
def segment (m level lc : Nat) (tids : List ItemPointer) : List ItemPointer :=
  (tids.drop ((level - lc) * m)).take (HnswGetLayerM m lc)

/-- The valid slots form a prefix. -/
def Packed (l : List ItemPointer) : Prop :=
  ∃ a b, l = a ++ b ∧ (∀ x ∈ a, x.isValid = true) ∧ ∀ x ∈ b, x.isValid = false

theorem takeWhile_split {a b : List ItemPointer} (ha : ∀ x ∈ a, x.isValid = true)
    (hb : ∀ x ∈ b, x.isValid = false) : (a ++ b).takeWhile (·.isValid) = a := by
  rw [List.takeWhile_append_of_pos ha]
  cases b with
  | nil => simp
  | cons x b => simp [hb x List.mem_cons_self]

theorem Packed.validPrefix_eq {l : List ItemPointer} (h : Packed l) :
    validPrefix l = l.filter (·.isValid) := by
  obtain ⟨a, b, rfl, ha, hb⟩ := h
  rw [validPrefix, takeWhile_split ha hb, List.filter_append, List.filter_eq_self.mpr ha,
    List.filter_eq_nil_iff.mpr fun x hx => by simp [hb x hx], List.append_nil]

/-- Valid TIDs that fit are read back as they were written. -/
theorem padTids_valid {n : Nat} {l : List ItemPointer} (hn : l.length ≤ n)
    (hl : ∀ x ∈ l, x.isValid = true) : (padTids n l).takeWhile (·.isValid) = l := by
  unfold padTids
  rw [List.take_of_length_le hn]
  exact takeWhile_split hl fun x hx => by rw [List.eq_of_mem_replicate hx]; rfl

theorem mem_validPrefix {l : List ItemPointer} {x : ItemPointer} (h : x ∈ validPrefix l) :
    x ∈ l ∧ x.isValid = true :=
  ⟨(List.takeWhile_sublist _).subset h, List.mem_takeWhile_imp h⟩

theorem mem_segment {m level lc : Nat} {l : List ItemPointer} {x : ItemPointer}
    (h : x ∈ segment m level lc l) : x ∈ l :=
  List.mem_of_mem_drop (List.mem_of_mem_take h)

/-! ## 2. Links -/

variable {V : Type}

namespace Index

/-- **Every element tuple has a neighbor tuple of its own, and what is named is an element tuple.** -/
structure Linked (idx : Index V) : Prop where
  ntup : ∀ {t e}, idx.elem? t = some e → ∃ n, idx.neigh? e.neighbortid = some n
  owner : ∀ {t u e f}, idx.elem? t = some e → idx.elem? u = some f →
    e.neighbortid = f.neighbortid → t = u
  link : ∀ {t e n}, idx.elem? t = some e → idx.neigh? e.neighbortid = some n →
    ∀ x ∈ n.indextids, x.isValid = true → ∃ f, idx.elem? x = some f
  entry : ∀ {ep}, idx.metap.entry = some ep → ∃ e, idx.elem? ep.tid = some e

/-- **Element tuple and neighbor tuple fit together**: one version, as many slots as the level asks
    for, and in each layer the valid slots in front. -/
structure Shaped (idx : Index V) : Prop where
  version : ∀ {t e n}, idx.elem? t = some e → idx.neigh? e.neighbortid = some n →
    n.version = e.version
  count : ∀ {t e n}, idx.elem? t = some e → idx.neigh? e.neighbortid = some n →
    n.count = (e.level + 2) * idx.metap.m
  packed : ∀ {t e n lc}, idx.elem? t = some e → idx.neigh? e.neighbortid = some n → lc ≤ e.level →
    Packed (segment idx.metap.m e.level lc n.indextids)

/-- The elements the layer-`lc` slots of the element at `t` name. -/
def layerLinks (idx : Index V) (lc : Nat) (t : ItemPointer) : List ItemPointer :=
  match idx.elem? t with
  | none => []
  | some e =>
      match idx.neigh? e.neighbortid with
      | none => []
      | some n => (segment idx.metap.m e.level lc n.indextids).filter (·.isValid)

/-- The heap TIDs of the element at `t`. -/
def heapTids (idx : Index V) (t : ItemPointer) : List ItemPointer :=
  match idx.elem? t with
  | none => []
  | some e => e.tids

theorem layerLinks_elem {idx : Index V} (h : idx.Linked) {lc : Nat} {t u : ItemPointer}
    (hu : u ∈ idx.layerLinks lc t) : ∃ f, idx.elem? u = some f := by
  unfold layerLinks at hu
  split at hu
  · cases hu
  · rename_i e he
    split at hu
    · cases hu
    · rename_i n hn
      obtain ⟨hs, hv⟩ := List.mem_filter.mp hu
      exact h.link he hn u (mem_segment hs) hv

/-! ## 3. All TIDs in use -/

/-- The TIDs of all items of the index. -/
def tids (idx : Index V) : List ItemPointer :=
  (List.range' 1 idx.pages.length).flatMap fun b =>
    match idx.page? b with
    | none => []
    | some p => p.offsets.map fun o => ⟨b, o⟩

theorem mem_tids {idx : Index V} {t : ItemPointer} {x : PageItem (HnswItem V)}
    (h : idx.slot? t = some x) : t ∈ idx.tids := by
  unfold slot? at h
  split at h
  · cases h
  · rename_i p hp
    obtain ⟨h1, h2⟩ := page?_pos hp
    obtain ⟨h3, h4⟩ := Page.slot?_isSome h
    refine List.mem_flatMap.mpr ⟨t.blkno, List.mem_range'_1.mpr ⟨h1, by omega⟩, ?_⟩
    rw [hp]
    refine List.mem_map.mpr ⟨t.offno, List.mem_range'_1.mpr ⟨h3, ?_⟩, rfl⟩
    simp only [Page.PageGetMaxOffsetNumber]
    omega

theorem elem?_mem_tids {idx : Index V} {t : ItemPointer} {e : HnswElementTuple V}
    (h : idx.elem? t = some e) : t ∈ idx.tids := by
  rw [elem?_eq_some, item?_eq_slot?, Option.map_eq_some_iff] at h
  obtain ⟨x, hx, _⟩ := h
  exact mem_tids hx

end Index

/-! ## 4. A small index -/

/-- Distances between numbers. -/
def numberSupport : HnswSupport Nat Nat where
  distance a b := (a - b) + (b - a)
  zeroDistance := 0
  toFloat := id
  varsize _ := 8
  zeroDatum := 0

/-- A page with two elements of level 0 and their neighbor tuples, each naming the other. -/
def pairPage : HnswPage Nat where
  page :=
    { items :=
        [⟨.element (HnswSetElementTuple 0 1 [⟨7, 1⟩, ⟨7, 2⟩] 10 ⟨1, 2⟩), 80⟩,
          ⟨.neighbor (HnswSetNeighborTuple 0 1 2 fun _ => [⟨1, 3⟩]), 32⟩,
          ⟨.element (HnswSetElementTuple 0 1 [⟨7, 3⟩] 20 ⟨1, 4⟩), 80⟩,
          ⟨.neighbor (HnswSetNeighborTuple 0 1 2 fun _ => [⟨1, 1⟩]), 32⟩]
      pd_special := 8184
      fits := by decide }
  nextblkno := none

/-- An index of that page; the first element is the entry point. -/
def pairIndex : Index Nat := ⟨⟨2, some ⟨1, 1, 0⟩, some 1⟩, [pairPage]⟩

theorem pairIndex_elem {t : ItemPointer} {e : HnswElementTuple Nat} (h : pairIndex.elem? t = some e) :
    (t = ⟨1, 1⟩ ∧ e = HnswSetElementTuple 0 1 [⟨7, 1⟩, ⟨7, 2⟩] 10 ⟨1, 2⟩) ∨
    (t = ⟨1, 3⟩ ∧ e = HnswSetElementTuple 0 1 [⟨7, 3⟩] 20 ⟨1, 4⟩) := by
  have ht : t ∈ pairIndex.tids := Index.elem?_mem_tids h
  have htids : pairIndex.tids = [⟨1, 1⟩, ⟨1, 2⟩, ⟨1, 3⟩, ⟨1, 4⟩] := rfl
  rw [htids] at ht
  simp only [List.mem_cons, List.not_mem_nil, or_false] at ht
  rcases ht with rfl | rfl | rfl | rfl
  · exact Or.inl ⟨rfl, (Option.some.inj h).symm⟩
  · cases h
  · exact Or.inr ⟨rfl, (Option.some.inj h).symm⟩
  · cases h

theorem pairIndex_linked : pairIndex.Linked where
  ntup h := by
    rcases pairIndex_elem h with ⟨rfl, rfl⟩ | ⟨rfl, rfl⟩
    · exact ⟨_, rfl⟩
    · exact ⟨_, rfl⟩
  owner h h' hn := by
    rcases pairIndex_elem h with ⟨rfl, rfl⟩ | ⟨rfl, rfl⟩ <;>
      rcases pairIndex_elem h' with ⟨rfl, rfl⟩ | ⟨rfl, rfl⟩
    · rfl
    · exact absurd hn (by decide)
    · exact absurd hn (by decide)
    · rfl
  link h hn x hx hv := by
    rcases pairIndex_elem h with ⟨rfl, rfl⟩ | ⟨rfl, rfl⟩
    · cases hn
      have hx' : ∀ x ∈ (HnswSetNeighborTuple 0 1 2 fun _ => [⟨1, 3⟩]).indextids,
          x.isValid = true → x = ⟨1, 3⟩ := by decide
      obtain rfl := hx' x hx hv
      exact ⟨_, rfl⟩
    · cases hn
      have hx' : ∀ x ∈ (HnswSetNeighborTuple 0 1 2 fun _ => [⟨1, 1⟩]).indextids,
          x.isValid = true → x = ⟨1, 1⟩ := by decide
      obtain rfl := hx' x hx hv
      exact ⟨_, rfl⟩
  entry h := by
    cases h
    exact ⟨_, rfl⟩

theorem pairIndex_shaped : pairIndex.Shaped where
  version h hn := by
    rcases pairIndex_elem h with ⟨rfl, rfl⟩ | ⟨rfl, rfl⟩ <;> (cases hn; rfl)
  count h hn := by
    rcases pairIndex_elem h with ⟨rfl, rfl⟩ | ⟨rfl, rfl⟩ <;> (cases hn; rfl)
  packed {t e n lc} h hn hl := by
    rcases pairIndex_elem h with ⟨rfl, rfl⟩ | ⟨rfl, rfl⟩
    · cases hn
      obtain rfl : lc = 0 := Nat.le_zero.mp hl
      exact ⟨[⟨1, 3⟩], [.invalid, .invalid, .invalid], by decide, by decide, by decide⟩
    · cases hn
      obtain rfl : lc = 0 := Nat.le_zero.mp hl
      exact ⟨[⟨1, 1⟩], [.invalid, .invalid, .invalid], by decide, by decide, by decide⟩

end Pgvec.Hnsw
