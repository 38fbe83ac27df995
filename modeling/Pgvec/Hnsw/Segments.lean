/-
  File:      Pgvec/Hnsw/Segments.lean
  Subject:   THE SEGMENTS OF A NEIGHBOR TUPLE: written by `HnswSetNeighborTuple`, read by
             `HnswLoadNeighborTids`, updated by `UpdateNeighborOnDisk`.

  The slots of layer `lc` start at `(level - lc) * m` and are `HnswGetLayerM m lc` many.

  * `segments_apart` -- a slot of one layer is no slot of another one;
  * `SegmentUpdate` -- a tuple changed in at most one slot, which belongs to one layer;
    `segmentUpdate_of_index` -- what `UpdateNeighborOnDisk` writes for an index of the layer or a free slot;
  * `all_getUpdateIndex` -- the answers of `GetUpdateIndex`, whatever it reads;
  * `SegmentStep` -- a step that changes nothing but one neighbor tuple, and that in one segment;
    `all_updateOneNeighbor` -- every step of a connection update is one;
  * **`neighbor_segments`** -- writer, reader and updater agree on the segments.
-/
import Pgvec.Hnsw.Lookup
import Pgvec.Hnsw.SearchLogic

namespace Pgvec.Hnsw

open Conc

variable {V δ : Type}

/-! ## 1. One slot of one segment -/

/-- **The segments of two layers do not overlap.** -/
theorem segments_apart {level m lc lc' i : Nat} (h : lc ≤ level) (h' : lc' ≤ level) (hne : lc' ≠ lc)
    (h1 : (level - lc) * m ≤ i) (h2 : i < (level - lc) * m + HnswGetLayerM m lc) :
    i < (level - lc') * m ∨ (level - lc') * m + HnswGetLayerM m lc' ≤ i := by
  rcases Nat.lt_or_gt_of_ne hne with hlt | hgt
  · -- a lower layer stands further back
    refine Or.inl ?_
    have hle : (level - lc + 1) * m ≤ (level - lc') * m := Nat.mul_le_mul_right m (by omega)
    rw [HnswGetLayerM, if_neg (by omega)] at h2
    rw [Nat.add_mul] at hle
    omega
  · refine Or.inr ?_
    have hle : (level - lc' + 1) * m ≤ (level - lc) * m := Nat.mul_le_mul_right m (by omega)
    rw [HnswGetLayerM, if_neg (by omega)]
    rw [Nat.add_mul] at hle
    omega

/-- **At most one slot is changed, a slot of layer `lc`**; the slots of every other layer are read as
    before. -/
structure SegmentUpdate (level m lc : Nat) (newTid : ItemPointer) (n n' : HnswNeighborTuple) : Prop where
  version : n'.version = n.version
  count : n'.count = n.count
  slot : n' = n ∨ ∃ j < HnswGetLayerM m lc,
    n'.indextids = n.indextids.set ((level - lc) * m + j) newTid
  others : ∀ lc' ≤ level, lc' ≠ lc → ∀ version,
    neighborTids n' level version m (HnswGetLayerM m lc') lc' =
      neighborTids n level version m (HnswGetLayerM m lc') lc'

theorem SegmentUpdate.refl (level m lc : Nat) (newTid : ItemPointer) (n : HnswNeighborTuple) :
    SegmentUpdate level m lc newTid n n :=
  ⟨rfl, rfl, Or.inl rfl, fun _ _ _ _ => rfl⟩

/-- A slot set outside of a stretch leaves the stretch as it is. -/
theorem take_drop_set {α : Type} (l : List α) (a : α) {i start len : Nat}
    (h : i < start ∨ start + len ≤ i) : ((l.set i a).drop start).take len = (l.drop start).take len := by
  rcases h with h | h
  · rw [List.drop_set_of_lt h]
  · rw [List.drop_set, if_neg (by omega), List.take_set_of_le (by omega)]

theorem segmentUpdate_set {level m lc j : Nat} (n : HnswNeighborTuple) (newTid : ItemPointer)
    (hlc : lc ≤ level) (hj : j < HnswGetLayerM m lc) :
    SegmentUpdate level m lc newTid n
      { n with indextids := n.indextids.set ((level - lc) * m + j) newTid } where
  version := rfl
  count := List.length_set
  slot := Or.inr ⟨j, hj, rfl⟩
  others lc' hlc' hne version := by
    unfold neighborTids HnswNeighborTuple.count
    rw [List.length_set]
    simp only
    rw [take_drop_set _ _ (segments_apart hlc hlc' hne (Nat.le_add_right _ j) (by omega))]

/-- **`UpdateNeighborOnDisk` on a tuple**, for a free slot or for a slot number of the layer. -/
theorem segmentUpdate_of_index (n : HnswNeighborTuple) (u : NeighborUpdate) (hlc : u.lc ≤ u.level)
    (hlm : u.lm = HnswGetLayerM u.m u.lc) (hidx : u.idx = -2 ∨ ∃ j : Nat, u.idx = j ∧ j < u.lm) :
    SegmentUpdate u.level u.m u.lc u.newTid n ((updateNeighborTuple n u).getD n) := by
  have hslot : updateSlot n u < 0 ∨
      ∃ j < HnswGetLayerM u.m u.lc, updateSlot n u = ((u.level - u.lc) * u.m + j : Nat) := by
    unfold updateSlot
    simp only
    split
    · exact Or.inl (by decide)
    · split
      · rename_i h2
        split
        · rename_i j hj
          -- a free slot of the segment
          refine Or.inr ⟨j, ?_, by push_cast; rfl⟩
          have hlt := (List.findIdx?_eq_some_iff_findIdx_eq.mp hj).1
          have := List.length_take_le u.lm (n.indextids.drop ((u.level - u.lc) * u.m))
          omega
        · exact Or.inl (by rw [h2]; decide)
      · rename_i h2
        obtain ⟨j, hj, hlt⟩ := hidx.resolve_left h2
        exact Or.inr ⟨j, by omega, by rw [hj]; push_cast; omega⟩
  unfold updateNeighborTuple
  simp only
  split
  · rename_i hb
    rcases hslot with hneg | ⟨j, hj, he⟩
    · omega
    · rw [he, Option.getD_some, Int.toNat_natCast]
      exact segmentUpdate_set n u.newTid hlc hj
  · exact SegmentUpdate.refl _ _ _ _ n

/-! ## 2. The index to update -/

/-- The operations of a search: an element tuple or a neighbor tuple is read. -/
def OnlyReads : Op V → Prop
  | .page (.loadElement _ _) => True
  | .page (.readNeighborTuple _) => True
  | _ => False

theorem OnlyReads.step {o : Op V} (h : OnlyReads o) (t : Nat) (s : St V) :
    ∃ resp, (hnswMachine V).exec t o s = some ⟨[], s, resp⟩ := by
  cases o with
  | page o =>
      cases o with
      | loadElement tid l => exact ⟨_, rfl⟩
      | readNeighborTuple ntid => exact ⟨_, rfl⟩
      | _ => exact h.elim
  | _ => exact h.elim

section Update

variable [LinearOrder δ]

theorem all_loadElementsForInsert (rel : HnswRel V δ) (q : Option V) (addr : Nat → Nat) :
    ∀ (tids : List ItemPointer) (i : Nat) (loaded : List (HnswCandidate (HnswElement V) δ)),
      All OnlyReads (fun r : Int × List (HnswCandidate (HnswElement V) δ) =>
        r.1 = -1 ∧ r.2.length = loaded.length + tids.length ∨ ∃ j : Nat, r.1 = j ∧ j < i + tids.length)
        (LoadElementsForInsert rel q addr tids i loaded)
  | [], _, _ => Or.inl ⟨rfl, rfl⟩
  | u :: tids, i, loaded => by
      unfold LoadElementsForInsert HnswLoadElementImpl
      refine ⟨trivial, fun r => ?_⟩
      cases r with
      | none => trivial
      | some etup =>
          simp only [loadWithDistance, Prog.bind]
          split
          · refine Or.inr ⟨i, rfl, ?_⟩
            simp only [List.length_cons]
            omega
          · refine (all_loadElementsForInsert rel q addr tids (i + 1) _).mono (fun _ h => h) ?_
            intro r h
            simp only [List.length_append, List.length_cons, List.length_nil] at h ⊢
            rcases h with ⟨h1, h2⟩ | ⟨j, h1, h2⟩
            · exact Or.inl ⟨h1, by omega⟩
            · exact Or.inr ⟨j, h1, by omega⟩

/-- The part of `GetUpdateIndex` after the TIDs of the layer were read. -/
theorem all_chooseSlot (rel : HnswRel V δ) (element newElement : HnswElement V) (distance : δ)
    (lm lc : Nat) {tids : List ItemPointer} (hlen : tids.length ≤ lm) :
    All OnlyReads (fun i : Int => i = -2 ∨ i = -1 ∨ ∃ j : Nat, i = j ∧ j < lm)
      (if tids.length < lm then pure (-2) else do
        let (idx, loaded) ← LoadElementsForInsert rel element.value
          (rel.palloc element.tid newElement.tid lc) tids 0 []
        if idx ≠ -1 then return idx
        else
          return (HnswUpdateConnection HnswElement.ptr
            (fun a b => valueDistance rel.support a.value b.value) ⟨loaded, false⟩
            { newElement with ptr := rel.palloc element.tid newElement.tid lc 0 } distance lm).2) := by
  split
  · exact Or.inl rfl
  · refine All.bind ((all_loadElementsForInsert rel element.value _ tids 0 []).mono (fun _ h => h) ?_)
    intro ⟨i, loaded⟩ h
    simp only [List.length_nil] at h
    simp only
    split
    · rename_i hne
      -- the index of an element being deleted
      rcases h with ⟨h1, _⟩ | ⟨j, h1, h2⟩
      · exact absurd h1 hne
      · exact Or.inr (Or.inr ⟨j, h1, by omega⟩)
    · rename_i he
      have hll : loaded.length ≤ lm := by
        rcases h with ⟨_, h2⟩ | ⟨j, h1, _⟩
        · omega
        · have := not_not.mp he
          omega
      rcases updateConnection_index HnswElement.ptr
        (fun a b => valueDistance rel.support a.value b.value) ⟨loaded, false⟩
        { newElement with ptr := rel.palloc element.tid newElement.tid lc 0 } distance lm with
        h | h | ⟨j, hj, h⟩
      · exact Or.inl h
      · exact Or.inr (Or.inl h)
      · exact Or.inr (Or.inr ⟨j, h, Nat.lt_of_lt_of_le hj hll⟩)

/-- **`GetUpdateIndex`** answers -2, -1 or a slot number of the layer, and writes nothing. -/
theorem all_getUpdateIndex (rel : HnswRel V δ) (element newElement : HnswElement V) (distance : δ)
    (m lm lc : Nat) : All OnlyReads (fun i : Int => i = -2 ∨ i = -1 ∨ ∃ j : Nat, i = j ∧ j < lm)
      (GetUpdateIndex rel element newElement distance m lm lc) := by
  unfold GetUpdateIndex HnswLoadNeighborTids
  refine ⟨trivial, fun r => ?_⟩
  cases r with
  | none => trivial
  | some ntup =>
      simp only [Prog.bind]
      cases hl : neighborTids ntup element.level element.version m lm lc with
      | none => exact all_chooseSlot rel element newElement distance lm lc (Nat.zero_le lm)
      | some l =>
          exact all_chooseSlot rel element newElement distance lm lc
            ((List.Sublist.length_le (List.takeWhile_sublist _)).trans (length_neighborTids hl))

/-! ## 3. One connection update -/

/-- **A step in one segment**: nothing is changed, or one slot of the layer in the neighbor tuple at
    `ntid`; every other item stays as it is. -/
def SegmentStep (ntid : ItemPointer) (level m lc : Nat) (newTid : ItemPointer) (idx idx' : Index V) :
    Prop :=
  idx' = idx ∨ ∃ n n', idx.neigh? ntid = some n ∧ SegmentUpdate level m lc newTid n n' ∧
    idx'.metap = idx.metap ∧
    ∀ u, idx'.item? u = if u = ntid then some (.neighbor n') else idx.item? u

theorem segmentStep_update (u : NeighborUpdate) (hlc : u.lc ≤ u.level)
    (hlm : u.lm = HnswGetLayerM u.m u.lc) (hidx : u.idx = -2 ∨ ∃ j : Nat, u.idx = j ∧ j < u.lm)
    (idx : Index V) :
    SegmentStep u.ntid u.level u.m u.lc u.newTid idx ((execPage (.updateNeighbor u) idx).final idx) := by
  cases hn : idx.neigh? u.ntid with
  | none =>
      refine Or.inl ?_
      simp only [execPage, hn]
      rfl
  | some n =>
      have hseg := segmentUpdate_of_index n u hlc hlm hidx
      cases hu : updateNeighborTuple n u with
      | none =>
          refine Or.inl ?_
          simp only [execPage, hn, hu]
          rfl
      | some n' =>
          rw [hu] at hseg
          refine Or.inr ⟨n, n', hn, hseg, ?_, fun v => ?_⟩ <;> simp only [execPage, hn, hu]
          · exact (Index.same_modifyItem _).metap
          · show (idx.modifyItem u.ntid fun _ => .neighbor n').item? v = _
            rw [Index.item?_eq_slot?, Index.slot?_modifyItem]
            split
            · rename_i e
              obtain ⟨it, hit, _⟩ := Option.map_eq_some_iff.mp
                ((Index.item?_eq_slot? idx u.ntid).symm.trans (Index.neigh?_eq_some.mp hn))
              rw [e, hit]
              rfl
            · rw [Index.item?_eq_slot?]

/-- **Every step of a connection update stays in the segment**; with -1 nothing is updated. -/
theorem all_updateOneNeighbor (rel : HnswRel V δ) (e : HnswElement V) {m lc : Nat} (checkExisting : Bool)
    (hc : HnswCandidate (HnswElement V) δ) (hlc : lc ≤ hc.element.level) :
    All (fun o => ∀ t s r, (hnswMachine V).exec t o s = some r →
        SegmentStep hc.element.neighbortid hc.element.level m lc e.tid s.index r.final.index)
      (fun _ => True) (updateOneNeighbor rel e m lc checkExisting hc) := by
  unfold updateOneNeighbor
  refine All.bind ((all_getUpdateIndex rel hc.element e hc.distance m _ lc).mono ?_ ?_)
  · intro o ho t s r hr
    obtain ⟨resp, hx⟩ := ho.step t s
    rw [hx] at hr
    cases hr
    exact Or.inl rfl
  · intro i hi
    split
    · trivial
    · rename_i hne
      refine ⟨fun t s r hr => ?_, fun _ => trivial⟩
      rw [exec_page] at hr
      cases hr
      exact segmentStep_update ⟨hc.element.neighbortid, hc.element.level, e.tid, i, m,
        HnswGetLayerM m lc, lc, checkExisting⟩ hlc rfl (hi.imp id fun h => h.resolve_left hne) s.index

/-- **Writer, reader and updater agree on the segments.** For an element of level `level` with neighbor
    arrays that fit: all `(level + 2) * m` slots are written; what is read for a layer are its TIDs, padded
    with invalid ones; an index of `GetUpdateIndex` other than -1, for which the caller updates nothing,
    changes at most one slot of any tuple, and that in the segment of the layer. -/
theorem neighbor_segments (rel : HnswRel V δ) (level version m : Nat) (nb : Nat → List ItemPointer)
    (hnb : ∀ lc ≤ level, (nb lc).length ≤ HnswGetLayerM m lc) :
    (HnswSetNeighborTuple level version m nb).count = (level + 2) * m ∧
    ∀ lc ≤ level,
      (∀ (t : Nat) (s : St V) (element : HnswElement V),
        element.level = level → element.version = version →
        s.index.neigh? element.neighbortid = some (HnswSetNeighborTuple level version m nb) →
        run (hnswMachine V) t (HnswLoadNeighborTids element m (HnswGetLayerM m lc) lc) s =
          some (some (nb lc ++ List.replicate (HnswGetLayerM m lc - (nb lc).length) .invalid), s)) ∧
      (∀ (element newElement : HnswElement V) (distance : δ) (checkExisting : Bool),
        element.level = level →
        All OnlyReads (fun i : Int => i = -1 ∨ ∀ n, SegmentUpdate level m lc newElement.tid n
            ((updateNeighborTuple n ⟨element.neighbortid, level, newElement.tid, i, m,
              HnswGetLayerM m lc, lc, checkExisting⟩).getD n))
          (GetUpdateIndex rel element newElement distance m (HnswGetLayerM m lc) lc)) ∧
      ∀ (e : HnswElement V) (checkExisting : Bool) (hc : HnswCandidate (HnswElement V) δ),
        hc.element.level = level →
        All (fun o => ∀ t s r, (hnswMachine V).exec t o s = some r →
            SegmentStep hc.element.neighbortid level m lc e.tid s.index r.final.index)
          (fun _ => True) (updateOneNeighbor rel e m lc checkExisting hc) := by
  refine ⟨neighborSlots_length m nb level, fun lc hlc => ⟨?_, ?_, ?_⟩⟩
  · intro t s element hl hv hn
    have hread : (hnswMachine V).exec t (.page (.readNeighborTuple element.neighbortid)) s =
        some ⟨[], s, some (HnswSetNeighborTuple level version m nb)⟩ := by
      rw [exec_page]
      simp only [execPage, hn]
      rfl
    unfold HnswLoadNeighborTids
    rw [run_op _ _ hread]
    simp only [run_ret, hl, hv]
    rw [neighborTids_set m version nb hlc, padTids, List.take_of_length_le (hnb lc hlc)]
  · intro element newElement distance checkExisting hl
    refine (all_getUpdateIndex rel element newElement distance m _ lc).mono (fun _ h => h) ?_
    intro i hi
    by_cases h1 : i = -1
    · exact Or.inl h1
    · exact Or.inr fun n => segmentUpdate_of_index n ⟨element.neighbortid, level, newElement.tid, i, m,
        HnswGetLayerM m lc, lc, checkExisting⟩ hlc rfl (hi.imp id fun h => h.resolve_left h1)
  · intro e checkExisting hc hl
    subst hl
    exact all_updateOneNeighbor rel e checkExisting hc hlc

/-- The neighbors of an element of level 1: the upper layer is full for `m = 2`, the ground layer is not. -/
def layersNeighbors (lc : Nat) : List ItemPointer := if lc = 0 then [⟨1, 3⟩] else [⟨1, 3⟩, ⟨1, 5⟩]

/-- Three elements of level 1; the first one names the others. -/
def layersIndex : Index Nat :=
  ⟨⟨2, some ⟨1, 1, 1⟩, some 1⟩, [
    { page :=
        { items :=
            [⟨.element (HnswSetElementTuple 1 1 [⟨7, 1⟩] 10 ⟨1, 2⟩), 80⟩,
              ⟨.neighbor (HnswSetNeighborTuple 1 1 2 layersNeighbors), 48⟩,
              ⟨.element (HnswSetElementTuple 1 1 [⟨7, 2⟩] 20 ⟨1, 4⟩), 80⟩,
              ⟨.neighbor (HnswSetNeighborTuple 1 1 2 fun _ => [⟨1, 1⟩]), 48⟩,
              ⟨.element (HnswSetElementTuple 1 1 [⟨7, 3⟩] 30 ⟨1, 6⟩), 80⟩,
              ⟨.neighbor (HnswSetNeighborTuple 1 1 2 fun _ => [⟨1, 1⟩]), 48⟩]
          pd_special := 8184
          fits := by decide }
      nextblkno := none }]⟩

/-- The first element, and a new one close to it that is to become its neighbor. -/
def layersElement : HnswElement Nat := ⟨1, 1, 1, false, 1, [⟨7, 1⟩], 1, 2, some 10, 0⟩

def layersNew : HnswElement Nat := ⟨1, 7, 1, false, 1, [⟨7, 4⟩], 1, 8, some 15, 0⟩

/-- **Both layers of that element.** The reader finds two TIDs on the upper layer and one on the ground
    layer; for the new element the updater takes the second slot of the upper layer, and the first free one
    of the ground layer. -/
theorem neighbor_segments_two_layers :
    let rel : HnswRel Nat Nat :=
      ⟨⟨fun a b => (a - b) + (b - a), 0, id, fun _ => 8, 0⟩, 40, none, id, fun _ _ _ n => n⟩
    let n := HnswSetNeighborTuple 1 1 2 layersNeighbors
    let s : St Nat := ⟨layersIndex, [], .idle⟩
    n.count = 6 ∧
    run (hnswMachine Nat) 0 (HnswLoadNeighborTids layersElement 2 2 1) s =
      some (some [⟨1, 3⟩, ⟨1, 5⟩], s) ∧
    run (hnswMachine Nat) 0 (HnswLoadNeighborTids layersElement 2 4 0) s =
      some (some [⟨1, 3⟩, .invalid, .invalid, .invalid], s) ∧
    SegmentUpdate 1 2 1 ⟨1, 7⟩ n
      { n with indextids := [⟨1, 3⟩, ⟨1, 7⟩, ⟨1, 3⟩, .invalid, .invalid, .invalid] } ∧
    SegmentUpdate 1 2 0 ⟨1, 7⟩ n
      { n with indextids := [⟨1, 3⟩, ⟨1, 5⟩, ⟨1, 3⟩, ⟨1, 7⟩, .invalid, .invalid] } ∧
    ∃ s', run (hnswMachine Nat) 0 (updateOneNeighbor rel layersNew 2 1 false ⟨layersElement, 5, false⟩) s =
        some ((), s') ∧
      Relation.ReflTransGen (SegmentStep ⟨1, 2⟩ 1 2 1 ⟨1, 7⟩) layersIndex s'.index ∧
      s'.index.neigh? ⟨1, 2⟩ =
        some { n with indextids := [⟨1, 3⟩, ⟨1, 7⟩, ⟨1, 3⟩, .invalid, .invalid, .invalid] } := by
  intro rel n s
  obtain ⟨hcount, hseg⟩ := neighbor_segments rel 1 1 2 layersNeighbors (by decide)
  obtain ⟨hread1, hidx1, hstep1⟩ := hseg 1 (by decide)
  obtain ⟨hread0, hidx0, _⟩ := hseg 0 (by decide)
  -- what holds of every answer of `GetUpdateIndex` holds of the one it gives here
  have hop : ∀ o : Op Nat, OnlyReads o → ∀ a : St Nat, True → ∀ r, (hnswMachine Nat).exec 0 o a = some r →
      True ∧ ∀ c ∈ r.commits, True := fun _ _ _ _ _ _ => ⟨trivial, fun _ _ => trivial⟩
  have hi1 : ((run (hnswMachine Nat) 0 (GetUpdateIndex rel layersElement layersNew 5 2 2 1) s).map
      Prod.fst) = some 1 := by decide +kernel
  have hi0 : ((run (hnswMachine Nat) 0 (GetUpdateIndex rel layersElement layersNew 5 2 4 0) s).map
      Prod.fst) = some (-2) := by decide +kernel
  obtain ⟨⟨i1, s1⟩, hr1, rfl⟩ := Option.map_eq_some_iff.mp hi1
  obtain ⟨⟨i0, s0⟩, hr0, rfl⟩ := Option.map_eq_some_iff.mp hi0
  have hu1 := (((hidx1 layersElement layersNew 5 false rfl).alone hop trivial).1 _ hr1).1.resolve_left
    (show ¬ (1 : Int) = -1 by decide) n
  have hu0 := (((hidx0 layersElement layersNew 5 false rfl).alone hop trivial).1 _ hr0).1.resolve_left
    (show ¬ (-2 : Int) = -1 by decide) n
  have hfin : ((run (hnswMachine Nat) 0
      (updateOneNeighbor rel layersNew 2 1 false ⟨layersElement, 5, false⟩) s).map
      fun r => r.2.index.neigh? ⟨1, 2⟩) = some (some
        { n with indextids := [⟨1, 3⟩, ⟨1, 7⟩, ⟨1, 3⟩, .invalid, .invalid, .invalid] }) := by
    decide +kernel
  obtain ⟨⟨_, s'⟩, hr', hn'⟩ := Option.map_eq_some_iff.mp hfin
  have hs' := ((hstep1 layersNew false ⟨layersElement, 5, false⟩ rfl).alone (C := fun _ => True)
    (I := fun a : St Nat => Relation.ReflTransGen (SegmentStep ⟨1, 2⟩ 1 2 1 ⟨1, 7⟩) layersIndex a.index)
    (fun o ho a ha r hr => ⟨ha.tail (ho 0 a r hr), fun _ _ => trivial⟩) .refl).1 _ hr'
  exact ⟨hcount, hread1 0 s layersElement rfl rfl rfl, hread0 0 s layersElement rfl rfl rfl, hu1, hu0,
    s', hr', hs'.2, hn'⟩

end Update

end Pgvec.Hnsw
