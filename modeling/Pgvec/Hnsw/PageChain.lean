/-
  File:      Pgvec/Hnsw/PageChain.lean
  Subject:   THE PAGE CHAIN OVER A SEQUENCE OF CALLS, and that every call comes to an end.

  * `flushPages_built` -- the pages a flush leaves are a chain without marked elements;
  * `DiskCall`, `Serial` -- on-disk inserts and vacuums one after the other, failed ones included;
  * `Serial.chained`, `Serial.released` -- between them the pages are a chain, and nobody holds a page lock;
  * `DiskCall.ends` -- so the next one ends;
  * `buildGraph_keeps` -- a build is a flush and inserts;
  * **`page_chain`** -- the chain, the loops that follow it and the calls, after every sequence of calls.
-/
import Pgvec.Hnsw.CallEnds
import Pgvec.Hnsw.FlushFacts
import Pgvec.Hnsw.Released
import Pgvec.Lib.Except

namespace Pgvec.Hnsw

open Conc Storage

variable {V δ : Type}

/-! ## 1. The flush -/

section Flush

variable {idx idx' : Index V} {varsize : V → Nat} {m : Nat}

theorem buildAppendPage_kept (h : idx.Chained) : Kept idx (HnswBuildAppendPage idx) := by
  obtain ⟨p, hp⟩ := h.last
  exact append_kept (b := idx.pages.length) hp fun _ => rfl

theorem addPredicted_kept {it : HnswItem V} {size offno : Nat} (h : addPredicted idx it size offno = .ok idx')
    (hit : ∀ e, it = .element e → e.deleted = false) : Kept idx idx' := by
  unfold addPredicted at h
  split at h
  · cases h
  · rename_i i off hadd
    split at h
    · cases h
    · cases h
      refine .of_same (Index.same_addItem hadd) fun u ⟨e, he, hd⟩ => ?_
      have hs := Index.slot?_addItem hadd u
      split at hs
      · rw [Index.elem?_eq_some, Index.item?_eq_slot?, hs] at he
        rw [hit e (Option.some.inj he)] at hd
        cases hd
      · rw [Index.elem?_slot_congr hs] at he
        exact ⟨e, he, hd⟩

/-- One element of `CreateGraphPages`. -/
theorem createElementPages_kept {e : MemElement V δ} {loc : Location} (hc : idx.Chained)
    (h : createElementPages varsize m idx e = .ok (idx', loc)) : Kept idx idx' := by
  have hpage : ∀ (i j : Index V), i.Chained → (j = i ∨ j = HnswBuildAppendPage i) → Kept i j := by
    rintro i j hi (rfl | rfl)
    · exact .refl _
    · exact buildAppendPage_kept hi
  unfold createElementPages at h
  simp only at h
  split at h
  · cases h
  · have h0 : Kept idx (elementPage idx (HNSW_ELEMENT_TUPLE_SIZE (varsize e.value))
        (HNSW_ELEMENT_TUPLE_SIZE (varsize e.value) + HNSW_NEIGHBOR_TUPLE_SIZE e.level m +
          sizeofItemIdData)) := by
      refine hpage _ _ hc ?_
      unfold elementPage
      split
      · exact Or.inr rfl
      · exact Or.inl rfl
    obtain ⟨i1, h1, h⟩ := Except.bind_eq_ok.mp h
    have k1 := addPredicted_kept h1 fun f hf => by
      cases hf
      rfl
    obtain ⟨i2, h2, h⟩ := Except.bind_eq_ok.mp h
    cases h
    refine ((h0.trans k1).trans (hpage i1 _ (k1.chained (h0.chained hc)) ?_)).trans
      (addPredicted_kept h2 fun f hf => by cases hf)
    split
    · exact Or.inr rfl
    · exact Or.inl rfl

theorem createPagesLoop_kept : ∀ (es : List (MemElement V δ)) {idx idx' : Index V} {locs : List Location},
    idx.Chained → createPagesLoop varsize m es idx = .ok (idx', locs) → Kept idx idx'
  | [], idx, idx', locs, _, h => by
      cases h
      exact .refl idx
  | e :: es, idx, idx', locs, hc, h => by
      obtain ⟨⟨i1, loc⟩, h1, h⟩ := Except.bind_eq_ok.mp h
      obtain ⟨⟨i2, locs'⟩, h2, h⟩ := Except.bind_eq_ok.mp h
      cases h
      have k1 := createElementPages_kept hc h1
      exact k1.trans (createPagesLoop_kept es (k1.chained hc) h2)

/-- The index a build leaves: a chain without marked elements, the insert page being the last one. -/
structure Built (idx : Index V) : Prop where
  chained : idx.Chained
  unmarked : ∀ t, ¬ idx.Deleted t
  insertPage : idx.metap.insertPage = some idx.pages.length

/-- **A flush that raises no error.** -/
theorem flushPages_built {g : HnswGraph V δ} {locs : List Location}
    (h : FlushPages varsize m g = .ok (idx, locs)) : Built idx := by
  obtain ⟨⟨i1, locs1⟩, h1, h⟩ := Except.bind_eq_ok.mp h
  obtain ⟨i2, h2, h⟩ := Except.bind_eq_ok.mp h
  cases h
  obtain ⟨⟨i0, locs0⟩, h0, h1⟩ := Except.bind_eq_ok.mp h1
  cases h1
  have hfirst : Created varsize m ([] : List (MemElement V δ × Location)) (prepareFirstPage (CreateMetaPage m)) :=
    created_first
  have k0 := createPagesLoop_kept _ hfirst.chained h0
  have hc := k0.chained hfirst.chained
  have hnone : ∀ t, ¬ i0.Deleted t := by
    intro t ht
    obtain ⟨f, hf, _⟩ := k0.deleted t ht
    obtain ⟨len, hl⟩ := Index.elem?_eq_slot?.mp hf
    obtain ⟨x, hx, _⟩ := hfirst.only hl
    cases hx
  -- the neighbor tuples take the place of their blanks
  unfold WriteNeighborTuples at h2
  refine Except.foldlM_ok (I := Built) (fun i x i' hi hw => ?_) _ ?_ h2
  case refine_2 => exact ⟨hc.metap _, fun t ht => hnone t ht, rfl⟩
  obtain ⟨o, ho, hw⟩ := Except.bind_eq_ok.mp hw
  cases o with
  | none => cases hw
  | some i'' =>
      cases hw
      have hk := overwriteItem_kept ho fun f hf => by cases hf
      have hs := Index.same_overwriteItem ho
      exact ⟨hk.chained hi.chained, fun t ht => hi.unmarked t (hk.deleted t ht), by
        rw [hs.metap, hs.length]
        exact hi.insertPage⟩

end Flush

/-! ## 2. Calls one after the other -/

section Calls

variable [LinearOrder δ] [DecidableEq V]

/-- A call that changes the index on disk, with what the code draws from outside. -/
inductive DiskCall (V : Type) : Type where
  | buildInsert (value : V) (heaptid : ItemPointer) (rnd budget : Nat)
  | insert (value : Option V) (heaptid : ItemPointer) (rnd budget : Nat)
  | bulkdelete (stats : Option IndexBulkDeleteResult) (callback : ItemPointer → Bool) (budget : Nat)

/-- The program of a call. -/
def DiskCall.prog (rel : HnswRel V δ) : DiskCall V → HnswProg V Unit
  | .buildInsert value heaptid rnd budget => HnswInsertTupleOnDisk rel value heaptid rnd budget
  | .insert value heaptid rnd budget => hnswinsert rel value heaptid rnd budget
  | .bulkdelete stats callback budget => discard <| hnswbulkdelete rel stats callback budget

/-- The budget of its loops. -/
def DiskCall.budget : DiskCall V → Nat
  | .buildInsert _ _ _ budget => budget
  | .insert _ _ _ budget => budget
  | .bulkdelete _ _ budget => budget

/-- **The states between calls** run one at a time from `s0`; a call may also raise an error. -/
inductive Serial (δ : Type) [LinearOrder δ] (s0 : St V) : St V → Prop where
  | start : Serial δ s0 s0
  | call {s s' : St V} (h : Serial δ s0 s) (rel : HnswRel V δ) (t : Nat) (c : DiskCall V)
      (hl : leaves (hnswMachine V) t (c.prog rel) s = some s') : Serial δ s0 s'

/-- **The pages stay a chain.** -/
theorem Serial.chained {s0 s : St V} (h : Serial δ s0 s) (h0 : s0.index.Chained) : s.index.Chained := by
  induction h with
  | start => exact h0
  | call h rel t c hl ih => exact (chained_alone (c.prog rel) t ih).2 _ hl

/-- A call leaves the holders of page locks as they were. -/
theorem DiskCall.moves (rel : HnswRel V δ) (c : DiskCall V) (t : Nat) (hs : List Holder) :
    Moves t (c.prog rel) hs hs := by
  cases c with
  | buildInsert value heaptid rnd budget => exact moves_insertTupleOnDisk rel budget value heaptid rnd
  | insert value heaptid rnd budget =>
      simp only [DiskCall.prog, hnswinsert]
      split
      · exact moves_ret ()
      · exact moves_insertTupleOnDisk rel budget _ heaptid rnd
  | bulkdelete stats callback budget =>
      exact (moves_bulkdelete rel budget stats callback).bind fun _ => moves_ret ()

/-- **Between calls nobody holds a page lock**: a call gives back what it took, and so does an error. -/
theorem Serial.released {s0 s : St V} (h : Serial δ s0 s) (hc : s0.index.Chained) (h0 : s0.holders = []) :
    s.holders = [] := by
  induction h with
  | start => exact h0
  | @call s s' h rel t c hl ih =>
      have hq : Quiet t s := ⟨h.chained hc, fun x hx => by
        rw [ih] at hx
        cases hx⟩
      rcases leaves_cases (I := Quiet t) (fun _ _ h _ hx => h.step hx) hq hl with ⟨a, hr⟩ | ⟨s1, hs1, rfl⟩
      · exact c.moves rel t [] s (a, s') ih hr
      · refine List.filter_eq_nil_iff.mpr fun x hx => ?_
        simp [hs1.alone x hx]

/-- **A call comes to an end** if its budget is beyond the pages, and beyond twice the tuples. -/
theorem DiskCall.ends (rel : HnswRel V δ) (c : DiskCall V) {t : Nat} {s : St V} (hs : Quiet t s)
    (hn : s.index.pages.length ≤ c.budget) (hb : 2 * s.index.tids.length < c.budget) :
    Ends (hnswMachine V) t (c.prog rel) s := by
  cases c with
  | buildInsert value heaptid rnd budget => exact insertTuple_ends rel value heaptid rnd hs hn hb
  | insert value heaptid rnd budget =>
      simp only [DiskCall.prog, hnswinsert]
      split
      · trivial
      · exact insertTuple_ends rel _ heaptid rnd hs hn hb
  | bulkdelete stats callback budget =>
      exact ends_then (bulkdelete_ends rel stats callback hs hn hb) hs fun _ _ _ => trivial

/-- What a flush leaves and an insert keeps, **the build leaves**. -/
theorem buildGraph_keeps {P : Index V → Prop} {mem : MemSpace} {rel : HnswRel V δ} {m budget : Nat}
    (hflush : ∀ {g : HnswGraph V δ} {idx locs}, FlushPages rel.support.varsize m g = .ok (idx, locs) → P idx)
    (hinsert : ∀ {i : Index V} (value : V) (tup : BuildTuple V) (r : Unit × St V), P i →
      run (hnswMachine V) 0 (HnswInsertTupleOnDisk rel value tup.tid tup.rnd budget) i.atRest = some r →
      P r.2.index) {ts : List (BuildTuple V)} {idx : Index V}
    (h : BuildGraph mem rel m budget ts = some idx) : P idx := by
  have hdisk : ∀ {i : Index V} {value : V} {tup : BuildTuple V} {b' : HnswBuildState V δ}, P i →
      insertOnDisk rel i value tup budget = some b' → ∀ j, b' = .flushed j → P j := by
    intro i value tup b' hi hx j hj
    obtain ⟨r, hr, rfl⟩ := Option.map_eq_some_iff.mp hx
    cases hj
    exact hinsert value tup r hi hr
  have hcall : ∀ {b b' : HnswBuildState V δ} {tup : BuildTuple V}, (∀ i, b = .flushed i → P i) →
      BuildCallback mem rel m budget b tup = some b' → ∀ i, b' = .flushed i → P i := by
    intro b b' tup hb hx
    unfold BuildCallback at hx
    split at hx
    · cases hx
      exact hb
    · split at hx
      · exact hdisk (hb _ rfl) hx
      · split at hx
        · split at hx
          · cases hx
          · rename_i hf
            exact hdisk (hflush hf) hx
        · obtain ⟨g, _, rfl⟩ := Option.map_eq_some_iff.mp hx
          exact fun i hi => by cases hi
  have hloop : ∀ (ts : List (BuildTuple V)) (b b' : HnswBuildState V δ),
      (∀ i, b = .flushed i → P i) → ts.foldlM (BuildCallback mem rel m budget) b = some b' →
      ∀ i, b' = .flushed i → P i := by
    intro ts
    induction ts with
    | nil =>
        intro b b' hb hx
        cases hx
        exact hb
    | cons tup ts ih =>
        intro b b' hb hx
        rw [List.foldlM_cons] at hx
        obtain ⟨b1, h1, hx⟩ := Option.bind_eq_some_iff.mp hx
        exact ih b1 b' (hcall hb h1) hx
  unfold BuildGraph at h
  obtain ⟨b, hb, h⟩ := Option.bind_eq_some_iff.mp h
  have hf := hloop ts _ b (fun i hi => by cases hi) hb
  split at h
  · cases h
    exact hf _ rfl
  · split at h
    · cases h
    · rename_i hx
      cases h
      exact hflush hx

end Calls
/-! ## 3. Every sequence of calls -/

section Main

variable [LinearOrder δ] [DecidableEq V]


/-- **The page chain.** After a flush and any on-disk inserts and vacuums one after the other, the next one
    comes to an end; and before it, and at every durable state during it, following `nextblkno` from the
    head passes every block but the metapage once and ends, and so the page loops end. -/
theorem page_chain {varsize : V → Nat} {m : Nat} {g : HnswGraph V δ} {idx : Index V}
    {locs : List Location} (hf : FlushPages varsize m g = .ok (idx, locs)) {s : St V}
    (hs : Serial δ idx.atRest s) (rel : HnswRel V δ) (t : Nat) (c : DiskCall V) :
    (s.index.pages.length ≤ c.budget → 2 * s.index.tids.length < c.budget →
      Ends (hnswMachine V) t (c.prog rel) s) ∧
    ∀ d ∈ s :: commits (hnswMachine V) t (c.prog rel) s,
      (∀ n, d.index.pages.length ≤ n →
        d.index.walk n (some HNSW_HEAD_BLKNO) = List.range' 1 d.index.pages.length) ∧
      ∀ (t' : Nat) (s' : St V), s'.index = d.index → LoopsEnd δ t' s' := by
  have h0 : s.index.Chained := hs.chained (flushPages_built hf).chained
  have hquiet : Quiet t s := ⟨h0, fun h hm => by
    rw [hs.released (flushPages_built hf).chained rfl] at hm
    cases hm⟩
  refine ⟨c.ends rel hquiet, fun d hd => ?_⟩
  have hc : d.index.Chained := by
    rcases List.mem_cons.mp hd with rfl | hd
    · exact h0
    · exact (chained_alone (c.prog rel) t h0).1 d hd
  exact ⟨fun n hn => hc.walk_eq hn, fun t' s' hs' => loopsEnd_of_chained t' (by rw [hs']; exact hc)⟩

/-- The chain of the graph with two elements of a page each, after an insert that appends a page and a vacuum
    that removes the new element; the next vacuum ends, and so does `RepairGraph` started on its own. -/
theorem page_chain_pair : ∃ (idx : Index Nat) (locs : List Location) (s : St Nat),
    FlushPages (fun _ => 4000) 2 pairGraph = .ok (idx, locs) ∧ Serial Nat idx.atRest s ∧
    s.index.walk 3 (some HNSW_HEAD_BLKNO) = [1, 2, 3] ∧
    (∀ (rel : HnswRel Nat Nat) (callback : ItemPointer → Bool),
      Ends (hnswMachine Nat) 1 (DiskCall.prog rel (.bulkdelete none callback 20)) s) ∧
    ∀ (rel : HnswRel Nat Nat) (vs : VacuumState), Ends (hnswMachine Nat) 0 (RepairGraph rel 2 vs 20) s := by
  let rel : HnswRel Nat Nat :=
    ⟨⟨fun a b => (a - b) + (b - a), 0, id, fun _ => 4000, 0⟩, 64, none, id, fun _ _ _ n => n⟩
  let insert : DiskCall Nat := .insert (some 15) ⟨8, 1⟩ 0 20
  let vacuum : DiskCall Nat := .bulkdelete none (fun heaptid => decide (heaptid = ⟨8, 1⟩)) 20
  have hrun : (match FlushPages (fun _ => 4000) 2 pairGraph with
      | .error _ => false
      | .ok (idx, _) => (leaves (hnswMachine Nat) 1 (insert.prog rel) idx.atRest).any fun s1 =>
          (leaves (hnswMachine Nat) 0 (vacuum.prog rel) s1).any fun s =>
            decide (s.holders = [] ∧ s.index.pages.length = 3 ∧ s.index.tids.length = 6)) = true := by
    decide +kernel
  cases hf : FlushPages (fun _ => 4000) 2 pairGraph with
  | error msg =>
      rw [hf] at hrun
      cases hrun
  | ok x =>
      obtain ⟨idx, locs⟩ := x
      rw [hf] at hrun
      obtain ⟨s1, hs1, hrun⟩ := (Option.any_eq_true _ _).mp hrun
      obtain ⟨s, hs, hrun⟩ := (Option.any_eq_true _ _).mp hrun
      obtain ⟨hholders, hpages, htids⟩ := of_decide_eq_true hrun
      have hserial : Serial Nat idx.atRest s := .call (.call .start rel 1 insert hs1) rel 0 vacuum hs
      obtain ⟨hwalk, hloops⟩ := (page_chain hf hserial rel 0 vacuum).2 s List.mem_cons_self
      refine ⟨idx, locs, s, rfl, hserial, ?_, fun rel' callback => ?_, fun rel' vs => ?_⟩
      · rw [hwalk 3 (Nat.le_of_eq hpages), hpages]
        rfl
      · have h3 : s.index.pages.length ≤ 20 := by omega
        have h6 : 2 * s.index.tids.length < 20 := by omega
        exact (page_chain hf hserial rel' 1 (.bulkdelete none callback 20)).1 h3 h6
      · refine ((hloops 0 s rfl).repairGraph_ends (fun h hm => ?_) rel' 2 20 (by omega)).2 vs (by omega)
        rw [hholders] at hm
        cases hm

end Main

end Pgvec.Hnsw
