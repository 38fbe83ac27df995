/-
  File:      Pgvec/Hnsw/FlushProtocol.lean
  Subject:   WHEN A PARALLEL BUILD WRITES ITS PAGES (`InsertTuple`, `FlushPages`, `BuildGraph` of
             `hnswbuild.c`): any number of participants, interleaved operation by operation.

  The graph in memory is the list of the tuples inserted into it, each with the participant that did it; the
  index on disk likewise. What a tuple takes of the shared area is given (`BuildRel.size`), and whether a
  value can be formed from it (`BuildRel.formed`). Participant 0 is the leader.

  * `InsertTuple`, `FlushPages`, `HnswParallelScanAndInsert`, `leader` -- the programs, lock by lock;
  * `BuildInv` -- the invariant of the shared state; `participantSpec` -- what a participant relies on;
  * **`flush_protocol`** -- pages are written once, nothing is allocated or linked in memory from then on,
    what is written is the whole graph, and each tuple is inserted once.
-/
import Mathlib.Data.List.Perm.Subperm
import Pgvec.Machine.Logic
import Pgvec.Machine.LWLock

namespace Pgvec.Hnsw.FlushProtocol

open Conc LWLock

/-! ## 1. The programs -/

/-- The two locks of the shared graph that `InsertTuple` takes. -/
inductive GraphLock where
  | flushLock | allocatorLock
  deriving DecidableEq, Repr

/-- What the build knows of a tuple: whether `HnswFormIndexValue` gives a value (NULL values are skipped
    before), and how much of the area its element takes. -/
structure BuildRel (T : Type) where
  formed : T → Bool
  size : T → Nat

/-- The shared state of the build. `flushes` counts the calls of `FlushPages`, `written` is the graph
    `CreateGraphPages` wrote, `done` are the participants that have finished their scan. -/
structure BuildSt (T : Type) where
  holders : List (Held GraphLock)
  memoryUsed : Nat
  memoryTotal : Nat
  flushed : Bool
  allocated : List (Nat × T)
  graph : List (Nat × T)
  flushes : Nat
  written : Option (List (Nat × T))
  onDisk : List (Nat × T)
  indtuples : Nat
  done : List Nat
  ended : Bool

/-- The operations on it. -/
inductive Op (T : Type) : Type where
  | LWLockAcquire (lock : GraphLock) (mode : Mode)
  | LWLockRelease (lock : GraphLock)
  | readFlushed
  | memoryExhausted
  | HnswInitElement (tup : T)
  | UpdateGraphInMemory (tup : T)
  | UpdateNeighborsInMemory (tup : T)
  | CreateMetaPage
  | CreateGraphPages
  | WriteNeighborTuples
  | setFlushed
  | HnswInsertTupleOnDisk (tup : T)
  | progress
  | participantDone
  | waitForParticipants (n : Nat)
  | HnswEndParallel

/-- What an operation answers. -/
@[reducible] def Op.Resp {T : Type} : Op T → Type
  | .readFlushed => Bool
  | .memoryExhausted => Bool
  | _ => Unit

variable {T : Type}

/-- **What an operation does** when participant `t` runs it. -/
def exec (rel : BuildRel T) (t : Nat) : (o : Op T) → BuildSt T → Option (BuildSt T × o.Resp)
  | .LWLockAcquire lock mode, s =>
      if mustWait s.holders lock mode then none
      else some ({ s with holders := ⟨t, lock, mode⟩ :: s.holders }, ())
  | .LWLockRelease lock, s => some ({ s with holders := release s.holders t lock }, ())
  | .readFlushed, s => some (s, s.flushed)
  | .memoryExhausted, s => some (s, decide (s.memoryTotal ≤ s.memoryUsed))
  | .HnswInitElement tup, s =>
      some ({ s with memoryUsed := s.memoryUsed + rel.size tup, allocated := s.allocated ++ [(t, tup)] }, ())
  | .UpdateGraphInMemory tup, s => some ({ s with graph := s.graph ++ [(t, tup)] }, ())
  | .UpdateNeighborsInMemory _, s => some (s, ())
  | .CreateMetaPage, s => some ({ s with flushes := s.flushes + 1 }, ())
  | .CreateGraphPages, s => some ({ s with written := some s.graph }, ())
  | .WriteNeighborTuples, s => some (s, ())
  | .setFlushed, s => some ({ s with flushed := true }, ())
  | .HnswInsertTupleOnDisk tup, s => some ({ s with onDisk := s.onDisk ++ [(t, tup)] }, ())
  | .progress, s => some ({ s with indtuples := s.indtuples + 1 }, ())
  | .participantDone, s => some ({ s with done := t :: s.done }, ())
  | .waitForParticipants n, s => if s.done.length = n then some (s, ()) else none
  | .HnswEndParallel, s => some ({ s with ended := true }, ())

/-- The machine of the participants; none of their operations fails. -/
def buildMachine (rel : BuildRel T) : Machine (Op T) Op.Resp (BuildSt T) := .plain (exec rel)

/-- A program of a participant. -/
abbrev BuildProg (T α : Type) : Type := Prog (Op T) Op.Resp α

/-- One operation. -/
def call (o : Op T) : BuildProg T o.Resp := .op o .ret

/-- `FlushPages`. -/
def FlushPages : BuildProg T Unit := do
  call .CreateMetaPage
  call .CreateGraphPages
  call .WriteNeighborTuples
  call .setFlushed

/-- `InsertTupleInMemory`, as far as it changes the graph: the element enters the list (or its TID joins a
    duplicate's), then the neighbors get their connections. -/
def InsertTupleInMemory (tup : T) : BuildProg T Unit := do
  call (.UpdateGraphInMemory tup)
  call (.UpdateNeighborsInMemory tup)

/-- **`InsertTuple`.** -/
def InsertTuple (rel : BuildRel T) (tup : T) : BuildProg T Bool := do
  if !rel.formed tup then return false
  -- ensure graph not flushed when inserting
  call (.LWLockAcquire .flushLock .LW_SHARED)
  -- are we in the on-disk phase?
  if ← call .readFlushed then
    call (.LWLockRelease .flushLock)
    call (.HnswInsertTupleOnDisk tup)
    return true
  else
    call (.LWLockAcquire .allocatorLock .LW_EXCLUSIVE)
    if ← call .memoryExhausted then
      call (.LWLockRelease .allocatorLock)
      call (.LWLockRelease .flushLock)
      call (.LWLockAcquire .flushLock .LW_EXCLUSIVE)
      let flushed ← call .readFlushed
      if !flushed then FlushPages
      call (.LWLockRelease .flushLock)
      call (.HnswInsertTupleOnDisk tup)
      return true
    else
      -- ok, we can proceed to allocate the element
      call (.HnswInitElement tup)
      call (.LWLockRelease .allocatorLock)
      InsertTupleInMemory tup
      call (.LWLockRelease .flushLock)
      return true

/-- `BuildCallback`. -/
def BuildCallback (rel : BuildRel T) (tup : T) : BuildProg T Unit := do
  if ← InsertTuple rel tup then call .progress

/-- `HnswParallelScanAndInsert` over the tuples the parallel scan hands to this participant. -/
def HnswParallelScanAndInsert (rel : BuildRel T) (share : List T) : BuildProg T Unit := do
  share.foldlM (fun _ tup => BuildCallback rel tup) ()
  call .participantDone

/-- The leader: it takes part in the scan, waits for the `n` participants (`ParallelHeapScan`), and
    `BuildGraph` writes the pages if nobody has. -/
def leader (rel : BuildRel T) (share : List T) (n : Nat) : BuildProg T Unit := do
  HnswParallelScanAndInsert rel share
  call (.waitForParticipants n)
  let flushed ← call .readFlushed
  if !flushed then FlushPages
  call .HnswEndParallel

/-- The programs of a build: the leader and the workers. -/
def participants (rel : BuildRel T) : List (List T) → List (BuildProg T Unit)
  | [] => []
  | share :: shares =>
      leader rel share (shares.length + 1) :: shares.map (HnswParallelScanAndInsert rel)

/-- The start of a build with an area of `memoryTotal` bytes. -/
def startConfig (rel : BuildRel T) (memoryTotal : Nat) (shares : List (List T)) :
    Config (Op T) Op.Resp (BuildSt T) where
  shared := ⟨[], 0, memoryTotal, false, [], [], 0, none, [], 0, [], false⟩
  threads := participants rel shares

/-! ## 2. The invariant -/

/-- What participant `t` has put into the graph and into the index. -/
def mine (t : Nat) (s : BuildSt T) : List T :=
  ((s.graph.filter fun p => p.1 == t) ++ s.onDisk.filter fun p => p.1 == t).map (·.2)

/-- **The invariant of the shared state** of a build with `n` participants; `share t` is what the scan hands
    to participant `t`. -/
structure BuildInv (rel : BuildRel T) (n : Nat) (share : Nat → List T) (s : BuildSt T) : Prop where
  locks : Compatible s.holders
  who : ∀ h ∈ s.holders, h.proc < n ∧ h.proc ∉ s.done
  doneNodup : s.done.Nodup
  doneLt : ∀ t ∈ s.done, t < n
  once : s.flushes ≤ 1
  flushed : s.flushed = true → s.flushes = 1 ∧ s.written = some s.graph
  written : ∀ l, s.written = some l → l = s.graph ∧ s.flushes = 1
  midway : s.flushes = 1 → s.flushed = false →
    (∃ t, (⟨t, .flushLock, .LW_EXCLUSIVE⟩ : Held GraphLock) ∈ s.holders) ∨ s.done.length = n
  onDisk : s.onDisk ≠ [] → s.flushed = true
  tags : ∀ p ∈ s.graph ++ s.onDisk, p.1 < n
  finished : ∀ t ∈ s.done, (mine t s).Perm ((share t).filter rel.formed)
  ended : s.ended = true → s.flushed = true ∧ s.done.length = n

/-- Pages that are being written are written by somebody with the flush lock. -/
def Settled (s : BuildSt T) : Prop :=
  s.flushes = 1 → s.flushed = false → ∃ t, (⟨t, .flushLock, .LW_EXCLUSIVE⟩ : Held GraphLock) ∈ s.holders

/-- **What participant `t` relies on.** -/
structure Rely (n t : Nat) (s s' : BuildSt T) : Prop where
  holders : ∀ {h : Held GraphLock}, h.proc = t → (h ∈ s'.holders ↔ h ∈ s.holders)
  done : t ∈ s'.done ↔ t ∈ s.done
  mine : mine t s' = mine t s
  kept : s.flushed = true → s'.flushed = true
  held : ∀ {mode}, (⟨t, .flushLock, mode⟩ : Held GraphLock) ∈ s.holders →
    s'.flushes = s.flushes ∧ s'.flushed = s.flushed
  excl : (⟨t, .flushLock, .LW_EXCLUSIVE⟩ : Held GraphLock) ∈ s.holders →
    s'.graph = s.graph ∧ s'.written = s.written
  alone : t = 0 → s.done.length = n → s' = s
  settled : t = 0 → Settled s → Settled s'

theorem Rely.refl (n t : Nat) (s : BuildSt T) : Rely n t s s where
  holders _ := Iff.rfl
  done := Iff.rfl
  mine := rfl
  kept h := h
  held _ := ⟨rfl, rfl⟩
  excl _ := ⟨rfl, rfl⟩
  alone _ _ := rfl
  settled _ h := h

theorem Rely.trans {n t : Nat} {a b c : BuildSt T} (h : Rely n t a b) (h' : Rely n t b c) : Rely n t a c where
  holders hp := (h'.holders hp).trans (h.holders hp)
  done := h'.done.trans h.done
  mine := h'.mine.trans h.mine
  kept hf := h'.kept (h.kept hf)
  held hm := by
    obtain ⟨h1, h2⟩ := h.held hm
    obtain ⟨h3, h4⟩ := h'.held ((h.holders rfl).mpr hm)
    exact ⟨h3.trans h1, h4.trans h2⟩
  excl hm := by
    obtain ⟨h1, h2⟩ := h.excl hm
    obtain ⟨h3, h4⟩ := h'.excl ((h.holders rfl).mpr hm)
    exact ⟨h3.trans h1, h4.trans h2⟩
  alone h0 hd := by
    have hab := h.alone h0 hd
    subst hab
    exact h'.alone h0 hd
  settled h0 hs := h'.settled h0 (h.settled h0 hs)

/-- Allocating, linking and starting to write pages happen before any page is written; inserting into the
    index happens after all are. -/
def Safe (s : BuildSt T) : Op T → Prop
  | .HnswInitElement _ => s.flushes = 0
  | .UpdateGraphInMemory _ => s.flushes = 0
  | .UpdateNeighborsInMemory _ => s.flushes = 0
  | .CreateMetaPage => s.flushes = 0
  | .HnswInsertTupleOnDisk _ => s.flushed = true
  | _ => True

/-- The specification of participant `t`. -/
def participantSpec (rel : BuildRel T) (n : Nat) (share : Nat → List T) (t : Nat) :
    Spec (Op T) (BuildSt T) where
  inv := BuildInv rel n share
  rely := Rely n t
  guar s s' := ∀ u, u ≠ t → Rely n u s s'
  allow _ _ := True
  safe := Safe
  commit _ := True
  errors := False
  cuts := False

section Steps

variable {rel : BuildRel T} {n t : Nat} {share : Nat → List T} {s s' : BuildSt T}

/-- Participant `t` is still at its scan. -/
theorem BuildInv.not_all (h : BuildInv rel n share s) (ht : t < n) (hd : t ∉ s.done) : s.done.length ≠ n := by
  intro hlen
  have hsub : s.done ⊆ List.range n := fun u hu => List.mem_range.mpr (h.doneLt u hu)
  have hperm : s.done.Perm (List.range n) :=
    (List.subperm_of_subset h.doneNodup hsub).perm_of_length_le (by simp [hlen])
  exact hd (hperm.mem_iff.mpr (List.mem_range.mpr ht))

theorem BuildInv.settled (h : BuildInv rel n share s) (ht : t < n) (hd : t ∉ s.done) : Settled s :=
  fun h1 h2 => (h.midway h1 h2).resolve_right (h.not_all ht hd)

/-- A step of a participant that is still at its scan, for the others: what it leaves alone. -/
theorem rely_of_scan (h : BuildInv rel n share s) (h' : BuildInv rel n share s') (ht : t < n)
    (hd : t ∉ s.done) (hd' : s'.done = s.done) {u : Nat}
    (hholders : ∀ {x : Held GraphLock}, x.proc = u → (x ∈ s'.holders ↔ x ∈ s.holders))
    (hmine : FlushProtocol.mine u s' = FlushProtocol.mine u s) (hflushes : s'.flushes = s.flushes)
    (hflushed : s'.flushed = s.flushed)
    (hexcl : (⟨u, .flushLock, .LW_EXCLUSIVE⟩ : Held GraphLock) ∈ s.holders →
      s'.graph = s.graph ∧ s'.written = s.written) : Rely n u s s' where
  holders := hholders
  done := by rw [hd']
  mine := hmine
  kept hf := hflushed.trans hf
  held _ := ⟨hflushes, hflushed⟩
  excl := hexcl
  alone _ hlen := absurd hlen (h.not_all ht hd)
  settled _ _ := h'.settled ht (hd' ▸ hd)

/-- The right to write the pages: the flush lock in exclusive mode, or everybody else is done. -/
def MayFlush (n t : Nat) (s : BuildSt T) : Prop :=
  (⟨t, .flushLock, .LW_EXCLUSIVE⟩ : Held GraphLock) ∈ s.holders ∨ t = 0 ∧ s.done.length = n

theorem MayFlush.only (hf : MayFlush n t s) (h : BuildInv rel n share s) {u : Nat} (hu : u ≠ t) {mode : Mode} :
    (⟨u, .flushLock, mode⟩ : Held GraphLock) ∉ s.holders := by
  intro hm
  rcases hf with hf | ⟨_, hlen⟩
  · exact hu (congrArg Held.proc (h.locks.alone hf _ hm rfl))
  · obtain ⟨h1, h2⟩ := h.who _ hm
    exact h.not_all h1 h2 hlen

theorem mine_graph (t u : Nat) (tup : T) (s : BuildSt T) :
    mine u { s with graph := s.graph ++ [(t, tup)] } =
      if t = u then ((s.graph.filter fun p => p.1 == u).map (·.2)) ++ tup ::
        (s.onDisk.filter fun p => p.1 == u).map (·.2) else mine u s := by
  unfold mine
  by_cases h : t = u
  · simp [h]
  · simp [h]

theorem mine_onDisk (t u : Nat) (tup : T) (s : BuildSt T) :
    mine u { s with onDisk := s.onDisk ++ [(t, tup)] } = if t = u then mine u s ++ [tup] else mine u s := by
  unfold mine
  by_cases h : t = u
  · simp [h]
  · simp [h]

/-! ## 3. One operation at a time -/

/-- The locks changed. -/
theorem BuildInv.acquire (h : BuildInv rel n share s) (ht : t < n) (hd : t ∉ s.done) {lock : GraphLock}
    {mode : Mode} (hw : mustWait s.holders lock mode = false) :
    BuildInv rel n share { s with holders := ⟨t, lock, mode⟩ :: s.holders } ∧
      ∀ u, u ≠ t → Rely n u s { s with holders := ⟨t, lock, mode⟩ :: s.holders } := by
  have hinv : BuildInv rel n share { s with holders := ⟨t, lock, mode⟩ :: s.holders } := { h with
    locks := h.locks.cons hw
    who := by
      intro x hx
      rcases List.mem_cons.mp hx with rfl | hx
      · exact ⟨ht, hd⟩
      · exact h.who x hx
    midway := fun h1 h2 => (h.midway h1 h2).imp (fun ⟨u, hu⟩ => ⟨u, List.mem_cons_of_mem _ hu⟩) id }
  refine ⟨hinv, fun u hu => rely_of_scan h hinv ht hd rfl (fun hp => ?_) rfl rfl rfl fun _ => ⟨rfl, rfl⟩⟩
  refine ⟨fun hm => (List.mem_cons.mp hm).resolve_left ?_, List.mem_cons_of_mem _⟩
  rintro rfl
  exact hu hp.symm

/-- A lock is given back; the flush lock in exclusive mode only when the pages are all written. -/
theorem BuildInv.release (h : BuildInv rel n share s) (ht : t < n) (hd : t ∉ s.done) (lock : GraphLock)
    (hf : (⟨t, .flushLock, .LW_EXCLUSIVE⟩ : Held GraphLock) ∈ s.holders → s.flushed = true) :
    BuildInv rel n share { s with holders := LWLock.release s.holders t lock } ∧
      ∀ u, u ≠ t → Rely n u s { s with holders := LWLock.release s.holders t lock } := by
  have hinv : BuildInv rel n share { s with holders := LWLock.release s.holders t lock } := { h with
    locks := h.locks.release t lock
    who := fun x hx => h.who x (mem_release.mp hx).1
    midway := by
      intro h1 h2
      refine (h.midway h1 h2).imp (fun ⟨u, hu⟩ => ⟨u, (mem_release_of_ne (Or.inl ?_)).mpr hu⟩) id
      rintro rfl
      rw [hf hu] at h2
      cases h2 }
  refine ⟨hinv, fun u hu => rely_of_scan h hinv ht hd rfl (fun hp => ?_) rfl rfl rfl fun _ => ⟨rfl, rfl⟩⟩
  refine mem_release_of_ne (Or.inl ?_)
  rw [hp]
  exact hu

/-- An element is allocated, or a counter moves. -/
theorem BuildInv.counters (h : BuildInv rel n share s) (ht : t < n) (hd : t ∉ s.done) (used ind : Nat)
    (allocated : List (Nat × T)) :
    BuildInv rel n share { s with memoryUsed := used, allocated := allocated, indtuples := ind } ∧
      ∀ u, u ≠ t → Rely n u s { s with memoryUsed := used, allocated := allocated, indtuples := ind } := by
  have hinv : BuildInv rel n share { s with memoryUsed := used, allocated := allocated, indtuples := ind } :=
    { h with }
  exact ⟨hinv, fun u hu => rely_of_scan h hinv ht hd rfl (fun _ => Iff.rfl) rfl rfl rfl fun _ => ⟨rfl, rfl⟩⟩

/-- A tuple is linked in memory, under the flush lock. -/
theorem BuildInv.link (h : BuildInv rel n share s) (ht : t < n) (hd : t ∉ s.done) (h0 : s.flushes = 0)
    {mode : Mode} (hm : (⟨t, .flushLock, mode⟩ : Held GraphLock) ∈ s.holders) (tup : T) :
    BuildInv rel n share { s with graph := s.graph ++ [(t, tup)] } ∧
      ∀ u, u ≠ t → Rely n u s { s with graph := s.graph ++ [(t, tup)] } := by
  have hnot : ∀ k, s.flushes = k → k ≠ 1 := fun k hk hk1 => by omega
  have hinv : BuildInv rel n share { s with graph := s.graph ++ [(t, tup)] } := { h with
    flushed := fun hf => absurd rfl (hnot 1 (h.flushed hf).1)
    written := fun l hl => absurd rfl (hnot 1 (h.written l hl).2)
    tags := by
      intro p hp
      simp only [List.mem_append, List.mem_singleton] at hp
      rcases hp with (hp | rfl) | hp
      · exact h.tags p (List.mem_append_left _ hp)
      · exact ht
      · exact h.tags p (List.mem_append_right _ hp)
    finished := by
      intro u hu
      rw [mine_graph, if_neg (by rintro rfl; exact hd hu)]
      exact h.finished u hu }
  refine ⟨hinv, fun u hu => rely_of_scan h hinv ht hd rfl (fun _ => Iff.rfl) ?_ rfl rfl fun hx => ?_⟩
  · rw [mine_graph, if_neg (Ne.symm hu)]
  · exact absurd (congrArg Held.proc (h.locks.alone hx _ hm rfl)) (Ne.symm hu)

/-- A tuple is inserted into the index. -/
theorem BuildInv.insert (h : BuildInv rel n share s) (ht : t < n) (hd : t ∉ s.done) (hf : s.flushed = true)
    (tup : T) :
    BuildInv rel n share { s with onDisk := s.onDisk ++ [(t, tup)] } ∧
      ∀ u, u ≠ t → Rely n u s { s with onDisk := s.onDisk ++ [(t, tup)] } := by
  have hinv : BuildInv rel n share { s with onDisk := s.onDisk ++ [(t, tup)] } := { h with
    onDisk := fun _ => hf
    tags := by
      intro p hp
      simp only [List.mem_append, List.mem_singleton] at hp
      rcases hp with hp | hp | rfl
      · exact h.tags p (List.mem_append_left _ hp)
      · exact h.tags p (List.mem_append_right _ hp)
      · exact ht
    finished := by
      intro u hu
      rw [mine_onDisk, if_neg (by rintro rfl; exact hd hu)]
      exact h.finished u hu }
  refine ⟨hinv, fun u hu => rely_of_scan h hinv ht hd rfl (fun _ => Iff.rfl) ?_ rfl rfl fun _ => ⟨rfl, rfl⟩⟩
  rw [mine_onDisk, if_neg (Ne.symm hu)]

/-- A part of the writing, by somebody who may write. -/
theorem BuildInv.flush (h : BuildInv rel n share s) (hm : MayFlush n t s) {k : Nat} {w : Option (List (Nat × T))}
    {b : Bool} (hk : k ≤ 1) (hb : b = true → k = 1 ∧ w = some s.graph)
    (hw : ∀ l, w = some l → l = s.graph ∧ k = 1) (hkept : s.flushed = true → b = true) :
    BuildInv rel n share { s with flushes := k, written := w, flushed := b } ∧
      ∀ u, u ≠ t → Rely n u s { s with flushes := k, written := w, flushed := b } := by
  refine ⟨{ h with
    once := hk
    flushed := hb
    written := hw
    midway := fun _ _ => hm.imp (fun hx => ⟨t, hx⟩) (·.2)
    onDisk := fun hne => hkept (h.onDisk hne)
    ended := fun he => (h.ended he).imp_left hkept }, fun u hu => ?_⟩
  refine ⟨fun _ => Iff.rfl, Iff.rfl, rfl, hkept, fun hx => absurd hx (hm.only h hu),
    fun hx => absurd hx (hm.only h hu), fun h0 hlen => ?_, fun h0 _ _ _ => ?_⟩
  · rcases hm with hm | hm
    · obtain ⟨h1, h2⟩ := h.who _ hm
      exact absurd hlen (h.not_all h1 h2)
    · exact absurd (h0.trans hm.1.symm) hu
  · rcases hm with hm | hm
    · exact ⟨t, hm⟩
    · exact absurd (h0.trans hm.1.symm) hu

/-- A participant that holds nothing and has inserted its share is done. -/
theorem BuildInv.finish (h : BuildInv rel n share s) (ht : t < n) (hd : t ∉ s.done)
    (hnone : ∀ x ∈ s.holders, x.proc ≠ t) (hmine : (mine t s).Perm ((share t).filter rel.formed)) :
    BuildInv rel n share { s with done := t :: s.done } ∧
      ∀ u, u ≠ t → Rely n u s { s with done := t :: s.done } := by
  have hall := h.not_all ht hd
  refine ⟨{ h with
    who := fun x hx => ⟨(h.who x hx).1, fun hm => ?_⟩
    doneNodup := List.nodup_cons.mpr ⟨hd, h.doneNodup⟩
    doneLt := fun u hu => ?_
    midway := fun h1 h2 => Or.inl (h.settled ht hd h1 h2)
    finished := fun u hu => ?_
    ended := fun he => absurd (h.ended he).2 hall }, fun u hu => ?_⟩
  · rcases List.mem_cons.mp hm with hm | hm
    · exact hnone x hx hm
    · exact (h.who x hx).2 hm
  · rcases List.mem_cons.mp hu with rfl | hu
    · exact ht
    · exact h.doneLt u hu
  · rcases List.mem_cons.mp hu with rfl | hu
    · exact hmine
    · exact h.finished u hu
  · refine ⟨fun _ => Iff.rfl, ?_, rfl, fun hf => hf, fun _ => ⟨rfl, rfl⟩, fun _ => ⟨rfl, rfl⟩,
      fun _ hlen => absurd hlen hall, fun _ _ => h.settled ht hd⟩
    exact ⟨fun hm => (List.mem_cons.mp hm).resolve_left hu, List.mem_cons_of_mem _⟩

/-- The leader ends the build. -/
theorem BuildInv.endParallel (h : BuildInv rel n share s) (hlen : s.done.length = n) (hf : s.flushed = true) :
    BuildInv rel n share { s with ended := true } ∧
      ∀ u, u ≠ 0 → Rely n u s { s with ended := true } :=
  ⟨{ h with ended := fun _ => ⟨hf, hlen⟩ }, fun _ hu => ⟨fun _ => Iff.rfl, Iff.rfl, rfl, fun hf => hf,
    fun _ => ⟨rfl, rfl⟩, fun _ => ⟨rfl, rfl⟩, fun h0 => absurd h0 hu, fun h0 => absurd h0 hu⟩⟩

end Steps

/-! ## 4. The programs are valid -/

/-- What the steps of the others, and writing the pages, keep of participant `t`'s own. -/
structure Kept (n t : Nat) (s s' : BuildSt T) : Prop where
  holders : ∀ {h : Held GraphLock}, h.proc = t → (h ∈ s'.holders ↔ h ∈ s.holders)
  done : t ∈ s'.done ↔ t ∈ s.done
  mine : mine t s' = mine t s
  all : t = 0 → s.done.length = n → s'.done.length = n

theorem Rely.kept' {n t : Nat} {s s' : BuildSt T} (h : Rely n t s s') : Kept n t s s' where
  holders := h.holders
  done := h.done
  mine := h.mine
  all h0 hlen := by rw [h.alone h0 hlen, hlen]

theorem Kept.trans {n t : Nat} {a b c : BuildSt T} (h : Kept n t a b) (h' : Kept n t b c) : Kept n t a c where
  holders hp := (h'.holders hp).trans (h.holders hp)
  done := h'.done.trans h.done
  mine := h'.mine.trans h.mine
  all h0 hlen := h'.all h0 (h.all h0 hlen)

/-- What a participant knows of the pages: nothing; none is written and it holds the flush lock; it holds the
    flush lock in exclusive mode and nobody is writing; all are written. -/
inductive Phase where
  | unknown | unflushed | settled | flushed

/-- The meaning of it, for participant `t`. -/
def Phase.Holds (t : Nat) : Phase → BuildSt T → Prop
  | .unknown, _ => True
  | .unflushed, s => s.flushes = 0 ∧ ∃ mode, (⟨t, .flushLock, mode⟩ : Held GraphLock) ∈ s.holders
  | .settled, s => (s.flushes = 1 → s.flushed = true) ∧
      (⟨t, .flushLock, .LW_EXCLUSIVE⟩ : Held GraphLock) ∈ s.holders
  | .flushed, s => s.flushed = true

theorem Phase.Holds.rely {n t : Nat} {s s' : BuildSt T} {phase : Phase} (h : phase.Holds t s)
    (hr : Rely n t s s') : phase.Holds t s' := by
  cases phase with
  | unknown => trivial
  | unflushed =>
    obtain ⟨h0, mode, hm⟩ := h
    exact ⟨(hr.held hm).1.trans h0, mode, (hr.holders rfl).mpr hm⟩
  | settled =>
    obtain ⟨h0, hm⟩ := h
    refine ⟨fun h1 => ?_, (hr.holders rfl).mpr hm⟩
    rw [(hr.held hm).2]
    exact h0 ((hr.held hm).1.symm.trans h1)
  | flushed => exact hr.kept h

/-- **Participant `t` at its scan**: it holds `locks`, knows `phase` of the pages, and has inserted `acc`. -/
structure At (t : Nat) (locks : List (GraphLock × Mode)) (phase : Phase) (acc : List T) (s : BuildSt T) :
    Prop where
  held : Owns s.holders t locks
  undone : t ∉ s.done
  mine : (mine t s).Perm acc
  knows : phase.Holds t s

section Validity

variable {rel : BuildRel T} {n t : Nat} {share : Nat → List T} {s s' : BuildSt T}
  {locks : List (GraphLock × Mode)} {phase : Phase} {acc : List T}

theorem At.kept (h : At t locks phase acc s) (hk : Kept n t s s') {phase' : Phase}
    (hp : phase'.Holds t s') : At t locks phase' acc s' where
  held := h.held.congr hk.holders
  undone := fun hd => h.undone (hk.done.mp hd)
  mine := hk.mine ▸ h.mine
  knows := hp

theorem At.rely (h : At t locks phase acc s) (hr : Rely n t s s') : At t locks phase acc s' :=
  h.kept hr.kept' (h.knows.rely hr)

/-- **One operation** from a state with a stable property `P`. -/
theorem valid_call {o : Op T} {Q : o.Resp → BuildSt T → Prop} (P : BuildSt T → Prop) (hs : P s)
    (hP : ∀ {a b}, P a → Rely n t a b → P b)
    (h : ∀ a, P a → BuildInv rel n share a → Safe a o ∧ ∀ b r, exec rel t o a = some (b, r) →
      BuildInv rel n share b ∧ (∀ u, u ≠ t → Rely n u a b) ∧ Q r b) :
    Valid (buildMachine rel) t (participantSpec rel n share t) (call o) Q s :=
  Valid.plain P hs hP h

/-- An operation that only looks. -/
theorem valid_look {o : Op T} {Q : o.Resp → BuildSt T → Prop} (P : BuildSt T → Prop) (hs : P s)
    (hP : ∀ {a b}, P a → Rely n t a b → P b)
    (h : ∀ a, P a → BuildInv rel n share a → Safe a o ∧ ∀ b r, exec rel t o a = some (b, r) → b = a ∧ Q r a) :
    Valid (buildMachine rel) t (participantSpec rel n share t) (call o) Q s :=
  Valid.look P hs hP (fun a u _ => Rely.refl n u a) h

theorem valid_acquire (ht : t < n) (h : At t locks phase acc s) (lock : GraphLock) (mode : Mode)
    (phase' : Phase) (hphase : ∀ a, At t locks phase acc a → BuildInv rel n share a →
      mustWait a.holders lock mode = false → phase'.Holds t { a with holders := ⟨t, lock, mode⟩ :: a.holders }) :
    Valid (buildMachine rel) t (participantSpec rel n share t) (call (.LWLockAcquire lock mode))
      (fun _ => At t ((lock, mode) :: locks) phase' acc) s := by
  refine valid_call _ h At.rely fun a ha hi => ⟨trivial, fun b r hb => ?_⟩
  simp only [exec] at hb
  split at hb
  · cases hb
  · rename_i hw
    have hw' := Bool.eq_false_iff.mpr hw
    cases hb
    obtain ⟨h1, h2⟩ := hi.acquire ht ha.undone hw'
    exact ⟨h1, h2, ha.held.acquire lock mode, ha.undone, ha.mine, hphase a ha hi hw'⟩

theorem valid_release (ht : t < n) (h : At t locks phase acc s) (lock : GraphLock) (phase' : Phase)
    (hf : ∀ a : BuildSt T, phase.Holds t a → (GraphLock.flushLock, Mode.LW_EXCLUSIVE) ∈ locks → a.flushed = true)
    (hphase : ∀ a : BuildSt T, phase.Holds t a →
      phase'.Holds t { a with holders := LWLock.release a.holders t lock }) :
    Valid (buildMachine rel) t (participantSpec rel n share t) (call (.LWLockRelease lock))
      (fun _ => At t (without locks lock) phase' acc) s := by
  refine valid_call _ h At.rely fun a ha hi => ⟨trivial, fun b r hb => ?_⟩
  cases hb
  obtain ⟨h1, h2⟩ := hi.release ht ha.undone lock
    fun hm => hf a ha.knows ((ha.held _ _).mp hm)
  exact ⟨h1, h2, ha.held.release lock, ha.undone, ha.mine, hphase a ha.knows⟩

/-- `graph->flushed`, under the flush lock. -/
theorem valid_readFlushed (h : At t locks phase acc s) (phase' : Bool → Phase)
    (hphase : ∀ a, At t locks phase acc a → BuildInv rel n share a → (phase' a.flushed).Holds t a) :
    Valid (buildMachine rel) t (participantSpec rel n share t) (call .readFlushed)
      (fun flushed => At t locks (phase' flushed) acc) s := by
  refine valid_look _ h At.rely fun a ha hi => ⟨trivial, fun b r hb => ?_⟩
  cases hb
  exact ⟨rfl, { ha with knows := hphase a ha hi }⟩

theorem MayFlush.rely (hm : MayFlush n t s) (hr : Rely n t s s') : MayFlush n t s' ∧
    s'.flushes = s.flushes ∧ s'.flushed = s.flushed ∧ s'.graph = s.graph ∧ s'.written = s.written := by
  rcases hm with hm | ⟨h0, hlen⟩
  · exact ⟨Or.inl ((hr.holders rfl).mpr hm), (hr.held hm).1, (hr.held hm).2, (hr.excl hm).1, (hr.excl hm).2⟩
  · rw [hr.alone h0 hlen]
    exact ⟨Or.inr ⟨h0, hlen⟩, rfl, rfl, rfl, rfl⟩

/-- How far the writing has come: the metapage, the graph pages. -/
structure Writing (n t : Nat) (s0 : BuildSt T) (k : Nat) (pages : Bool) (s : BuildSt T) : Prop where
  kept : Kept n t s0 s
  may : MayFlush n t s
  flushes : s.flushes = k
  written : pages = true → s.written = some s.graph

theorem Writing.rely {s0 : BuildSt T} {k : Nat} {pages : Bool} (h : Writing n t s0 k pages s)
    (hr : Rely n t s s') : Writing n t s0 k pages s' := by
  obtain ⟨h1, h2, h3, h4, h5⟩ := h.may.rely hr
  refine ⟨h.kept.trans hr.kept', h1, h2.trans h.flushes, fun hp => ?_⟩
  rw [h5, h4]
  exact h.written hp

/-- **`FlushPages`**, run by somebody who may write, while no page is written. -/
theorem valid_FlushPages (hm : MayFlush n t s) (h0 : s.flushes = 0) :
    Valid (buildMachine rel) t (participantSpec rel n share t) FlushPages
      (fun _ s' => Kept n t s s' ∧ s'.flushed = true) s := by
  have hkept : ∀ {a b : BuildSt T}, b.holders = a.holders → b.done = a.done →
      FlushProtocol.mine t b = FlushProtocol.mine t a → Kept n t a b := fun h1 h2 h3 =>
    ⟨fun _ => by rw [h1], by rw [h2], h3, fun _ h => by rw [h2, h]⟩
  have hstart : Writing n t s 0 false s := ⟨(Rely.refl n t s).kept', hm, h0, fun h => nomatch h⟩
  unfold FlushPages
  refine Valid.bind (Valid.mono (valid_call (Q := fun _ => Writing n t s 1 false) _ hstart Writing.rely
    fun a ha hi => ⟨ha.flushes, fun b r hb => ?_⟩) fun _ s1 hs1 => ?_)
  · cases hb
    have hne : a.flushes ≠ 1 := by rw [ha.flushes]; decide
    have hk : a.flushes + 1 = 1 := by rw [ha.flushes]
    obtain ⟨h1, h2⟩ := hi.flush ha.may (k := a.flushes + 1) (w := a.written) (b := a.flushed)
      (Nat.le_of_eq hk) (fun hb => absurd (hi.flushed hb).1 hne) (fun l hl => absurd (hi.written l hl).2 hne) id
    exact ⟨h1, h2, ha.kept.trans (hkept rfl rfl rfl), ha.may, hk, fun h => nomatch h⟩
  refine Valid.bind (Valid.mono (valid_call (Q := fun _ => Writing n t s 1 true) _ hs1 Writing.rely
    fun a ha hi => ⟨trivial, fun b r hb => ?_⟩) fun _ s2 hs2 => ?_)
  · cases hb
    obtain ⟨h1, h2⟩ := hi.flush ha.may (k := a.flushes) (w := some a.graph) (b := a.flushed)
      (Nat.le_of_eq ha.flushes) (fun _ => ⟨ha.flushes, rfl⟩)
      (fun l hl => ⟨(Option.some.inj hl).symm, ha.flushes⟩) id
    exact ⟨h1, h2, ha.kept.trans (hkept rfl rfl rfl), ha.may, ha.flushes, fun _ => rfl⟩
  refine Valid.bind (Valid.mono (valid_look (Q := fun _ => Writing n t s 1 true) _ hs2 Writing.rely
    fun a ha _ => ⟨trivial, fun b r hb => ?_⟩) fun _ s3 hs3 => ?_)
  · cases hb
    exact ⟨rfl, ha⟩
  refine valid_call _ hs3 Writing.rely fun a ha hi => ⟨trivial, fun b r hb => ?_⟩
  cases hb
  obtain ⟨h1, h2⟩ := hi.flush ha.may (k := a.flushes) (w := a.written) (b := true)
    (Nat.le_of_eq ha.flushes) (fun _ => ⟨ha.flushes, ha.written rfl⟩) (fun l hl => hi.written l hl) fun _ => rfl
  exact ⟨h1, h2, ha.kept.trans (hkept rfl rfl rfl), rfl⟩

/-- `HnswInsertTupleOnDisk`, once the pages are written. -/
theorem valid_insertOnDisk (ht : t < n) (h : At t [] .flushed acc s) (tup : T) :
    Valid (buildMachine rel) t (participantSpec rel n share t) (call (.HnswInsertTupleOnDisk tup))
      (fun _ => At t [] .unknown (tup :: acc)) s := by
  refine valid_call _ h At.rely fun a ha hi => ⟨ha.knows, fun b r hb => ?_⟩
  cases hb
  obtain ⟨h1, h2⟩ := hi.insert ht ha.undone ha.knows tup
  refine ⟨h1, h2, ha.held, ha.undone, ?_, trivial⟩
  rw [mine_onDisk, if_pos rfl]
  exact (List.perm_append_singleton tup _).trans (ha.mine.cons tup)

/-- `InsertTupleInMemory`, under the flush lock and before any page is written. -/
theorem valid_insertInMemory (ht : t < n) (h : At t locks .unflushed acc s) (tup : T) :
    Valid (buildMachine rel) t (participantSpec rel n share t) (InsertTupleInMemory tup)
      (fun _ => At t locks .unflushed (tup :: acc)) s := by
  refine Valid.bind (Valid.mono (valid_call (Q := fun _ => At t locks .unflushed (tup :: acc)) _ h At.rely
    fun a ha hi => ⟨ha.knows.1, fun b r hb => ?_⟩) ?_)
  · cases hb
    obtain ⟨h0, mode, hm⟩ := ha.knows
    obtain ⟨h1, h2⟩ := hi.link ht ha.undone h0 hm tup
    refine ⟨h1, h2, ha.held, ha.undone, ?_, ha.knows⟩
    rw [mine_graph, if_pos rfl]
    refine List.perm_middle.trans (List.Perm.cons tup ?_)
    rw [← List.map_append]
    exact ha.mine
  · intro _ s1 hs1
    refine valid_look _ hs1 At.rely fun a ha hi => ⟨ha.knows.1, fun b r hb => ?_⟩
    cases hb
    exact ⟨rfl, ha⟩

/-- The part of `InsertTuple` that finds the memory exhausted. -/
theorem valid_flushAndInsert (ht : t < n) (h : At t [] .unknown acc s) (tup : T) :
    Valid (buildMachine rel) t (participantSpec rel n share t)
      (do
        call (.LWLockAcquire .flushLock .LW_EXCLUSIVE)
        let flushed ← call .readFlushed
        if !flushed then FlushPages
        call (.LWLockRelease .flushLock)
        call (.HnswInsertTupleOnDisk tup)
        return true)
      (fun _ => At t [] .unknown (tup :: acc)) s := by
  have hrest : ∀ s, At t [(.flushLock, .LW_EXCLUSIVE)] .flushed acc s →
      Valid (buildMachine rel) t (participantSpec rel n share t)
        (do
          call (.LWLockRelease .flushLock)
          call (.HnswInsertTupleOnDisk tup)
          return true)
        (fun _ => At t [] .unknown (tup :: acc)) s := by
    intro s hs
    refine Valid.bind (Valid.mono (valid_release ht hs .flushLock .flushed (fun a ha _ => ha)
      fun a ha => ha) fun _ s' hs' => ?_)
    exact Valid.bind (Valid.mono (valid_insertOnDisk ht hs' tup) fun _ _ h => h)
  -- whoever gets the lock in exclusive mode finds all pages written or none
  refine Valid.bind (Valid.mono (valid_acquire ht h .flushLock .LW_EXCLUSIVE .settled
    fun a ha hi hw => ?_) fun _ s1 h1 => ?_)
  · refine ⟨fun hk => Bool.not_eq_false _ ▸ fun hf => ?_, List.mem_cons_self⟩
    obtain ⟨u, hu⟩ := hi.settled ht ha.undone hk hf
    exact absurd (mustWait_false hw _ hu rfl).1 (by simp)
  refine Valid.bind (Valid.mono (valid_readFlushed h1 (fun b => if b then .flushed else .unflushed)
    fun a ha hi => ?_) fun flushed s2 h2 => ?_)
  · obtain ⟨hk, hm⟩ := ha.knows
    cases hf : a.flushed with
    | true => exact hf
    | false =>
      have hne : a.flushes ≠ 1 := fun h1 => by rw [hk h1] at hf; cases hf
      have := hi.once
      exact ⟨by omega, _, hm⟩
  cases flushed with
  | true => exact hrest s2 h2
  | false =>
    have hm : MayFlush n t s2 := Or.inl ((h2.held _ _).mpr List.mem_cons_self)
    refine Valid.bind (Valid.mono (valid_FlushPages hm h2.knows.1) fun _ s3 h3 => ?_)
    exact hrest s3 (h2.kept h3.1 h3.2)

/-- The allocator lock goes, the flush lock stays. -/
theorem Phase.Holds.release (h : Phase.unflushed.Holds t s) :
    Phase.unflushed.Holds t { s with holders := LWLock.release s.holders t .allocatorLock } := by
  obtain ⟨h0, mode, hm⟩ := h
  exact ⟨h0, mode, (mem_release_of_ne (Or.inr (by simp))).mpr hm⟩

/-- The part of `InsertTuple` that finds room in memory. -/
theorem valid_allocAndInsert (ht : t < n)
    (h : At t [(.allocatorLock, .LW_EXCLUSIVE), (.flushLock, .LW_SHARED)] .unflushed acc s) (tup : T) :
    Valid (buildMachine rel) t (participantSpec rel n share t)
      (do
        call (.HnswInitElement tup)
        call (.LWLockRelease .allocatorLock)
        InsertTupleInMemory tup
        call (.LWLockRelease .flushLock)
        return true)
      (fun _ => At t [] .unknown (tup :: acc)) s := by
  refine Valid.bind (Valid.mono (valid_call
    (Q := fun _ => At t [(.allocatorLock, .LW_EXCLUSIVE), (.flushLock, .LW_SHARED)] .unflushed acc) _ h
    At.rely fun a ha hi => ⟨ha.knows.1, fun b r hb => ?_⟩) fun _ s1 h1 => ?_)
  · cases hb
    obtain ⟨i1, i2⟩ := hi.counters ht ha.undone (a.memoryUsed + rel.size tup) a.indtuples
      (a.allocated ++ [(t, tup)])
    exact ⟨i1, i2, ha.held, ha.undone, ha.mine, ha.knows⟩
  refine Valid.bind (Valid.mono (valid_release ht h1 .allocatorLock .unflushed (fun a _ hm => ?_)
    fun _ => Phase.Holds.release) fun _ s2 h2 => ?_)
  · exact absurd hm (by decide)
  refine Valid.bind (Valid.mono (valid_insertInMemory ht h2 tup) fun _ s3 h3 => ?_)
  refine Valid.bind (Valid.mono (valid_release ht h3 .flushLock .unknown (fun a _ hm => ?_)
    fun _ _ => trivial) fun _ s4 h4 => h4)
  exact absurd hm (by decide)

/-- **`InsertTuple` inserts a tuple that has a value once.** -/
theorem valid_InsertTuple (ht : t < n) (h : At t [] .unknown acc s) (tup : T) :
    Valid (buildMachine rel) t (participantSpec rel n share t) (InsertTuple rel tup)
      (fun _ => At t [] .unknown ([tup].filter rel.formed ++ acc)) s := by
  unfold InsertTuple
  by_cases hform : rel.formed tup = true
  swap
  · have hacc : [tup].filter rel.formed ++ acc = acc := by simp [hform]
    rw [hacc]
    simp only [hform, Bool.not_false, if_true]
    exact h
  have hacc : [tup].filter rel.formed ++ acc = tup :: acc := by simp [hform]
  rw [hacc]
  simp only [hform, Bool.not_true, Bool.false_eq_true, if_false]
  refine Valid.bind (Valid.mono (valid_acquire ht h .flushLock .LW_SHARED .unknown
    fun _ _ _ _ => trivial) fun _ s1 h1 => ?_)
  refine Valid.bind (Valid.mono (valid_readFlushed h1 (fun b => if b then .flushed else .unflushed)
    fun a ha hi => ?_) fun flushed s2 h2 => ?_)
  · have hm := (ha.held _ _).mpr List.mem_cons_self
    cases hf : a.flushed with
    | true => exact hf
    | false =>
      have hne : a.flushes ≠ 1 := fun hk => by
        obtain ⟨u, hu⟩ := hi.settled ht ha.undone hk hf
        exact hi.locks.none_exclusive hm u hu
      have := hi.once
      exact ⟨by omega, _, hm⟩
  cases flushed with
  | true =>
    refine Valid.bind (Valid.mono (valid_release ht h2 .flushLock .flushed (fun a ha _ => ha)
      fun a ha => ha) fun _ s3 h3 => ?_)
    exact Valid.bind (Valid.mono (valid_insertOnDisk ht h3 tup) fun _ _ h => h)
  | false =>
    refine Valid.bind (Valid.mono (valid_acquire ht h2 .allocatorLock .LW_EXCLUSIVE .unflushed
      fun a ha _ _ => ?_) fun _ s3 h3 => ?_)
    · obtain ⟨h0, mode, hm⟩ := ha.knows
      exact ⟨h0, mode, List.mem_cons_of_mem _ hm⟩
    refine Valid.bind (Valid.mono (valid_look
      (Q := fun _ => At t [(.allocatorLock, .LW_EXCLUSIVE), (.flushLock, .LW_SHARED)] .unflushed acc) _ h3
      At.rely fun a ha _ => ⟨trivial, fun b r hb => ?_⟩) fun exhausted s4 h4 => ?_)
    · cases hb
      exact ⟨rfl, ha⟩
    cases exhausted with
    | true =>
      refine Valid.bind (Valid.mono (valid_release ht h4 .allocatorLock .unflushed (fun a _ hm => ?_)
        fun _ => Phase.Holds.release)
        fun _ s5 h5 => ?_)
      · exact absurd hm (by decide)
      refine Valid.bind (Valid.mono (valid_release ht h5 .flushLock .unknown (fun a _ hm => ?_)
        fun _ _ => trivial) fun _ s6 h6 => ?_)
      · exact absurd hm (by decide)
      exact valid_flushAndInsert ht h6 tup
    | false => exact valid_allocAndInsert ht h4 tup

theorem valid_BuildCallback (ht : t < n) (h : At t [] .unknown acc s) (tup : T) :
    Valid (buildMachine rel) t (participantSpec rel n share t) (BuildCallback rel tup)
      (fun _ => At t [] .unknown ([tup].filter rel.formed ++ acc)) s := by
  refine Valid.bind (Valid.mono (valid_InsertTuple ht h tup) fun inserted s1 h1 => ?_)
  cases inserted with
  | false => exact h1
  | true =>
    refine valid_call _ h1 At.rely fun a ha hi => ⟨trivial, fun b r hb => ?_⟩
    cases hb
    obtain ⟨i1, i2⟩ := hi.counters ht ha.undone a.memoryUsed (a.indtuples + 1) a.allocated
    exact ⟨i1, i2, ha.held, ha.undone, ha.mine, ha.knows⟩

/-- **A participant inserts its share.** The loop has inserted what is missing from the rest. -/
theorem valid_scan (ht : t < n) (h : At t [] .unknown [] s) :
    Valid (buildMachine rel) t (participantSpec rel n share t) (HnswParallelScanAndInsert rel (share t))
      (fun _ s => t = 0 → Settled s) s := by
  unfold HnswParallelScanAndInsert
  refine Valid.bind (Valid.mono (Valid.foldlM_rest (share t)
    (I := fun rest _ s => ∃ acc, At t [] .unknown acc s ∧
      (acc ++ rest.filter rel.formed).Perm ((share t).filter rel.formed)) ⟨[], h, List.Perm.refl _⟩ ?_) ?_)
  · rintro tup rest _ s1 ⟨acc, h1, hperm⟩
    refine Valid.mono (valid_BuildCallback ht h1 tup) fun _ s2 h2 => ⟨_, h2, ?_⟩
    refine List.Perm.trans ?_ hperm
    have hcons : (tup :: rest).filter rel.formed = [tup].filter rel.formed ++ rest.filter rel.formed := by
      rw [← List.filter_append]
      rfl
    rw [hcons, ← List.append_assoc]
    exact (List.perm_append_comm).append_right _
  · rintro _ s1 ⟨acc, h1, hperm⟩
    rw [List.filter_nil, List.append_nil] at hperm
    refine valid_call _ h1 At.rely fun a ha hi => ⟨trivial, fun b r hb => ?_⟩
    cases hb
    have hnone : ∀ x ∈ a.holders, x.proc ≠ t := by
      rintro ⟨u, lock, mode⟩ hx rfl
      exact absurd ((ha.held lock mode).mp hx) List.not_mem_nil
    obtain ⟨i1, i2⟩ := hi.finish ht ha.undone hnone (ha.mine.trans hperm)
    exact ⟨i1, i2, fun _ => hi.settled ht ha.undone⟩

/-- **The leader** writes the pages when the others are done, if nobody has. -/
theorem valid_leader (hn : 0 < n) (h : At 0 [] .unknown [] s) :
    Valid (buildMachine rel) 0 (participantSpec rel n share 0) (leader rel (share 0) n)
      (fun _ _ => True) s := by
  unfold leader
  refine Valid.bind (Valid.mono (valid_scan hn h) fun _ s1 h1 => ?_)
  refine Valid.bind (Valid.mono (valid_look
    (Q := fun _ s => s.done.length = n ∧ (s.flushes = 1 → s.flushed = true)) Settled (h1 rfl)
    (fun ha hr => hr.settled rfl ha) fun a ha hi => ⟨trivial, fun b r hb => ?_⟩) fun _ s2 h2 => ?_)
  · simp only [exec] at hb
    split at hb
    · rename_i hlen
      cases hb
      refine ⟨rfl, hlen, fun hk => Bool.not_eq_false _ ▸ fun hf => ?_⟩
      obtain ⟨u, hu⟩ := ha hk hf
      obtain ⟨h3, h4⟩ := hi.who _ hu
      exact hi.not_all h3 h4 hlen
    · cases hb
  have hend : ∀ s : BuildSt T, s.done.length = n → s.flushed = true →
      Valid (buildMachine rel) 0 (participantSpec rel n share 0) (call .HnswEndParallel)
        (fun _ _ => True) s := by
    intro s hlen hf
    refine valid_call (fun s => s.done.length = n ∧ s.flushed = true) ⟨hlen, hf⟩
      (fun {a b} ha hr => by rw [hr.alone rfl ha.1]; exact ha) fun a ha hi => ⟨trivial, fun b r hb => ?_⟩
    cases hb
    obtain ⟨i1, i2⟩ := hi.endParallel ha.1 ha.2
    exact ⟨i1, i2, trivial⟩
  refine Valid.bind (Valid.mono (valid_look (Q := fun flushed s => s.done.length = n ∧
      if flushed then s.flushed = true else s.flushes = 0)
    (fun s => s.done.length = n ∧ (s.flushes = 1 → s.flushed = true)) h2
    (fun {a b} ha hr => by rw [hr.alone rfl ha.1]; exact ha) fun a ha hi => ⟨trivial, fun b r hb => ?_⟩)
    fun flushed s3 h3 => ?_)
  · cases hb
    refine ⟨rfl, ha.1, ?_⟩
    cases hf : a.flushed with
    | true => rfl
    | false =>
      have hne : a.flushes ≠ 1 := fun hk => by rw [ha.2 hk] at hf; cases hf
      have := hi.once
      show a.flushes = 0
      omega
  cases flushed with
  | true => exact hend s3 h3.1 h3.2
  | false =>
    refine Valid.bind (Valid.mono (valid_FlushPages (Or.inr ⟨rfl, h3.1⟩) h3.2) fun _ s4 h4 => ?_)
    exact hend s4 (h4.1.all rfl h3.1) h4.2

end Validity

/-! ## 5. Every interleaving -/

/-- The share of participant `t`. -/
def shareOf (shares : List (List T)) (t : Nat) : List T := (shares[t]?).getD []

theorem start_inv (rel : BuildRel T) (memoryTotal : Nat) (shares : List (List T)) :
    BuildInv rel shares.length (shareOf shares) (startConfig rel memoryTotal shares).shared where
  locks := List.Pairwise.nil
  who := fun _ hx => absurd hx List.not_mem_nil
  doneNodup := List.nodup_nil
  doneLt := fun _ hx => absurd hx List.not_mem_nil
  once := Nat.zero_le 1
  flushed := fun h => nomatch h
  written := fun _ h => nomatch h
  midway := fun h => nomatch h
  onDisk := fun h => absurd rfl h
  tags := fun _ hx => absurd hx List.not_mem_nil
  finished := fun _ hx => absurd hx List.not_mem_nil
  ended := fun h => nomatch h

theorem start_at (rel : BuildRel T) (memoryTotal : Nat) (shares : List (List T)) (t : Nat) :
    At t [] .unknown [] (startConfig rel memoryTotal shares).shared where
  held _ _ := Iff.rfl.trans (by simp [startConfig])
  undone := List.not_mem_nil
  mine := List.Perm.refl _
  knows := trivial

/-- The participants may start. -/
theorem start_good (rel : BuildRel T) (memoryTotal : Nat) (shares : List (List T)) :
    Good (buildMachine rel) (participantSpec rel shares.length (shareOf shares))
      (startConfig rel memoryTotal shares) where
  inv _ := start_inv rel memoryTotal shares
  valid t p hp := by
    cases shares with
    | nil => cases hp
    | cons share shares =>
      have hat := start_at rel memoryTotal (share :: shares) t
      cases t with
      | zero =>
        cases hp
        exact valid_leader (Nat.succ_pos _) hat
      | succ t =>
        simp only [startConfig, participants, List.getElem?_cons_succ, List.getElem?_map] at hp
        obtain ⟨l, hl, rfl⟩ := Option.map_eq_some_iff.mp hp
        have hlt : t < shares.length := (List.getElem?_eq_some_iff.mp hl).1
        have hshare : shareOf (share :: shares) (t + 1) = l := by
          simp [shareOf, hl]
        rw [← hshare]
        refine Valid.mono (valid_scan (Nat.succ_lt_succ hlt) hat) fun _ _ _ => trivial

theorem run_good {rel : BuildRel T} {memoryTotal : Nat} {shares : List (List T)}
    {c : Config (Op T) Op.Resp (BuildSt T)}
    (h : Run (buildMachine rel) (fun _ _ _ => True) (startConfig rel memoryTotal shares) c) :
    Good (buildMachine rel) (participantSpec rel shares.length (shareOf shares)) c :=
  valid_run (fun _ _ => Iff.rfl) (fun t s => Rely.refl _ t s) (fun _ _ _ _ => Rely.trans)
    (fun _ u hne _ _ hg => hg u (Ne.symm hne)) (fun _ _ _ _ => trivial) (start_good rel memoryTotal shares) h

/-- **The flush protocol of parallel builds.** Whatever the number of participants, what the scan hands to
    each and how they interleave: the pages are written at most once; from the moment that begins nothing is
    allocated or linked in memory; what goes straight into the index goes there after it; what is written is
    the graph with every tuple ever linked in memory. When the leader has ended the build the pages have been
    written, exactly once, and the tuples of each participant's share that have a value are in the graph or in
    the index, each exactly once. -/
theorem flush_protocol (rel : BuildRel T) (memoryTotal : Nat) (shares : List (List T))
    (c : Config (Op T) Op.Resp (BuildSt T))
    (h : Run (buildMachine rel) (fun _ _ _ => True) (startConfig rel memoryTotal shares) c) :
    c.shared.flushes ≤ 1 ∧
    (∀ t tup, c.next t = some (.HnswInitElement tup) ∨ c.next t = some (.UpdateGraphInMemory tup) ∨
      c.next t = some (.UpdateNeighborsInMemory tup) ∨ c.next t = some .CreateMetaPage →
      c.shared.flushes = 0) ∧
    (∀ t tup, c.next t = some (.HnswInsertTupleOnDisk tup) → c.shared.flushed = true) ∧
    (∀ pages, c.shared.written = some pages → pages = c.shared.graph) ∧
    (c.shared.ended = true → c.shared.flushes = 1 ∧ c.shared.flushed = true ∧
      c.shared.written = some c.shared.graph ∧
      (∀ p ∈ c.shared.graph ++ c.shared.onDisk, p.1 < shares.length) ∧
      ∀ t, (mine t c.shared).Perm ((shareOf shares t).filter rel.formed)) := by
  have hg := run_good h
  have hi := hg.inv 0
  have hsafe : ∀ t o, c.next t = some o → Safe c.shared o :=
    fun t o hn => hg.safe (fun t s => Rely.refl _ t s) hn trivial
  refine ⟨hi.once, fun t tup hn => ?_, fun t tup hn => hsafe t _ hn, fun l hl => (hi.written l hl).1,
    fun he => ?_⟩
  · rcases hn with hn | hn | hn | hn <;> exact hsafe t _ hn
  · obtain ⟨hf, hlen⟩ := hi.ended he
    refine ⟨(hi.flushed hf).1, hf, (hi.flushed hf).2, hi.tags, fun t => ?_⟩
    by_cases ht : t < shares.length
    · exact hi.finished t (Classical.not_not.mp fun hd => hi.not_all ht hd hlen)
    · have hnone : ∀ l : List (Nat × T), (∀ p ∈ l, p.1 < shares.length) →
          l.filter (fun p => p.1 == t) = [] := by
        intro l hl
        refine List.filter_eq_nil_iff.mpr fun p hp he => ht ?_
        rw [← eq_of_beq he]
        exact hl p hp
      have h1 := hnone _ fun p hp => hi.tags p (List.mem_append_left _ hp)
      have h2 := hnone _ fun p hp => hi.tags p (List.mem_append_right _ hp)
      have hshare : shareOf shares t = [] := by
        simp [shareOf, List.getElem?_eq_none (Nat.le_of_not_lt ht)]
      simp [mine, h1, h2, hshare]

/-- A build with an area for one element: both participants find the memory exhausted, participant 1 gets the
    flush lock first, and the tuple without a value is skipped. -/
theorem flush_protocol_race :
    ∃ c, Run (buildMachine ⟨fun n : Nat => n != 0, fun _ => 1⟩) (fun _ _ _ => True)
        (startConfig ⟨fun n => n != 0, fun _ => 1⟩ 1 [[1, 2], [0, 3]]) c ∧
      c.shared.ended = true ∧ c.shared.flushes = 1 ∧ (mine 1 c.shared).Perm [3] := by
  obtain ⟨c, hrun, hend⟩ := run_of_check (M := buildMachine ⟨fun n : Nat => n != 0, fun _ => 1⟩)
    (fun _ _ _ => True) (fun _ _ _ => true)
    (List.replicate 14 0 ++ [1, 1, 0, 1, 1, 1, 0, 1, 1, 1, 1, 1, 1, 1, 1, 1, 0, 0, 0, 0, 0, 1, 1, 0, 0, 0, 0])
    (c := startConfig ⟨fun n : Nat => n != 0, fun _ => 1⟩ 1 [[1, 2], [0, 3]]) (fun c => c.shared.ended)
    (fun _ _ _ _ => trivial) (by decide +kernel)
  obtain ⟨_, _, _, _, h⟩ := flush_protocol _ 1 [[1, 2], [0, 3]] c hrun
  obtain ⟨h1, _, _, _, h2⟩ := h hend
  exact ⟨c, hrun, hend, h1, h2 1⟩

end Pgvec.Hnsw.FlushProtocol
