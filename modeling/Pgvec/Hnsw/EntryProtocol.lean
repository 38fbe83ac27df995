/-
  File:      Pgvec/Hnsw/EntryProtocol.lean
  Subject:   THE ENTRY POINT IN A PARALLEL BUILD (`InsertTupleInMemory`, `UpdateGraphInMemory` of
             `hnswbuild.c`): any number of workers on one graph in memory, interleaved operation by
             operation.

  `entryLock` and `entryWaitLock` are locks of the machine. What the source does under the lock of a single
  element (copy an array, add a connection, add a heap TID) or under the spinlock of the list is one
  operation. The level and the value of an element never change once it is in the list, so they come with
  each reference to it.

  * `InsertTupleInMemory` -- the program, lock by lock, over the search of `HnswFindElementNeighbors`;
  * `looks_findNeighbors` -- the search only looks, and from an entry point it finds a neighbor on layer 0;
  * `EntryInv` -- the invariant; `workerSpec` -- what a worker relies on;
  * **`entry_protocol`** -- while nobody holds `entryLock` in exclusive mode the entry point is the highest
    element, its level never falls, and at most one element is added without a neighbor.
-/
import Pgvec.Machine.Logic
import Pgvec.Machine.LWLock
import Pgvec.Hnsw.MemoryBuild

namespace Pgvec.Hnsw.EntryProtocol

open Conc LWLock PairingHeap

/-! ## 1. The programs -/

/-- The two locks of the entry point. -/
inductive EntryLock where
  | entryLock | entryWaitLock
  deriving DecidableEq, Repr

/-- A reference to an element of the list, with what never changes of it. -/
structure MemRef (V : Type) where
  id : Nat
  level : Nat
  value : V

/-- The shared state: who holds the locks, and the graph; `alone` counts the elements added without a
    neighbor on layer 0. -/
structure MemSt (V δ : Type) where
  holders : List (Held EntryLock)
  graph : HnswGraph V δ
  alone : Nat

/-- The operations on it. -/
inductive Op (V δ : Type) : Type where
  | LWLockAcquire (lock : EntryLock) (mode : Mode)
  | LWLockRelease (lock : EntryLock)
  | getEntryPoint
  | copyNeighbors (i lc : Nat)
  | AddDuplicateInMemory (dup : Nat) (heaptid : ItemPointer)
  | AddElementInMemory (e : MemElement V δ)
  | HnswUpdateConnection (newElement lc : Nat) (hc : HnswCandidate Nat δ)
  | setEntryPoint (i : Nat)

/-- What an operation answers. -/
@[reducible] def Op.Resp {V δ : Type} : Op V δ → Type
  | .getEntryPoint => Option (MemRef V)
  | .copyNeighbors _ _ => List (MemRef V × HnswCandidate Nat δ)
  | .AddDuplicateInMemory _ _ => Bool
  | .AddElementInMemory _ => Nat
  | _ => Unit

variable {V δ : Type}

/-- The reference to element `i`. -/
def ref (g : HnswGraph V δ) (i : Nat) : Option (MemRef V) :=
  (g.elements[i]?).map fun e => ⟨i, e.level, e.value⟩

/-- A copy of the layer-`lc` array of element `i`. An assertion of the source says that the element has the
    layer. -/
def copyOf (g : HnswGraph V δ) (i lc : Nat) : List (MemRef V × HnswCandidate Nat δ) :=
  match (g.elements[i]?).bind fun e => e.neighbors[lc]? with
  | none => []
  | some a => a.items.filterMap fun hc => (ref g hc.element).map fun r => (r, hc)

variable [LinearOrder δ]

/-- **What an operation does** when worker `t` runs it. -/
def exec (mem : MemSpace) (support : HnswSupport V δ) (m t : Nat) :
    (o : Op V δ) → MemSt V δ → Option (MemSt V δ × o.Resp)
  | .LWLockAcquire lock mode, s =>
      if LWLock.mustWait s.holders lock mode then none
      else some ({ s with holders := ⟨t, lock, mode⟩ :: s.holders }, ())
  | .LWLockRelease lock, s => some ({ s with holders := release s.holders t lock }, ())
  | .getEntryPoint, s => some (s, s.graph.entryPoint.bind (ref s.graph))
  | .copyNeighbors i lc, s => some (s, copyOf s.graph i lc)
  | .AddDuplicateInMemory dup heaptid, s =>
      if (s.graph.elements[dup]?).any fun e => decide (e.heaptids.length = HNSW_HEAPTIDS) then some (s, false)
      else some ({ s with graph := Hnsw.AddDuplicateInMemory s.graph dup heaptid }, true)
  | .AddElementInMemory e, s =>
      some ({ s with
        graph := Hnsw.AddElementInMemory s.graph e
        alone := if (e.layer 0).getD [] = [] then s.alone + 1 else s.alone }, s.graph.elements.length)
  | .HnswUpdateConnection newElement lc hc, s =>
      some ({ s with graph := updateConnectionInMemory mem support m newElement lc s.graph hc }, ())
  | .setEntryPoint i, s => some ({ s with graph := { s.graph with entryPoint := some i } }, ())

/-- The machine of the workers; none of their operations fails. -/
def memMachine (mem : MemSpace) (support : HnswSupport V δ) (m : Nat) :
    Machine (Op V δ) Op.Resp (MemSt V δ) := .plain (exec mem support m)

/-- A program of a worker. -/
abbrev MemProg (V δ α : Type) : Type := Prog (Op V δ) Op.Resp α

/-- One operation. -/
def call (o : Op V δ) : MemProg V δ o.Resp := .op o .ret

/-- The in-memory branches of `HnswSearchLayer`. -/
def searchEnv (mem : MemSpace) (support : HnswSupport V δ) (q : V) (lc : Nat) :
    SearchEnv (Prog (Op V δ) Op.Resp) (MemRef V) (MemRef V) Nat δ where
  loadUnvisited r v := do
    let neighborhood ← call (.copyNeighbors r.id lc)
    return unvisitedOf (fun r => mem.visitedKey r.id) (neighborhood.map (·.1)) v
  loadElement r _ := .ret (some r, support.distance q r.value)
  visitedKey r := mem.visitedKey r.id
  level r := r.level
  countElement _ := true

/-- The in-memory branches of `HnswFindElementNeighbors`. -/
def findEnv (mem : MemSpace) (support : HnswSupport V δ) (q : V) (m : Nat) :
    FindEnv (Prog (Op V δ) Op.Resp) (MemRef V) (MemRef V) Nat δ where
  layer := searchEnv mem support q
  removeElements := id
  ptr r := mem.addr r.id
  pairDistance a b := valueDistance support (some a.value) (some b.value)
  toFloat := support.toFloat
  m := m

/-- `FindDuplicateInMemory`, over the element's own layer-0 array. -/
def FindDuplicateInMemory [DecidableEq V] (value : V) (heaptid : ItemPointer) :
    List (HnswCandidate (MemRef V) δ) → MemProg V δ Bool
  | [] => .ret false
  | hc :: rest =>
      -- exit early since ordered by distance
      if hc.element.value ≠ value then .ret false
      else do
        -- check for space
        if ← call (.AddDuplicateInMemory hc.element.id heaptid) then return true
        FindDuplicateInMemory value heaptid rest

/-- `UpdateNeighborsInMemory`, from the top layer of the new element down. -/
def UpdateNeighborsInMemory (newElement level : Nat) : MemProg V δ Unit :=
  (List.range (level + 1)).reverse.foldlM (fun _ lc => do
    let neighbors ← call (.copyNeighbors newElement lc)
    neighbors.foldlM (fun _ p => call (.HnswUpdateConnection newElement lc p.2)) ()) ()

/-- `entryPoint == NULL || element->level > entryPoint->level`. -/
def above (entryPoint : Option (MemRef V)) (level : Nat) : Bool :=
  entryPoint.all fun ep => decide (ep.level < level)

/-- The array with the elements' numbers, as it is stored. -/
def stored (a : HnswNeighborArray (MemRef V) δ) : HnswNeighborArray Nat δ :=
  ⟨a.items.map fun hc => ⟨hc.element.id, hc.distance, hc.closer⟩, a.closerSet⟩

/-- `UpdateGraphInMemory`, for an element with the arrays `neighbors`. -/
def UpdateGraphInMemory [DecidableEq V] (value : V) (heaptid : ItemPointer) (level : Nat) (entryPoint : Option (MemRef V))
    (neighbors : List (HnswNeighborArray (MemRef V) δ)) : MemProg V δ Unit := do
  -- look for duplicate
  if ← FindDuplicateInMemory value heaptid ((neighbors[0]?).map (·.items) |>.getD []) then return
  let newElement ← call (.AddElementInMemory ⟨[heaptid], level, 1, value, neighbors.map stored⟩)
  UpdateNeighborsInMemory newElement level
  -- update entry point if needed (already have lock)
  if above entryPoint level then call (.setEntryPoint newElement)

/-- The entry point to start from, with `entryLock` held: in exclusive mode when the element is likely to
    become the entry point. -/
def lockEntryPoint (level : Nat) : MemProg V δ (Option (MemRef V)) := do
  -- wait if another process needs exclusive lock on entry lock
  call (.LWLockAcquire .entryWaitLock .LW_EXCLUSIVE)
  call (.LWLockRelease .entryWaitLock)
  call (.LWLockAcquire .entryLock .LW_SHARED)
  let entryPoint ← call .getEntryPoint
  if above entryPoint level then
    call (.LWLockRelease .entryLock)
    -- tell other processes to wait and get exclusive lock
    call (.LWLockAcquire .entryWaitLock .LW_EXCLUSIVE)
    call (.LWLockAcquire .entryLock .LW_EXCLUSIVE)
    call (.LWLockRelease .entryWaitLock)
    -- get latest entry point after lock is acquired
    call .getEntryPoint
  else return entryPoint

/-- **`InsertTupleInMemory`**, for a value with the level drawn as `rnd`. -/
def InsertTupleInMemory [DecidableEq V] (mem : MemSpace) (rel : HnswRel V δ) (m budget : Nat) (tup : MemCall V) :
    MemProg V δ Unit := do
  let level := min tup.rnd (HnswGetMaxLevel m)
  let entryPoint ← lockEntryPoint level
  -- find neighbors for element
  let found ← HnswFindElementNeighbors (findEnv mem rel.support tup.value m) level
    (entryPoint.map fun ep => .ret ⟨ep, rel.support.distance tup.value ep.value⟩) rel.efConstruction false budget
  UpdateGraphInMemory tup.value tup.heaptid level entryPoint found.2
  call (.LWLockRelease .entryLock)

/-- A worker: one call after the other. -/
def worker [DecidableEq V] (mem : MemSpace) (rel : HnswRel V δ) (m budget : Nat)
    (share : List (MemCall V)) : MemProg V δ Unit :=
  share.foldlM (fun _ tup => InsertTupleInMemory mem rel m budget tup) ()

/-- The start of the in-memory phase. -/
def startConfig [DecidableEq V] (mem : MemSpace) (rel : HnswRel V δ) (m budget : Nat) (shares : List (List (MemCall V))) :
    Config (Op V δ) Op.Resp (MemSt V δ) where
  shared := ⟨[], InitGraph, 0⟩
  threads := shares.map (worker mem rel m budget)

/-! ## 2. The search only looks, and finds a neighbor -/

/-- Copying an array changes nothing. -/
def IsCopy : Op V δ → Prop
  | .copyNeighbors _ _ => True
  | _ => False

section Search

variable {mem : MemSpace} {support : HnswSupport V δ} {q : V} {ef lc budget : Nat}

/-- `W` never runs empty. -/
theorem looks_searchLoop : ∀ (n : Nat) {s : SearchState (MemRef V) Nat δ}, s.W ≠ none →
    Looks IsCopy (fun s => s.W ≠ none) (searchLoop (searchEnv mem support q lc) ef lc n s)
  | 0, _, _ => trivial
  | n + 1, s, hW => by
      unfold searchLoop
      split
      · exact hW
      · exact hW
      · split
        · exact hW
        · refine Looks.bind (Looks.mono (Q := fun _ => True) ⟨trivial, fun _ => trivial⟩ fun r _ => ?_)
          refine Looks.bind (Looks.mono (Looks.foldlM (Q := fun s : SearchState (MemRef V) Nat δ => s.W ≠ none)
            r.1 hW fun s u hs => ?_) fun s' hs' => looks_searchLoop n hs')
          rcases visit_or (searchEnv mem support q lc) ef lc s (some u) (support.distance q u.value) with h | h
          · show (visit _ ef lc s (some u) _).W ≠ none
            rw [h]
            exact hs
          · obtain ⟨e, f, _, h⟩ := h
            exact h.W_ne_none hs

theorem looks_searchLayer {ep : List (HnswSearchCandidate (MemRef V) δ)} (hne : ep ≠ []) :
    Looks IsCopy (fun r => r.w ≠ []) (HnswSearchLayer (searchEnv mem support q lc) ep ef lc [] none true 0 budget) := by
  refine Looks.bind (Looks.mono (looks_searchLoop budget (searchStart_W_ne hne)) fun s hs hw => hs ?_)
  have hp := searchEnd_perm s
  rw [hw] at hp
  exact toList_eq_nil.mp (List.nil_perm.mp hp)

theorem looks_greedyPhase {m level : Nat} : ∀ (lc : Nat) {ep : List (HnswSearchCandidate (MemRef V) δ)},
    ep ≠ [] → Looks IsCopy (fun ep => ep ≠ []) (greedyPhase (findEnv mem support q m) level budget lc ep)
  | 0, _, hne => hne
  | lc + 1, ep, hne => by
      unfold greedyPhase
      split
      · exact Looks.bind (Looks.mono (looks_searchLayer hne) fun r hr => looks_greedyPhase lc hr)
      · exact hne

/-- The array of layer 0 is not empty. -/
theorem layerNeighbors_ne {m : Nat} (hm : 0 < m) {w : List (HnswSearchCandidate (MemRef V) δ)} (hne : w ≠ []) :
    (layerNeighbors (findEnv mem support q m) 0 w).items ≠ [] := by
  have hlm : 0 < HnswGetLayerM m 0 := by
    simp only [HnswGetLayerM, if_true]
    omega
  exact select_ne (by simpa [findEnv] using hne) hlm false _ false

theorem looks_connectPhase {m : Nat} (hm : 0 < m) : ∀ (lc : Nat) {ep : List (HnswSearchCandidate (MemRef V) δ)},
    ep ≠ [] → Looks IsCopy (fun arrays => ∃ a, arrays[0]? = some a ∧ a.items ≠ [])
      (connectPhase (findEnv mem support q m) ef budget lc ep)
  | 0, ep, hne => Looks.bind (Looks.mono (looks_searchLayer hne) fun r hr => ⟨_, rfl, layerNeighbors_ne hm hr⟩)
  | lc + 1, ep, hne => by
      refine Looks.bind (Looks.mono (looks_searchLayer hne) fun r hr => ?_)
      refine Looks.bind (Looks.mono (looks_connectPhase hm lc hr) fun lower ⟨a, ha, hne'⟩ => ⟨a, ?_, hne'⟩)
      rw [List.getElem?_append_left (List.getElem?_eq_some_iff.mp ha).1]
      exact ha

/-- **`HnswFindElementNeighbors` only looks**, and with an entry point it finds a neighbor on layer 0. -/
theorem looks_findNeighbors {m : Nat} (hm : 0 < m) (level : Nat) (entryPoint : Option (MemRef V)) :
    Looks IsCopy (fun found => entryPoint ≠ none → ∃ a, found.2[0]? = some a ∧ a.items ≠ [])
      (HnswFindElementNeighbors (findEnv mem support q m) level
        (entryPoint.map fun ep => .ret ⟨ep, support.distance q ep.value⟩) ef false budget) := by
  cases entryPoint with
  | none => exact fun h => absurd rfl h
  | some ep =>
      show Looks IsCopy _ (greedyPhase (findEnv mem support q m) level budget ep.level
        [⟨ep, support.distance q ep.value⟩] >>= _)
      refine Looks.bind (Looks.mono (looks_greedyPhase _ (List.cons_ne_nil _ _)) fun ep' hep' => ?_)
      refine Looks.bind (Looks.mono (looks_connectPhase hm _ hep') fun arrays ⟨a, ha, hne⟩ _ => ⟨a, ?_, hne⟩)
      rw [List.getElem?_append_left (List.getElem?_eq_some_iff.mp ha).1]
      exact ha

end Search

/-! ## 3. The invariant -/

/-- The levels of the elements, in the order they were added. -/
def levels (s : MemSt V δ) : List Nat := s.graph.elements.map (·.level)

/-- **The entry point is the highest element**; there is none only while the list is empty. -/
def EntryTop (s : MemSt V δ) : Prop :=
  match s.graph.entryPoint with
  | none => levels s = []
  | some i => ∃ l, (levels s)[i]? = some l ∧ ∀ k ∈ levels s, k ≤ l

/-- Worker `t` holds the entry lock in this mode. -/
def Holds (t : Nat) (mode : Mode) (s : MemSt V δ) : Prop :=
  (⟨t, .entryLock, mode⟩ : Held EntryLock) ∈ s.holders

/-- **The invariant of the shared state.** -/
structure EntryInv (s : MemSt V δ) : Prop where
  locks : Compatible s.holders
  valid : ∀ i, s.graph.entryPoint = some i → i < (levels s).length
  top : (∀ t, ¬ Holds t .LW_EXCLUSIVE s) → EntryTop s
  once : s.alone ≤ 1
  nonempty : s.alone = 1 → levels s ≠ []

/-- **What worker `t` relies on.** -/
structure Rely (t : Nat) (s s' : MemSt V δ) : Prop where
  holders : ∀ {h : Held EntryLock}, h.proc = t → (h ∈ s'.holders ↔ h ∈ s.holders)
  grows : levels s <+: levels s'
  entry : ∀ {mode}, Holds t mode s → s'.graph.entryPoint = s.graph.entryPoint
  excl : Holds t .LW_EXCLUSIVE s → levels s' = levels s

omit [LinearOrder δ] in
theorem Rely.refl (t : Nat) (s : MemSt V δ) : Rely t s s where
  holders _ := Iff.rfl
  grows := List.prefix_refl _
  entry _ := rfl
  excl _ := rfl

omit [LinearOrder δ] in
theorem Rely.trans {t : Nat} {a b c : MemSt V δ} (h : Rely t a b) (h' : Rely t b c) : Rely t a c where
  holders hp := (h'.holders hp).trans (h.holders hp)
  grows := h.grows.trans h'.grows
  entry hm := (h'.entry ((h.holders rfl).mpr hm)).trans (h.entry hm)
  excl hm := (h'.excl ((h.holders rfl).mpr hm)).trans (h.excl hm)

/-- The entry point goes up only, and an element without a neighbor on layer 0 is the first one. -/
def Safe (s : MemSt V δ) : Op V δ → Prop
  | .setEntryPoint i => ∃ l, (levels s)[i]? = some l ∧ ∀ k ∈ levels s, k ≤ l
  | .AddElementInMemory e => (e.layer 0).getD [] = [] → levels s = []
  | _ => True

/-- The specification of worker `t`. -/
def workerSpec (t : Nat) : Spec (Op V δ) (MemSt V δ) where
  inv := EntryInv
  rely := Rely t
  guar s s' := ∀ u, u ≠ t → Rely u s s'
  allow _ _ := True
  safe := Safe
  commit _ := True
  errors := False
  cuts := True

/-! ## 4. One operation at a time -/

section Steps

variable {t : Nat} {s s' : MemSt V δ}

omit [LinearOrder δ] in
/-- Changing an element but not its level. -/
theorem levels_modify (g : HnswGraph V δ) (i : Nat) {f : MemElement V δ → MemElement V δ}
    (hf : ∀ e, (f e).level = e.level) :
    (g.modify i f).elements.map (·.level) = g.elements.map (·.level) := by
  refine List.ext_getElem? fun j => ?_
  simp only [HnswGraph.modify, List.getElem?_map, List.getElem?_modify]
  cases g.elements[j]? with
  | none => rfl
  | some e =>
    by_cases h : i = j
    · simp [h, hf]
    · simp [h]

omit [LinearOrder δ] in
theorem EntryInv.acquire (h : EntryInv s) {lock : EntryLock} {mode : Mode}
    (hw : LWLock.mustWait s.holders lock mode = false) :
    EntryInv { s with holders := ⟨t, lock, mode⟩ :: s.holders } ∧
      ∀ u, u ≠ t → Rely u s { s with holders := ⟨t, lock, mode⟩ :: s.holders } := by
  refine ⟨{ h with
    locks := h.locks.cons hw
    top := fun hn => h.top fun u hu => hn u (List.mem_cons_of_mem _ hu) }, fun u hu => ?_⟩
  refine ⟨fun hp => ⟨fun hm => (List.mem_cons.mp hm).resolve_left ?_, List.mem_cons_of_mem _⟩,
    List.prefix_refl _, fun _ => rfl, fun _ => rfl⟩
  rintro rfl
  exact hu hp.symm

omit [LinearOrder δ] in
/-- A lock is given back; the entry lock in exclusive mode only when the entry point is the highest. -/
theorem EntryInv.release (h : EntryInv s) (lock : EntryLock)
    (hd : lock = .entryLock → Holds t .LW_EXCLUSIVE s → EntryTop s) :
    EntryInv { s with holders := LWLock.release s.holders t lock } ∧
      ∀ u, u ≠ t → Rely u s { s with holders := LWLock.release s.holders t lock } := by
  refine ⟨{ h with
    locks := h.locks.release t lock
    top := fun hn => ?_ }, fun u hu => ?_⟩
  · by_cases hx : lock = .entryLock ∧ Holds t .LW_EXCLUSIVE s
    · exact hd hx.1 hx.2
    · refine h.top fun u hu => hn u (mem_release.mpr ⟨hu, ?_⟩)
      rintro ⟨rfl, rfl⟩
      exact hx ⟨rfl, hu⟩
  · refine ⟨fun hp => mem_release_of_ne (Or.inl ?_), List.prefix_refl _, fun _ => rfl, fun _ => rfl⟩
    rw [hp]
    exact hu

omit [LinearOrder δ] in
/-- Levels and entry point stay. -/
theorem EntryInv.quiet (h : EntryInv s) {g : HnswGraph V δ}
    (hl : g.elements.map (·.level) = s.graph.elements.map (·.level)) (he : g.entryPoint = s.graph.entryPoint) :
    EntryInv { s with graph := g } ∧ ∀ u, Rely u s { s with graph := g } := by
  have hlev : levels { s with graph := g } = levels s := hl
  refine ⟨⟨h.locks, fun i hi => ?_, fun hn => ?_, h.once, fun ha => ?_⟩,
    fun u => ⟨fun _ => Iff.rfl, ?_, fun _ => he, fun _ => hlev⟩⟩
  · rw [hlev]
    exact h.valid i (he ▸ hi)
  · have := h.top hn
    unfold EntryTop at this ⊢
    rw [hlev]
    simpa only [he] using this
  · rw [hlev]
    exact h.nonempty ha
  · rw [hlev]

omit [LinearOrder δ] in
/-- An element enters the list, by somebody with the entry lock. -/
theorem EntryInv.add (h : EntryInv s) {e : MemElement V δ} {mode : Mode} (hm : Holds t mode s)
    (hsafe : Safe s (.AddElementInMemory e))
    (htop : mode = .LW_SHARED → EntryTop { s with graph := Hnsw.AddElementInMemory s.graph e }) {k : Nat}
    (hk : k = if (e.layer 0).getD [] = [] then s.alone + 1 else s.alone) :
    EntryInv { s with graph := Hnsw.AddElementInMemory s.graph e, alone := k } ∧
      ∀ u, u ≠ t → Rely u s { s with graph := Hnsw.AddElementInMemory s.graph e, alone := k } := by
  have hlev : levels { s with graph := Hnsw.AddElementInMemory s.graph e, alone := k } = levels s ++ [e.level] := by
    simp [levels, Hnsw.AddElementInMemory]
  refine ⟨⟨h.locks, fun i hi => ?_, fun hn => ?_, ?_, fun _ => ?_⟩, fun u hu =>
    ⟨fun _ => Iff.rfl, ?_, fun _ => rfl, fun hx => ?_⟩⟩
  · rw [hlev, List.length_append]
    exact Nat.lt_add_right _ (h.valid i hi)
  · cases mode with
    | LW_SHARED => exact htop rfl
    | LW_EXCLUSIVE => exact absurd hm (hn t)
  · rw [hk]
    split
    · rename_i hnil
      have h1 : s.alone ≠ 1 := fun h1 => h.nonempty h1 (hsafe hnil)
      have := h.once
      show s.alone + 1 ≤ 1
      omega
    · exact h.once
  · rw [hlev]
    simp
  · rw [hlev]
    exact List.prefix_append _ _
  · exact absurd (congrArg Held.proc (h.locks.alone hx _ hm rfl)) (Ne.symm hu)

omit [LinearOrder δ] in
/-- The entry point changes, by somebody with the entry lock in exclusive mode. -/
theorem EntryInv.set (h : EntryInv s) {i : Nat} (hm : Holds t .LW_EXCLUSIVE s) (hsafe : Safe s (.setEntryPoint i)) :
    EntryInv { s with graph := { s.graph with entryPoint := some i } } ∧
      ∀ u, u ≠ t → Rely u s { s with graph := { s.graph with entryPoint := some i } } := by
  obtain ⟨l, hl, _⟩ := hsafe
  refine ⟨⟨h.locks, fun j hj => ?_, fun hn => absurd hm (hn t), h.once, h.nonempty⟩, fun u hu =>
    ⟨fun _ => Iff.rfl, List.prefix_refl _, fun hx => ?_, fun _ => rfl⟩⟩
  · cases hj
    exact (List.getElem?_eq_some_iff.mp hl).1
  · exact absurd (congrArg Held.proc (h.locks.alone hm _ hx rfl)) hu

end Steps

/-! ## 5. The programs are valid -/

/-- The entry point as it was read is still the entry point. -/
structure Entry (ep : Option (MemRef V)) (s : MemSt V δ) : Prop where
  eq : s.graph.entryPoint = ep.map (·.id)
  level : ∀ r, ep = some r → (levels s)[r.id]? = some r.level

/-- Worker `t` may search from `ep` and insert an element of this level: it holds the entry lock, in exclusive
    mode when the element goes above the entry point. -/
structure Ready (t level : Nat) (ep : Option (MemRef V)) (mode : Mode) (s : MemSt V δ) : Prop where
  held : Owns s.holders t [(.entryLock, mode)]
  entry : Entry ep s
  shared : mode = .LW_SHARED → above ep level = false
  top : mode = .LW_EXCLUSIVE → EntryTop s

/-- The element `i` is in the list; the entry point still has to be set if the element goes above it. -/
structure Placed (t level : Nat) (ep : Option (MemRef V)) (i : Nat) (mode : Mode) (s : MemSt V δ) : Prop where
  held : Owns s.holders t [(.entryLock, mode)]
  pending : above ep level = true →
    mode = .LW_EXCLUSIVE ∧ (levels s)[i]? = some level ∧ ∀ k ∈ levels s, k ≤ level
  top : above ep level = false → mode = .LW_EXCLUSIVE → EntryTop s

section Validity

variable {mem : MemSpace} {support : HnswSupport V δ} {m t level i : Nat} {ep : Option (MemRef V)} {mode : Mode}
  {s s' : MemSt V δ}

omit [LinearOrder δ] in
theorem EntryTop.congr (h : EntryTop s) (hl : levels s' = levels s)
    (he : s'.graph.entryPoint = s.graph.entryPoint) : EntryTop s' := by
  unfold EntryTop at h ⊢
  rw [he, hl]
  exact h

omit [LinearOrder δ] in
theorem EntryTop.rely (h : EntryTop s) (hm : Holds t .LW_EXCLUSIVE s) (hr : Rely t s s') : EntryTop s' :=
  h.congr (hr.excl hm) (hr.entry hm)

omit [LinearOrder δ] in
theorem Ready.holds (h : Ready t level ep mode s) : Holds t mode s := (h.held _ _).mpr List.mem_cons_self

omit [LinearOrder δ] in
theorem Ready.rely (h : Ready t level ep mode s) (hr : Rely t s s') : Ready t level ep mode s' where
  held := h.held.congr hr.holders
  entry := by
    refine ⟨(hr.entry h.holds).trans h.entry.eq, fun r hep => ?_⟩
    obtain ⟨l, hl⟩ := hr.grows
    have hlev := h.entry.level r hep
    rw [← hl, List.getElem?_append_left (List.getElem?_eq_some_iff.mp hlev).1]
    exact hlev
  shared := h.shared
  top := by
    rintro rfl
    exact (h.top rfl).rely h.holds hr

omit [LinearOrder δ] in
theorem Placed.rely (h : Placed t level ep i mode s) (hr : Rely t s s') : Placed t level ep i mode s' where
  held := h.held.congr hr.holders
  pending ha := by
    obtain ⟨rfl, h1, h2⟩ := h.pending ha
    rw [hr.excl ((h.held _ _).mpr List.mem_cons_self)]
    exact ⟨rfl, h1, h2⟩
  top ha := by
    rintro rfl
    exact (h.top ha rfl).rely ((h.held _ _).mpr List.mem_cons_self) hr

omit [LinearOrder δ] in
/-- What `getEntryPoint` answers. -/
theorem EntryInv.entry (h : EntryInv s) : Entry (s.graph.entryPoint.bind (ref s.graph)) s := by
  cases he : s.graph.entryPoint with
  | none => exact ⟨he, fun r hr => nomatch hr⟩
  | some i =>
    have hlt := h.valid i he
    simp only [levels, List.length_map] at hlt
    refine ⟨?_, fun r hr => ?_⟩
    · simp [ref, he, List.getElem?_eq_getElem hlt]
    · simp only [Option.bind_some, ref, List.getElem?_eq_getElem hlt, Option.map_some] at hr
      cases hr
      simp [levels, List.getElem?_eq_getElem hlt]

omit [LinearOrder δ] in
/-- Whoever may insert has an entry point that is the highest. -/
theorem Ready.entryTop (h : Ready t level ep mode s) (hi : EntryInv s) : EntryTop s := by
  cases mode with
  | LW_SHARED => exact hi.top (hi.locks.none_exclusive h.holds)
  | LW_EXCLUSIVE => exact h.top rfl

/-- **An operation on arrays and heap TIDs** keeps whatever the others keep. -/
theorem valid_quiet {o : Op V δ} (P : MemSt V δ → Prop) (hs : P s) (hP : ∀ {a b}, P a → Rely t a b → P b)
    (hsafe : ∀ a, Safe a o)
    (ho : ∀ a b r, exec mem support m t o a = some (b, r) →
      ∃ g : HnswGraph V δ, b = { a with graph := g } ∧
        g.elements.map (·.level) = a.graph.elements.map (·.level) ∧ g.entryPoint = a.graph.entryPoint) :
    Valid (memMachine mem support m) t (workerSpec t) (call o) (fun _ => P) s := by
  refine Valid.plain P hs hP fun a ha hi => ⟨hsafe a, fun b r hb => ?_⟩
  obtain ⟨g, rfl, hl, he⟩ := ho a b r hb
  obtain ⟨h1, h2⟩ := EntryInv.quiet hi hl he
  exact ⟨h1, fun u _ => h2 u, hP ha (h2 t)⟩

theorem valid_copy (P : MemSt V δ → Prop) (hs : P s) (hP : ∀ {a b}, P a → Rely t a b → P b) (i lc : Nat) :
    Valid (memMachine mem support m) t (workerSpec t) (call (.copyNeighbors i lc)) (fun _ => P) s := by
  refine valid_quiet P hs hP (fun _ => trivial) fun a b r hb => ?_
  cases hb
  exact ⟨_, rfl, rfl, rfl⟩

theorem valid_addDuplicate (P : MemSt V δ → Prop) (hs : P s) (hP : ∀ {a b}, P a → Rely t a b → P b)
    (dup : Nat) (heaptid : ItemPointer) :
    Valid (memMachine mem support m) t (workerSpec t) (call (.AddDuplicateInMemory dup heaptid))
      (fun _ => P) s := by
  refine valid_quiet P hs hP (fun _ => trivial) fun a b r hb => ?_
  simp only [exec] at hb
  split at hb
  · cases hb
    exact ⟨_, rfl, rfl, rfl⟩
  · cases hb
    exact ⟨_, rfl, levels_modify _ _ fun _ => rfl, rfl⟩

theorem valid_updateConnection (P : MemSt V δ → Prop) (hs : P s) (hP : ∀ {a b}, P a → Rely t a b → P b)
    (newElement lc : Nat) (hc : HnswCandidate Nat δ) :
    Valid (memMachine mem support m) t (workerSpec t) (call (.HnswUpdateConnection newElement lc hc))
      (fun _ => P) s := by
  refine valid_quiet P hs hP (fun _ => trivial) fun a b r hb => ?_
  cases hb
  exact ⟨_, rfl, levels_modify _ _ fun _ => rfl, rfl⟩

theorem valid_findDuplicate [DecidableEq V] (P : MemSt V δ → Prop) (hP : ∀ {a b}, P a → Rely t a b → P b)
    (value : V) (heaptid : ItemPointer) : ∀ (l : List (HnswCandidate (MemRef V) δ)) {s : MemSt V δ}, P s →
    Valid (memMachine mem support m) t (workerSpec t) (FindDuplicateInMemory value heaptid l) (fun _ => P) s
  | [], _, hs => hs
  | hc :: rest, s, hs => by
      unfold FindDuplicateInMemory
      split
      · exact hs
      · refine Valid.bind (Valid.mono (valid_addDuplicate P hs hP _ heaptid) fun found s' hs' => ?_)
        cases found with
        | true => exact hs'
        | false => exact valid_findDuplicate P hP value heaptid rest hs'

theorem valid_updateNeighbors (P : MemSt V δ → Prop) (hs : P s) (hP : ∀ {a b}, P a → Rely t a b → P b)
    (newElement level : Nat) :
    Valid (memMachine mem support m) t (workerSpec t) (UpdateNeighborsInMemory newElement level)
      (fun _ => P) s := by
  refine Valid.foldlM (I := fun _ => P) _ hs fun _ lc s1 _ hs1 => ?_
  refine Valid.bind (Valid.mono (valid_copy P hs1 hP newElement lc) fun neighbors s2 hs2 => ?_)
  exact Valid.foldlM (I := fun _ => P) _ hs2 fun _ p s3 _ hs3 => valid_updateConnection P hs3 hP newElement lc p.2

/-- A worker that holds these locks, and `P`. -/
structure At (t : Nat) (locks : List (EntryLock × Mode)) (P : MemSt V δ → Prop) (s : MemSt V δ) : Prop where
  held : Owns s.holders t locks
  knows : P s

theorem valid_acquire {locks : List (EntryLock × Mode)} (P : MemSt V δ → Prop) {Q : MemSt V δ → Prop}
    (h : At t locks P s) (hP : ∀ {a b}, At t locks P a → Rely t a b → P b) (lock : EntryLock) (mode : Mode)
    (hQ : ∀ a, At t locks P a → EntryInv a → LWLock.mustWait a.holders lock mode = false →
      Q { a with holders := ⟨t, lock, mode⟩ :: a.holders }) :
    Valid (memMachine mem support m) t (workerSpec t) (call (.LWLockAcquire lock mode))
      (fun _ => At t ((lock, mode) :: locks) Q) s := by
  refine Valid.plain (At t locks P) h (fun ha hr => ⟨ha.held.congr hr.holders, hP ha hr⟩)
    fun a ha hi => ⟨trivial, fun b r hb => ?_⟩
  simp only [exec] at hb
  split at hb
  · cases hb
  · rename_i hw
    have hw' := Bool.eq_false_iff.mpr hw
    cases hb
    obtain ⟨h1, h2⟩ := EntryInv.acquire hi hw'
    exact ⟨h1, h2, ha.held.acquire lock mode, hQ a ha hi hw'⟩

theorem valid_release {locks : List (EntryLock × Mode)} (P : MemSt V δ → Prop) {Q : MemSt V δ → Prop}
    (h : At t locks P s) (hP : ∀ {a b}, At t locks P a → Rely t a b → P b) (lock : EntryLock)
    (hd : ∀ a, At t locks P a → lock = .entryLock → Holds t .LW_EXCLUSIVE a → EntryTop a)
    (hQ : ∀ a, P a → Q { a with holders := LWLock.release a.holders t lock }) :
    Valid (memMachine mem support m) t (workerSpec t) (call (.LWLockRelease lock))
      (fun _ => At t (without locks lock) Q) s := by
  refine Valid.plain (At t locks P) h (fun ha hr => ⟨ha.held.congr hr.holders, hP ha hr⟩)
    fun a ha hi => ⟨trivial, fun b r hb => ?_⟩
  cases hb
  obtain ⟨h1, h2⟩ := EntryInv.release hi lock (hd a ha)
  exact ⟨h1, h2, ha.held.release lock, hQ a ha.knows⟩

/-- **The two ways to the entry point**: a share lock when the element stays below it, else the exclusive
    lock, under which it is read again. -/
theorem valid_lockEntryPoint (h : Owns s.holders t []) (level : Nat) :
    Valid (memMachine mem support m) t (workerSpec t) (lockEntryPoint level)
      (fun ep s => ∃ mode, Ready t level ep mode s) s := by
  unfold lockEntryPoint
  refine Valid.bind (Valid.mono (valid_acquire (Q := fun _ => True) (fun _ => True) ⟨h, trivial⟩
    (fun _ _ => trivial) .entryWaitLock .LW_EXCLUSIVE fun _ _ _ _ => trivial) fun _ s1 h1 => ?_)
  refine Valid.bind (Valid.mono (valid_release (Q := fun _ => True) (fun _ => True) h1 (fun _ _ => trivial)
    .entryWaitLock (fun _ _ hl => nomatch hl) fun _ _ => trivial) fun _ s2 h2 => ?_)
  refine Valid.bind (Valid.mono (valid_acquire (Q := fun _ => True) (fun _ => True) h2
    (fun _ _ => trivial) .entryLock .LW_SHARED fun _ _ _ _ => trivial) fun _ s3 h3 => ?_)
  refine Valid.bind (Valid.mono (Valid.look
    (Q := fun ep => At t [(.entryLock, .LW_SHARED)] (Entry ep)) (At t [(.entryLock, .LW_SHARED)] fun _ => True) h3
    (fun ha hr => ⟨ha.held.congr hr.holders, trivial⟩) (fun a u _ => Rely.refl u a) fun a ha hi =>
    ⟨trivial, fun b r hb => ?_⟩) fun ep s4 h4 => ?_)
  · cases hb
    exact ⟨rfl, ha.held, EntryInv.entry hi⟩
  cases habove : above ep level with
  | false => exact ⟨.LW_SHARED, h4.held, h4.knows, fun _ => habove, fun hm => nomatch hm⟩
  | true =>
    refine Valid.bind (Valid.mono (valid_release (Q := fun _ => True) (fun _ => True) ⟨h4.held, trivial⟩
      (fun _ _ => trivial) .entryLock (fun a ha _ hx => absurd ((ha.held _ _).mp hx) (by simp))
      fun _ _ => trivial) fun _ s5 h5 => ?_)
    refine Valid.bind (Valid.mono (valid_acquire (Q := fun _ => True) (fun _ => True) h5
      (fun _ _ => trivial) .entryWaitLock .LW_EXCLUSIVE fun _ _ _ _ => trivial) fun _ s6 h6 => ?_)
    refine Valid.bind (Valid.mono (valid_acquire (Q := EntryTop) (fun _ => True) h6
      (fun _ _ => trivial) .entryLock .LW_EXCLUSIVE fun a _ hi hw => ?_) fun _ s7 h7 => ?_)
    · refine (hi.top fun u hu => ?_).congr rfl rfl
      exact absurd (mustWait_false hw _ hu rfl).1 (by simp)
    have hstable : ∀ {locks : List (EntryLock × Mode)} {a b : MemSt V δ},
        (EntryLock.entryLock, Mode.LW_EXCLUSIVE) ∈ locks → At t locks EntryTop a → Rely t a b → EntryTop b :=
      fun hm ha hr => ha.knows.rely ((ha.held _ _).mpr hm) hr
    refine Valid.bind (Valid.mono (valid_release (Q := EntryTop) EntryTop h7 (hstable List.mem_cons_self)
      .entryWaitLock (fun _ _ hl => nomatch hl) fun a ha => ha.congr rfl rfl) fun _ s8 h8 => ?_)
    refine Valid.look (At t [(.entryLock, .LW_EXCLUSIVE)] EntryTop) h8
      (fun ha hr => ⟨ha.held.congr hr.holders, hstable List.mem_cons_self ha hr⟩) (fun a u _ => Rely.refl u a)
      fun a ha hi => ⟨trivial, fun b r hb => ?_⟩
    cases hb
    exact ⟨rfl, .LW_EXCLUSIVE, ha.held, EntryInv.entry hi, (fun hm => nomatch hm), fun _ => ha.knows⟩

omit [LinearOrder δ] in
/-- The new element is below the entry point: the entry point stays the highest. -/
theorem Ready.top_add (h : Ready t level ep mode s) (hi : EntryInv s) (habove : above ep level = false)
    {e : MemElement V δ} (he : e.level = level) :
    EntryTop { s with graph := Hnsw.AddElementInMemory s.graph e } := by
  cases ep with
  | none => cases habove
  | some r =>
    have hle : level ≤ r.level := by simpa [above] using habove
    have hr := h.entry.level r rfl
    have htop := h.entryTop hi
    have hep : s.graph.entryPoint = some r.id := h.entry.eq
    have hlev : levels { s with graph := Hnsw.AddElementInMemory s.graph e } = levels s ++ [e.level] := by
      simp [levels, Hnsw.AddElementInMemory]
    unfold EntryTop at htop ⊢
    rw [hep] at htop
    obtain ⟨l, hl, hall⟩ := htop
    rw [hr] at hl
    cases hl
    rw [show (Hnsw.AddElementInMemory s.graph e).entryPoint = some r.id from hep, hlev]
    refine ⟨r.level, ?_, fun k hk => ?_⟩
    · rw [List.getElem?_append_left (List.getElem?_eq_some_iff.mp hr).1]
      exact hr
    · rcases List.mem_append.mp hk with hk | hk
      · exact hall k hk
      · rw [List.mem_singleton.mp hk, he]
        exact hle

omit [LinearOrder δ] in
/-- The new element is above the entry point: it is above every element. -/
theorem Ready.top_above (h : Ready t level ep mode s) (hi : EntryInv s) (habove : above ep level = true) :
    ∀ k ∈ levels s, k ≤ level := by
  have htop := h.entryTop hi
  have hep := h.entry.eq
  unfold EntryTop at htop
  cases ep with
  | none =>
    rw [show s.graph.entryPoint = none from hep] at htop
    intro k hk
    rw [htop] at hk
    cases hk
  | some r =>
    rw [show s.graph.entryPoint = some r.id from hep] at htop
    obtain ⟨l, hl, hall⟩ := htop
    rw [h.entry.level r rfl] at hl
    cases hl
    have hlt : r.level < level := by simpa [above] using habove
    exact fun k hk => Nat.le_of_lt (Nat.lt_of_le_of_lt (hall k hk) hlt)

/-- **`UpdateGraphInMemory`**, with arrays whose layer 0 has a neighbor if there was an entry point. -/
theorem valid_updateGraph [DecidableEq V] (h : Ready t level ep mode s) (value : V) (heaptid : ItemPointer)
    {neighbors : List (HnswNeighborArray (MemRef V) δ)}
    (hne : ep ≠ none → ∃ a, neighbors[0]? = some a ∧ a.items ≠ []) :
    Valid (memMachine mem support m) t (workerSpec t) (UpdateGraphInMemory value heaptid level ep neighbors)
      (fun _ s => At t [(.entryLock, mode)] (fun s => mode = .LW_EXCLUSIVE → EntryTop s) s) s := by
  unfold UpdateGraphInMemory
  refine Valid.bind (Valid.mono (valid_findDuplicate (Ready t level ep mode) Ready.rely value heaptid _ h)
    fun found s1 h1 => ?_)
  cases found with
  | true => exact ⟨h1.held, h1.top⟩
  | false =>
    refine Valid.bind (Valid.mono (Valid.plain (Q := fun i => Placed t level ep i mode) _ h1 Ready.rely
      fun a ha hi => ?_) fun i s2 h2 => ?_)
    · have hsafe : Safe a (.AddElementInMemory ⟨[heaptid], level, 1, value, neighbors.map stored⟩) := by
        intro hnil
        have hep : ep = none := by
          refine Classical.byContradiction fun hep => ?_
          obtain ⟨arr, harr, hitems⟩ := hne hep
          simp [MemElement.layer, harr, stored] at hnil
          exact hitems hnil
        have htop := ha.entryTop hi
        subst hep
        unfold EntryTop at htop
        rw [show a.graph.entryPoint = none from ha.entry.eq] at htop
        exact htop
      refine ⟨hsafe, fun b r hb => ?_⟩
      cases hb
      obtain ⟨i1, i2⟩ := EntryInv.add hi ha.holds hsafe
        (fun hm => ha.top_add hi (ha.shared hm) rfl) rfl
      refine ⟨i1, i2, ha.held, fun habove => ?_, fun habove _ => (ha.top_add hi habove rfl).congr rfl rfl⟩
      have hlev : ∀ k, levels { a with
          graph := Hnsw.AddElementInMemory a.graph ⟨[heaptid], level, 1, value, neighbors.map stored⟩
          alone := k } = levels a ++ [level] := fun k => by
        simp [levels, Hnsw.AddElementInMemory]
      rw [hlev]
      refine ⟨?_, ?_, fun k hk => ?_⟩
      · cases mode with
        | LW_SHARED =>
          rw [ha.shared rfl] at habove
          cases habove
        | LW_EXCLUSIVE => rfl
      · have hlen : a.graph.elements.length = (levels a).length := by simp [levels]
        rw [hlen]
        simp
      · rcases List.mem_append.mp hk with hk | hk
        · exact ha.top_above hi habove k hk
        · exact Nat.le_of_eq (List.mem_singleton.mp hk)
    refine Valid.bind (Valid.mono (valid_updateNeighbors (Placed t level ep i mode) h2 Placed.rely i level)
      fun _ s3 h3 => ?_)
    cases habove : above ep level with
    | false => exact ⟨h3.held, h3.top habove⟩
    | true =>
      refine Valid.plain (Placed t level ep i mode) h3 Placed.rely fun a ha hi => ?_
      obtain ⟨rfl, h4, h5⟩ := ha.pending habove
      refine ⟨⟨level, h4, h5⟩, fun b r hb => ?_⟩
      cases hb
      obtain ⟨i1, i2⟩ := EntryInv.set hi ((ha.held _ _).mpr List.mem_cons_self) ⟨level, h4, h5⟩
      exact ⟨i1, i2, ha.held, fun _ => ⟨level, h4, h5⟩⟩

/-- **`InsertTupleInMemory`** leaves nothing held. -/
theorem valid_insertTuple [DecidableEq V] (rel : HnswRel V δ) (hm : 0 < m) (budget : Nat) (tup : MemCall V)
    (h : Owns s.holders t []) :
    Valid (memMachine mem rel.support m) t (workerSpec t) (InsertTupleInMemory mem rel m budget tup)
      (fun _ s => Owns s.holders t []) s := by
  unfold InsertTupleInMemory
  refine Valid.bind (Valid.mono (valid_lockEntryPoint h _) fun ep s1 ⟨mode, h1⟩ => ?_)
  refine Valid.bind (Valid.mono (valid_of_looks (P := Ready t _ ep mode) (fun ha hr _ => ha.rely hr)
    (fun a u _ => Rely.refl u a) (fun o ho a ha hi => ?_) trivial (looks_findNeighbors hm _ ep) h1)
    fun found s2 h2 => ?_)
  · cases o with
    | copyNeighbors i lc =>
      refine ⟨trivial, fun r hr => ?_⟩
      cases hr
      exact ⟨rfl, rfl⟩
    | _ => exact ho.elim
  refine Valid.bind (Valid.mono (valid_updateGraph h2.2 tup.value tup.heaptid h2.1) fun _ s3 h3 => ?_)
  refine Valid.mono (valid_release (Q := fun _ => True) (fun s => mode = .LW_EXCLUSIVE → EntryTop s) h3
    (fun ha hr => ?_) .entryLock (fun a ha _ hx => ?_) fun _ _ => trivial) fun _ s4 h4 => ?_
  · rintro rfl
    exact (ha.knows rfl).rely ((ha.held _ _).mpr List.mem_cons_self) hr
  · have := (ha.held _ _).mp hx
    simp only [List.mem_singleton, Prod.mk.injEq, true_and] at this
    exact ha.knows this.symm
  · exact h4.held

theorem valid_worker [DecidableEq V] (rel : HnswRel V δ) (hm : 0 < m) (budget : Nat) (share : List (MemCall V))
    (h : Owns s.holders t []) :
    Valid (memMachine mem rel.support m) t (workerSpec t) (worker mem rel m budget share) (fun _ _ => True) s := by
  refine Valid.mono (Valid.foldlM (I := fun _ s => Owns s.holders t []) share h fun _ tup s1 _ h1 => ?_)
    fun _ _ _ => trivial
  exact valid_insertTuple rel hm budget tup h1

end Validity

/-! ## 6. Every interleaving -/

section Runs

variable {mem : MemSpace} {rel : HnswRel V δ} {m budget : Nat} {c c' : Config (Op V δ) Op.Resp (MemSt V δ)}

theorem start_good [DecidableEq V] (mem : MemSpace) (rel : HnswRel V δ) (hm : 0 < m) (budget : Nat)
    (shares : List (List (MemCall V))) :
    Good (memMachine mem rel.support m) workerSpec (startConfig mem rel m budget shares) where
  inv _ := ⟨List.Pairwise.nil, (fun _ h => nomatch h), fun _ => rfl, Nat.zero_le 1, fun h => nomatch h⟩
  valid t p hp := by
    obtain ⟨share, _, rfl⟩ := Option.map_eq_some_iff.mp ((List.getElem?_map ..).symm.trans hp)
    exact valid_worker rel hm budget share fun _ _ => by simp [startConfig]

theorem run_good (h0 : Good (memMachine mem rel.support m) workerSpec c)
    (h : Run (memMachine mem rel.support m) (fun _ _ _ => True) c c') :
    Good (memMachine mem rel.support m) workerSpec c' :=
  valid_run (fun _ _ => Iff.rfl) (fun t s => Rely.refl t s) (fun _ _ _ _ => Rely.trans)
    (fun _ u hne _ _ hg => hg u (Ne.symm hne)) (fun _ _ _ _ => trivial) h0 h

/-- The level of the entry point. -/
def entryLevel (s : MemSt V δ) : Option Nat := s.graph.entryPoint.bind fun i => (levels s)[i]?

/-- A safe operation other than `setEntryPoint` keeps the entry point and only adds to the list. -/
theorem exec_entry {t : Nat} {o : Op V δ} {a b : MemSt V δ} {r : o.Resp}
    (hx : exec mem rel.support m t o a = some (b, r)) :
    (∃ i, o = .setEntryPoint i ∧ b = { a with graph := { a.graph with entryPoint := some i } }) ∨
      b.graph.entryPoint = a.graph.entryPoint ∧ levels a <+: levels b := by
  cases o with
  | LWLockAcquire lock mode =>
    simp only [exec] at hx
    split at hx
    · cases hx
    · cases hx
      exact Or.inr ⟨rfl, List.prefix_refl _⟩
  | LWLockRelease lock =>
    cases hx
    exact Or.inr ⟨rfl, List.prefix_refl _⟩
  | getEntryPoint =>
    cases hx
    exact Or.inr ⟨rfl, List.prefix_refl _⟩
  | copyNeighbors i lc =>
    cases hx
    exact Or.inr ⟨rfl, List.prefix_refl _⟩
  | AddDuplicateInMemory dup heaptid =>
    simp only [exec] at hx
    split at hx
    · cases hx
      exact Or.inr ⟨rfl, List.prefix_refl _⟩
    · cases hx
      have hlev : levels { a with graph := Hnsw.AddDuplicateInMemory a.graph dup heaptid } = levels a :=
        levels_modify _ _ fun _ => rfl
      exact Or.inr ⟨rfl, by rw [hlev]⟩
  | AddElementInMemory e =>
    cases hx
    refine Or.inr ⟨rfl, ?_⟩
    simp [levels, Hnsw.AddElementInMemory]
  | HnswUpdateConnection newElement lc hc =>
    cases hx
    have hlev : levels { a with
        graph := updateConnectionInMemory mem rel.support m newElement lc a.graph hc } = levels a :=
      levels_modify _ _ fun _ => rfl
    exact Or.inr ⟨rfl, by rw [hlev]⟩
  | setEntryPoint i =>
    cases hx
    exact Or.inl ⟨i, rfl, rfl⟩

/-- **The level of the entry point does not fall** in a step. -/
theorem step_entryLevel (h : Good (memMachine mem rel.support m) workerSpec c) {t : Nat}
    (hs : step (memMachine mem rel.support m) t c = some c') {l : Nat} (hl : entryLevel c.shared = some l) :
    ∃ l', entryLevel c'.shared = some l' ∧ l ≤ l' := by
  obtain ⟨i, hi, hil⟩ := Option.bind_eq_some_iff.mp hl
  rcases step_cases hs with ⟨o, k, r, hk, hr, rfl⟩ | ⟨msg, _, rfl⟩
  · obtain ⟨⟨b, resp⟩, hb, rfl⟩ := Option.map_eq_some_iff.mp hr
    rcases exec_entry hb with ⟨j, rfl, rfl⟩ | ⟨he, hgrow⟩
    · have hn : c.next t = some (.setEntryPoint j) := by simp only [Config.next, hk]
      have hsafe : Safe c.shared (.setEntryPoint j) := h.safe (fun t s => Rely.refl t s) hn trivial
      obtain ⟨l', hl', hall⟩ := hsafe
      exact ⟨l', hl', hall l (List.mem_of_getElem? hil)⟩
    · refine ⟨l, ?_, Nat.le_refl l⟩
      obtain ⟨rest, hrest⟩ := hgrow
      refine Option.bind_eq_some_iff.mpr ⟨i, he.trans hi, ?_⟩
      show (levels b)[i]? = some l
      rw [← hrest, List.getElem?_append_left (List.getElem?_eq_some_iff.mp hil).1]
      exact hil
  · exact ⟨l, hl, Nat.le_refl l⟩

theorem run_entryLevel (h0 : Good (memMachine mem rel.support m) workerSpec c)
    (h : Run (memMachine mem rel.support m) (fun _ _ _ => True) c c') {l : Nat} (hl : entryLevel c.shared = some l) :
    ∃ l', entryLevel c'.shared = some l' ∧ l ≤ l' := by
  induction h with
  | start => exact ⟨l, hl, Nat.le_refl l⟩
  | step d d' t hrun _ hs ih =>
    obtain ⟨l', hl', hle⟩ := ih
    obtain ⟨l'', hl'', hle'⟩ := step_entryLevel (run_good h0 hrun) hs hl'
    exact ⟨l'', hl'', Nat.le_trans hle hle'⟩

/-- **The entry-point protocol of parallel builds in memory.** Whatever the number of workers, the tuples each
    inserts and how they interleave: in every state in which nobody holds `entryLock` in exclusive mode, there
    is no entry point only while the list is empty, and otherwise it is an element of the list as high as any;
    the level of the entry point never falls; and at most one element is added without a neighbor. -/
theorem entry_protocol [DecidableEq V] (mem : MemSpace) (rel : HnswRel V δ) (m : Nat) (hm : 0 < m) (budget : Nat)
    (shares : List (List (MemCall V))) (c : Config (Op V δ) Op.Resp (MemSt V δ))
    (h : Run (memMachine mem rel.support m) (fun _ _ _ => True) (startConfig mem rel m budget shares) c) :
    ((∀ t, (⟨t, .entryLock, .LW_EXCLUSIVE⟩ : Held EntryLock) ∉ c.shared.holders) → EntryTop c.shared) ∧
    (∀ c', Run (memMachine mem rel.support m) (fun _ _ _ => True) c c' →
      ∀ l, entryLevel c.shared = some l → ∃ l', entryLevel c'.shared = some l' ∧ l ≤ l') ∧
    c.shared.alone ≤ 1 := by
  have hg := run_good (start_good mem rel hm budget shares) h
  have hi : EntryInv c.shared := hg.inv 0
  exact ⟨hi.top, fun c' hc' l hl => run_entryLevel hg hc' hl, hi.once⟩

end Runs

/-- Two workers on an empty graph: both read that there is no entry point, one after the other gets the lock in
    exclusive mode, and the second one, whose element is higher, finds the first one's. -/
theorem entry_protocol_race :
    ∃ c, Run (memMachine localMemory numberSupport 2) (fun _ _ _ => True)
        (startConfig localMemory ⟨numberSupport, 64, none, id, fun _ _ _ n => n⟩ 2 20
          [[⟨10, ⟨7, 1⟩, 0⟩], [⟨20, ⟨7, 2⟩, 1⟩]]) c ∧
      levels c.shared = [0, 1] ∧ c.shared.holders = [] ∧ EntryTop c.shared ∧ c.shared.alone ≤ 1 := by
  obtain ⟨c, hrun, hend⟩ := run_of_check (M := memMachine localMemory numberSupport 2)
    (fun _ _ _ => True) (fun _ _ _ => true)
    [0, 0, 0, 0, 1, 1, 1, 1, 0, 1, 0, 0, 0, 0, 0, 0, 0, 0, 1, 1, 1, 1, 1, 1, 1, 1, 1, 1, 1]
    (c := startConfig localMemory ⟨numberSupport, 64, none, id, fun _ _ _ n => n⟩ 2 20
      [[⟨10, ⟨7, 1⟩, 0⟩], [⟨20, ⟨7, 2⟩, 1⟩]])
    (fun c => decide (levels c.shared = [0, 1]) && decide (c.shared.holders = []))
    (fun _ _ _ _ => trivial) (by decide +kernel)
  rw [Bool.and_eq_true, decide_eq_true_eq, decide_eq_true_eq] at hend
  obtain ⟨htop, _, halone⟩ := entry_protocol localMemory ⟨numberSupport, 64, none, id, fun _ _ _ n => n⟩ 2
    (by decide) 20 [[⟨10, ⟨7, 1⟩, 0⟩], [⟨20, ⟨7, 2⟩, 1⟩]] c hrun
  refine ⟨c, hrun, hend.1, hend.2, htop fun t ht => ?_, halone⟩
  rw [hend.2] at ht
  cases ht

end Pgvec.Hnsw.EntryProtocol
