/-
  File:      Pgvec/Hnsw/Search.lean
  Subject:   THE LAYER SEARCH (`HnswSearchLayer`, algorithm 2), once for the graph in memory and the
             graph on disk.

  The source has one function with `inMemory` branches. Here the branches are the fields of
  `SearchEnv`: how the unvisited neighbors of an element are found and noted as visited, how an
  element is loaded and its distance taken, its level, and whether it counts towards `ef`. The rest
  -- the heaps `C`, `W` and `discarded`, `wlen`, the break, the eviction -- is written once, over
  any monad: `Option` for the graph in memory and for an index that does not change, `HnswProg` for
  an index other backends change between two loads.

  The `while` loop takes a budget of rounds; a run that needs more is cut off (`Budget.cut`).

  * `HnswLoadUnvisitedFromDisk`, `HnswLoadElementImpl`, `diskEnv` -- the branches for an index;
  * `readEnv idx` -- the same branches answered by the index `idx` at once;
  * `readRun idx` -- a whole program answered by `idx`, as long as it only reads;
    **`run_of_readRun`** says that this is what it does when it runs alone;
  * **`readRun_searchLayer`** -- the search on disk is then the search that reads `idx`.
-/
import Pgvec.Lib.PairingHeap
import Pgvec.Hnsw.Index

namespace Pgvec.Hnsw

open PairingHeap Conc

/-- A monad in which a loop can be cut off. -/
class Budget (M : Type → Type) where
  cut : {α : Type} → M α

instance : Budget Option := ⟨none⟩

instance {O : Type} {R : O → Type} : Budget (Conc.Prog O R) := ⟨.cut⟩

/-- `HnswSearchCandidate`: an element and its distance from the query. -/
structure HnswSearchCandidate (E δ : Type) where
  element : E
  distance : δ
  deriving DecidableEq, Repr

section Candidates

variable {E δ : Type} [LT δ] [DecidableLT δ]

/-- Nearest first (heap `C`). -/
def CompareNearestCandidates (a b : HnswSearchCandidate E δ) : Int :=
  if a.distance < b.distance then 1 else if b.distance < a.distance then -1 else 0

/-- Nearest first (heap `discarded`). -/
def CompareNearestDiscardedCandidates (a b : HnswSearchCandidate E δ) : Int :=
  if a.distance < b.distance then 1 else if b.distance < a.distance then -1 else 0

/-- Furthest first (heap `W`). -/
def CompareFurthestCandidates (a b : HnswSearchCandidate E δ) : Int :=
  if a.distance < b.distance then -1 else if b.distance < a.distance then 1 else 0

end Candidates

/-- A hash table used as a set: insert a key, and say whether it was there. -/
def hashInsert {K : Type} [DecidableEq K] (v : List K) (k : K) : List K × Bool :=
  if k ∈ v then (v, true) else (k :: v, false)

/-- Note keys as visited, in order; the ones that were not visited come back in order. -/
def unvisitedOf {K U : Type} [DecidableEq K] (key : U → K) : List U → List K → List U × List K
  | [], v => ([], v)
  | u :: us, v =>
      match hashInsert v (key u) with
      | (v, true) => unvisitedOf key us v
      | (v, false) =>
          let (rest, v) := unvisitedOf key us v
          (u :: rest, v)

/-- The branches of `HnswSearchLayer` that depend on where the graph is: elements `E`, entries
    `U` of the unvisited list, keys `K` of the visited table, distances `δ`. -/
structure SearchEnv (M : Type → Type) (E U K δ : Type) where
  /-- `HnswLoadUnvisitedFromMemory` / `HnswLoadUnvisitedFromDisk`. -/
  loadUnvisited : E → List K → M (List U × List K)
  /-- Take the distance of an unvisited element and load it; with a maximum distance it is loaded
      only when it is nearer. -/
  loadElement : U → Option δ → M (Option E × δ)
  /-- The key `AddToVisited` stores. -/
  visitedKey : E → K
  level : E → Nat
  /-- `CountElement`. -/
  countElement : E → Bool

/-- The local variables of the search. -/
structure SearchState (E K δ : Type) where
  C : Heap (HnswSearchCandidate E δ)
  W : Heap (HnswSearchCandidate E δ)
  wlen : Nat
  v : List K
  discarded : Option (Heap (HnswSearchCandidate E δ))
  tuples : Nat

/-- What the search gives back: the list `w` (furthest first), the visited table, the discarded
    heap and the tuple count. -/
structure SearchResult (E K δ : Type) where
  w : List (HnswSearchCandidate E δ)
  v : List K
  discarded : Option (Heap (HnswSearchCandidate E δ))
  tuples : Nat

section Layer

variable {M : Type → Type} {E U K δ : Type} [LT δ] [DecidableLT δ] [DecidableEq K]

/-- Take the nodes off a heap in order. -/
def drain (cmp : HnswSearchCandidate E δ → HnswSearchCandidate E δ → Int) :
    Nat → Heap (HnswSearchCandidate E δ) → List (HnswSearchCandidate E δ)
  | 0, _ => []
  | n + 1, h =>
      match removeFirst cmp h with
      | none => []
      | some (x, h') => x :: drain cmp n h'

/-- Add one entry point to `v`, `C` and `W`. -/
def addEntry (env : SearchEnv M E U K δ) (initVisited : Bool) (s : SearchState E K δ)
    (sc : HnswSearchCandidate E δ) : SearchState E K δ where
  C := add CompareNearestCandidates s.C sc
  W := add CompareFurthestCandidates s.W sc
  wlen := if env.countElement sc.element then s.wlen + 1 else s.wlen
  v := if initVisited then (hashInsert s.v (env.visitedKey sc.element)).1 else s.v
  discarded := s.discarded
  tuples := if initVisited then s.tuples + 1 else s.tuples

/-- The body of the inner loop, once the element is loaded (`none`: it was not, since it is not
    nearer than the furthest of `W`). -/
def visit (env : SearchEnv M E U K δ) (ef lc : Nat) (s : SearchState E K δ) (eElement : Option E)
    (eDistance : δ) : SearchState E K δ :=
  match eElement, first s.W with
  | none, _ => s
  | _, none => s
  | some eElement, some f =>
      let alwaysAdd := s.wlen < ef
      let e : HnswSearchCandidate E δ := ⟨eElement, eDistance⟩
      if ¬ (eDistance < f.distance ∨ alwaysAdd) then
        { s with discarded := s.discarded.map fun d => add CompareNearestDiscardedCandidates d e }
      else if env.level eElement < lc then s -- make robust to issues
      else
        let C := add CompareNearestCandidates s.C e
        let W := add CompareFurthestCandidates s.W e
        if env.countElement eElement then
          -- no need to decrement wlen
          let wlen := s.wlen + 1
          if ef < wlen then
            match removeFirst CompareFurthestCandidates W with
            | none => { s with C := C, W := W, wlen := wlen }
            | some (d, W) =>
                { s with
                  C := C, W := W, wlen := wlen
                  discarded := s.discarded.map fun h => add CompareNearestDiscardedCandidates h d }
          else { s with C := C, W := W, wlen := wlen }
        else { s with C := C, W := W }

/-- The maximum distance given to `HnswLoadElementImpl`: none when the element is added or
    discarded anyway. -/
def maxDistance (ef : Nat) (s : SearchState E K δ) : Option δ :=
  if s.wlen < ef ∨ s.discarded.isSome then none else (first s.W).map (·.distance)

/-- The local variables before the `while` loop: `v` and `discarded` are the caller's tables, emptied
    with `initVisited`, and the entry points are added. -/
def searchStart (env : SearchEnv M E U K δ) (ep : List (HnswSearchCandidate E δ)) (v : List K)
    (discarded : Option (Heap (HnswSearchCandidate E δ))) (initVisited : Bool) (tuples : Nat) :
    SearchState E K δ :=
  ep.foldl (addEntry env initVisited)
    { C := none, W := none, wlen := 0, v := if initVisited then [] else v
      discarded := if initVisited then discarded.map fun _ => none else discarded
      tuples := tuples }

/-- What is given back after the `while` loop: `W` emptied into a list. -/
def searchEnd (s : SearchState E K δ) : SearchResult E K δ :=
  ⟨drain CompareFurthestCandidates (toList s.W).length s.W, s.v, s.discarded, s.tuples⟩

variable [Monad M] [Budget M]

/-- Load one unvisited element and visit it. -/
def loadAndVisit (env : SearchEnv M E U K δ) (ef lc : Nat) (s : SearchState E K δ) (u : U) :
    M (SearchState E K δ) := do
  let r ← env.loadElement u (maxDistance ef s)
  return visit env ef lc s r.1 r.2

/-- The `while` loop. -/
def searchLoop (env : SearchEnv M E U K δ) (ef lc : Nat) :
    Nat → SearchState E K δ → M (SearchState E K δ)
  | 0, _ => Budget.cut
  | n + 1, s =>
      match removeFirst CompareNearestCandidates s.C, first s.W with
      | none, _ => pure s
      | _, none => pure s
      | some (c, C), some f =>
          if f.distance < c.distance then pure { s with C := C }
          else do
            let r ← env.loadUnvisited c.element s.v
            let s : SearchState E K δ := { s with C := C, v := r.2, tuples := s.tuples + r.1.length }
            let s ← r.1.foldlM (loadAndVisit env ef lc) s
            searchLoop env ef lc n s

/-- **`HnswSearchLayer`**: `discarded = none` is the NULL pointer. -/
def HnswSearchLayer (env : SearchEnv M E U K δ) (ep : List (HnswSearchCandidate E δ)) (ef lc : Nat)
    (v : List K) (discarded : Option (Heap (HnswSearchCandidate E δ))) (initVisited : Bool)
    (tuples : Nat) (budget : Nat) : M (SearchResult E K δ) := do
  let s ← searchLoop env ef lc budget (searchStart env ep v discarded initVisited tuples)
  return searchEnd s

end Layer

/-! ## 1. The graph on disk -/

section Disk

variable {V δ : Type} [LT δ] [DecidableLT δ]

/-- The distance of a query from a value; a NULL query is at distance zero from everything. -/
def HnswGetDistance (support : HnswSupport V δ) (q : Option V) (v : V) : δ :=
  match q with
  | none => support.zeroDistance
  | some q => support.distance q v

/-- `HnswLoadElementImpl` with a distance, from the tuple: the element is loaded when there is no
    maximum distance or it is nearer. -/
def loadWithDistance (support : HnswSupport V δ) (q : Option V) (loadVec : Bool)
    (maxDistance : Option δ) (tid : ItemPointer) (etup : HnswElementTuple V) :
    Option (HnswElement V) × δ :=
  let distance := HnswGetDistance support q etup.data
  let element := HnswLoadElementFromTuple (HnswInitElementFromBlock tid 0) etup true loadVec
  match maxDistance with
  | none => (some element, distance)
  | some d => if distance < d then (some element, distance) else (none, distance)

theorem loadWithDistance_spec (support : HnswSupport V δ) (q : Option V) (loadVec : Bool)
    (md : Option δ) (tid : ItemPointer) (etup : HnswElementTuple V) :
    (loadWithDistance support q loadVec md tid etup).2 = HnswGetDistance support q etup.data ∧
    ∀ e, (loadWithDistance support q loadVec md tid etup).1 = some e →
      e = HnswLoadElementFromTuple (HnswInitElementFromBlock tid 0) etup true loadVec := by
  unfold loadWithDistance
  cases md with
  | none => exact ⟨rfl, fun e he => (Option.some.inj he).symm⟩
  | some d =>
      by_cases h : HnswGetDistance support q etup.data < d
      · simp only [h, if_true]
        exact ⟨trivial, fun e he => (Option.some.inj he).symm⟩
      · simp only [h, if_false]
        exact ⟨trivial, fun e he => by cases he⟩

/-- `HnswLoadElementImpl`. -/
def HnswLoadElementImpl (support : HnswSupport V δ) (q : Option V) (loadVec : Bool)
    (loader : Loader) (tid : ItemPointer) (maxDistance : Option δ) :
    HnswProg V (Option (HnswElement V) × δ) :=
  .op (.page (.loadElement tid loader)) fun
    | none => .error "no element tuple"
    | some etup => .ret (loadWithDistance support q loadVec maxDistance tid etup)

/-- The TIDs before the first invalid one. -/
def validPrefix (tids : List ItemPointer) : List ItemPointer := tids.takeWhile (·.isValid)

/-- `HnswLoadNeighborTids`. -/
def HnswLoadNeighborTids (e : HnswElement V) (m lm lc : Nat) :
    HnswProg V (Option (List ItemPointer)) :=
  .op (.page (.readNeighborTuple e.neighbortid)) fun
    | none => .error "no neighbor tuple"
    | some ntup => .ret (neighborTids ntup e.level e.version m lm lc)

/-- `HnswLoadUnvisitedFromDisk`. -/
def HnswLoadUnvisitedFromDisk (m lc : Nat) (e : HnswElement V) (v : List ItemPointer) :
    HnswProg V (List ItemPointer × List ItemPointer) := do
  match ← HnswLoadNeighborTids e m (HnswGetLayerM m lc) lc with
  | none => return ([], v)
  | some tids => return unvisitedOf id (validPrefix tids) v

/-- `CountElement`: with `skipElement` only elements with heap TIDs count. -/
def CountElement (skipElement : Bool) (e : HnswElement V) : Bool :=
  !skipElement || !e.heaptids.isEmpty

/-- The on-disk branches of `HnswSearchLayer`; `inserting` loads the values, `skip` says that a
    `skipElement` is given. -/
def diskEnv (support : HnswSupport V δ) (q : Option V) (inserting skip : Bool) (m lc : Nat) :
    SearchEnv (Conc.Prog (Op V) Op.Resp) (HnswElement V) ItemPointer ItemPointer δ where
  loadUnvisited := HnswLoadUnvisitedFromDisk m lc
  loadElement tid maxDistance := HnswLoadElementImpl support q inserting .HnswSearchLayer tid maxDistance
  visitedKey := HnswElement.tid
  level := HnswElement.level
  countElement := CountElement skip

/-- `HnswEntryCandidate` on disk: load the entry point and take its distance. -/
def HnswEntryCandidate (support : HnswSupport V δ) (q : Option V) (loadVec : Bool)
    (tid : ItemPointer) : HnswProg V (HnswSearchCandidate (HnswElement V) δ) := do
  match ← HnswLoadElementImpl support q loadVec .HnswEntryCandidate tid none with
  | (none, _) => .error "no element tuple"
  | (some e, d) => return ⟨e, d⟩

/-! ## 2. The same search on an index that does not change -/

/-- The neighbors of an element at layer `lc` as the index gives them, before the first invalid. -/
def readNeighbors (idx : Index V) (m lc : Nat) (e : HnswElement V) : Option (List ItemPointer) :=
  match idx.neigh? e.neighbortid with
  | none => none
  | some ntup =>
      match neighborTids ntup e.level e.version m (HnswGetLayerM m lc) lc with
      | none => some []
      | some tids => some (validPrefix tids)

/-- The on-disk branches answered by the index `idx`. -/
def readEnv (idx : Index V) (support : HnswSupport V δ) (q : Option V) (inserting skip : Bool)
    (m lc : Nat) : SearchEnv Option (HnswElement V) ItemPointer ItemPointer δ where
  loadUnvisited e v := (readNeighbors idx m lc e).map fun tids => unvisitedOf id tids v
  loadElement tid maxDistance :=
    (idx.elem? tid).map fun etup => loadWithDistance support q inserting maxDistance tid etup
  visitedKey := HnswElement.tid
  level := HnswElement.level
  countElement := CountElement skip

/-- **A program against an index that does not change**: its sections are answered by `idx`, locks are
    granted, and a section that writes ends it. -/
def readRun {α : Type} (idx : Index V) : HnswProg V α → Option α
  | .ret a => some a
  | .op (.page o) k =>
      match (execPage o idx).commits with
      | [] => readRun idx (k (execPage o idx).resp)
      | _ :: _ => none
  | .op (.lockPage _ _ _) k => readRun idx (k ())
  | .op (.unlockPage _ _) k => readRun idx (k ())
  | .op (.enter _) k => readRun idx (k ())
  | .error _ => none
  | .cut => none

section ReadRun

variable {α β : Type} {idx : Index V}

@[simp] theorem readRun_ret (a : α) : readRun idx (.ret a : HnswProg V α) = some a := rfl

@[simp] theorem readRun_pure (a : α) : readRun idx (pure a : HnswProg V α) = some a := rfl

theorem readRun_op (o : PageOp V) (k : o.Resp → HnswProg V α) (h : (execPage o idx).commits = []) :
    readRun idx (.op (.page o) k) = readRun idx (k (execPage o idx).resp) := by
  simp only [readRun, h]

@[simp] theorem readRun_bind (p : HnswProg V α) (f : α → HnswProg V β) :
    readRun idx (p >>= f) = (readRun idx p).bind fun a => readRun idx (f a) := by
  induction p with
  | ret a => rfl
  | op o k ih =>
      rw [Prog.op_bind]
      cases o with
      | page o =>
          simp only [readRun]
          cases (execPage o idx).commits with
          | nil => exact ih _
          | cons c cs => rfl
      | lockPage lock mode caller => exact ih ()
      | unlockPage lock mode => exact ih ()
      | enter phase => exact ih ()
  | error msg => rfl
  | cut => rfl

@[simp] theorem readRun_lockPage (lock : PageLock) (mode : LockMode) (caller : Caller) :
    readRun idx (LockPage lock mode caller : HnswProg V Unit) = some () := rfl

@[simp] theorem readRun_unlockPage (lock : PageLock) (mode : LockMode) :
    readRun idx (UnlockPage lock mode : HnswProg V Unit) = some () := rfl

/-- A backend whose locks no other one holds runs such a program as `readRun` says, and leaves the
    index as it was. -/
theorem run_of_readRun {t : Nat} {p : HnswProg V α} {a : α} : ∀ {s : St V},
    (∀ h ∈ s.holders, h.backend = t) → readRun s.index p = some a →
    ∃ s', Conc.run (hnswMachine V) t p s = some (a, s') ∧ s'.index = s.index ∧
      ∀ h ∈ s'.holders, h.backend = t := by
  induction p with
  | ret b =>
      intro s hh hr
      cases hr
      exact ⟨s, rfl, rfl, hh⟩
  | op o k ih =>
      intro s hh hr
      cases o with
      | page o =>
          simp only [readRun] at hr
          cases hc : (execPage o s.index).commits with
          | cons c cs =>
              rw [hc] at hr
              cases hr
          | nil =>
              rw [hc] at hr
              obtain ⟨s', h1, h2, h3⟩ := ih _ hh hr
              have hx : (hnswMachine V).exec t (.page o) s =
                  some ⟨[], s, (execPage o s.index).resp⟩ := by
                simp only [hnswMachine, Sect.final, hc, List.getLastD_nil, List.map_nil]
              exact ⟨s', (run_op _ t hx).trans h1, h2, h3⟩
      | lockPage lock mode caller =>
          have hw : mustWait s.holders t lock mode = false := by
            simp only [mustWait, List.any_eq_false]
            intro h hm
            simp [hh h hm]
          obtain ⟨s', h1, h2, h3⟩ := ih () (s := { s with holders := ⟨t, lock, mode⟩ :: s.holders })
            (by
              intro h hm
              rcases List.mem_cons.mp hm with rfl | hm
              · rfl
              · exact hh h hm) hr
          have hx : (hnswMachine V).exec t (.lockPage lock mode caller) s =
              some ⟨[], { s with holders := ⟨t, lock, mode⟩ :: s.holders }, ()⟩ := by
            simp only [hnswMachine, hw, Bool.false_eq_true, if_false]
          exact ⟨s', (run_op _ t hx).trans h1, h2, h3⟩
      | unlockPage lock mode =>
          obtain ⟨s', h1, h2, h3⟩ := ih ()
            (s := { s with holders := s.holders.erase ⟨t, lock, mode⟩ })
            (fun h hm => hh h (List.mem_of_mem_erase hm)) hr
          exact ⟨s', h1, h2, h3⟩
      | enter phase =>
          obtain ⟨s', h1, h2, h3⟩ := ih () (s := { s with phase := phase }) hh hr
          exact ⟨s', h1, h2, h3⟩
  | error msg =>
      intro s _ hr
      cases hr
  | cut =>
      intro s _ hr
      cases hr

end ReadRun

section Alone

variable {idx : Index V} {support : HnswSupport V δ} {q : Option V} {ins skip : Bool} {m lc : Nat}

theorem readRun_loadUnvisited (e : HnswElement V) (v : List ItemPointer) :
    readRun idx ((diskEnv support q ins skip m lc).loadUnvisited e v) =
      (readEnv idx support q ins skip m lc).loadUnvisited e v := by
  simp only [diskEnv, HnswLoadUnvisitedFromDisk, HnswLoadNeighborTids]
  rw [Prog.op_bind, readRun_op _ _ rfl]
  simp only [execPage, readEnv, readNeighbors]
  cases idx.neigh? e.neighbortid with
  | none => rfl
  | some ntup =>
      simp only [Prog.ret_bind]
      cases neighborTids ntup e.level e.version m (HnswGetLayerM m lc) lc with
      | none => rfl
      | some tids => rfl

theorem readRun_loadElement (tid : ItemPointer) (md : Option δ) :
    readRun idx ((diskEnv support q ins skip m lc).loadElement tid md) =
      (readEnv idx support q ins skip m lc).loadElement tid md := by
  simp only [diskEnv, HnswLoadElementImpl]
  rw [readRun_op _ _ rfl]
  simp only [execPage, readEnv]
  cases idx.elem? tid with
  | none => rfl
  | some etup => rfl

theorem readRun_foldl_visit (ef : Nat) : ∀ (us : List ItemPointer)
    (st : SearchState (HnswElement V) ItemPointer δ),
    readRun idx (us.foldlM (loadAndVisit (diskEnv support q ins skip m lc) ef lc) st) =
      us.foldlM (loadAndVisit (readEnv idx support q ins skip m lc) ef lc) st
  | [], st => rfl
  | u :: us, st => by
      rw [List.foldlM_cons, List.foldlM_cons, readRun_bind]
      simp only [loadAndVisit, readRun_bind, readRun_loadElement]
      cases (readEnv idx support q ins skip m lc).loadElement u (maxDistance ef st) with
      | none => rfl
      | some r => exact readRun_foldl_visit ef us _

theorem readRun_searchLoop (ef : Nat) : ∀ (n : Nat)
    (st : SearchState (HnswElement V) ItemPointer δ),
    readRun idx (searchLoop (diskEnv support q ins skip m lc) ef lc n st) =
      searchLoop (readEnv idx support q ins skip m lc) ef lc n st
  | 0, _ => rfl
  | n + 1, st => by
      simp only [searchLoop]
      split
      · rfl
      · rfl
      · split
        · rfl
        · rename_i c C f _ _ _
          rw [readRun_bind, readRun_loadUnvisited]
          refine congrArg (Option.bind _) (funext fun r => ?_)
          rw [readRun_bind, readRun_foldl_visit]
          exact congrArg (Option.bind _) (funext fun s => readRun_searchLoop ef n s)

/-- **The search on disk, on an index that does not change, is the search that reads the index.** -/
theorem readRun_searchLayer (ep : List (HnswSearchCandidate (HnswElement V) δ)) (ef : Nat)
    (v : List ItemPointer) (d : Option (Heap (HnswSearchCandidate (HnswElement V) δ)))
    (iv : Bool) (tuples n : Nat) :
    readRun idx (HnswSearchLayer (diskEnv support q ins skip m lc) ep ef lc v d iv tuples n) =
      HnswSearchLayer (readEnv idx support q ins skip m lc) ep ef lc v d iv tuples n := by
  unfold HnswSearchLayer
  rw [readRun_bind, readRun_searchLoop]
  rfl

end Alone

end Disk

end Pgvec.Hnsw
