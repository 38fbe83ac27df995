/-
  File:      Pgvec/Hnsw/Scan.lean
  Subject:   INDEX SCANS (`hnswscan.c`): `hnswgettuple` with `GetScanItems` and `ResumeScanItems`, as
             programs of atomic sections.

  A scan keeps `w` (the candidates still to return, the nearest last), the visited table, the heap of
  discarded candidates and the tuple count in its opaque state. The test of the memory limit is an
  argument: `memory n` is its outcome at the `n`-th time the limits are tested. `checks` and `limitHit`
  record these tests; the code does not read them.
-/
import Pgvec.Hnsw.Insert

namespace Pgvec.Hnsw

open PairingHeap Conc

/-- `hnsw.iterative_scan`. -/
inductive IterativeScan where
  | HNSW_ITERATIVE_SCAN_OFF | HNSW_ITERATIVE_SCAN_RELAXED | HNSW_ITERATIVE_SCAN_STRICT
  deriving DecidableEq, Repr

/-- The settings of a scan. -/
structure ScanConfig where
  hnsw_ef_search : Nat
  hnsw_iterative_scan : IterativeScan
  hnsw_max_scan_tuples : Nat
  memory : Nat → Bool

/-- `HnswScanOpaqueData`. -/
structure HnswScanOpaque (V δ : Type) where
  first : Bool
  w : List (HnswSearchCandidate (HnswElement V) δ)
  v : List ItemPointer
  discarded : Option (Heap (HnswSearchCandidate (HnswElement V) δ))
  tuples : Nat
  /-- `none` is minus infinity. -/
  previousDistance : Option δ
  q : Option V
  m : Nat
  checks : Nat
  limitHit : Bool

variable {V δ : Type} [LinearOrder δ]

/-- `hnswrescan`. -/
def hnswrescan : HnswScanOpaque V δ where
  first := true
  w := []
  v := []
  discarded := none
  tuples := 0
  previousDistance := none
  q := none
  m := 0
  checks := 0
  limitHit := false

/-- `GetScanValue`: NULL, or the value, normalized if needed. -/
def GetScanValue (rel : HnswRel V δ) (value : Option V) : Option V :=
  value.map fun value => if rel.normprocinfo.isSome then rel.normalize value else value

/-! ## 1. Filling `w` -/

section Search

variable {M : Type → Type} [Monad M] [Budget M] {E U K : Type} [DecidableEq K]

/-- The greedy search of `GetScanItems` from layer `lc` down to layer 1. -/
def upperLayers (layer : Nat → SearchEnv M E U K δ) (budget : Nat) :
    Nat → List (HnswSearchCandidate E δ) → M (List (HnswSearchCandidate E δ))
  | 0, ep => pure ep
  | lc + 1, ep => do
      let r ← HnswSearchLayer (layer (lc + 1)) ep 1 (lc + 1) [] none true 0 budget
      upperLayers layer budget lc r.w

end Search

/-- The discarded heap a search is given: none when iterative scans are off. -/
def discardedArg (cfg : ScanConfig) (discarded : Option (Heap (HnswSearchCandidate (HnswElement V) δ))) :
    Option (Heap (HnswSearchCandidate (HnswElement V) δ)) :=
  if cfg.hnsw_iterative_scan = .HNSW_ITERATIVE_SCAN_OFF then none else some (discarded.getD none)

/-- The state after a search. -/
def HnswScanOpaque.searched (so : HnswScanOpaque V δ)
    (r : SearchResult (HnswElement V) ItemPointer δ) : HnswScanOpaque V δ :=
  { so with
    w := r.w, v := r.v, tuples := r.tuples
    discarded := if r.discarded.isSome then r.discarded else so.discarded }

/-- The candidates `GetScanItems` starts the ground layer with. -/
def entryCandidates (support : HnswSupport V δ) (q : Option V) (m : Nat) (entryPoint : EntryPoint)
    (budget : Nat) : HnswProg V (List (HnswSearchCandidate (HnswElement V) δ)) := do
  let entry ← HnswEntryCandidate support q false entryPoint.tid
  upperLayers (diskEnv support q false false m) budget entry.element.level [entry]

/-- **`GetScanItems`.** -/
def GetScanItems (support : HnswSupport V δ) (cfg : ScanConfig) (so : HnswScanOpaque V δ)
    (value : Option V) (budget : Nat) : HnswProg V (HnswScanOpaque V δ) := do
  -- get m and entry point
  let metap ← section_ .getMetaPageInfo
  let so := { so with q := value, m := metap.m }
  match metap.entry with
  | none => return { so with w := [] }
  | some entryPoint =>
      let ep ← entryCandidates support value metap.m entryPoint budget
      let r ← HnswSearchLayer (diskEnv support value false false metap.m 0) ep cfg.hnsw_ef_search 0
        so.v (discardedArg cfg so.discarded) true so.tuples budget
      return so.searched r

/-- Take up to `n` candidates off the discarded heap. -/
def takeDiscarded : Nat → Heap (HnswSearchCandidate (HnswElement V) δ) →
    List (HnswSearchCandidate (HnswElement V) δ) × Heap (HnswSearchCandidate (HnswElement V) δ)
  | 0, d => ([], d)
  | n + 1, d =>
      match removeFirst CompareNearestDiscardedCandidates d with
      | none => ([], d)
      | some (sc, d) =>
          let (ep, d) := takeDiscarded n d
          (sc :: ep, d)

/-- **`ResumeScanItems`.** -/
def ResumeScanItems (support : HnswSupport V δ) (cfg : ScanConfig) (so : HnswScanOpaque V δ)
    (discarded : Heap (HnswSearchCandidate (HnswElement V) δ)) (budget : Nat) :
    HnswProg V (HnswScanOpaque V δ) :=
  if discarded.isNone then pure { so with w := [] }
  else do
    -- get next batch of candidates
    let (ep, discarded) := takeDiscarded cfg.hnsw_ef_search discarded
    let r ← HnswSearchLayer (diskEnv support so.q false false so.m 0) ep cfg.hnsw_ef_search 0 so.v
      (some discarded) false so.tuples budget
    return so.searched r

/-! ## 2. `hnswgettuple` -/

/-- What `hnswgettuple` does when `w` is empty; `w` is still empty where the source breaks. -/
def refill (support : HnswSupport V δ) (cfg : ScanConfig) (so : HnswScanOpaque V δ) (budget : Nat) :
    HnswProg V (HnswScanOpaque V δ) :=
  if cfg.hnsw_iterative_scan = .HNSW_ITERATIVE_SCAN_OFF then pure so
  else
    match so.discarded with
    | none => pure so -- empty index
    | some discarded =>
        let checked := { so with checks := so.checks + 1 }
        -- reached max number of tuples or memory limit
        if cfg.hnsw_max_scan_tuples ≤ so.tuples ∨ cfg.memory so.checks then
          let checked := { checked with limitHit := true }
          match removeFirst CompareNearestDiscardedCandidates discarded with
          | none => pure checked
          | some (sc, discarded) => pure { checked with w := [sc], discarded := some discarded }
        else do
          LockPage .HNSW_SCAN_LOCK .ShareLock .ResumeScanItems
          let so ← ResumeScanItems support cfg checked discarded budget
          UnlockPage .HNSW_SCAN_LOCK .ShareLock
          return so

/-- The first half of a round of the loop: `w` is filled if it is empty. -/
def fill (support : HnswSupport V δ) (cfg : ScanConfig) (so : HnswScanOpaque V δ) (budget : Nat) :
    HnswProg V (HnswScanOpaque V δ) :=
  if so.w.isEmpty then refill support cfg so budget else pure so

/-- How one round of the loop of `hnswgettuple` ends once `w` is filled. -/
inductive Taken (V δ : Type) where
  | stop
  | again (so : HnswScanOpaque V δ)
  | found (heaptid : ItemPointer) (so : HnswScanOpaque V δ)

/-- Take a heap TID of the nearest candidate left. -/
def takeTuple (cfg : ScanConfig) (so : HnswScanOpaque V δ) : Taken V δ :=
  match so.w.getLast? with
  | none => .stop
  | some sc =>
      match sc.element.heaptids.getLast? with
      | none => .again { so with w := so.w.dropLast }
      | some heaptid =>
          let element := { sc.element with heaptids := sc.element.heaptids.dropLast }
          let so := { so with w := so.w.dropLast ++ [{ sc with element := element }] }
          if cfg.hnsw_iterative_scan = .HNSW_ITERATIVE_SCAN_STRICT then
            if so.previousDistance.any fun d => decide (sc.distance < d) then .again so
            else .found heaptid { so with previousDistance := some sc.distance }
          else .found heaptid so

/-- The loop of `hnswgettuple`. -/
def getTupleLoop (support : HnswSupport V δ) (cfg : ScanConfig) (budget : Nat) :
    Nat → HnswScanOpaque V δ → HnswProg V (Option ItemPointer × HnswScanOpaque V δ)
  | 0, _ => .cut
  | n + 1, so => do
      let so ← fill support cfg so budget
      match takeTuple cfg so with
      | .stop => return (none, so)
      | .again so => getTupleLoop support cfg budget n so
      | .found heaptid so => return (some heaptid, so)

/-- **`hnswgettuple`**: the next heap TID, or none. -/
def hnswgettuple (rel : HnswRel V δ) (cfg : ScanConfig) (value : Option V) (budget : Nat)
    (so : HnswScanOpaque V δ) : HnswProg V (Option ItemPointer × HnswScanOpaque V δ) := do
  if so.first then
    LockPage .HNSW_SCAN_LOCK .ShareLock .GetScanItems
    let so ← GetScanItems rel.support cfg so (GetScanValue rel value) budget
    UnlockPage .HNSW_SCAN_LOCK .ShareLock
    getTupleLoop rel.support cfg budget budget { so with first := false }
  else getTupleLoop rel.support cfg budget budget so

/-- The executor's calls of `hnswgettuple`, at most `n` of them, until it returns false. -/
def scanLoop (rel : HnswRel V δ) (cfg : ScanConfig) (value : Option V) (budget : Nat) :
    Nat → HnswScanOpaque V δ → HnswProg V (List ItemPointer × HnswScanOpaque V δ)
  | 0, _ => .cut
  | n + 1, so => do
      match ← hnswgettuple rel cfg value budget so with
      | (none, so) => return ([], so)
      | (some heaptid, so) =>
          let (rest, so) ← scanLoop rel cfg value budget n so
          return (heaptid :: rest, so)

/-- **A whole scan**: the heap TIDs returned, and the state at the end. -/
def indexScan (rel : HnswRel V δ) (cfg : ScanConfig) (value : Option V) (budget : Nat) :
    HnswProg V (List ItemPointer × HnswScanOpaque V δ) :=
  scanLoop rel cfg value budget budget hnswrescan

end Pgvec.Hnsw
