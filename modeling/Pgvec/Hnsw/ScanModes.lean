/-
  File:      Pgvec/Hnsw/ScanModes.lean
  Subject:   THE THREE SCAN MODES ON AN INDEX THAT DOES NOT CHANGE.

  * `Scans` -- the rounds of a scan without the strict filter, with the distance of every tuple;
    `scans_total` -- there is such a list of rounds, of bounded length;
  * `keepFrom`, `scanLoop_of_scans` -- what the calls of `hnswgettuple` make of these rounds;
  * `searchLayer_forget` -- the search that prunes by distance and the search that fills the discarded
    heap make the same steps;
  * `Scans.off` -- without iterative scans the rounds are a beginning of those of the other modes;
  * **`scan_modes_agree`** -- off is a prefix of relaxed order, strict order its non-decreasing part.
-/
import Pgvec.Hnsw.ScanComplete

namespace Pgvec.Hnsw

open PairingHeap Conc

variable {V δ : Type} [LinearOrder δ]

/-! ## 1. The distance of every tuple returned -/

/-- The calls of `hnswgettuple` with the distance of each tuple; the candidate a tuple came from is the
    last of `w` after the call. -/
def traceLoop (rel : HnswRel V δ) (cfg : ScanConfig) (value : Option V) (budget : Nat) :
    Nat → HnswScanOpaque V δ → HnswProg V (List (ItemPointer × δ))
  | 0, _ => .cut
  | n + 1, so => do
      match ← hnswgettuple rel cfg value budget so with
      | (none, _) => return []
      | (some heaptid, so) =>
          let rest ← traceLoop rel cfg value budget n so
          return (so.w.getLast?.toList.map fun sc => (heaptid, sc.distance)) ++ rest

/-- A whole scan, with the distances. -/
def indexTrace (rel : HnswRel V δ) (cfg : ScanConfig) (value : Option V) (budget : Nat) :
    HnswProg V (List (ItemPointer × δ)) :=
  traceLoop rel cfg value budget budget hnswrescan

/-- Go through a sequence of tuples and keep those whose distance is not smaller than the distance of
    any tuple kept before. -/
def keptOf (kept : List (ItemPointer × δ)) : List (ItemPointer × δ) → List (ItemPointer × δ)
  | [] => kept
  | y :: rest => if ∀ k ∈ kept, ¬ y.2 < k.2 then keptOf (kept ++ [y]) rest else keptOf kept rest

/-! ## 2. The rounds of a scan -/

/-- **The rounds of a scan without the strict filter**: `n` rounds from `so` on give the tuples and
    distances `l`. -/
inductive Scans (idx : Index V) (support : HnswSupport V δ) (cfg : ScanConfig) (budget : Nat) :
    Nat → HnswScanOpaque V δ → List (ItemPointer × δ) → Prop where
  | stop {n : Nat} {so so1 : HnswScanOpaque V δ}
      (hf : readRun idx (fill support cfg so budget) = some so1) (hw : so1.w = []) :
      Scans idx support cfg budget (n + 1) so []
  | again {n : Nat} {so so1 : HnswScanOpaque V δ} {w : List (HnswSearchCandidate (HnswElement V) δ)}
      {sc : HnswSearchCandidate (HnswElement V) δ} {l : List (ItemPointer × δ)}
      (hf : readRun idx (fill support cfg so budget) = some so1) (hw : so1.w = w ++ [sc])
      (hh : sc.element.heaptids = []) (h : Scans idx support cfg budget n { so1 with w := w } l) :
      Scans idx support cfg budget (n + 1) so l
  | found {n : Nat} {so so1 : HnswScanOpaque V δ} {w : List (HnswSearchCandidate (HnswElement V) δ)}
      {sc : HnswSearchCandidate (HnswElement V) δ} {ts : List ItemPointer} {t : ItemPointer}
      {l : List (ItemPointer × δ)} (hf : readRun idx (fill support cfg so budget) = some so1)
      (hw : so1.w = w ++ [sc]) (hh : sc.element.heaptids = ts ++ [t])
      (h : Scans idx support cfg budget n
        { so1 with w := w ++ [{ sc with element := { sc.element with heaptids := ts } }] } l) :
      Scans idx support cfg budget (n + 1) so ((t, sc.distance) :: l)

section Rounds

variable {idx : Index V} {support : HnswSupport V δ} {q : Option V} {Q : ItemPointer → Prop}
  {st R out : List ItemPointer} {so : HnswScanOpaque V δ} {cfg : ScanConfig} {budget : Nat}

/-- A tuple of a trace is a heap TID of an element, with the distance of that element. -/
def Traced (idx : Index V) (support : HnswSupport V δ) (q : Option V) (y : ItemPointer × δ) : Prop :=
  ∃ x etup, idx.elem? x = some etup ∧ y.1 ∈ etup.tids ∧ y.2 = HnswGetDistance support q etup.data

/-- **The rounds end**: each one drops an element or returns one of the heap TIDs that are left. -/
theorem scans_total (cfg : ScanConfig) (hL : idx.Linked) (hS : idx.Shaped)
    (hQc : ∀ t u, Q t → u ∈ idx.layerLinks 0 t → Q u) (hQe : ∀ t, Q t → ∃ f, idx.elem? t = some f)
    (hef : 0 < cfg.hnsw_ef_search) (hmode : cfg.hnsw_iterative_scan = .HNSW_ITERATIVE_SCAN_RELAXED)
    (hb : 2 * idx.tids.length < budget) : ∀ (k : Nat) (R out : List ItemPointer)
    (so : HnswScanOpaque V δ), ScanInv idx support q Q st R out so →
    outstanding idx so + (HNSW_HEAPTIDS * idx.tids.length - out.length) < k →
    ∃ l, Scans idx support cfg budget k so l ∧ ∀ y ∈ l, Traced idx support q y
  | 0, _, _, _, _, hk => absurd hk (Nat.not_lt_zero _)
  | k + 1, R, out, so, h, hk => by
      obtain ⟨R1, so1, hf, hinv, hout, _⟩ := fill_inv hL hS hQc hQe hef
        (by rw [hmode]; decide) hb h
      have htake := takeTuple_inv (by rw [hmode]; decide) hinv
      rcases List.eq_nil_or_concat so1.w with hw | ⟨w, sc, hw⟩
      · exact ⟨[], .stop hf hw, fun y hy => absurd hy List.not_mem_nil⟩
      · rw [List.concat_eq_append] at hw
        have hlast : so1.w.getLast? = some sc := by rw [hw]; simp
        have hdrop : so1.w.dropLast = w := by rw [hw, List.dropLast_concat]
        unfold takeTuple at htake
        simp only [hlast, hdrop] at htake
        rcases List.eq_nil_or_concat sc.element.heaptids with hh | ⟨ts, t, hh⟩
        · simp only [hh, List.getLast?_nil] at htake
          obtain ⟨l, hl, hy⟩ := scans_total cfg hL hS hQc hQe hef hmode hb k R1 out _ htake.1 (by omega)
          exact ⟨l, .again hf hw hh hl, hy⟩
        · rw [List.concat_eq_append] at hh
          have hrel : ¬ cfg.hnsw_iterative_scan = .HNSW_ITERATIVE_SCAN_STRICT := by
            rw [hmode]
            decide
          simp only [hh, List.getLast?_append, List.getLast?_singleton, Option.some_or,
            List.dropLast_concat, if_neg hrel] at htake
          have hlen := htake.out_length hQe
          rw [List.length_append, List.length_singleton] at hlen
          obtain ⟨l, hl, hy⟩ := scans_total cfg hL hS hQc hQe hef hmode hb k R1 (out ++ [t]) _ htake (by
            have hsame : outstanding idx ({ so1 with
                w := w ++ [{ sc with element := { sc.element with heaptids := ts } }] } :
                HnswScanOpaque V δ) = outstanding idx so1 := by
              unfold outstanding HnswScanOpaque.discards
              simp only [hw, List.length_append, List.length_singleton]
            rw [hsame, List.length_append, List.length_singleton]
            omega)
          refine ⟨_, .found hf hw hh hl, fun y hy' => ?_⟩
          rcases List.mem_cons.mp hy' with rfl | hy'
          · obtain ⟨etup, he, hsub, hd⟩ := hinv.held sc (by rw [hw]; simp)
            exact ⟨_, etup, he, hsub t (by rw [hh]; simp), hd⟩
          · exact hy y hy'

end Rounds

/-! ## 3. What the calls make of the rounds -/

/-- What the strict filter leaves of a sequence of tuples, after the distance `p`. -/
def keepFrom (cfg : ScanConfig) : Option δ → List (ItemPointer × δ) → List (ItemPointer × δ)
  | _, [] => []
  | p, y :: rest =>
      if cfg.hnsw_iterative_scan = .HNSW_ITERATIVE_SCAN_STRICT then
        if p.any fun d => decide (y.2 < d) then keepFrom cfg p rest
        else y :: keepFrom cfg (some y.2) rest
      else y :: keepFrom cfg p rest

theorem keepFrom_of_ne {cfg : ScanConfig}
    (h : cfg.hnsw_iterative_scan ≠ .HNSW_ITERATIVE_SCAN_STRICT) (p : Option δ) :
    ∀ l : List (ItemPointer × δ), keepFrom cfg p l = l
  | [] => rfl
  | y :: l => by
      simp only [keepFrom, if_neg h]
      rw [keepFrom_of_ne h p l]

/-- The filter compares with the last tuple kept only, which is the furthest of those kept. -/
theorem keptOf_eq (cfg : ScanConfig) (h : cfg.hnsw_iterative_scan = .HNSW_ITERATIVE_SCAN_STRICT) :
    ∀ (l kept : List (ItemPointer × δ)) (p : Option δ),
    (∀ d, (∀ k ∈ kept, ¬ d < k.2) ↔ ¬ (p.any fun x => decide (d < x)) = true) →
    keptOf kept l = kept ++ keepFrom cfg p l
  | [], kept, p, _ => by simp [keptOf, keepFrom]
  | y :: l, kept, p, hp => by
      simp only [keptOf, keepFrom, if_pos h]
      by_cases hy : (p.any fun x => decide (y.2 < x)) = true
      · rw [if_neg fun hk => (hp y.2).mp hk hy, if_pos hy]
        exact keptOf_eq cfg h l kept p hp
      · rw [if_pos ((hp y.2).mpr hy), if_neg hy, keptOf_eq cfg h l (kept ++ [y]) (some y.2) ?_]
        · rw [List.append_assoc, List.singleton_append]
        · intro d
          simp only [List.mem_append, List.mem_singleton, Option.any_some, decide_eq_true_eq]
          constructor
          · exact fun hk => hk y (Or.inr rfl)
          · rintro hd k (hk | rfl)
            · exact fun hlt => (hp y.2).mpr hy k hk (lt_of_le_of_lt (not_lt.mp hd) hlt)
            · exact hd

section Calls

variable {idx : Index V} {rel : HnswRel V δ} {support : HnswSupport V δ} {cfg cfg' : ScanConfig}
  {value : Option V} {budget : Nat}

/-- Filling `w` looks neither at `first` nor at the previous distance. -/
theorem readRun_fill_ghost (idx : Index V) (support : HnswSupport V δ) (cfg : ScanConfig) (budget : Nat)
    (so : HnswScanOpaque V δ) (b : Bool) (p : Option δ) :
    readRun idx (fill support cfg { so with first := b, previousDistance := p } budget) =
      (readRun idx (fill support cfg so budget)).map fun so =>
        { so with first := b, previousDistance := p } := by
  obtain ⟨first, w, v, discarded, tuples, p0, q, m, checks, limitHit⟩ := so
  unfold fill refill
  simp only
  split
  · split
    · rfl
    · cases discarded with
      | none => rfl
      | some d =>
          simp only
          split
          · cases removeFirst CompareNearestDiscardedCandidates d <;> rfl
          · simp only [readRun_bind, readRun_lockPage, readRun_unlockPage, Option.bind_some]
            unfold ResumeScanItems
            split
            · rfl
            · simp only [readRun_bind, readRun_pure]
              cases readRun idx (HnswSearchLayer (diskEnv support q false false m 0)
                (takeDiscarded cfg.hnsw_ef_search d).1 cfg.hnsw_ef_search 0 v
                (some (takeDiscarded cfg.hnsw_ef_search d).2) false tuples budget) <;> rfl
  · rfl

theorem readRun_fill_previous {so so1 : HnswScanOpaque V δ}
    (h : readRun idx (fill support cfg so budget) = some so1) (p : Option δ) :
    readRun idx (fill support cfg { so with previousDistance := p } budget) =
      some { so1 with previousDistance := p } ∧ so1.first = so.first := by
  have h1 := readRun_fill_ghost idx support cfg budget so
    so.first p
  have h2 := readRun_fill_ghost idx support cfg budget so
    so.first so.previousDistance
  rw [h] at h1 h2
  have hfirst : so1.first = so.first := by
    have e := Option.some.inj h2
    rw [e]
  refine ⟨h1.trans ?_, hfirst⟩
  rw [Option.map_some, ← hfirst]

/-- One round of the loop, given what `fill` makes of the state. -/
theorem readRun_getTupleLoop {so so1 : HnswScanOpaque V δ} {n : Nat}
    (h : readRun idx (fill support cfg so budget) = some so1) :
    readRun idx (getTupleLoop support cfg budget (n + 1) so) =
      match takeTuple cfg so1 with
      | .stop => some (none, so1)
      | .again so2 => readRun idx (getTupleLoop support cfg budget n so2)
      | .found t so2 => some (some t, so2) := by
  simp only [getTupleLoop]
  rw [readRun_bind, h]
  simp only [Option.bind_some]
  cases takeTuple cfg so1 <;> rfl

/-- How one call ends, given the rounds of the scan: with the first tuple the filter keeps, and the
    rounds that are left. -/
theorem getTuple_of_scans (hcfg : ∀ so : HnswScanOpaque V δ,
      fill support cfg' so budget = fill support cfg so budget) {k : Nat} {so : HnswScanOpaque V δ}
    {l : List (ItemPointer × δ)} (h : Scans idx support cfg budget k so l) :
    ∀ (n : Nat) (p : Option δ), k ≤ n → so.first = false →
    (∃ so', readRun idx (getTupleLoop support cfg' budget n { so with previousDistance := p }) =
        some (none, so') ∧ keepFrom cfg' p l = []) ∨
    (∃ y rest k' so' p', readRun idx
        (getTupleLoop support cfg' budget n { so with previousDistance := p }) =
          some (some y.1, { so' with previousDistance := p' }) ∧
        keepFrom cfg' p l = y :: keepFrom cfg' p' rest ∧ so'.first = false ∧ k' < k ∧
        Scans idx support cfg budget k' so' rest ∧ so'.w.getLast?.map (·.distance) = some y.2) := by
  induction h with
  | @stop k so so1 hf hw =>
      intro n p hn hfirst
      obtain ⟨n, rfl⟩ := Nat.exists_eq_succ_of_ne_zero (show n ≠ 0 by omega)
      obtain ⟨hf', _⟩ := readRun_fill_previous hf p
      rw [← hcfg] at hf'
      have hstep := readRun_getTupleLoop (n := n) hf'
      simp only [takeTuple, hw, List.getLast?_nil] at hstep
      exact Or.inl ⟨_, hstep, rfl⟩
  | @again k so so1 w sc l hf hw hh h ih =>
      intro n p hn hfirst
      obtain ⟨n, rfl⟩ := Nat.exists_eq_succ_of_ne_zero (show n ≠ 0 by omega)
      obtain ⟨hf', hfirst'⟩ := readRun_fill_previous hf p
      rw [← hcfg] at hf'
      have hstep := readRun_getTupleLoop (n := n) hf'
      simp only [takeTuple, hw, List.getLast?_append, List.getLast?_singleton, Option.some_or, hh,
        List.getLast?_nil, List.dropLast_concat] at hstep
      rw [hstep]
      rcases ih n p (by omega) (hfirst'.trans hfirst) with h1 | ⟨y, rest, k', so', p', h1, h2, h3, h4, h5⟩
      · exact Or.inl h1
      · exact Or.inr ⟨y, rest, k', so', p', h1, h2, h3, by omega, h5⟩
  | @found k so so1 w sc ts t l hf hw hh h ih =>
      intro n p hn hfirst
      obtain ⟨n, rfl⟩ := Nat.exists_eq_succ_of_ne_zero (show n ≠ 0 by omega)
      obtain ⟨hf', hfirst'⟩ := readRun_fill_previous hf p
      rw [← hcfg] at hf'
      have hstep := readRun_getTupleLoop (n := n) hf'
      simp only [takeTuple, hw, List.getLast?_append, List.getLast?_singleton, Option.some_or, hh,
        List.dropLast_concat] at hstep
      generalize hso : ({ so1 with
        w := w ++ [{ sc with element := { sc.element with heaptids := ts } }] } :
          HnswScanOpaque V δ) = so2 at h ih
      have hlast : so2.w.getLast?.map (·.distance) = some sc.distance := by rw [← hso]; simp
      have hfirst2 : so2.first = false := by rw [← hso]; exact hfirst'.trans hfirst
      have hp2 : ∀ p' : Option δ, ({ so1 with
          w := w ++ [{ sc with element := { sc.element with heaptids := ts } }]
          previousDistance := p' } : HnswScanOpaque V δ) = { so2 with previousDistance := p' } := by
        intro p'
        rw [← hso]
      simp only [keepFrom, hp2] at hstep ⊢
      by_cases hs : cfg'.hnsw_iterative_scan = .HNSW_ITERATIVE_SCAN_STRICT
      · rw [if_pos hs] at hstep ⊢
        by_cases hp : (p.any fun d => decide (sc.distance < d)) = true
        · -- the strict filter skips this tuple, the call goes on
          simp only [if_pos hp] at hstep ⊢
          rw [hstep]
          rcases ih n p (by omega) hfirst2 with
            h1 | ⟨y, rest, k', so', p', h1, h2, h3, h4, h5⟩
          · exact Or.inl h1
          · exact Or.inr ⟨y, rest, k', so', p', h1, h2, h3, by omega, h5⟩
        · simp only [if_neg hp] at hstep ⊢
          exact Or.inr ⟨(t, sc.distance), l, k, so2, some sc.distance, hstep, rfl, hfirst2, by omega, h,
            hlast⟩
      · simp only [if_neg hs] at hstep ⊢
        exact Or.inr ⟨(t, sc.distance), l, k, so2, p, hstep, rfl, hfirst2, by omega, h, hlast⟩

/-- **The calls of `hnswgettuple` return what the filter leaves of the rounds.** -/
theorem scanLoop_of_scans (hcfg : ∀ so : HnswScanOpaque V δ,
      fill rel.support cfg' so budget = fill rel.support cfg so budget) : ∀ (k : Nat)
    (so : HnswScanOpaque V δ) (l : List (ItemPointer × δ)) (p : Option δ) (n : Nat),
    Scans idx rel.support cfg budget k so l → k ≤ budget → k ≤ n → so.first = false →
    ∃ so', readRun idx (scanLoop rel cfg' value budget n { so with previousDistance := p }) =
        some ((keepFrom cfg' p l).map Prod.fst, so') ∧
      readRun idx (traceLoop rel cfg' value budget n { so with previousDistance := p }) =
        some (keepFrom cfg' p l) := by
  intro k
  induction k using Nat.strong_induction_on with
  | _ k ih =>
      intro so l p n h hkb hkn hfirst
      have hk : 0 < k := by cases h <;> omega
      obtain ⟨n, rfl⟩ := Nat.exists_eq_succ_of_ne_zero (show n ≠ 0 by omega)
      have hcall : hnswgettuple rel cfg' value budget { so with previousDistance := p } =
          getTupleLoop rel.support cfg' budget budget { so with previousDistance := p } := by
        unfold hnswgettuple
        rw [hfirst]
        rfl
      simp only [scanLoop, traceLoop, hcall]
      rw [readRun_bind, readRun_bind]
      rcases getTuple_of_scans hcfg h budget p hkb hfirst with
        ⟨so', h1, h2⟩ | ⟨y, rest, k', so', p', h1, h2, h3, h4, h5, h6⟩
      · rw [h1, h2]
        exact ⟨so', rfl, rfl⟩
      · obtain ⟨so'', h7, h8⟩ := ih k' h4 so' rest p' n h5 (by omega) (by omega) h3
        obtain ⟨sc, hsc, hd⟩ := Option.map_eq_some_iff.mp h6
        rw [h1, h2]
        simp only [Option.bind_some, readRun_bind, h7, h8]
        refine ⟨so'', rfl, ?_⟩
        simp only [hsc, Option.toList_some, List.map_cons, List.map_nil, hd]
        rfl

end Calls

/-! ## 4. The pruned search -/

/-- The local variables without the discarded heap. -/
def SearchState.forget {E K : Type} (s : SearchState E K δ) : SearchState E K δ :=
  { s with discarded := none }

/-- What the search gives back, without the discarded heap. -/
def SearchResult.forget {E K : Type} (r : SearchResult E K δ) : SearchResult E K δ :=
  { r with discarded := none }

section Pruned

variable {idx : Index V} {support : HnswSupport V δ} {q : Option V} {ins skip : Bool} {m ef lc : Nat}

theorem visit_forget {M : Type → Type} {E U K : Type} (env : SearchEnv M E U K δ)
    (s : SearchState E K δ) (e : Option E) (d : δ) :
    visit env ef lc s.forget e d = (visit env ef lc s e d).forget := by
  obtain ⟨C, W, wlen, v, discarded, tuples⟩ := s
  unfold visit SearchState.forget
  cases e with
  | none => cases first W <;> rfl
  | some e =>
      simp only
      cases first W with
      | none => rfl
      | some f =>
          simp only
          split
          · rfl
          · split
            · rfl
            · split
              · split
                · cases removeFirst CompareFurthestCandidates
                    (add CompareFurthestCandidates W ⟨e, d⟩) <;> rfl
                · rfl
              · rfl

/-- **An element that is not loaded would be discarded**: loading with the maximum distance and without
    make the same step. -/
theorem loadAndVisit_forget (s : SearchState (HnswElement V) ItemPointer δ) (u : ItemPointer) :
    loadAndVisit (readEnv idx support q ins skip m lc) ef lc s.forget u =
      (loadAndVisit (readEnv idx support q ins skip m lc) ef lc s u).map SearchState.forget := by
  unfold loadAndVisit
  simp only [readEnv]
  cases idx.elem? u with
  | none => rfl
  | some etup =>
      simp only [Option.map_some]
      show some _ = some _
      refine congrArg some ?_
      rw [visit_forget]
      -- the element is loaded on both sides, or it is not nearer than the furthest of `W`
      by_cases hpr : s.wlen < ef ∨ s.discarded = none
      · have hmd : maxDistance ef s.forget = maxDistance ef s := by
          unfold maxDistance SearchState.forget
          rcases hpr with h | h
          · simp [h]
          · simp [h]
        rw [hmd]
      · rw [not_or, Nat.not_lt] at hpr
        have hsome : s.discarded.isSome = true := Option.isSome_iff_ne_none.mpr hpr.2
        have hmd : maxDistance ef s.forget = (first s.W).map (·.distance) := by
          unfold maxDistance SearchState.forget
          rw [if_neg (by simp [Nat.not_lt.mpr hpr.1])]
        rw [hmd, maxDistance_none hsome]
        cases hf : first s.W with
        | none => rfl
        | some f =>
            simp only [Option.map_some, loadWithDistance]
            by_cases hd : HnswGetDistance support q etup.data < f.distance
            · rw [if_pos hd]
            · rw [if_neg hd, visit_none]
              unfold visit
              simp only [hf]
              rw [if_pos (by rw [not_or]; exact ⟨hd, Nat.not_lt.mpr hpr.1⟩)]
              rfl

theorem foldl_visit_forget : ∀ (us : List ItemPointer)
    (s : SearchState (HnswElement V) ItemPointer δ),
    us.foldlM (loadAndVisit (readEnv idx support q ins skip m lc) ef lc) s.forget =
      (us.foldlM (loadAndVisit (readEnv idx support q ins skip m lc) ef lc) s).map SearchState.forget
  | [], s => rfl
  | u :: us, s => by
      rw [List.foldlM_cons, List.foldlM_cons, loadAndVisit_forget]
      cases loadAndVisit (readEnv idx support q ins skip m lc) ef lc s u with
      | none => rfl
      | some s' => exact foldl_visit_forget us s'

theorem searchLoop_forget : ∀ (n : Nat) (s : SearchState (HnswElement V) ItemPointer δ),
    searchLoop (readEnv idx support q ins skip m lc) ef lc n s.forget =
      (searchLoop (readEnv idx support q ins skip m lc) ef lc n s).map SearchState.forget
  | 0, _ => rfl
  | n + 1, s => by
      obtain ⟨C, W, wlen, v, discarded, tuples⟩ := s
      simp only [searchLoop, SearchState.forget]
      cases removeFirst CompareNearestCandidates C with
      | none => rfl
      | some x =>
          cases first W with
          | none => rfl
          | some f =>
              simp only
              split
              · rfl
              · cases (readEnv idx support q ins skip m lc).loadUnvisited x.1.element v with
                | none => rfl
                | some r =>
                    obtain ⟨us, v'⟩ := r
                    generalize hst : SearchState.mk x.2 W wlen v' discarded (tuples + us.length) = st
                    have hst' : SearchState.mk x.2 W wlen v' none (tuples + us.length) = st.forget := by
                      rw [← hst]
                      rfl
                    show Option.bind (us.foldlM (loadAndVisit (readEnv idx support q ins skip m lc) ef lc)
                        (SearchState.mk x.2 W wlen v' none (tuples + us.length))) _ =
                      Option.map _ (Option.bind (us.foldlM
                        (loadAndVisit (readEnv idx support q ins skip m lc) ef lc)
                        (SearchState.mk x.2 W wlen v' discarded (tuples + us.length))) _)
                    rw [hst, hst', foldl_visit_forget]
                    cases us.foldlM (loadAndVisit (readEnv idx support q ins skip m lc) ef lc) st with
                    | none => rfl
                    | some s' => exact searchLoop_forget n s'

theorem searchStart_forget {M : Type → Type} {E U K : Type} [DecidableEq K] (env : SearchEnv M E U K δ)
    (ep : List (HnswSearchCandidate E δ)) (v : List K) (d : Option (Heap (HnswSearchCandidate E δ)))
    (iv : Bool) (tuples : Nat) :
    searchStart env ep v none iv tuples = (searchStart env ep v d iv tuples).forget := by
  have hfold : ∀ (ep : List (HnswSearchCandidate E δ)) (s : SearchState E K δ),
      ep.foldl (addEntry env iv) s.forget = (ep.foldl (addEntry env iv) s).forget := by
    intro ep
    induction ep with
    | nil => exact fun s => rfl
    | cons c ep ih => exact fun s => ih (addEntry env iv s c)
  have h := hfold ep { C := none, W := none, wlen := 0, v := if iv then [] else v
                       discarded := if iv then d.map fun _ => none else d, tuples := tuples }
  unfold searchStart
  rw [← h]
  unfold SearchState.forget
  simp

/-- **The search that prunes and the search that fills the discarded heap find the same.** -/
theorem searchLayer_forget (ep : List (HnswSearchCandidate (HnswElement V) δ)) (v : List ItemPointer)
    (d : Option (Heap (HnswSearchCandidate (HnswElement V) δ))) (iv : Bool) (tuples n : Nat) :
    HnswSearchLayer (readEnv idx support q ins skip m lc) ep ef lc v none iv tuples n =
      (HnswSearchLayer (readEnv idx support q ins skip m lc) ep ef lc v d iv tuples n).map
        SearchResult.forget := by
  unfold HnswSearchLayer
  rw [searchStart_forget _ ep v d iv tuples, searchLoop_forget]
  cases searchLoop (readEnv idx support q ins skip m lc) ef lc n
    (searchStart (readEnv idx support q ins skip m lc) ep v d iv tuples) <;> rfl

end Pruned

/-! ## 5. The three modes -/

/-- A configuration in another mode. -/
def ScanConfig.inMode (cfg : ScanConfig) (mode : IterativeScan) : ScanConfig :=
  { cfg with hnsw_iterative_scan := mode }

section Modes

variable {idx : Index V} {rel : HnswRel V δ} {support : HnswSupport V δ} {cfg : ScanConfig}
  {value : Option V} {budget : Nat}

theorem fill_strict (so : HnswScanOpaque V δ) :
    fill support (cfg.inMode .HNSW_ITERATIVE_SCAN_STRICT) so budget =
      fill support (cfg.inMode .HNSW_ITERATIVE_SCAN_RELAXED) so budget := by
  unfold fill refill
  rw [if_neg (show (cfg.inMode .HNSW_ITERATIVE_SCAN_STRICT).hnsw_iterative_scan ≠
    .HNSW_ITERATIVE_SCAN_OFF from by simp [ScanConfig.inMode])]
  rw [if_neg (show (cfg.inMode .HNSW_ITERATIVE_SCAN_RELAXED).hnsw_iterative_scan ≠
    .HNSW_ITERATIVE_SCAN_OFF from by simp [ScanConfig.inMode])]
  rfl

theorem fill_off (so : HnswScanOpaque V δ) :
    fill support (cfg.inMode .HNSW_ITERATIVE_SCAN_OFF) so budget = pure so := by
  unfold fill refill
  rw [if_pos (show (cfg.inMode .HNSW_ITERATIVE_SCAN_OFF).hnsw_iterative_scan =
    .HNSW_ITERATIVE_SCAN_OFF from rfl)]
  split <;> rfl

/-- **Without iterative scans the rounds are a beginning of the rounds with them**, from the same
    `w` on. -/
theorem Scans.off {cfg' : ScanConfig} {k : Nat} {so : HnswScanOpaque V δ} {l : List (ItemPointer × δ)}
    (h : Scans idx support cfg' budget k so l) : ∀ so' : HnswScanOpaque V δ, so'.w = so.w →
    ∃ l', Scans idx support (cfg.inMode .HNSW_ITERATIVE_SCAN_OFF) budget k so' l' ∧ l' <+: l := by
  have hfill : ∀ {so so1 : HnswScanOpaque V δ}, so.w ≠ [] →
      readRun idx (fill support cfg' so budget) = some so1 → so1 = so := by
    intro so so1 hne hf
    unfold fill at hf
    rw [if_neg fun he => hne (List.isEmpty_iff.mp he)] at hf
    exact (Option.some.inj hf).symm
  have hoff : ∀ so' : HnswScanOpaque V δ, readRun idx (fill support
      (cfg.inMode .HNSW_ITERATIVE_SCAN_OFF) so' budget) = some so' := fun so' => by
    rw [fill_off]
    rfl
  induction h with
  | @stop k so so1 hf hw =>
      intro so' hw'
      by_cases hne : so.w = []
      · exact ⟨[], .stop (hoff so') (hw'.trans hne), List.nil_prefix⟩
      · rw [hfill hne hf] at hw
        exact absurd hw hne
  | @again k so so1 w sc l hf hw hh h ih =>
      intro so' hw'
      by_cases hne : so.w = []
      · exact ⟨[], .stop (hoff so') (hw'.trans hne), List.nil_prefix⟩
      · rw [hfill hne hf] at hw
        obtain ⟨l', hl', hp⟩ := ih { so' with w := w } rfl
        exact ⟨l', .again (hoff so') (hw'.trans hw) hh hl', hp⟩
  | @found k so so1 w sc ts t l hf hw hh h ih =>
      intro so' hw'
      by_cases hne : so.w = []
      · exact ⟨[], .stop (hoff so') (hw'.trans hne), List.nil_prefix⟩
      · rw [hfill hne hf] at hw
        obtain ⟨l', hl', hp⟩ := ih
          { so' with w := w ++ [{ sc with element := { sc.element with heaptids := ts } }] } rfl
        exact ⟨_, .found (hoff so') (hw'.trans hw) hh hl', List.cons_prefix_cons.mpr ⟨rfl, hp⟩⟩

/-- The strict mode starts as the relaxed one does. -/
theorem getScanItems_strict (so : HnswScanOpaque V δ) (q : Option V) :
    GetScanItems support (cfg.inMode .HNSW_ITERATIVE_SCAN_STRICT) so q budget =
      GetScanItems support (cfg.inMode .HNSW_ITERATIVE_SCAN_RELAXED) so q budget := rfl

/-- Without iterative scans the first search gives the same `w`. -/
theorem getScanItems_off {so so1 : HnswScanOpaque V δ} {q : Option V}
    (h : readRun idx (GetScanItems support (cfg.inMode .HNSW_ITERATIVE_SCAN_RELAXED) so q budget) =
      some so1) :
    ∃ so2, readRun idx (GetScanItems support (cfg.inMode .HNSW_ITERATIVE_SCAN_OFF) so q budget) =
      some so2 ∧ so2.w = so1.w ∧ so1.previousDistance = so.previousDistance := by
  unfold GetScanItems section_ at h ⊢
  rw [Prog.op_bind, readRun_op _ _ rfl] at h ⊢
  simp only [execPage, Prog.ret_bind] at h ⊢
  cases he : idx.metap.entry with
  | none =>
      rw [he] at h
      refine ⟨_, rfl, ?_⟩
      rw [← Option.some.inj h]
      exact ⟨rfl, rfl⟩
  | some entryPoint =>
      rw [he] at h
      simp only [readRun_bind] at h ⊢
      cases hep : readRun idx (entryCandidates support q idx.metap.m entryPoint budget) with
      | none =>
          rw [hep] at h
          cases h
      | some ep =>
          rw [hep] at h
          simp only [Option.bind_some, readRun_searchLayer] at h ⊢
          have hd : discardedArg (cfg.inMode .HNSW_ITERATIVE_SCAN_OFF) so.discarded = none := rfl
          rw [hd, searchLayer_forget _ _
            (discardedArg (cfg.inMode .HNSW_ITERATIVE_SCAN_RELAXED) so.discarded)]
          simp only [ScanConfig.inMode] at h ⊢
          obtain ⟨r, hr, hso⟩ := Option.bind_eq_some_iff.mp h
          rw [hr]
          refine ⟨_, rfl, ?_⟩
          rw [← Option.some.inj hso]
          exact ⟨rfl, rfl⟩

/-- After the first search the calls go on as from any state of the scan. -/
theorem readRun_first {so : HnswScanOpaque V δ} {n : Nat}
    (h : readRun idx (GetScanItems rel.support cfg hnswrescan (GetScanValue rel value) budget) = some so) :
    readRun idx (scanLoop rel cfg value budget (n + 1) hnswrescan) =
        readRun idx (scanLoop rel cfg value budget (n + 1) { so with first := false }) ∧
      readRun idx (traceLoop rel cfg value budget (n + 1) hnswrescan) =
        readRun idx (traceLoop rel cfg value budget (n + 1) { so with first := false }) := by
  have hcall : readRun idx (hnswgettuple rel cfg value budget hnswrescan) =
      readRun idx (hnswgettuple rel cfg value budget { so with first := false }) := by
    unfold hnswgettuple
    have hfirst : (hnswrescan : HnswScanOpaque V δ).first = true := rfl
    rw [hfirst]
    simp only [if_true, Bool.false_eq_true, if_false]
    rw [readRun_bind, readRun_lockPage]
    simp only [Option.bind_some]
    rw [readRun_bind, h]
    rfl
  simp only [scanLoop, traceLoop]
  rw [readRun_bind, readRun_bind, readRun_bind, readRun_bind, hcall]
  exact ⟨rfl, rfl⟩

/-- **The three modes of an iterative scan agree** on an index that does not change. The scan without
    iteration returns a beginning of what relaxed order returns; strict order returns the tuples of
    relaxed order that are not nearer than one kept before. -/
theorem scan_modes_agree (cfg : ScanConfig) {s : St V} {t : Nat} (hheld : ∀ h ∈ s.holders, h.backend = t)
    (hL : s.index.Linked) (hS : s.index.Shaped) (hef : 1 ≤ cfg.hnsw_ef_search)
    (hb : (HNSW_HEAPTIDS + 1) * s.index.tids.length + 1 < budget) :
    ∃ trace off strict,
      (∃ s', Conc.run (hnswMachine V) t
        (indexTrace rel (cfg.inMode .HNSW_ITERATIVE_SCAN_RELAXED) value budget) s = some (trace, s')) ∧
      (∀ y ∈ trace, Traced s.index rel.support (GetScanValue rel value) y) ∧
      (∃ so s', Conc.run (hnswMachine V) t
        (indexScan rel (cfg.inMode .HNSW_ITERATIVE_SCAN_RELAXED) value budget) s =
          some ((trace.map Prod.fst, so), s')) ∧
      (∃ so s', Conc.run (hnswMachine V) t
        (indexScan rel (cfg.inMode .HNSW_ITERATIVE_SCAN_OFF) value budget) s = some ((off, so), s')) ∧
      off <+: trace.map Prod.fst ∧
      (∃ so s', Conc.run (hnswMachine V) t
        (indexScan rel (cfg.inMode .HNSW_ITERATIVE_SCAN_STRICT) value budget) s =
          some ((strict, so), s')) ∧
      strict = (keptOf [] trace).map Prod.fst := by
  have hb2 : 2 * s.index.tids.length < budget := by
    unfold HNSW_HEAPTIDS at hb
    omega
  obtain ⟨n, rfl⟩ := Nat.exists_eq_succ_of_ne_zero (show budget ≠ 0 by omega)
  -- the first search and the rounds of the relaxed scan
  obtain ⟨so, hso, trace, hscans, htraced⟩ : ∃ so,
      readRun s.index (GetScanItems rel.support (cfg.inMode .HNSW_ITERATIVE_SCAN_RELAXED) hnswrescan
        (GetScanValue rel value) (n + 1)) = some so ∧
      ∃ l, Scans s.index rel.support (cfg.inMode .HNSW_ITERATIVE_SCAN_RELAXED) (n + 1) (n + 1)
        { so with first := false } l ∧
        ∀ y ∈ l, Traced s.index rel.support (GetScanValue rel value) y := by
    cases he : s.index.metap.entry with
    | none =>
        refine ⟨{ (hnswrescan : HnswScanOpaque V δ) with
          q := GetScanValue rel value, m := s.index.metap.m }, ?_, [], .stop rfl rfl,
          fun y hy => absurd hy List.not_mem_nil⟩
        unfold GetScanItems section_
        rw [Prog.op_bind, readRun_op _ _ rfl]
        simp only [execPage, he, Prog.ret_bind]
        rfl
    | some entryPoint =>
        obtain ⟨ep, hep, hne, hf, hnd⟩ := groundEntries_total hL hS rel.support
          (GetScanValue rel value) he hb2
        obtain ⟨R, so, hso, hinv⟩ := getScanItems_inv (cfg.inMode .HNSW_ITERATIVE_SCAN_RELAXED) hL hS rfl he
          hb2 hep hne hf hnd
        have hQe : ∀ x, s.index.Reachable (ep.map fun c => c.element.tid) x →
            ∃ f, s.index.elem? x = some f := fun x hx => reachable_elem hL hf hx
        have hle := hinv.outstanding_le hQe
        refine ⟨so, hso, scans_total (cfg.inMode .HNSW_ITERATIVE_SCAN_RELAXED) hL hS
          (fun _ _ ht hu => .link ht hu) hQe hef rfl hb2 _ R [] _ hinv ?_⟩
        rw [Nat.succ_mul] at hb
        simp only [List.length_nil, Nat.sub_zero]
        omega
  obtain ⟨so2, hso2, hw2, hprev⟩ := getScanItems_off hso
  obtain ⟨off, hscans2, hpre⟩ := hscans.off { so2 with first := false } hw2
  -- the calls of the three modes
  obtain ⟨h1, h2⟩ := readRun_first (n := n) hso
  obtain ⟨h3, _⟩ := readRun_first (n := n) hso2
  rw [← getScanItems_strict] at hso
  obtain ⟨h4, _⟩ := readRun_first (n := n) hso
  obtain ⟨sr, hr, htr⟩ := scanLoop_of_scans (fun _ => rfl) _ _ _
    so.previousDistance (n + 1) hscans (Nat.le_refl _) (Nat.le_refl _) rfl
  obtain ⟨sf, hf, _⟩ := scanLoop_of_scans (fun _ => rfl) _ _ _
    so2.previousDistance (n + 1) hscans2 (Nat.le_refl _) (Nat.le_refl _) rfl
  obtain ⟨ss, hs, _⟩ := scanLoop_of_scans (fun so => fill_strict so) _ _ _
    so.previousDistance (n + 1) hscans (Nat.le_refl _) (Nat.le_refl _) rfl
  have hkept : keepFrom (cfg.inMode .HNSW_ITERATIVE_SCAN_STRICT) so.previousDistance trace =
      keptOf [] trace := by
    rw [hprev, keptOf_eq (cfg.inMode .HNSW_ITERATIVE_SCAN_STRICT) rfl trace [] none (by simp)]
    rfl
  rw [keepFrom_of_ne (by simp [ScanConfig.inMode])] at hr htr hf
  rw [hkept] at hs
  refine ⟨trace, off.map Prod.fst, (keptOf [] trace).map Prod.fst, ?_, htraced, ?_, ?_,
    hpre.map Prod.fst, ?_, rfl⟩
  · obtain ⟨s', hrun, _⟩ := run_of_readRun (t := t) hheld (h2.trans htr)
    exact ⟨s', hrun⟩
  · obtain ⟨s', hrun, _⟩ := run_of_readRun (t := t) hheld (h1.trans hr)
    exact ⟨sr, s', hrun⟩
  · obtain ⟨s', hrun, _⟩ := run_of_readRun (t := t) hheld (h3.trans hf)
    exact ⟨sf, s', hrun⟩
  · obtain ⟨s', hrun, _⟩ := run_of_readRun (t := t) hheld (h4.trans hs)
    exact ⟨ss, s', hrun⟩

/-- The three scans of the index with two elements. -/
theorem scan_modes_agree_pair : ∃ trace off strict,
    (∃ s', Conc.run (hnswMachine Nat) 0 (indexTrace numberRel
      ⟨1, .HNSW_ITERATIVE_SCAN_RELAXED, 20000, fun _ => false⟩ (some 12) 50) ⟨pairIndex, [], .idle⟩ =
        some (trace, s')) ∧
      (∀ y ∈ trace, Traced pairIndex numberSupport (some 12) y) ∧
      (∃ so s', Conc.run (hnswMachine Nat) 0 (indexScan numberRel
        ⟨1, .HNSW_ITERATIVE_SCAN_RELAXED, 20000, fun _ => false⟩ (some 12) 50) ⟨pairIndex, [], .idle⟩ =
          some ((trace.map Prod.fst, so), s')) ∧
      (∃ so s', Conc.run (hnswMachine Nat) 0 (indexScan numberRel
        ⟨1, .HNSW_ITERATIVE_SCAN_OFF, 20000, fun _ => false⟩ (some 12) 50) ⟨pairIndex, [], .idle⟩ =
          some ((off, so), s')) ∧
      off <+: trace.map Prod.fst ∧
      (∃ so s', Conc.run (hnswMachine Nat) 0 (indexScan numberRel
        ⟨1, .HNSW_ITERATIVE_SCAN_STRICT, 20000, fun _ => false⟩ (some 12) 50) ⟨pairIndex, [], .idle⟩ =
          some ((strict, so), s')) ∧
      strict = (keptOf [] trace).map Prod.fst :=
  scan_modes_agree ⟨1, .HNSW_ITERATIVE_SCAN_RELAXED, 20000, fun _ => false⟩
    (s := ⟨pairIndex, [], .idle⟩) (t := 0) (fun _ h => absurd h List.not_mem_nil) pairIndex_linked pairIndex_shaped
    (by decide) (by decide)

end Modes

end Pgvec.Hnsw
