/-
  File:      Pgvec/Hnsw/ScanSteps.lean
  Subject:   INDEX SCANS DURING A VACUUM: what an iteration of a scan loads.

  A scan holds `HNSW_SCAN_LOCK` during `GetScanItems` and during each iteration of `ResumeScanItems`, and
  keeps copies of elements (`discarded`) from one iteration to the next.

  * `Tracked` -- what the vacuum leaves of a copy: its node is there, of the copy's version unless it was
    marked, and then its neighbor tuple is of another version;
  * `ScanRely`, `ScanGuar`, `scanSpec`; **`valid_indexScan`** -- a scan meets its specification;
  * **`scan_loads_undeleted`** -- no scan step loads a deleted element, in every run in which no iteration
    of `ResumeScanItems` starts between the wait of `MarkDeleted` and its end; `scan_loads_deleted` -- a run
    in which one does.
-/
import Pgvec.Hnsw.Interleaved
import Pgvec.Hnsw.Scan

namespace Pgvec.Hnsw

open Conc PairingHeap

variable {V δ : Type}

/-! ## 1. Copies -/

/-- **What the vacuum leaves of a copy.** -/
def Tracked (s : St V) (e : HnswElement V) : Prop :=
  ∃ y, s.index.node? e.tid = some y ∧ y.elem.neighbortid = e.neighbortid ∧
    (y.elem.deleted = false → y.elem.version = e.version) ∧
    (y.elem.deleted = true → y.neigh.version ≠ e.version)

theorem Versions.trans {a b c : Index V} (h : Versions a b) (h' : Versions b c) : Versions a c := by
  intro u x hx
  obtain ⟨y, hy, hxy⟩ := h hx
  obtain ⟨z, hz, hyz⟩ := h' hy
  refine ⟨z, hz, ?_⟩
  rcases hxy with ⟨d1, v1, n1⟩ | ⟨d1, d1', n1⟩ <;> rcases hyz with ⟨d2, v2, n2⟩ | ⟨d2, d2', n2⟩
  · exact Or.inl ⟨d2.trans d1, v2.trans v1, fun hd => (n2 (d1.trans hd)).trans (n1 hd)⟩
  · exact Or.inr ⟨d1.symm.trans d2, d2', by rw [← v1]; exact n2⟩
  · exact Or.inr ⟨d1, d2.trans d1', by rw [n2 d1']; exact n1⟩
  · rw [d1'] at d2
    cases d2

/-- **What a scan relies on.** -/
structure ScanRely (t : Nat) (s s' : St V) : Prop where
  kept : ∀ {u x}, s.index.node? u = some x →
    ∃ x', s'.index.node? u = some x' ∧ x'.elem.neighbortid = x.elem.neighbortid
  versions : Versions s.index s'.index
  holders : ∀ {h : Holder}, h.backend = t → (h ∈ s'.holders ↔ h ∈ s.holders)
  waitedUp : s.phase.waited = true → s'.phase.waited = true
  markingUp : s.phase.marking = true → s'.phase.marking = true
  marking : ∀ {mode}, (⟨t, .HNSW_SCAN_LOCK, mode⟩ : Holder) ∈ s.holders →
    s'.phase.marking = s.phase.marking
  live : s.phase.waited = true → ∀ {u}, s.index.LiveAt u → s'.index.LiveAt u
  undeleted : s'.phase.marking = false → ∀ {u}, s.index.Undeleted u → s'.index.Undeleted u

/-- **What a scan guarantees**: it changes its own locks only. -/
def ScanGuar (t : Nat) (s s' : St V) : Prop :=
  ∃ hs, s' = { s with holders := hs } ∧ ∀ h : Holder, h.backend ≠ t → (h ∈ hs ↔ h ∈ s.holders)

section Relations

variable {t : Nat} {s s' : St V}

theorem ScanRely.refl (s : St V) : ScanRely t s s :=
  ⟨fun h => ⟨_, h, rfl⟩, Versions.refl s.index, fun _ => Iff.rfl, id, id, fun _ => rfl, fun _ _ h => h,
    fun _ _ h => h⟩

theorem ScanRely.trans {a b c : St V} (h : ScanRely t a b) (h' : ScanRely t b c) : ScanRely t a c where
  kept hx := by
    obtain ⟨y, hy, e⟩ := h.kept hx
    obtain ⟨z, hz, e'⟩ := h'.kept hy
    exact ⟨z, hz, e'.trans e⟩
  versions := Versions.trans h.versions h'.versions
  holders hb := (h'.holders hb).trans (h.holders hb)
  waitedUp hw := h'.waitedUp (h.waitedUp hw)
  markingUp hw := h'.markingUp (h.markingUp hw)
  marking hm := (h'.marking ((h.holders rfl).mpr hm)).trans (h.marking hm)
  live hw _ hu := h'.live (h.waitedUp hw) (h.live hw hu)
  undeleted hm u hu := by
    have hb : b.phase.marking = false := by
      cases e : b.phase.marking with
      | false => rfl
      | true =>
          rw [h'.markingUp e] at hm
          cases hm
    exact h'.undeleted hm (h.undeleted hb hu)

/-- The vacuum does not disturb scans more than this. -/
theorem VacuumGuar.scanRely {late : Prop} (ht : t ≠ 0) (h : VacuumGuar late s s') : ScanRely t s s' where
  kept := h.kept
  versions := h.versions
  holders hb := h.holders (by rw [hb]; exact ht)
  waitedUp := h.waitedUp
  markingUp := h.markingUp
  marking hm := h.marking.resolve_right fun hw => ht (hw.1 _ hm rfl)
  live := h.live
  undeleted := h.undeleted

theorem ScanGuar.vacuumRely (ht : t ≠ 0) (h : ScanGuar t s s') : VacuumRely s s' := by
  obtain ⟨hs, rfl, hh⟩ := h
  exact ⟨insertion_holders s hs, fun {a} hb => hh a (by rw [hb]; exact Ne.symm ht)⟩

theorem ScanGuar.rely {u : Nat} (htu : t ≠ u) (h : ScanGuar t s s') : ScanRely u s s' := by
  obtain ⟨hs, rfl, hh⟩ := h
  exact ⟨fun hx => ⟨_, hx, rfl⟩, Versions.refl s.index, fun {a} hb => hh a (by rw [hb]; exact Ne.symm htu),
    id, id, fun _ => rfl, fun _ _ h => h, fun _ _ h => h⟩

theorem ScanGuar.refl (s : St V) : ScanGuar t s s := ⟨s.holders, rfl, fun _ _ => Iff.rfl⟩

theorem Tracked.rely {e : HnswElement V} (h : Tracked s e) (hr : ScanRely t s s') : Tracked s' e := by
  obtain ⟨y, hy, hyn, hv, hd⟩ := h
  obtain ⟨z, hz, hzn⟩ := hr.kept hy
  obtain ⟨z', hz', hyz⟩ := hr.versions hy
  rw [hz] at hz'
  cases hz'
  refine ⟨z, hz, hzn.trans hyn, fun hzd => ?_, fun hzd => ?_⟩
  · rcases hyz with ⟨e1, e2, _⟩ | ⟨_, e2, _⟩
    · rw [e2]
      exact hv (e1 ▸ hzd)
    · rw [hzd] at e2
      cases e2
  · rcases hyz with ⟨e1, _, e3⟩ | ⟨e1, _, e3⟩
    · rw [e3 (e1 ▸ hzd)]
      exact hd (e1 ▸ hzd)
    · rw [← hv e1]
      exact e3

/-- Once inserts were waited for, what is settled stays so. -/
theorem Settled.rely {u : ItemPointer} (h : Settled s.index u) (hr : ScanRely t s s')
    (hw : s.phase.waited = true) (hu : ∃ y, s.index.node? u = some y) : Settled s'.index u := by
  obtain ⟨y, hy⟩ := hu
  intro z hz
  rcases h y hy with hl | hd
  · obtain ⟨z', hz', hzl⟩ := hr.live hw ⟨y, hy, hl⟩
    rw [hz] at hz'
    cases hz'
    exact Or.inl hzl
  · obtain ⟨z', hz', hyz⟩ := hr.versions hy
    rw [hz] at hz'
    cases hz'
    rcases hyz with ⟨e, _⟩ | ⟨e, _⟩
    · exact Or.inr (e.trans hd)
    · rw [hd] at e
      cases e

end Relations

/-! ## 2. The search of one iteration -/

/-- The specification of a scan: an iteration of `ResumeScanItems` does not start while `MarkDeleted` goes
    through the pages. -/
def scanSpec (t : Nat) : Spec (Op V) (St V) where
  inv := Inv
  rely := ScanRely t
  guar := ScanGuar t
  allow s o := ∀ mode, o = .lockPage .HNSW_SCAN_LOCK mode .ResumeScanItems → s.phase ≠ .markDeleted
  safe := LoadSafe True
  commit _ := True
  errors := True
  cuts := True

/-- The scan holds its lock. -/
def Scanning (t : Nat) (s : St V) : Prop := (⟨t, .HNSW_SCAN_LOCK, .ShareLock⟩ : Holder) ∈ s.holders

/-- A TID read under the lock: not marked, and live once `MarkDeleted` is past its wait. -/
def ScanTid (s : St V) (u : ItemPointer) : Prop :=
  (s.phase.marking = true → s.index.LiveAt u) ∧ (s.phase.marking = false → s.index.Undeleted u)

/-- A copy held under the lock. -/
def ScanCopy (s : St V) (e : HnswElement V) : Prop :=
  Tracked s e ∧ (s.phase.marking = true → Settled s.index e.tid)

theorem Tracked.node {s : St V} {e : HnswElement V} (h : Tracked s e) :
    ∃ y, s.index.node? e.tid = some y := by
  obtain ⟨y, hy, _⟩ := h
  exact ⟨y, hy⟩

theorem ScanTid.undeleted {s : St V} (hi : Inv s) {u : ItemPointer} (h : ScanTid s u) :
    s.index.Undeleted u := by
  cases hm : s.phase.marking with
  | true => exact hi.undeleted_of_live (h.1 hm)
  | false => exact h.2 hm

theorem scan_reads (t m : Nat) :
    Reads (scanSpec (V := V) t) m false (Scanning t) ScanTid ScanCopy where
  refl := ScanRely.refl
  trans := ScanRely.trans
  guar := ScanGuar.refl
  held hH hr _ := (hr.holders rfl).mpr hH
  stableT {s s' u} hH hr _ h := by
    refine ⟨fun hm => ?_, fun hm => ?_⟩
    · rw [hr.marking hH] at hm
      exact hr.live (VacuumPhase.waited_of_marking hm) (h.1 hm)
    · exact hr.undeleted hm (h.2 (by rw [← hr.marking hH]; exact hm))
  stableP {s s' e} hH hr _ h := by
    refine ⟨h.1.rely hr, fun hm => ?_⟩
    rw [hr.marking hH] at hm
    exact (h.2 hm).rely hr (VacuumPhase.waited_of_marking hm) h.1.node
  load {s u} _ hi h := by
    obtain ⟨y, hy, hd⟩ := h.undeleted hi
    refine Or.inl ⟨y.elem, Index.node?_elem hy, ⟨y, hy, rfl, fun _ => rfl, fun hd' => ?_⟩,
      fun hm x hx => ?_⟩
    · rw [hd] at hd'
      cases hd'
    · obtain ⟨z, hz, hzl⟩ := h.1 hm
      have hx' : s.index.node? u = some x := hx
      rw [hz] at hx'
      cases hx'
      exact Or.inl hzl
  safeLoad {s u l} _ hi h := by
    rintro _ u' l' e he hel
    cases he
    obtain ⟨y, hy, hd⟩ := h.undeleted hi
    rw [Index.node?_elem hy] at hel
    cases hel
    exact hd
  tids {s e} _ hi := by
    rintro ⟨⟨y, hy, hyn, _, hd⟩, hset⟩
    refine Or.inl ⟨y.neigh, by rw [← hyn]; exact Index.node?_neigh hy, fun lm lc l hll u hu => ?_⟩
    unfold neighborTids at hll
    split at hll
    · cases hll
    · rename_i hver
      cases hll
      rw [not_or, not_not] at hver
      obtain ⟨hm, hv⟩ := mem_validPrefix hu
      have hnames : y.Names u := ⟨List.mem_of_mem_drop (List.mem_of_mem_take hm), hv⟩
      refine ⟨fun hmark => ?_, fun hmark => (hi.undeleted hmark).1 e.tid y u hy hnames⟩
      rcases hset hmark y hy with hl | hdel
      · exact (hi.clean hmark).1 e.tid ⟨y, hy, hl⟩ y hy u hnames
      · exact absurd hver.1 (hd hdel)
  safeRead := by
    rintro _ _ _ u l e he
    cases he

section Search

variable [LinearOrder δ]

/-- Everything a search holds is good. -/
structure AllGood (G : HnswSearchCandidate (HnswElement V) δ → Prop)
    (st : SearchState (HnswElement V) ItemPointer δ) : Prop where
  goodC : ∀ c ∈ toList st.C, G c
  goodW : ∀ c ∈ toList st.W, G c
  goodD : ∀ {d}, st.discarded = some d → ∀ c ∈ toList d, G c

theorem AllGood.visit {G : HnswSearchCandidate (HnswElement V) δ → Prop}
    {st : SearchState (HnswElement V) ItemPointer δ} {M : Type → Type}
    {env : SearchEnv M (HnswElement V) ItemPointer ItemPointer δ} {ef lc : Nat} {e : HnswElement V} {d : δ}
    (h : AllGood G st) (hG : G ⟨e, d⟩) : AllGood G (visit env ef lc st (some e) d) := by
  have hadd : ∀ {x}, G x → ∀ {q}, (st.discarded.map fun y => add CompareNearestDiscardedCandidates y x) =
      some q → ∀ c ∈ toList q, G c := by
    intro x hx q hq
    obtain ⟨d0, hd0, rfl⟩ := Option.map_eq_some_iff.mp hq
    exact good_add hx (h.goodD hd0)
  rcases visit_or env ef lc st (some e) d with e' | ⟨e', f, he, hv⟩
  · rw [e']
    exact h
  · cases he
    generalize Hnsw.visit env ef lc st (some e) d = st' at hv
    cases hv with
    | discarded => exact ⟨h.goodC, h.goodW, hadd hG⟩
    | ignored => exact h
    | added => exact ⟨good_add hG h.goodC, good_add hG h.goodW, h.goodD⟩
    | evicted _ _ x W hx =>
        have hW : ∀ c ∈ toList (add CompareFurthestCandidates st.W ⟨e, d⟩), G c := good_add hG h.goodW
        have hperm := removeFirst_perm _ hx
        exact ⟨good_add hG h.goodC, fun c hc => hW c (hperm.mem_iff.mpr (List.mem_cons_of_mem _ hc)),
          hadd (hW x (hperm.mem_iff.mpr List.mem_cons_self))⟩

variable {t m : Nat}

/-- **A search of a scan**: what it keeps can be counted on. -/
theorem valid_scanLayer (support : HnswSupport V δ) (q : Option V) (ef lc n : Nat)
    {ep : List (HnswSearchCandidate (HnswElement V) δ)} {v : List ItemPointer}
    {d : Option (Heap (HnswSearchCandidate (HnswElement V) δ))} {iv : Bool} {tuples : Nat} {s : St V}
    (hH : Scanning t s) (hi : Inv s) (hep : ∀ c ∈ ep, ScanCopy s c.element)
    (hd : iv = false → ∀ {h}, d = some h → ∀ c ∈ toList h, ScanCopy s c.element) :
    Valid (hnswMachine V) t (scanSpec t)
      (HnswSearchLayer (diskEnv support q false false m lc) ep ef lc v d iv tuples n)
      (fun r s' => ScanRely t s s' ∧ Inv s' ∧ (∀ c ∈ r.w, ScanCopy s' c.element) ∧
        ∀ {h}, r.discarded = some h → ∀ c ∈ toList h, ScanCopy s' c.element) s := by
  have R := scan_reads (V := V) t m
  have h0 : AllGood (fun c => ScanCopy s c.element)
      (searchStart (diskEnv support q false false m lc) ep v d iv tuples) := by
    obtain ⟨h1, h2⟩ := searchStart_perm (diskEnv support q false false m lc) ep v d iv tuples
    refine ⟨fun c hc => hep c (h1.mem_iff.mp hc), fun c hc => hep c (h2.mem_iff.mp hc), fun {h} hh => ?_⟩
    rw [searchStart_discarded] at hh
    cases iv with
    | true =>
        obtain ⟨_, _, rfl⟩ := Option.map_eq_some_iff.mp hh
        exact fun c hc => absurd hc List.not_mem_nil
    | false => exact hd rfl hh
  refine Valid.bind (Valid.mono (valid_searchLoop R support q false ef lc ∅ (Or.inl trivial)
    (I := fun us st s => AllGood (fun c => ScanCopy s c.element) st ∧ ∀ u ∈ us, ScanTid s u)
    ?_ ?_ ?_ ?_ ?_ ?_ ?_ n _ s hH hi ⟨h0, fun u hu => absurd hu List.not_mem_nil⟩ (Or.inl trivial)) ?_)
  · rintro us st s s' hH hr hi ⟨h1, h2⟩
    exact ⟨⟨fun c hc => R.stableP hH hr hi (h1.goodC c hc), fun c hc => R.stableP hH hr hi (h1.goodW c hc),
      fun hd c hc => R.stableP hH hr hi (h1.goodD hd c hc)⟩, fun u hu => R.stableT hH hr hi (h2 u hu)⟩
  · exact fun u us st s h => h.2 u List.mem_cons_self
  · exact fun u us st s h => ⟨h.1, fun x hx => h.2 x (List.mem_cons_of_mem _ hx)⟩
  · rintro u us st s e d ⟨h1, h2⟩ hP _
    exact ⟨h1.visit hP, fun x hx => h2 x (List.mem_cons_of_mem _ hx)⟩
  · rintro st s c C ⟨h1, _⟩ hC
    exact h1.goodC c ((removeFirst_perm _ hC).mem_iff.mpr List.mem_cons_self)
  · rintro st s c C l ⟨h1, _⟩ hC hl
    exact ⟨⟨fun x hx => h1.goodC x ((removeFirst_perm _ hC).mem_iff.mpr (List.mem_cons_of_mem _ hx)),
      h1.goodW, h1.goodD⟩, fun u hu => hl u ((unvisitedOf_spec id l st.v).2.2.2.1 u hu)⟩
  · rintro st s c C ⟨h1, h2⟩ hC
    exact ⟨⟨fun x hx => h1.goodC x ((removeFirst_perm _ hC).mem_iff.mpr (List.mem_cons_of_mem _ hx)),
      h1.goodW, h1.goodD⟩, h2⟩
  · rintro st s' ⟨hr, hi', h1, _⟩
    refine ⟨hr, hi', fun c hc => h1.goodW c ?_, h1.goodD⟩
    exact (searchEnd_perm st).mem_iff.mp hc

/-! ## 3. The scan -/

/-- The greedy search down to the ground layer. -/
theorem valid_upperLayers (support : HnswSupport V δ) (q : Option V) (budget : Nat) :
    ∀ (lc : Nat) {ep : List (HnswSearchCandidate (HnswElement V) δ)} {s : St V}, Scanning t s → Inv s →
      (∀ c ∈ ep, ScanCopy s c.element) → Valid (hnswMachine V) t (scanSpec t)
        (upperLayers (diskEnv support q false false m) budget lc ep)
        (fun w s' => ScanRely t s s' ∧ Inv s' ∧ ∀ c ∈ w, ScanCopy s' c.element) s
  | 0, _, s, _, hi, hep => ⟨.refl s, hi, hep⟩
  | lc + 1, ep, s, hH, hi, hep => by
      unfold upperLayers
      refine Valid.bind (Valid.mono (valid_scanLayer support q 1 (lc + 1) budget hH hi hep
        fun h => by cases h) ?_)
      rintro r s' ⟨hr, hi', hw, _⟩
      refine Valid.mono (valid_upperLayers support q budget lc ((hr.holders rfl).mpr hH) hi' hw) ?_
      rintro w s'' ⟨hr', h'⟩
      exact ⟨hr.trans hr', h'⟩

/-- The copies a scan keeps from one iteration to the next. -/
def KeepsTracked (so : HnswScanOpaque V δ) (s : St V) : Prop :=
  ∀ d, so.discarded = some d → ∀ c ∈ toList d, Tracked s c.element

omit [LinearOrder δ] in
theorem KeepsTracked.rely {so : HnswScanOpaque V δ} {s s' : St V} (h : KeepsTracked so s)
    (hr : ScanRely t s s') : KeepsTracked so s' := fun d hd c hc => (h d hd c hc).rely hr

omit [LinearOrder δ] in
/-- What is kept after a search. -/
theorem keepsTracked_searched {so : HnswScanOpaque V δ} {s : St V}
    {r : SearchResult (HnswElement V) ItemPointer δ} (h : KeepsTracked so s)
    (hr : ∀ {d}, r.discarded = some d → ∀ c ∈ toList d, ScanCopy s c.element) :
    KeepsTracked (so.searched r) s := by
  intro d hd c hc
  unfold HnswScanOpaque.searched at hd
  simp only at hd
  split at hd
  · exact (hr hd c hc).1
  · exact h d hd c hc

/-- **`GetScanItems`**, under the lock. -/
theorem valid_getScanItems (support : HnswSupport V δ) (cfg : ScanConfig) {so : HnswScanOpaque V δ}
    (value : Option V) (budget : Nat) {s : St V} (hH : Scanning t s) (hk : KeepsTracked so s) :
    Valid (hnswMachine V) t (scanSpec t) (GetScanItems support cfg so value budget)
      (fun so' s' => Scanning t s' ∧ KeepsTracked so' s') s := by
  unfold GetScanItems
  refine Valid.bind (valid_read (fun _ => rfl) ScanGuar.refl fun s1 hr1 hi1 _ => ⟨?_, ?_⟩)
  · rintro _ u l e he
    cases he
  have R := scan_reads (V := V) t s1.index.metap.m
  have hH1 : Scanning t s1 := (hr1.holders rfl).mpr hH
  have hk1 := hk.rely hr1
  simp only [execPage]
  cases hep : s1.index.metap.entry with
  | none => exact ⟨hH1, hk1⟩
  | some ep =>
      have hT : ScanTid s1 ep.tid :=
        ⟨fun hm => (Inv.clean hi1 hm).2 ep hep, fun hm => (Inv.undeleted hi1 hm).2 ep hep⟩
      refine Valid.bind (Valid.bind (Valid.mono (valid_entryCandidate R hH1 hT support value) ?_))
      rintro c s2 ⟨hr2, hi2, hP2, _⟩
      have hH2 : Scanning t s2 := (hr2.holders rfl).mpr hH1
      refine Valid.mono (valid_upperLayers support value budget _ hH2 hi2 fun x hx => ?_) ?_
      · rw [List.mem_singleton.mp hx]
        exact hP2
      rintro w s3 ⟨hr3, hi3, hw3⟩
      refine Valid.bind (Valid.mono (valid_scanLayer support value cfg.hnsw_ef_search 0 budget
        ((hr3.holders rfl).mpr hH2) hi3 hw3 fun h => by cases h) ?_)
      rintro r s4 ⟨hr4, _, _, hd4⟩
      have hr14 : ScanRely t s1 s4 := hr2.trans (hr3.trans hr4)
      exact ⟨(hr14.holders rfl).mpr hH1, keepsTracked_searched (hk1.rely hr14) hd4⟩

/-- The candidates taken off the discarded heap, and what is left of it. -/
theorem takeDiscarded_mem : ∀ (n : Nat) (d : Heap (HnswSearchCandidate (HnswElement V) δ)),
    (∀ c ∈ (takeDiscarded n d).1, c ∈ toList d) ∧ ∀ c ∈ toList (takeDiscarded n d).2, c ∈ toList d
  | 0, _ => ⟨fun c hc => absurd hc List.not_mem_nil, fun _ hc => hc⟩
  | n + 1, d => by
      unfold takeDiscarded
      cases hr : removeFirst CompareNearestDiscardedCandidates d with
      | none => exact ⟨fun c hc => absurd hc List.not_mem_nil, fun _ hc => hc⟩
      | some x =>
          obtain ⟨sc, d'⟩ := x
          have hperm := removeFirst_perm _ hr
          obtain ⟨h1, h2⟩ := takeDiscarded_mem n d'
          refine ⟨fun c hc => ?_, fun c hc => hperm.mem_iff.mpr (List.mem_cons_of_mem _ (h2 c hc))⟩
          rcases List.mem_cons.mp hc with rfl | hc
          · exact hperm.mem_iff.mpr List.mem_cons_self
          · exact hperm.mem_iff.mpr (List.mem_cons_of_mem _ (h1 c hc))

/-- **`ResumeScanItems`**, under the lock. -/
theorem valid_resumeScanItems (support : HnswSupport V δ) (cfg : ScanConfig) {so : HnswScanOpaque V δ}
    {discarded : Heap (HnswSearchCandidate (HnswElement V) δ)} (budget : Nat) {s : St V}
    (hH : Scanning t s) (hi : Inv s) (hk : KeepsTracked so s)
    (hd : ∀ c ∈ toList discarded, ScanCopy s c.element) :
    Valid (hnswMachine V) t (scanSpec t) (ResumeScanItems support cfg so discarded budget)
      (fun so' s' => KeepsTracked so' s') s := by
  unfold ResumeScanItems
  split
  · exact hk
  · obtain ⟨h1, h2⟩ := takeDiscarded_mem cfg.hnsw_ef_search discarded
    refine Valid.bind (Valid.mono (valid_scanLayer support so.q cfg.hnsw_ef_search 0 budget hH hi
      (fun c hc => hd c (h1 c hc)) fun _ h hh c hc => ?_) ?_)
    · cases hh
      exact hd c (h2 c hc)
    · rintro r s' ⟨hr, _, _, hd'⟩
      exact keepsTracked_searched (hk.rely hr) hd'

omit [LinearOrder δ] in
/-- The lock of the scan. -/
theorem valid_scan_lock (caller : Caller) {so : HnswScanOpaque V δ} {s : St V} (hk : KeepsTracked so s) :
    Valid (hnswMachine V) t (scanSpec t) (LockPage .HNSW_SCAN_LOCK .ShareLock caller)
      (fun _ s' => KeepsTracked so s' ∧ Inv s' ∧ Scanning t s' ∧
        (caller = .ResumeScanItems → s'.phase ≠ .markDeleted)) s := by
  refine valid_lock fun s1 hr1 hi1 ha => ⟨fun _ u l e he => (by cases he), fun hw => ?_⟩
  have hinv : Inv { s1 with holders := ⟨t, .HNSW_SCAN_LOCK, .ShareLock⟩ :: s1.holders } :=
    Inv.holders hi1 (Compatible.cons (Inv.locks hi1) hw)
  have hk1 : KeepsTracked so s1 := hk.rely hr1
  refine ⟨hinv, ⟨_, rfl, fun h hb => ?_⟩, hk1, hinv, List.mem_cons_self, fun hc => ?_⟩
  · simp only [List.mem_cons]
    refine ⟨fun hm => hm.resolve_left ?_, Or.inr⟩
    rintro rfl
    exact hb rfl
  · subst hc
    exact ha _ rfl

omit [LinearOrder δ] in
theorem valid_scan_unlock {so : HnswScanOpaque V δ} {s : St V} (hk : KeepsTracked so s) :
    Valid (hnswMachine V) t (scanSpec t) (UnlockPage .HNSW_SCAN_LOCK .ShareLock)
      (fun _ s' => KeepsTracked so s') s := by
  refine valid_unlock fun s1 hr1 hi1 _ => ?_
  have hk1 : KeepsTracked so s1 := hk.rely hr1
  refine ⟨fun _ u l e he => (by cases he), ?_, ⟨_, rfl, fun h hb => ?_⟩, hk1⟩
  · exact Inv.holders hi1 (Compatible.sub (Inv.locks hi1) fun _ ha => List.mem_of_mem_erase ha)
  · refine List.mem_erase_of_ne ?_
    rintro rfl
    exact hb rfl

/-- Filling `w` again. An iteration that starts has nothing left to be marked: `MarkDeleted` has not begun,
    or it is over. -/
theorem valid_fill (support : HnswSupport V δ) (cfg : ScanConfig) {so : HnswScanOpaque V δ} (budget : Nat)
    {s : St V} (hk : KeepsTracked so s) :
    Valid (hnswMachine V) t (scanSpec t) (fill support cfg so budget) (fun so' s' => KeepsTracked so' s')
      s := by
  unfold fill
  split
  · unfold refill
    split
    · exact hk
    · cases hd : so.discarded with
      | none => exact hk
      | some d =>
          simp only
          split
          · cases hr : removeFirst CompareNearestDiscardedCandidates d with
            | none => exact fun d' hd' => hk d' (hd.trans hd')
            | some x =>
                intro d' hd' c hc
                cases hd'
                exact hk d hd c ((removeFirst_perm _ hr).mem_iff.mpr (List.mem_cons_of_mem _ hc))
          · refine Valid.bind (Valid.mono (valid_scan_lock .ResumeScanItems hk) ?_)
            rintro _ s1 ⟨hk1, hi1, hH1, hph⟩
            refine Valid.bind (Valid.mono (valid_resumeScanItems support cfg budget hH1 hi1
              (fun d' hd' => ?_) fun c hc => ⟨hk1 d hd c hc, fun hm => ?_⟩) ?_)
            · cases hd'
              exact hk1 d hd
            · refine hi1.finished ?_ c.element.tid
              cases hp : s1.phase with
              | finished => rfl
              | markDeleted => exact absurd hp (hph rfl)
              | idle => rw [hp] at hm; cases hm
              | removeHeapTids => rw [hp] at hm; cases hm
              | repairGraphEntryPoint _ _ => rw [hp] at hm; cases hm
              | repairGraph => rw [hp] at hm; cases hm
            · intro so' s2 hk2
              exact Valid.bind (Valid.mono (valid_scan_unlock hk2) fun _ _ h => h)
  · exact hk

theorem valid_getTupleLoop (support : HnswSupport V δ) (cfg : ScanConfig) (budget : Nat) :
    ∀ (n : Nat) {so : HnswScanOpaque V δ} {s : St V}, KeepsTracked so s →
      Valid (hnswMachine V) t (scanSpec t) (getTupleLoop support cfg budget n so)
        (fun r s' => KeepsTracked r.2 s') s
  | 0, _, _, _ => trivial
  | n + 1, so, s, hk => by
      unfold getTupleLoop
      refine Valid.bind (Valid.mono (valid_fill support cfg budget hk) ?_)
      intro so1 s1 hk1
      -- taking a tuple leaves the discarded heap alone
      have htake : ∀ so', (takeTuple cfg so1 = .again so' ∨ ∃ h, takeTuple cfg so1 = .found h so') →
          so'.discarded = so1.discarded := by
        intro so' h
        unfold takeTuple at h
        split at h
        · rcases h with h | ⟨_, h⟩ <;> cases h
        · split at h
          · rcases h with h | ⟨_, h⟩ <;> cases h
            rfl
          · simp only at h
            split at h
            · split at h <;> rcases h with h | ⟨_, h⟩ <;> cases h <;> rfl
            · rcases h with h | ⟨_, h⟩ <;> cases h
              rfl
      cases htt : takeTuple cfg so1 with
      | stop => exact hk1
      | again so' =>
          refine valid_getTupleLoop support cfg budget n fun d hd => hk1 d ?_
          rw [← htake so' (Or.inl htt)]
          exact hd
      | found heaptid so' =>
          intro d hd
          exact hk1 d ((htake so' (Or.inr ⟨_, htt⟩)).symm.trans hd)

theorem valid_hnswgettuple (rel : HnswRel V δ) (cfg : ScanConfig) (value : Option V) (budget : Nat)
    {so : HnswScanOpaque V δ} {s : St V} (hk : KeepsTracked so s) :
    Valid (hnswMachine V) t (scanSpec t) (hnswgettuple rel cfg value budget so)
      (fun r s' => KeepsTracked r.2 s') s := by
  unfold hnswgettuple
  split
  · refine Valid.bind (Valid.mono (valid_scan_lock .GetScanItems hk) ?_)
    rintro _ s1 ⟨hk1, _, hH1, _⟩
    refine Valid.bind (Valid.mono (valid_getScanItems rel.support cfg _ budget hH1 hk1) ?_)
    rintro so2 s2 ⟨_, hk2⟩
    refine Valid.bind (Valid.mono (valid_scan_unlock hk2) ?_)
    intro _ s3 hk3
    exact valid_getTupleLoop rel.support cfg budget budget hk3
  · exact valid_getTupleLoop rel.support cfg budget budget hk

theorem valid_scanLoop (rel : HnswRel V δ) (cfg : ScanConfig) (value : Option V) (budget : Nat) :
    ∀ (n : Nat) {so : HnswScanOpaque V δ} {s : St V}, KeepsTracked so s →
      Valid (hnswMachine V) t (scanSpec t) (scanLoop rel cfg value budget n so) (fun _ _ => True) s
  | 0, _, _, _ => trivial
  | n + 1, so, s, hk => by
      unfold scanLoop
      refine Valid.bind (Valid.mono (valid_hnswgettuple rel cfg value budget hk) ?_)
      rintro ⟨heaptid, so'⟩ s' hk'
      cases heaptid with
      | none => trivial
      | some heaptid =>
          exact Valid.bind (Valid.mono (valid_scanLoop rel cfg value budget n hk') fun _ _ _ => trivial)

/-- **An index scan among other backends.** -/
theorem valid_indexScan (rel : HnswRel V δ) (cfg : ScanConfig) (value : Option V) (budget : Nat)
    (s : St V) :
    Valid (hnswMachine V) t (scanSpec t) (indexScan rel cfg value budget) (fun _ _ => True) s :=
  valid_scanLoop rel cfg value budget budget fun d hd => by cases hd

end Search

/-! ## 4. One vacuum and scans -/

/-- One scan. -/
structure ScanCall (V δ : Type) where
  rel : HnswRel V δ
  cfg : ScanConfig
  value : Option V
  budget : Nat

def ScanCall.prog [LinearOrder δ] (c : ScanCall V δ) : HnswProg V Unit :=
  discard (indexScan c.rel c.cfg c.value c.budget)

/-- The vacuum is backend 0, the scans are the others. -/
def scanConfig [LinearOrder δ] [DecidableEq V] (idx : Index V) (vacuum : VacuumCall V δ)
    (scans : List (ScanCall V δ)) : Config (Op V) Op.Resp (St V) :=
  ⟨⟨idx, [], .idle⟩, vacuum.prog :: scans.map ScanCall.prog⟩

/-- The specification of backend `t`. -/
def scannerSpec (t : Nat) : Spec (Op V) (St V) := if t = 0 then vacuumSpec False True else scanSpec t

theorem scannerSpec_succ (t : Nat) : scannerSpec (V := V) (t + 1) = scanSpec (t + 1) :=
  if_neg (Nat.succ_ne_zero t)

/-- **Every interleaving** of the vacuum with scans keeps the backends good. -/
theorem good_scanners [LinearOrder δ] [DecidableEq V] {idx : Index V} {vacuum : VacuumCall V δ}
    {scans : List (ScanCall V δ)} (hidx : idx.NoDeletedLink) {c : Config (Op V) Op.Resp (St V)}
    (h : Run (hnswMachine V) (fun s t o => t ≠ 0 →
        ∀ mode, o = .lockPage .HNSW_SCAN_LOCK mode .ResumeScanItems → s.phase ≠ .markDeleted)
      (scanConfig idx vacuum scans) c) : Good (hnswMachine V) scannerSpec c := by
  refine valid_run (fun t s => (?_ : _ ↔ Inv s)) (fun t s => ?_) (fun t a b c h h' => ?_)
    (fun t u htu a b h => ?_) (fun s t o hc => ?_) ⟨fun t => ?_, fun t p hp => ?_⟩ h
  · cases t with
    | zero => exact Iff.rfl
    | succ t => rw [scannerSpec_succ]; exact Iff.rfl
  · cases t with
    | zero => exact vacuumSpec_refl s
    | succ t => rw [scannerSpec_succ]; exact ScanRely.refl s
  · cases t with
    | zero => exact vacuumSpec_trans h h'
    | succ t =>
        rw [scannerSpec_succ] at h h' ⊢
        exact ScanRely.trans h h'
  · cases t with
    | zero =>
        cases u with
        | zero => exact absurd rfl htu
        | succ u =>
            rw [scannerSpec_succ]
            exact VacuumGuar.scanRely (Nat.succ_ne_zero u) h
    | succ t =>
        rw [scannerSpec_succ] at h
        cases u with
        | zero =>
            refine ⟨ScanGuar.vacuumRely (Nat.succ_ne_zero t) h, fun _ _ => ?_⟩
            obtain ⟨hs, rfl, _⟩ := h
            rfl
        | succ u =>
            rw [scannerSpec_succ]
            exact ScanGuar.rely htu h
  · cases t with
    | zero => exact ⟨fun hl => hl.elim, fun hl => absurd trivial hl⟩
    | succ t =>
        rw [scannerSpec_succ]
        exact hc (Nat.succ_ne_zero t)
  · cases t with
    | zero => exact hidx.inv
    | succ t => rw [scannerSpec_succ]; exact hidx.inv
  · cases t with
    | zero =>
        cases hp
        exact Valid.bind (Valid.mono (valid_hnswbulkdelete (vacuumSpec_ok False True) vacuum.rel vacuum.stats
          vacuum.callback vacuum.budget rfl) fun _ _ _ => trivial)
    | succ t =>
        rw [scannerSpec_succ]
        obtain ⟨c, hc, rfl⟩ := List.mem_map.mp (List.mem_of_getElem? hp)
        exact Valid.bind (Valid.mono (valid_indexScan c.rel c.cfg c.value c.budget _) fun _ _ _ => trivial)

/-- **No scan step computes a distance against a deleted element**, in every interleaving in which no
    iteration of `ResumeScanItems` starts while `MarkDeleted` goes through the pages. -/
theorem scan_loads_undeleted [LinearOrder δ] [DecidableEq V] {idx : Index V} {vacuum : VacuumCall V δ}
    {scans : List (ScanCall V δ)} (hidx : idx.NoDeletedLink) {c : Config (Op V) Op.Resp (St V)}
    (h : Run (hnswMachine V) (fun s t o => t ≠ 0 →
        ∀ mode, o = .lockPage .HNSW_SCAN_LOCK mode .ResumeScanItems → s.phase ≠ .markDeleted)
      (scanConfig idx vacuum scans) c) {t : Nat} (ht : t ≠ 0) {u : ItemPointer} {l : Loader}
    (hn : c.next t = some (.page (.loadElement u l))) {e : HnswElementTuple V}
    (he : c.shared.index.elem? u = some e) : e.deleted = false := by
  have hgood := good_scanners hidx h
  cases t with
  | zero => exact absurd rfl ht
  | succ t =>
      have hs := hgood.safe (t := t + 1) (fun t s => by
        cases t with
        | zero => exact vacuumSpec_refl s
        | succ t => rw [scannerSpec_succ]; exact ScanRely.refl s) hn (by
        rw [scannerSpec_succ]
        intro mode e
        cases e)
      rw [scannerSpec_succ] at hs
      exact hs trivial u l e rfl he

/-- Two pages; the element on the second one names the second element of the first one. -/
def twoPages : List (HnswPage Nat) :=
  [{ page :=
      { items :=
          [⟨.element (HnswSetElementTuple 0 1 [⟨7, 1⟩] 10 ⟨1, 2⟩), 80⟩,
            ⟨.neighbor (HnswSetNeighborTuple 0 1 2 fun _ => [⟨2, 1⟩]), 32⟩,
            ⟨.element (HnswSetElementTuple 0 1 [⟨7, 3⟩] 40 ⟨1, 4⟩), 80⟩,
            ⟨.neighbor (HnswSetNeighborTuple 0 1 2 fun _ => [⟨2, 1⟩]), 32⟩]
        pd_special := 8184
        fits := by decide }
     nextblkno := some 2 },
    { page :=
      { items :=
          [⟨.element (HnswSetElementTuple 0 1 [⟨7, 5⟩] 30 ⟨2, 2⟩), 80⟩,
            ⟨.neighbor (HnswSetNeighborTuple 0 1 2 fun _ => [⟨1, 1⟩, ⟨1, 3⟩]), 32⟩]
        pd_special := 8184
        fits := by decide }
      nextblkno := none }]

/-- An index of these pages; the first element is the entry point. -/
def twoPageIndex : Index Nat := ⟨⟨2, some ⟨1, 1, 0⟩, some 1⟩, twoPages⟩

theorem twoPageIndex_noDeletedLink : twoPageIndex.NoDeletedLink :=
  Index.checkLinks_spec (by decide +kernel)

/-- The vacuum that leaves the entry point only. -/
def twoPageVacuum : VacuumCall Nat Nat :=
  ⟨numberRel, none, fun t => decide (t = ⟨7, 3⟩ ∨ t = ⟨7, 5⟩), 20⟩

/-- A scan that keeps one candidate at a time. -/
def twoPageScan : ScanCall Nat Nat :=
  ⟨numberRel, ⟨1, .HNSW_ITERATIVE_SCAN_RELAXED, 20000, fun _ => false⟩, some 10, 20⟩

/-- The process about to load the element at `u`. -/
def aboutToLoad (c : Config (Op V) Op.Resp (St V)) (t : Nat) (u : ItemPointer) (deleted : Bool) : Bool :=
  match c.next t, c.shared.index.elem? u with
  | some (.page (.loadElement v .HnswSearchLayer)), some e => decide (v = u) && e.deleted == deleted
  | _, _ => false

theorem aboutToLoad_spec {c : Config (Op V) Op.Resp (St V)} {t : Nat} {u : ItemPointer} {deleted : Bool}
    (h : aboutToLoad c t u deleted = true) :
    ∃ e, c.next t = some (.page (.loadElement u .HnswSearchLayer)) ∧
      c.shared.index.elem? u = some e ∧ e.deleted = deleted := by
  unfold aboutToLoad at h
  split at h
  · rename_i v e hn he
    rw [Bool.and_eq_true, decide_eq_true_eq, beq_iff_eq] at h
    obtain ⟨rfl, hd⟩ := h
    exact ⟨e, hn, he, hd⟩
  · cases h

/-- The scan goes on after `RemoveHeapTids`: what it loads is dying, but not deleted. -/
theorem scan_loads_undeleted_two : ∃ c : Config (Op Nat) Op.Resp (St Nat),
    Run (hnswMachine Nat) (fun s t o => t ≠ 0 →
        ∀ mode, o = .lockPage .HNSW_SCAN_LOCK mode .ResumeScanItems → s.phase ≠ .markDeleted)
      (scanConfig twoPageIndex twoPageVacuum [twoPageScan]) c ∧
    ∃ e, c.next 1 = some (.page (.loadElement ⟨1, 3⟩ .HnswSearchLayer)) ∧
      c.shared.index.elem? ⟨1, 3⟩ = some e ∧ e.deleted = false := by
  obtain ⟨c, hrun, hc⟩ := run_of_check (M := hnswMachine Nat)
    (c := scanConfig twoPageIndex twoPageVacuum [twoPageScan])
    (fun s t o => t ≠ 0 →
        ∀ mode, o = .lockPage .HNSW_SCAN_LOCK mode .ResumeScanItems → s.phase ≠ .markDeleted)
    (fun s _ _ => decide (s.phase ≠ .markDeleted))
    (List.replicate 6 1 ++ List.replicate 5 0 ++ List.replicate 2 1)
    (fun c => aboutToLoad c 1 ⟨1, 3⟩ false)
    (fun s _ _ hs _ _ _ => of_decide_eq_true hs) (by decide +kernel)
  obtain ⟨e, hn, he, _⟩ := aboutToLoad_spec hc
  exact ⟨c, hrun, e, hn, he,
    scan_loads_undeleted twoPageIndex_noDeletedLink hrun (Nat.succ_ne_zero 0) hn he⟩

/-- **A run in which a scan loads a deleted element**: between the two pages of `MarkDeleted` the scan resumes
    from a copy of the element on the second page, which still names the one marked on the first. -/
theorem scan_loads_deleted : twoPageIndex.NoDeletedLink ∧
    ∃ c : Config (Op Nat) Op.Resp (St Nat), Run (hnswMachine Nat) (fun _ _ _ => True)
      (scanConfig twoPageIndex twoPageVacuum [twoPageScan]) c ∧
    ∃ e, c.next 1 = some (.page (.loadElement ⟨1, 3⟩ .HnswSearchLayer)) ∧
      c.shared.index.elem? ⟨1, 3⟩ = some e ∧ e.deleted = true := by
  refine ⟨twoPageIndex_noDeletedLink, ?_⟩
  obtain ⟨c, hrun, hc⟩ := run_of_check (M := hnswMachine Nat)
    (c := scanConfig twoPageIndex twoPageVacuum [twoPageScan]) (fun _ _ _ => True) (fun _ _ _ => true)
    (List.replicate 6 1 ++ List.replicate 25 0 ++ List.replicate 2 1)
    (fun c => aboutToLoad c 1 ⟨1, 3⟩ true) (fun _ _ _ _ => trivial) (by decide +kernel)
  exact ⟨c, hrun, aboutToLoad_spec hc⟩

end Pgvec.Hnsw
