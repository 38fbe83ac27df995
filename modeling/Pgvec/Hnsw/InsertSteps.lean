/-
  File:      Pgvec/Hnsw/InsertSteps.lean
  Subject:   `hnswinsert` AMONG OTHER BACKENDS: what it relies on and what it guarantees.

  An insert works under `HNSW_UPDATE_LOCK`, so the wait of `RepairGraph` does not pass while it runs: what
  it found worth naming stays so. With `late` it is one of the inserts that start after
  `RepairGraphEntryPoint`, and `MarkDeleted` does not start while it runs.

  * `InsertRely`, `InsertGuar`, `insertSpec`; `InsertGuar.rely` -- inserts do not disturb each other;
  * `Fresh` -- the element an insert has placed;
  * **`valid_hnswinsert`** -- `hnswinsert` meets its specification.
-/
import Pgvec.Hnsw.Shared

namespace Pgvec.Hnsw

open Conc

variable {V : Type}

/-- Backend `t` holds `HNSW_UPDATE_LOCK`. -/
def Holds (t : Nat) (s : St V) : Prop := ∃ mode, (⟨t, .HNSW_UPDATE_LOCK, mode⟩ : Holder) ∈ s.holders

/-- **What an insert relies on.** -/
structure InsertRely (late : Prop) (t : Nat) (s s' : St V) : Prop where
  kept : ∀ {u x}, s.index.node? u = some x →
    ∃ x', s'.index.node? u = some x' ∧ x'.elem.neighbortid = x.elem.neighbortid
  holders : ∀ {h : Holder}, h.backend = t → (h ∈ s'.holders ↔ h ∈ s.holders)
  waitedUp : s.phase.waited = true → s'.phase.waited = true
  entryUp : s.phase.entryDone = true → s'.phase.entryDone = true
  markingUp : s.phase.marking = true → s'.phase.marking = true
  waited : Holds t s → s'.phase.waited = s.phase.waited
  marking : late → Holds t s → s'.phase.marking = s.phase.marking
  live : s.phase.waited = true → ∀ {u}, s.index.LiveAt u → s'.index.LiveAt u
  clean : s.phase.waited = true → ∀ {u}, s.index.LiveAt u → s.index.CleanAt u → s'.index.CleanAt u
  undeleted : s'.phase.marking = false → ∀ {u}, s.index.Undeleted u → s'.index.Undeleted u

/-- **What an insert guarantees.** -/
structure InsertGuar (late : Prop) (t : Nat) (s s' : St V) : Prop where
  insertion : Insertion s s'
  holders : ∀ {h : Holder}, h.backend ≠ t → (h ∈ s'.holders ↔ h ∈ s.holders)
  early : late → s.phase.entryDone = false → s'.index.metap.entry = s.index.metap.entry

/-- The specification of an insert. -/
def insertSpec (late : Prop) (t : Nat) : Spec (Op V) (St V) where
  inv := Inv
  rely := InsertRely late t
  guar := InsertGuar late t
  allow s o := late → ∀ mode caller, o = .lockPage .HNSW_UPDATE_LOCK mode caller →
    s.phase.entryDone = true
  safe := LoadSafe late
  commit _ := True
  errors := True
  cuts := True

section Relations

variable {late : Prop} {t : Nat}

theorem InsertRely.refl (s : St V) : InsertRely late t s s :=
  ⟨fun h => ⟨_, h, rfl⟩, fun _ => Iff.rfl, id, id, id, fun _ => rfl, fun _ _ => rfl, fun _ _ h => h,
    fun _ _ _ h => h, fun _ _ h => h⟩

theorem InsertRely.holds {s s' : St V} (h : InsertRely late t s s') (hh : Holds t s) : Holds t s' := by
  obtain ⟨mode, hm⟩ := hh
  exact ⟨mode, (h.holders rfl).mpr hm⟩

theorem InsertRely.trans {a b c : St V} (h : InsertRely late t a b) (h' : InsertRely late t b c) :
    InsertRely late t a c where
  kept hx := by
    obtain ⟨y, hy, e⟩ := h.kept hx
    obtain ⟨z, hz, e'⟩ := h'.kept hy
    exact ⟨z, hz, e'.trans e⟩
  holders hb := (h'.holders hb).trans (h.holders hb)
  waitedUp hw := h'.waitedUp (h.waitedUp hw)
  entryUp hw := h'.entryUp (h.entryUp hw)
  markingUp hw := h'.markingUp (h.markingUp hw)
  waited hh := (h'.waited (h.holds hh)).trans (h.waited hh)
  marking hl hh := (h'.marking hl (h.holds hh)).trans (h.marking hl hh)
  live hw _ hu := h'.live (h.waitedUp hw) (h.live hw hu)
  clean hw _ hl hc := h'.clean (h.waitedUp hw) (h.live hw hl) (h.clean hw hl hc)
  undeleted hm u hu := by
    have hb : b.phase.marking = false := by
      cases e : b.phase.marking with
      | false => rfl
      | true =>
          rw [h'.markingUp e] at hm
          cases hm
    exact h'.undeleted hm (h.undeleted hb hu)

theorem InsertGuar.refl (s : St V) : InsertGuar late t s s :=
  ⟨.refl s, fun _ => Iff.rfl, fun _ _ => rfl⟩

/-- **Inserts do not disturb each other.** -/
theorem InsertGuar.rely {u : Nat} (htu : t ≠ u) {s s' : St V} (h : InsertGuar late t s s') :
    InsertRely late u s s' where
  kept := h.insertion.kept
  holders hb := h.holders (by rw [hb]; exact Ne.symm htu)
  waitedUp hw := by rw [h.insertion.phase]; exact hw
  entryUp hw := by rw [h.insertion.phase]; exact hw
  markingUp hw := by rw [h.insertion.phase]; exact hw
  waited _ := by rw [h.insertion.phase]
  marking _ _ := by rw [h.insertion.phase]
  live _ _ hu := h.insertion.live hu
  clean hw _ hl hc := h.insertion.clean hw (h.insertion.live hl) fun _ => hc
  undeleted _ _ hu := h.insertion.undeleted hu

/-- What holds while an insert works: its lock, and with `late` the phase it started in. -/
def Working (late : Prop) (t : Nat) (s : St V) : Prop :=
  Holds t s ∧ (late → s.phase.entryDone = true)

theorem InsertRely.steady {s s' : St V} (h : InsertRely late t s s') (hw : Working late t s) :
    Working late t s' ∧ Steady late s s' :=
  ⟨⟨h.holds hw.1, fun hl => h.entryUp (hw.2 hl)⟩,
    ⟨h.kept, h.waited hw.1, fun hl => h.marking hl hw.1, h.live, h.undeleted⟩⟩

/-- The search of an insert. -/
theorem insert_reads (late : Prop) (t m : Nat) : Reads (insertSpec (V := V) late t) m true
    (Working late t) (Tid late) (Copy late) :=
  reads_of_steady m .refl .trans .refl (fun _ h => h) (fun hw hr _ => hr.steady hw) fun _ _ _ h => h

/-- The element an insert has placed. -/
def Fresh (s : St V) (u : ItemPointer) : Prop :=
  Target s u ∧ (s.phase.waited = true → s.index.CleanAt u)

theorem Fresh.rely {s s' : St V} {u : ItemPointer} (h : Fresh s u) (hw : Working late t s)
    (hr : InsertRely late t s s') : Fresh s' u := by
  have hst := (hr.steady hw).2
  refine ⟨hst.target h.1, fun hwt => ?_⟩
  rw [hst.waited] at hwt
  exact hr.clean hwt (h.1.1 hwt) (h.2 hwt)

theorem Fresh.insertion {s s' : St V} {u : ItemPointer} (h : Fresh s u) (hi : Insertion s s') :
    Fresh s' u := by
  refine ⟨hi.target h.1, fun hwt => ?_⟩
  rw [hi.phase] at hwt
  exact hi.clean hwt (hi.live (h.1.1 hwt)) fun _ => h.2 hwt

/-- What a write under the lock guarantees. -/
theorem Working.guar {s : St V} (hw : Working late t s) {idx' : Index V}
    (hi : Insertion s { s with index := idx' }) :
    InsertGuar late t s { s with index := idx' } ∧ Working late t { s with index := idx' } :=
  ⟨⟨hi, fun _ => Iff.rfl, fun hl he => by rw [hw.2 hl] at he; cases he⟩, hw⟩

end Relations

/-! ## 1. Duplicates -/

theorem addHeapTid_same {e e' : HnswElementTuple V} {heaptid : ItemPointer}
    (h : addHeapTid e heaptid = some e') :
    e'.isLive = e.isLive ∧ e'.deleted = e.deleted ∧ e'.neighbortid = e.neighbortid ∧
      e'.version = e.version ∧ e'.level = e.level ∧ e'.data = e.data := by
  unfold addHeapTid at h
  simp only at h
  split at h
  · cases h
  · rename_i hne
    cases h
    refine ⟨?_, rfl, rfl, rfl, rfl, rfl⟩
    unfold HnswElementTuple.isLive
    simp only
    cases hh : e.heaptids with
    | nil => rfl
    | cons p ps =>
        cases hn : e.tids.length with
        | zero => exact absurd (Or.inl hn) hne
        | succ n => rfl

/-- `AddDuplicateOnDisk` as a step. -/
theorem addDuplicate_step {s : St V} (h : Inv s) {t : ItemPointer} {x : Node V}
    (hx : s.index.node? t = some x) (heaptid : ItemPointer) :
    Insertion s { s with index := (execPage (.addDuplicate t heaptid) s.index).final s.index } ∧
      Inv { s with index := (execPage (.addDuplicate t heaptid) s.index).final s.index } := by
  unfold Sect.final
  rcases addDuplicate_spec h.sound hx heaptid with ⟨hc, _⟩ | ⟨e, idx', he, hc, _, hw⟩
  · rw [hc]
    exact ⟨.refl s, h⟩
  · rw [hc]
    obtain ⟨h1, h2, h3, _⟩ := addHeapTid_same he
    exact insertion_wrote h hx hw h3 h1 h2 Or.inl

section Insert

variable {δ : Type} [LinearOrder δ] {late : Prop} {t : Nat}

/-- Changes under the lock keep a copy. -/
theorem Copy.insertion {s s' : St V} {e : HnswElement V} (h : Copy late s e) (hi : Insertion s s') :
    Copy late s' e := by
  obtain ⟨⟨y, hy, hyn⟩, ht, hl⟩ := h
  obtain ⟨y', hy', e'⟩ := hi.kept hy
  refine ⟨⟨y', hy', e'.trans hyn⟩, fun he => hi.target (ht he), fun l hm => ?_⟩
  rw [hi.phase] at hm
  exact hi.live (hl l hm)

/-- The copies at hand during an insert. -/
def CopiesOf (late : Prop) (t : Nat) (e : LocalElement V δ) (s : St V) : Prop :=
  Working late t s ∧ Inv s ∧ ∀ lc, ∀ hc ∈ e.layer lc, Copy late s hc.element ∧ hc.element.heaptids ≠ []

omit [LinearOrder δ] in
theorem CopiesOf.rely {e : LocalElement V δ} {s s' : St V} (h : CopiesOf late t e s)
    (hr : InsertRely late t s s') (hi : Inv s') : CopiesOf late t e s' := by
  have R := insert_reads (V := V) late t 0
  exact ⟨(hr.steady h.1).1, hi, fun lc hc hm => ⟨R.stableP h.1 hr hi (h.2.2 lc hc hm).1,
    (h.2.2 lc hc hm).2⟩⟩

omit [LinearOrder δ] in
theorem CopiesOf.insertion {e : LocalElement V δ} {s : St V} {idx' : Index V} (h : CopiesOf late t e s)
    (hi : Insertion s { s with index := idx' }) (hinv : Inv { s with index := idx' }) :
    CopiesOf late t e { s with index := idx' } :=
  ⟨h.1, hinv, fun lc hc hm => ⟨(h.2.2 lc hc hm).1.insertion hi, (h.2.2 lc hc hm).2⟩⟩

omit [LinearOrder δ] in
theorem valid_findDuplicate [DecidableEq V] (value : V) (heaptid : ItemPointer) {e : LocalElement V δ} :
    ∀ (l : List (HnswCandidate (HnswElement V) δ)) {s : St V}, (∀ hc ∈ l, hc ∈ e.layer 0) →
      CopiesOf late t e s → Valid (hnswMachine V) t (insertSpec late t)
        (FindDuplicateOnDisk value heaptid l) (fun _ s' => CopiesOf late t e s') s
  | [], _, _, h => h
  | hc :: l, s, hl, h => by
      unfold FindDuplicateOnDisk
      split
      · exact h
      · refine Valid.bind (valid_section fun s1 hr1 hi1 _ => ?_)
        have h1 := h.rely hr1 hi1
        obtain ⟨⟨y, hy, _⟩, _⟩ := (h1.2.2 0 hc (hl hc List.mem_cons_self)).1
        obtain ⟨g1, g2⟩ := addDuplicate_step hi1 hy heaptid
        have h2 := h1.insertion g1 g2
        refine ⟨fun _ u l e he => (by cases he), g2, (h1.1.guar g1).1, fun _ _ => trivial, ?_⟩
        split
        · exact h2
        · exact valid_findDuplicate value heaptid l
            (fun x hx => hl x (List.mem_cons_of_mem _ hx)) h2

/-! ## 2. Adding the element -/

omit [LinearOrder δ] in
theorem mem_neighborSlots {m : Nat} {nb : Nat → List ItemPointer} {v : ItemPointer}
    (hv : v.isValid = true) : ∀ {level : Nat}, v ∈ neighborSlots m nb level → ∃ lc ≤ level, v ∈ nb lc
  | 0, h => by
      refine ⟨0, Nat.le_refl 0, ?_⟩
      unfold neighborSlots padTids at h
      rcases List.mem_append.mp h with h | h
      · exact List.mem_of_mem_take h
      · rw [List.eq_of_mem_replicate h] at hv
        cases hv
  | level + 1, h => by
      unfold neighborSlots at h
      rcases List.mem_append.mp h with h | h
      · refine ⟨level + 1, Nat.le_refl _, ?_⟩
        unfold padTids at h
        rcases List.mem_append.mp h with h | h
        · exact List.mem_of_mem_take h
        · rw [List.eq_of_mem_replicate h] at hv
          cases hv
      · obtain ⟨lc, hle, hm⟩ := mem_neighborSlots hv h
        exact ⟨lc, hle.trans (Nat.le_succ _), hm⟩

theorem newElement_names {e : NewElement V} {version : Nat} {ntid v : ItemPointer}
    (h : (e.node version ntid).Names v) : ∃ lc ≤ e.level, v ∈ e.neighbors lc :=
  mem_neighborSlots h.2 h.1

theorem newElement_live {e : NewElement V} {version : Nat} {ntid heaptid : ItemPointer}
    (hh : e.heaptids = [heaptid]) (hv : heaptid.isValid = true) :
    (e.node version ntid).elem.isLive = true := by
  unfold NewElement.node NewElement.etup HnswSetElementTuple HnswElementTuple.isLive
  rw [hh]
  exact hv

omit [LinearOrder δ] in
/-- An error gives the lock back. -/
theorem insert_error {α : Type} {Q : α → St V → Prop} {s : St V} (msg : String) :
    Valid (hnswMachine V) t (insertSpec late t) (.error msg : HnswProg V α) Q s := by
  refine ⟨trivial, fun s' _ hi => ⟨hi.holders (hi.locks.sub fun a ha => (List.mem_filter.mp ha).1),
    insertion_holders _ _, fun {h} hb => ?_, fun _ _ => rfl⟩⟩
  simp only [hnswMachine, List.mem_filter, bne_iff_ne, ne_eq]
  exact ⟨fun h => h.1, fun h => ⟨h, hb⟩⟩

omit [LinearOrder δ] in
/-- The page loop of `AddElementOnDisk`. -/
theorem valid_addElementLoop {e : LocalElement V δ} {ne : NewElement V} {heaptid : ItemPointer}
    (hh : ne.heaptids = [heaptid]) (hv : heaptid.isValid = true)
    (hnb : ne.neighbors = e.layerTids) :
    ∀ (n b : Nat) (nip : Option Nat) {s : St V}, CopiesOf late t e s →
      Valid (hnswMachine V) t (insertSpec late t) (addElementLoop ne n b nip)
        (fun r s' => CopiesOf late t e s' ∧ Fresh s' r.1) s
  | 0, _, _, _, _ => trivial
  | n + 1, b, nip, s, h => by
      unfold addElementLoop
      refine Valid.bind (valid_section fun s1 hr1 hi1 _ => ?_)
      have h1 := h.rely hr1 hi1
      have hsafe : LoadSafe late s1 (.page (.addElement ne b nip)) := fun _ u l e he => by cases he
      have hout := addElement_spec hi1.sound ne b nip
      simp only [execPage]
      generalize Hnsw.addElement s1.index ne b nip = r at hout
      cases hout with
      | next nip' hb hn =>
          exact ⟨hsafe, hi1, .refl s1, fun _ _ => trivial,
            valid_addElementLoop hh hv hnb n (b + 1) nip' h1⟩
      | placed before idx' tid ntid version nip' hb hp hn hs =>
          have hfin : (⟨before ++ [idx'], .placed tid ntid nip'⟩ : Sect V AddResult).final s1.index =
              idx' := by
            unfold Sect.final
            simp
          rw [hfin]
          obtain ⟨g1, g2, g3, g4⟩ := insertion_placed hi1 hp (newElement_live hh hv) fun {v} hv => by
            obtain ⟨lc, _, hm⟩ := newElement_names hv
            rw [hnb] at hm
            obtain ⟨hc, hcm, rfl⟩ := List.mem_map.mp hm
            obtain ⟨hcopy, hne⟩ := h1.2.2 lc hc hcm
            exact hcopy.2.1 hne
          exact ⟨hsafe, g2, (h1.1.guar g1).1, fun _ _ => trivial, h1.insertion g1 g2,
            g2.target_of_live g3, g4⟩
      | failed before msg hb =>
          have hfin : Extended s1.index
              ((⟨before, .failed msg⟩ : Sect V AddResult).final s1.index) := by
            unfold Sect.final
            rcases List.eq_nil_or_concat before with rfl | ⟨l, c, rfl⟩
            · exact .refl hi1.sound
            · simp only [List.concat_eq_append, List.getLastD_concat]
              exact hb c (by simp)
          obtain ⟨g1, g2⟩ := insertion_extended hi1 hfin
          exact ⟨hsafe, g2, (h1.1.guar g1).1, fun _ _ => trivial, insert_error msg⟩

omit [LinearOrder δ] in
/-- A write of the metapage under the lock. -/
theorem CopiesOf.metap {e : LocalElement V δ} {s : St V} (h : CopiesOf late t e s) (ue : UpdateEntry)
    (ep : Option EntryPoint) (ip : Option Nat)
    (he : ue = .no ∨ ue = .greater ∧ ∃ p, ep = some p ∧ Fresh s p.tid) :
    Insertion s { s with index := (execPage (.updateMetaPage ue ep ip) s.index).final s.index } ∧
      Inv { s with index := (execPage (.updateMetaPage ue ep ip) s.index).final s.index } := by
  refine insertion_metap h.2.1 _ rfl ?_
  rcases he with rfl | ⟨rfl, p, rfl, hf⟩
  · exact Or.inl rfl
  · simp only [HnswUpdateMetaPageInfo, reduceCtorEq, if_false]
    split
    · refine Or.inr fun q hq => ?_
      cases hq
      exact hf
    · exact Or.inl rfl

theorem metap_safe {s : St V} {ue : UpdateEntry} {ep : Option EntryPoint} {ip : Option Nat} :
    LoadSafe late s (.page (.updateMetaPage ue ep ip)) := fun _ u l e he => by cases he

/-- The end of `UpdateGraphOnDisk`, once the element is placed. -/
theorem valid_connect (rel : HnswRel V δ) {e : LocalElement V δ} (m : Nat)
    (entryPoint : Option EntryPoint) {s : St V} (h : CopiesOf late t e s) (hf : Fresh s e.element.tid) :
    Valid (hnswMachine V) t (insertSpec late t) (do
        HnswUpdateNeighborsOnDisk rel e m false
        if levelAbove e.element.level entryPoint then
          section_ (.updateMetaPage .greater (some e.element.asEntryPoint) none))
      (fun _ s' => Working late t s' ∧ Inv s') s := by
  refine Valid.bind (Valid.mono (valid_updateNeighbors (J := fun s => Fresh s e.element.tid)
    (insert_reads late t m) rel false (fun _ hi => hi) (fun _ hj => hj.1)
    (fun hH hr _ hj => hj.rely hH hr) (fun _ _ _ hl => hl) (fun _ => trivial)
    (fun s idx' hH _ hj hins hinv _ _ => ⟨hinv, (hH.guar hins).1, (hH.guar hins).2, hj.insertion hins⟩)
    h.1 h.2.1 hf fun lc hc hm => (h.2.2 lc hc hm).1) ?_)
  rintro _ s1 ⟨hw1, hi1, hf1⟩
  split
  · refine valid_section fun s2 hr2 hi2 _ => ?_
    have h2 : CopiesOf late t (⟨e.element, []⟩ : LocalElement V δ) s2 :=
      ⟨(hr2.steady hw1).1, hi2, fun lc hc hm => absurd hm List.not_mem_nil⟩
    obtain ⟨g1, g2⟩ := h2.metap .greater (some e.element.asEntryPoint) none
      (Or.inr ⟨rfl, _, rfl, hf1.rely hw1 hr2⟩)
    exact ⟨metap_safe, g2, (h2.1.guar g1).1, fun _ _ => trivial, (h2.1.guar g1).2, g2⟩
  · exact ⟨hw1, hi1⟩

/-- **`UpdateGraphOnDisk`.** -/
theorem valid_updateGraph [DecidableEq V] (rel : HnswRel V δ) {e : LocalElement V δ} (value : V)
    {heaptid : ItemPointer} (m : Nat) (entryPoint : Option EntryPoint) (budget : Nat)
    (hh : e.element.heaptids = [heaptid]) (hv : heaptid.isValid = true) {s : St V}
    (h : CopiesOf late t e s) :
    Valid (hnswMachine V) t (insertSpec late t)
      (UpdateGraphOnDisk rel e value heaptid m entryPoint budget) (fun _ s' => Working late t s' ∧ Inv s')
      s := by
  unfold UpdateGraphOnDisk
  refine Valid.bind (Valid.mono (valid_findDuplicate value heaptid (e.layer 0) (fun _ hc => hc) h) ?_)
  intro found s1 h1
  split
  · exact ⟨h1.1, h1.2.1⟩
  refine Valid.bind (valid_read (fun _ => rfl) .refl fun s2 hr2 hi2 _ =>
    ⟨fun _ u l e he => (by cases he), ?_⟩)
  have h2 := h1.rely hr2 hi2
  -- the element with its location
  refine Valid.bind (Valid.mono (Q := fun r s' => CopiesOf late t r.1 s' ∧ Fresh s' r.1.element.tid) ?_ ?_)
  · unfold AddElementOnDisk
    simp only [execPage]
    split
    · exact insert_error _
    · refine Valid.bind (Valid.mono (valid_addElementLoop hh hv rfl budget _ none h2) ?_)
      rintro ⟨tid, ntid, nip⟩ s3 ⟨h3, hf⟩
      exact ⟨h3, hf⟩
  rintro ⟨e1, newInsertPage⟩ s3 ⟨h3, hf3⟩
  simp only
  split
  · refine Valid.bind (valid_section fun s4 hr4 hi4 _ => ?_)
    have h4 := h3.rely hr4 hi4
    obtain ⟨g1, g2⟩ := h4.metap .no none newInsertPage (Or.inl rfl)
    exact ⟨metap_safe, g2, (h4.1.guar g1).1, fun _ _ => trivial,
      valid_connect rel m entryPoint (h4.insertion g1 g2) ((hf3.rely h3.1 hr4).insertion g1)⟩
  · exact valid_connect rel m entryPoint h3 hf3

/-! ## 3. `hnswinsert` -/

omit [LinearOrder δ] in
/-- The lock is taken. -/
theorem valid_insert_lock (mode : LockMode) (caller : Caller) {s : St V} :
    Valid (hnswMachine V) t (insertSpec late t) (LockPage .HNSW_UPDATE_LOCK mode caller)
      (fun _ s' => Working late t s' ∧ Inv s') s := by
  refine valid_lock fun s1 hr1 hi1 ha => ⟨fun _ u l e he => (by cases he), fun hw => ?_⟩
  have hinv := hi1.holders (hi1.locks.cons hw)
  refine ⟨hinv, ⟨insertion_holders _ _, fun {h} hb => ?_, fun _ _ => rfl⟩, ⟨⟨mode, ?_⟩, fun hl => ?_⟩, hinv⟩
  · simp only [List.mem_cons]
    refine ⟨fun hm => hm.resolve_left ?_, Or.inr⟩
    rintro rfl
    exact hb rfl
  · exact List.mem_cons_self
  · exact ha hl mode caller rfl

omit [LinearOrder δ] in
/-- The lock is given back. -/
theorem valid_insert_unlock (mode : LockMode) {s : St V} :
    Valid (hnswMachine V) t (insertSpec late t) (UnlockPage .HNSW_UPDATE_LOCK mode)
      (fun _ s' => Inv s') s := by
  refine valid_unlock fun s1 hr1 hi1 _ => ?_
  have hinv : Inv { s1 with holders := s1.holders.erase ⟨t, .HNSW_UPDATE_LOCK, mode⟩ } :=
    hi1.holders (hi1.locks.sub fun _ ha => List.mem_of_mem_erase ha)
  refine ⟨fun _ u l e he => (by cases he), hinv, ⟨insertion_holders _ _, fun {h} hb => ?_,
    fun _ _ => rfl⟩, hinv⟩
  refine List.mem_erase_of_ne ?_
  rintro rfl
  exact hb rfl

/-- The part of `HnswInsertTupleOnDisk` under the lock. -/
theorem valid_insertBody [DecidableEq V] (rel : HnswRel V δ) (value : V) {heaptid : ItemPointer}
    (hv : heaptid.isValid = true) (m rnd budget : Nat) {entryPoint : Option EntryPoint} (mode : LockMode)
    {s : St V} (hw : Working late t s) (hi : Inv s)
    (hT : ∀ ep, entryPoint = some ep → Tid late s ep.tid) :
    Valid (hnswMachine V) t (insertSpec late t) (do
        let (e, entryPoint) ← findNeighborsOnDisk rel (HnswInitElement heaptid m rnd value) entryPoint m
          false budget
        UpdateGraphOnDisk rel e value heaptid m entryPoint budget
        UnlockPage .HNSW_UPDATE_LOCK mode) (fun _ _ => True) s := by
  have R := insert_reads (V := V) late t m
  refine Valid.bind (Valid.mono (valid_findNeighbors (F := ∅) R (Or.inl trivial) rel
    (HnswInitElement heaptid m rnd value) false hw hi hT) ?_)
  rintro ⟨e, ep⟩ s1 ⟨hr1, hi1, he, hfound, _⟩
  have hw1 := (hr1.steady hw).1
  have h1 : CopiesOf late t e s1 := by
    refine ⟨hw1, hi1, fun lc hc hm => ?_⟩
    unfold LocalElement.layer at hm
    split at hm
    · cases hm
    · rename_i a ha
      obtain ⟨hP, _, hne, _⟩ := (hfound.layer ha).mem hc hm
      exact ⟨hP, hne⟩
  refine Valid.bind (Valid.mono (valid_updateGraph rel value m ep budget (by rw [he]; rfl) hv h1) ?_)
  intro _ s2 _
  exact Valid.mono (valid_insert_unlock mode) fun _ _ _ => trivial

/-- **`hnswinsert` among other backends.** -/
theorem valid_hnswinsert [DecidableEq V] (rel : HnswRel V δ) (value : Option V) {heaptid : ItemPointer}
    (hv : heaptid.isValid = true) (rnd budget : Nat) (s : St V) :
    Valid (hnswMachine V) t (insertSpec late t) (hnswinsert rel value heaptid rnd budget)
      (fun _ _ => True) s := by
  unfold hnswinsert
  split
  · trivial
  rename_i v _
  unfold HnswInsertTupleOnDisk
  refine Valid.bind (Valid.mono (valid_insert_lock _ _) ?_)
  rintro _ s1 ⟨hw1, hi1⟩
  refine Valid.bind (valid_read (fun _ => rfl) .refl fun s2 hr2 hi2 _ =>
    ⟨fun _ u l e he => (by cases he), ?_⟩)
  have hw2 := (hr2.steady hw1).1
  generalize hm : (execPage (V := V) .getMetaPageInfo s2.index).resp = metap
  have hm' : s2.index.metap = metap := hm
  simp only
  split
  · refine Valid.bind (Valid.mono (valid_insert_unlock _) ?_)
    intro _ s3 _
    refine Valid.bind (Valid.mono (valid_insert_lock _ _) ?_)
    rintro _ s4 ⟨hw4, hi4⟩
    refine Valid.bind (Valid.bind (valid_read (fun _ => rfl) .refl fun s5 hr5 hi5 _ =>
      ⟨fun _ u l e he => (by cases he), ?_⟩))
    exact valid_insertBody rel v hv _ rnd budget _ (hr5.steady hw4).1 hi5 fun ep hep => tid_entry hi5 hep
  · exact valid_insertBody rel v hv _ rnd budget _ hw2 hi2 fun ep hep =>
      tid_entry hi2 (by rw [hm']; exact hep)

end Insert

end Pgvec.Hnsw
