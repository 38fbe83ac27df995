/-
  File:      Pgvec/Hnsw/VacuumSteps.lean
  Subject:   `hnswbulkdelete` AMONG OTHER BACKENDS: what it relies on and what it guarantees.

  The vacuum is backend 0. What its phases hand on to each other:

  * after `RemoveHeapTids` every node without heap TID is in the table `deleted` (`Ready.dying`), and the
    highest point is live; inserts may add nodes, but no node without heap TID;
  * after `RepairGraphEntryPoint` the entry point is live and clean -- unless `RepairGraphElement` left the
    highest point out because it was the entry point (`EntryCond` says that it had nothing to repair);
  * after `RepairGraph` every live node is clean, so no page of `MarkDeleted` marks a node that a live node
    or the entry point names (`MarkSafe`);
  * **`valid_hnswbulkdelete`** -- the whole, for every specification that gives `VacuumSpec`.
-/
import Pgvec.Hnsw.InsertSteps
import Pgvec.Hnsw.Vacuum

namespace Pgvec.Hnsw

open Conc

variable {V : Type}

/-! ## 1. Rely and guarantee -/

/-- **What the vacuum guarantees.** It changes the phase only where the locks say that no insert, or no
    scan, is under way. -/
structure VacuumGuar (late : Prop) (s s' : St V) : Prop where
  kept : ∀ {u x}, s.index.node? u = some x →
    ∃ x', s'.index.node? u = some x' ∧ x'.elem.neighbortid = x.elem.neighbortid
  versions : Versions s.index s'.index
  holders : ∀ {h : Holder}, h.backend ≠ 0 → (h ∈ s'.holders ↔ h ∈ s.holders)
  waitedUp : s.phase.waited = true → s'.phase.waited = true
  entryUp : s.phase.entryDone = true → s'.phase.entryDone = true
  markingUp : s.phase.marking = true → s'.phase.marking = true
  waited : s'.phase.waited = s.phase.waited ∨
    ∀ h ∈ s.holders, h.lock = .HNSW_UPDATE_LOCK → h.backend = 0
  marking : s'.phase.marking = s.phase.marking ∨
    (∀ h ∈ s.holders, h.lock = .HNSW_SCAN_LOCK → h.backend = 0) ∧
      (late → ∀ h ∈ s.holders, h.lock = .HNSW_UPDATE_LOCK → h.backend = 0)
  live : s.phase.waited = true → ∀ {u}, s.index.LiveAt u → s'.index.LiveAt u
  clean : s.phase.waited = true → ∀ {u}, s.index.LiveAt u → s.index.CleanAt u → s'.index.CleanAt u
  undeleted : s'.phase.marking = false → ∀ {u}, s.index.Undeleted u → s'.index.Undeleted u

/-- **What the vacuum relies on.** -/
structure VacuumRely (s s' : St V) : Prop where
  insertion : Insertion s s'
  holders : ∀ {h : Holder}, h.backend = 0 → (h ∈ s'.holders ↔ h ∈ s.holders)

theorem VacuumRely.refl (s : St V) : VacuumRely s s := ⟨.refl s, fun _ => Iff.rfl⟩

theorem VacuumRely.trans {a b c : St V} (h : VacuumRely a b) (h' : VacuumRely b c) : VacuumRely a c :=
  ⟨h.insertion.trans h'.insertion, fun hb => (h'.holders hb).trans (h.holders hb)⟩

theorem InsertGuar.vacuumRely {late : Prop} {t : Nat} (ht : t ≠ 0) {s s' : St V}
    (h : InsertGuar late t s s') : VacuumRely s s' :=
  ⟨h.insertion, fun hb => h.holders (by rw [hb]; exact Ne.symm ht)⟩

/-- The vacuum does not disturb inserts. -/
theorem VacuumGuar.insertRely {late : Prop} {t : Nat} (ht : t ≠ 0) {s s' : St V}
    (h : VacuumGuar late s s') : InsertRely late t s s' where
  kept := h.kept
  holders hb := h.holders (by rw [hb]; exact ht)
  waitedUp := h.waitedUp
  entryUp := h.entryUp
  markingUp := h.markingUp
  waited := by
    rintro ⟨mode, hm⟩
    exact h.waited.resolve_right fun hw => ht (hw _ hm rfl)
  marking := by
    rintro hl ⟨mode, hm⟩
    exact h.marking.resolve_right fun hw => ht (hw.2 hl _ hm rfl)
  live := h.live
  clean := h.clean
  undeleted := h.undeleted

/-- A write to the index that leaves nodes alive. -/
theorem Insertion.vacuumGuar {late : Prop} {s : St V} {idx' : Index V}
    (h : Insertion s { s with index := idx' }) (hv : Versions s.index idx') :
    VacuumGuar late s { s with index := idx' } :=
  ⟨h.kept, hv, fun _ => Iff.rfl, id, id, id, Or.inl rfl, Or.inl rfl, fun _ => h.live,
    fun hw _ hl hc => h.clean hw (h.live hl) fun _ => hc, fun _ => h.undeleted⟩

theorem vacuumGuar_refl (late : Prop) (s : St V) : VacuumGuar late s s :=
  (Insertion.refl s).vacuumGuar (Versions.refl s.index)

/-- Only locks of the vacuum changed. -/
theorem vacuumGuar_holders {late : Prop} {s : St V} {hs : List Holder}
    (h : ∀ {a : Holder}, a.backend ≠ 0 → (a ∈ hs ↔ a ∈ s.holders)) :
    VacuumGuar late s { s with holders := hs } :=
  ⟨fun hx => ⟨_, hx, rfl⟩, Versions.refl s.index, h, id, id, id, Or.inl rfl, Or.inl rfl, fun _ _ h => h,
    fun _ _ _ h => h, fun _ _ h => h⟩

/-- **Where the first part of `RepairGraphEntryPoint` reads the entry point and it is the highest point**,
    the slots of the highest point name elements with heap TIDs only: `RepairGraphElement` will leave it
    out. -/
def EntryCond (s : St V) : Prop :=
  ∀ deleted h ep, s.phase = .repairGraphEntryPoint deleted (some h) →
    (⟨0, .HNSW_UPDATE_LOCK, .ShareLock⟩ : Holder) ∈ s.holders →
    s.index.metap.entry = some ep → ep.tid = h.tid → s.index.CleanAt h.tid

/-- **A page of `MarkDeleted` marks no node that a live node or the entry point names.** -/
def MarkSafe (s : St V) (o : Op V) : Prop :=
  ∀ zeroDatum b ip d x, o = .page (.markDeleted zeroDatum b ip) → s.index.node? d = some x →
    d.blkno = b → x.elem.deleted = false → x.elem.isLive = false →
    (∀ t y, s.index.node? t = some y → y.elem.isLive = true → ¬ y.Names d) ∧
      ∀ ep, s.index.metap.entry = some ep → ep.tid ≠ d

/-- The others leave the entry point alone until the vacuum has dealt with it. -/
def EntryFixed (S : Spec (Op V) (St V)) : Prop :=
  ∀ {s s'}, S.rely s s' → s.phase.entryDone = false → s'.index.metap.entry = s.index.metap.entry

/-- What a specification of the vacuum has to give. The entry point stays while the vacuum has not dealt
    with it, or the steps taken meet `EntryCond`. -/
structure VacuumSpec (late : Prop) (S : Spec (Op V) (St V)) : Prop where
  inv : ∀ {s}, S.inv s ↔ Inv s
  refl : ∀ s, S.rely s s
  trans : ∀ {a b c}, S.rely a b → S.rely b c → S.rely a c
  rely : ∀ {s s'}, S.rely s s' → VacuumRely s s'
  guar : ∀ {s s'}, VacuumGuar late s s' → S.guar s s'
  safe : ∀ {s o}, MarkSafe s o → S.safe s o
  commit : ∀ s, S.commit s
  errors : S.errors
  cuts : S.cuts
  late : late → ∀ {s}, S.allow s (.enter .markDeleted) →
    ∀ h ∈ s.holders, h.lock = .HNSW_UPDATE_LOCK → h.backend = 0
  entry : EntryFixed S ∨ ∀ {s}, S.allow s (.page .getMetaPageInfo) → EntryCond s

section Vacuum

variable {late : Prop} {S : Spec (Op V) (St V)}

theorem noMark_safe {s : St V} {o : Op V} (h : NoMark o) : MarkSafe s o :=
  fun zeroDatum b ip _ _ e => absurd e (h zeroDatum b ip)

/-- An error of the vacuum gives its locks back. -/
theorem VacuumSpec.error (hS : VacuumSpec late S) {α : Type} {Q : α → St V → Prop} {s : St V}
    (msg : String) : Valid (hnswMachine V) 0 S (.error msg : HnswProg V α) Q s := by
  refine ⟨hS.errors, fun s' _ hi => ⟨?_, hS.guar (vacuumGuar_holders fun {a} hb => ?_)⟩⟩
  · have h := hS.inv.mp hi
    exact hS.inv.mpr (h.holders (h.locks.sub fun a ha => (List.mem_filter.mp ha).1))
  · simp only [List.mem_filter, bne_iff_ne, ne_eq]
    exact ⟨fun h => h.1, fun h => ⟨h, hb⟩⟩

/-- The lock is taken, whatever else is known and kept by the others and by a change of locks. -/
theorem VacuumSpec.lock (hS : VacuumSpec late S) (lock : PageLock) (mode : LockMode) (caller : Caller)
    {J : St V → Prop} (hJ : ∀ {s s'}, S.rely s s' → S.inv s' → J s → J s')
    (hJh : ∀ {s hs}, J s → J { s with holders := hs }) {s : St V} (hj : J s) :
    Valid (hnswMachine V) 0 S (LockPage lock mode caller)
      (fun _ s' => J s' ∧ Inv s' ∧ (⟨0, lock, mode⟩ : Holder) ∈ s'.holders) s := by
  refine valid_lock fun s1 hr1 hi1 _ => ⟨hS.safe (noMark_safe fun _ _ _ e => by cases e), fun hw => ?_⟩
  have h1 := hS.inv.mp hi1
  have hinv := h1.holders (h1.locks.cons hw)
  refine ⟨hS.inv.mpr hinv, hS.guar (vacuumGuar_holders fun {a} hb => ?_), hJh (hJ hr1 hi1 hj), hinv,
    List.mem_cons_self⟩
  simp only [List.mem_cons]
  refine ⟨fun hm => hm.resolve_left ?_, Or.inr⟩
  rintro rfl
  exact hb rfl

/-- The lock is given back. -/
theorem VacuumSpec.unlock (hS : VacuumSpec late S) (lock : PageLock) (mode : LockMode)
    {J : St V → Prop} (hJ : ∀ {s s'}, S.rely s s' → S.inv s' → J s → J s')
    (hJh : ∀ {s hs}, J s → J { s with holders := hs }) {s : St V} (hj : J s) :
    Valid (hnswMachine V) 0 S (UnlockPage lock mode) (fun _ s' => J s' ∧ Inv s') s := by
  refine valid_unlock fun s1 hr1 hi1 _ => ?_
  have h1 := hS.inv.mp hi1
  have hinv : Inv { s1 with holders := s1.holders.erase ⟨0, lock, mode⟩ } :=
    h1.holders (h1.locks.sub fun _ ha => List.mem_of_mem_erase ha)
  refine ⟨hS.safe (noMark_safe fun _ _ _ e => by cases e), hS.inv.mpr hinv,
    hS.guar (vacuumGuar_holders fun {a} hb => ?_), hJh (hJ hr1 hi1 hj), hinv⟩
  refine List.mem_erase_of_ne ?_
  rintro rfl
  exact hb rfl

theorem VacuumSpec.guar_refl (hS : VacuumSpec late S) (s : St V) : S.guar s s :=
  hS.guar (vacuumGuar_refl late s)

theorem VacuumSpec.insertion (hS : VacuumSpec late S) {s s' : St V} (h : S.rely s s') :
    Insertion s s' := (hS.rely h).insertion

/-- A section of the vacuum that only reads. -/
theorem VacuumSpec.read (hS : VacuumSpec late S) {o : PageOp V} {Q : o.Resp → St V → Prop} {s : St V}
    (ho : ∀ i, (execPage o i).commits = []) (hm : NoMark (.page o))
    (h : ∀ s', S.rely s s' → Inv s' → S.allow s' (.page o) → Q (execPage o s'.index).resp s') :
    Valid (hnswMachine V) 0 S (section_ o) Q s :=
  valid_read ho hS.guar_refl fun s' hr hi ha =>
    ⟨hS.safe (noMark_safe hm), h s' hr (hS.inv.mp hi) ha⟩

/-- A section of the vacuum that writes, but marks nothing. -/
theorem VacuumSpec.write (hS : VacuumSpec late S) {o : PageOp V} {Q : o.Resp → St V → Prop} {s : St V}
    (hm : NoMark (.page o))
    (h : ∀ s', S.rely s s' → Inv s' → S.allow s' (.page o) →
      Inv { s' with index := (execPage o s'.index).final s'.index } ∧
      VacuumGuar late s' { s' with index := (execPage o s'.index).final s'.index } ∧
      Q (execPage o s'.index).resp { s' with index := (execPage o s'.index).final s'.index }) :
    Valid (hnswMachine V) 0 S (section_ o) Q s := by
  refine valid_section fun s' hr hi ha => ?_
  obtain ⟨h1, h2, h3⟩ := h s' hr (hS.inv.mp hi) ha
  exact ⟨hS.safe (noMark_safe hm), hS.inv.mpr h1, hS.guar h2, fun _ _ => hS.commit _, h3⟩

/-- The entry point is read. -/
theorem VacuumSpec.getEntryPoint (hS : VacuumSpec late S) {Q : Option EntryPoint → St V → Prop} {s : St V}
    (h : ∀ s', S.rely s s' → Inv s' → (EntryFixed S ∨ EntryCond s') → Q s'.index.metap.entry s') :
    Valid (hnswMachine V) 0 S HnswGetEntryPoint Q s :=
  Valid.bind (hS.read (fun _ => rfl) (fun _ _ _ e => by cases e) fun s' hr hi ha =>
    h s' hr hi (hS.entry.imp (fun hf => hf) fun hc => hc ha))

/-! ## 2. `RemoveHeapTids` -/

/-- One page of `RemoveHeapTids`, before inserts were waited for. -/
theorem removed_step (late : Prop) {s : St V} (h : Inv s) (hw : s.phase.waited = false) {idx' : Index V} {b : Nat}
    {callback : ItemPointer → Bool} (hr : Removed s.index idx' b callback) :
    Inv { s with index := idx' } ∧ VacuumGuar late s { s with index := idx' } := by
  have hback : ∀ {u x'}, idx'.node? u = some x' → ∃ x, s.index.node? u = some x ∧
      x'.neigh = x.neigh ∧ x'.elem.deleted = x.elem.deleted ∧
      (x'.elem.isLive = true → x.elem.isLive = true) := by
    intro u x' hx'
    rw [hr.node] at hx'
    split at hx'
    · obtain ⟨x, hx, rfl⟩ := Option.map_eq_some_iff.mp hx'
      have hsame := removeTids_same callback x.elem
      exact ⟨x, hx, rfl, hsame.1, hsame.2.2.2.2⟩
    · exact ⟨x', hx', rfl, rfl, id⟩
  have hkept : ∀ {u x}, s.index.node? u = some x → ∃ x', idx'.node? u = some x' ∧
      x'.elem.neighbortid = x.elem.neighbortid ∧ x'.elem.deleted = x.elem.deleted ∧
      x'.elem.version = x.elem.version ∧ x'.neigh = x.neigh := by
    intro u x hx
    rw [hr.node]
    split
    · have hsame := removeTids_same callback x.elem
      exact ⟨x.removed callback, by rw [hx]; rfl, removeTids_neighbortid _ _, hsame.1, hsame.2.1, rfl⟩
    · exact ⟨x, hx, rfl, rfl, rfl, rfl⟩
  have hmark : s.phase.marking = false := not_marking hw
  have hundel : ∀ {u}, s.index.Undeleted u → idx'.Undeleted u := by
    rintro u ⟨x, hx, hd⟩
    obtain ⟨x', hx', _, e, _⟩ := hkept hx
    exact ⟨x', hx', e.trans hd⟩
  have hnames : ∀ {x x' : Node V} {v}, x'.neigh = x.neigh → x'.Names v → x.Names v := by
    intro x x' v e hv
    unfold Node.Names at hv ⊢
    rw [← e]
    exact hv
  constructor
  · refine ⟨hr.sound, fun {t x' v} hx' hv => ?_, fun {ep} hep => ?_, fun {t x'} hx' hl => ?_, h.locks,
      fun _ => ⟨fun t x' v hx' hv => ?_, fun ep hep => ?_⟩, fun hm => ?_, fun hp => ?_⟩
    · obtain ⟨x, hx, e, _⟩ := hback hx'
      obtain ⟨y, hy⟩ := h.named hx (hnames e hv)
      obtain ⟨y', hy', _⟩ := hkept hy
      exact ⟨y', hy'⟩
    · rw [show idx'.metap = s.index.metap from hr.same.metap] at hep
      obtain ⟨y, hy⟩ := h.entry hep
      obtain ⟨y', hy', _⟩ := hkept hy
      exact ⟨y', hy'⟩
    · obtain ⟨x, hx, _, e, hl'⟩ := hback hx'
      rw [e]
      exact h.alive hx (hl' hl)
    · obtain ⟨x, hx, e, _⟩ := hback hx'
      exact hundel ((h.undeleted hmark).1 t x v hx (hnames e hv))
    · rw [show idx'.metap = s.index.metap from hr.same.metap] at hep
      exact hundel ((h.undeleted hmark).2 ep hep)
    · rw [hmark] at hm
      cases hm
    · have hp' : s.phase = .finished := hp
      rw [hp'] at hw
      cases hw
  · refine ⟨fun hx => ?_, fun {u x} hx => ?_, fun _ => Iff.rfl, id, id, id, Or.inl rfl, Or.inl rfl,
      fun hw' => ?_, fun hw' => ?_, fun _ _ => hundel⟩
    · obtain ⟨x', hx', e, _⟩ := hkept hx
      exact ⟨x', hx', e⟩
    · obtain ⟨x', hx', _, e1, e2, e3⟩ := hkept hx
      exact ⟨x', hx', Or.inl ⟨e1, e2, fun _ => by rw [e3]⟩⟩
    · rw [hw] at hw'
      cases hw'
    · rw [hw] at hw'
      cases hw'

/-- The elements of a page, noted one after the other. -/
theorem noteElements_spec (entryPoint : Option EntryPoint) (b : Nat) :
    ∀ (l : List (Nat × Nat × Bool)) (vs : VacuumState),
      (∀ u ∈ vs.deleted, u ∈ (l.foldl (noteElement entryPoint b) vs).deleted) ∧
      (∀ o level, (o, level, false) ∈ l → ⟨b, o⟩ ∈ (l.foldl (noteElement entryPoint b) vs).deleted) ∧
      ∀ h, (l.foldl (noteElement entryPoint b) vs).highestPoint = some h → vs.highestPoint = some h ∨
        ∃ o level, (o, level, true) ∈ l ∧ h.tid = ⟨b, o⟩ ∧ entryPoint.map EntryPoint.tid ≠ some h.tid
  | [], vs => ⟨fun _ hu => hu, fun o level h => absurd h List.not_mem_nil, fun h hh => Or.inl hh⟩
  | (o, level, live) :: l, vs => by
      obtain ⟨h1, h2, h3⟩ := noteElements_spec entryPoint b l (noteElement entryPoint b vs (o, level, live))
      rw [List.foldl_cons]
      have hdel : ∀ u ∈ vs.deleted, u ∈ (noteElement entryPoint b vs (o, level, live)).deleted := by
        intro u hu
        simp only [noteElement]
        split
        · exact List.mem_cons_of_mem _ hu
        · split <;> exact hu
      refine ⟨fun u hu => h1 u (hdel u hu), fun o' level' hm => ?_, fun h hh => ?_⟩
      · rcases List.mem_cons.mp hm with e | hm
        · cases e
          exact h1 _ (by simp [noteElement])
        · exact h2 o' level' hm
      · rcases h3 h hh with h' | ⟨o', level', hm, e, hne⟩
        · simp only [noteElement] at h'
          split at h'
          · exact Or.inl h'
          · rename_i hl
            split at h'
            · rename_i hc
              cases h'
              have hlive : live = true := by simpa using hl
              exact Or.inr ⟨o, level, by rw [hlive]; exact List.mem_cons_self, rfl, hc.2⟩
            · exact Or.inl h'
        · exact Or.inr ⟨o', level', List.mem_cons_of_mem _ hm, e, hne⟩

/-- **What `RemoveHeapTids` knows about the part of the index it has seen.** -/
structure Noted (S : Spec (Op V) (St V)) (entryPoint : Option EntryPoint) (Seen : ItemPointer → Prop)
    (vs : VacuumState) (s : St V) : Prop where
  phase : s.phase = .removeHeapTids
  inv : Inv s
  dying : ∀ {u x}, s.index.node? u = some x → Seen u → x.elem.isLive = false → u ∈ vs.deleted
  highest : ∀ {h}, vs.highestPoint = some h → Seen h.tid ∧ s.index.LiveAt h.tid ∧
    entryPoint.map EntryPoint.tid ≠ some h.tid
  entry : EntryFixed S → s.index.metap.entry = entryPoint

theorem Noted.rely (hS : VacuumSpec late S) {entryPoint : Option EntryPoint} {Seen : ItemPointer → Prop}
    {vs : VacuumState} {s s' : St V} (h : Noted S entryPoint Seen vs s) (hr : S.rely s s') (hi : Inv s') :
    Noted S entryPoint Seen vs s' := by
  have hins := hS.insertion hr
  refine ⟨hins.phase.trans h.phase, hi, fun hx hu hl => ?_, fun hh => ?_, fun hf => ?_⟩
  · obtain ⟨x0, hx0, hl0, _⟩ := hins.dying hx hl
    exact h.dying hx0 hu hl0
  · obtain ⟨h1, h2, h3⟩ := h.highest hh
    exact ⟨h1, hins.live h2, h3⟩
  · exact (hf hr (by rw [h.phase]; rfl)).trans (h.entry hf)

/-- One page. -/
theorem Noted.page {entryPoint : Option EntryPoint} {b : Nat} {vs : VacuumState} {s : St V}
    {callback : ItemPointer → Bool} {idx' : Index V} {r : RemoveResult}
    (h : Noted S entryPoint (fun u => u.blkno < b) vs s) (hr : Removed s.index idx' b callback)
    (ha : RemoveAnswer s.index b callback r) (hi : Inv { s with index := idx' }) :
    Noted S entryPoint (fun u => u.blkno < b + 1) (notePage entryPoint b vs r)
      { s with index := idx' } := by
  obtain ⟨h1, h2, h3⟩ := noteElements_spec entryPoint b r.elements vs
  refine ⟨h.phase, hi, fun {u x'} hx' hu hl => ?_, fun {hp} hh => ?_, fun hf => ?_⟩
  · simp only at hx'
    rw [hr.node] at hx'
    split at hx'
    · rename_i hub
      obtain ⟨x, hx, rfl⟩ := Option.map_eq_some_iff.mp hx'
      obtain ⟨ub, uo⟩ := u
      simp only at hub
      subst hub
      exact h2 uo x.elem.level ((ha.mem _ _ _).mpr ⟨x, hx, rfl, hl.symm⟩)
    · rename_i hub
      exact h1 u (h.dying hx' (by omega) hl)
  · rcases h3 hp hh with h' | ⟨o, level, hm, e, hne⟩
    · obtain ⟨g1, ⟨x, hx, hxl⟩, g3⟩ := h.highest h'
      refine ⟨Nat.lt_succ_of_lt g1, ⟨x, ?_, hxl⟩, g3⟩
      simp only
      rw [hr.node, if_neg (Nat.ne_of_lt g1)]
      exact hx
    · obtain ⟨x, hx, _, hl⟩ := (ha.mem _ _ _).mp hm
      refine ⟨by rw [e]; exact Nat.lt_succ_self b, ⟨x.removed callback, ?_, hl.symm⟩, hne⟩
      simp only
      rw [e, hr.node, if_pos rfl, hx]
      rfl
  · exact (congrArg HnswMetaPage.entry hr.same.metap).trans (h.entry hf)

/-- The page loop. -/
theorem valid_removeHeapTidsLoop (hS : VacuumSpec late S) (callback : ItemPointer → Bool)
    (entryPoint : Option EntryPoint) : ∀ (n b : Nat) (vs : VacuumState) {s : St V},
    Noted S entryPoint (fun u => u.blkno < b) vs s →
    Valid (hnswMachine V) 0 S (removeHeapTidsLoop callback entryPoint n (some b) vs)
      (fun vs' s' => Noted S entryPoint (fun _ => True) vs' s') s
  | 0, _, _, _, _ => hS.cuts
  | n + 1, b, vs, s, h => by
      unfold removeHeapTidsLoop
      refine Valid.bind (hS.write (fun _ _ _ e => by cases e) fun s1 hr1 hi1 _ => ?_)
      have h1 := h.rely hS hr1 hi1
      obtain ⟨_, hrem, hresp⟩ := removeHeapTids_spec hi1.sound b callback
      obtain ⟨g1, g2⟩ := removed_step late hi1 (by rw [h1.phase]; rfl) hrem
      refine ⟨g1, g2, ?_⟩
      simp only [execPage]
      rcases hresp with ⟨hresp, _⟩ | ⟨r, hresp, ha⟩
      · rw [hresp]
        exact hS.error _
      · rw [hresp]
        have h2 := h1.page hrem ha g1
        obtain ⟨p, hp, hn⟩ := ha.page
        simp only [hn]
        rcases hi1.sound.next_cases hp with ⟨e, _⟩ | ⟨e, hlast⟩
        · rw [e]
          exact valid_removeHeapTidsLoop hS callback entryPoint n (b + 1) _ h2
        · rw [e]
          have hseen : ∀ {u x}, ((Hnsw.removeHeapTids s1.index b callback).final s1.index).node? u =
              some x → u.blkno < b + 1 := by
            intro u x hx
            rw [hrem.node] at hx
            split at hx
            · omega
            · exact Nat.lt_succ_of_le (hlast u x hx)
          have h3 : Noted S entryPoint (fun _ => True) (notePage entryPoint b vs r)
              { s1 with index := (Hnsw.removeHeapTids s1.index b callback).final s1.index } :=
            ⟨h2.phase, h2.inv, fun hx _ hl => h2.dying hx (hseen hx) hl,
              fun hh => ⟨trivial, (h2.highest hh).2⟩, h2.entry⟩
          cases n <;> exact h3

/-- **`RemoveHeapTids`.** -/
theorem valid_removeHeapTids (hS : VacuumSpec late S) (stats : IndexBulkDeleteResult)
    (callback : ItemPointer → Bool) (budget : Nat) {s : St V} (hp : s.phase = .removeHeapTids) :
    Valid (hnswMachine V) 0 S (RemoveHeapTids stats callback budget)
      (fun vs s' => ∃ entryPoint, Noted S entryPoint (fun _ => True) vs s') s := by
  unfold RemoveHeapTids
  refine Valid.bind (hS.getEntryPoint fun s1 hr1 hi1 _ => ?_)
  refine Valid.mono (valid_removeHeapTidsLoop hS callback s1.index.metap.entry budget HNSW_HEAD_BLKNO
    ⟨[], none, _, _⟩ ⟨(hS.insertion hr1).phase.trans hp, hi1, fun {u x} hx hu => ?_, fun hh => ?_,
    fun _ => rfl⟩) fun vs s' h => ⟨_, h⟩
  · have := (Index.node?_blkno hx).1
    exact absurd hu (Nat.not_lt.mpr this)
  · cases hh

/-! ## 3. Repairing one element -/

/-- Every node without heap TID is in the table. -/
def Dying (deleted : List ItemPointer) (s : St V) : Prop :=
  ∀ u x, s.index.node? u = some x → x.elem.isLive = false → u ∈ deleted

theorem Dying.insertion {deleted : List ItemPointer} {s s' : St V} (h : Dying deleted s)
    (hi : Insertion s s') : Dying deleted s' := by
  intro u x hx hl
  obtain ⟨x0, hx0, hl0, _⟩ := hi.dying hx hl
  exact h u x0 hx0 hl0

theorem Dying.live {deleted : List ItemPointer} {s : St V} (h : Dying deleted s) {u : ItemPointer}
    {x : Node V} (hx : s.index.node? u = some x) (hu : u ∉ deleted) : s.index.LiveAt u := by
  refine ⟨x, hx, ?_⟩
  by_contra hl
  exact hu (h u x hx (by simpa using hl))

/-- A node none of whose names is in the table is clean. -/
theorem Dying.clean {deleted : List ItemPointer} {s : St V} (h : Dying deleted s) (hi : Inv s)
    {u : ItemPointer} (hn : ∀ x, s.index.node? u = some x → ∀ v, x.Names v → v ∉ deleted) :
    s.index.CleanAt u := by
  intro x hx v hv
  obtain ⟨y, hy⟩ := hi.named hx hv
  exact h.live hy (hn x hx v hv)

/-- The entry point stays clean. -/
theorem Insertion.entryClean {s s' : St V} (h : Insertion s s') (hw : s.phase.waited = true)
    (he : s.index.EntryClean) : s'.index.EntryClean := by
  rcases h.entry hw with e | e
  · intro ep hep
    obtain ⟨h1, h2⟩ := he ep (by rw [← e]; exact hep)
    exact ⟨h.live h1, h.clean hw (h.live h1) fun _ => h2⟩
  · exact e

/-- A live node, under the neighbor tuple the copy names. -/
def Present (element : HnswElement V) (s : St V) : Prop :=
  ∃ y, s.index.node? element.tid = some y ∧ y.elem.neighbortid = element.neighbortid ∧
    y.elem.isLive = true

theorem Present.live {element : HnswElement V} {s : St V} (h : Present element s) :
    s.index.LiveAt element.tid := by
  obtain ⟨y, hy, _, hl⟩ := h
  exact ⟨y, hy, hl⟩

theorem Present.insertion {element : HnswElement V} {s s' : St V} (h : Present element s)
    (hi : Insertion s s') : Present element s' := by
  obtain ⟨x, hx, hxl⟩ := hi.live h.live
  obtain ⟨y, hy, hyn, _⟩ := h
  obtain ⟨y', hy', e⟩ := hi.kept hy
  rw [hx] at hy'
  cases hy'
  exact ⟨x, hx, e.trans hyn, hxl⟩

theorem needsUpdated_false {deleted : List ItemPointer} {ntup : HnswNeighborTuple}
    (h : needsUpdated deleted ntup = false) {v : ItemPointer} (hm : v ∈ ntup.indextids)
    (hv : v.isValid = true) : v ∉ deleted := by
  unfold needsUpdated at h
  have := List.any_eq_false.mp (Bool.or_eq_false_iff.mp h).1 v hm
  simpa [hv] using this

/-- **`NeedsUpdated`**: an element that does not need it is clean. -/
theorem valid_needsUpdated (hS : VacuumSpec late S) {deleted : List ItemPointer}
    {element : HnswElement V} {J : St V → Prop} (hJ : ∀ {s s'}, S.rely s s' → S.inv s' → J s → J s')
    (hd : ∀ {s}, J s → Dying deleted s ∧ Present element s) {s : St V} (hj : J s) :
    Valid (hnswMachine V) 0 S (NeedsUpdated deleted element)
      (fun r s' => J s' ∧ Inv s' ∧ (r = false → s'.index.CleanAt element.tid)) s := by
  unfold NeedsUpdated
  refine Valid.bind (hS.read (fun _ => rfl) (fun _ _ _ e => by cases e) fun s1 hr1 hi1 _ => ?_)
  have hj1 := hJ hr1 (hS.inv.mpr hi1) hj
  obtain ⟨hdy, y, hy, hyn, hyl⟩ := hd hj1
  have hn := Index.node?_neigh hy
  rw [hyn] at hn
  simp only [execPage, hn]
  refine ⟨hj1, hi1, fun hr => hdy.clean hi1 fun x hx v hv => ?_⟩
  rw [hy] at hx
  cases hx
  exact needsUpdated_false hr hv.1 hv.2

section Repair

variable {δ : Type} [LinearOrder δ]

/-- **`RepairGraphElement`**: it leaves the element clean unless it is the entry point given. -/
theorem valid_repairElement (hS : VacuumSpec late S) (rel : HnswRel V δ) (m : Nat)
    {element : HnswElement V} {entryPoint : Option EntryPoint} (budget : Nat) {J : St V → Prop}
    (hJ : ∀ {s s'}, S.rely s s' → S.inv s' → J s → J s')
    (hJw : ∀ {s idx'}, J s → Insertion s { s with index := idx' } → idx'.metap = s.index.metap →
      J { s with index := idx' })
    (hd : ∀ {s}, J s → s.phase.waited = true ∧ Present element s) {s : St V} (hj : J s) (hi : Inv s)
    (hT : ∀ ep, entryPoint = some ep → ∃ y, s.index.node? ep.tid = some y) :
    Valid (hnswMachine V) 0 S (RepairGraphElement rel m element entryPoint budget)
      (fun _ s' => J s' ∧ Inv s' ∧
        (entryPoint.map EntryPoint.tid ≠ some element.tid → s'.index.CleanAt element.tid)) s := by
  have R : Reads S m true J (Tid False) (Copy False) := reads_of_steady m hS.refl hS.trans hS.guar_refl
    (fun _ h => hS.inv.mp h) (fun hj hr hi => ⟨hJ hr hi hj, (hS.insertion hr).steady False⟩)
    fun _ _ h _ => hS.safe (noMark_safe h)
  unfold RepairGraphElement
  split
  · rename_i he
    exact ⟨hj, hi, fun hne => absurd he hne⟩
  refine Valid.bind (Valid.mono (valid_findNeighbors (F := ∅) R (Or.inl hS.cuts) rel
    { element with heaptids := [] } true hj (hS.inv.mpr hi)
    fun ep hep => ⟨hT ep hep, fun h => h.elim⟩) ?_)
  rintro ⟨e, ep⟩ s1 ⟨hr1, hi1, he, hfound, _⟩
  have hj1 := hJ hr1 hi1 hj
  have hcopies : ∀ lc, ∀ hc ∈ e.layer lc, Copy False s1 hc.element ∧ hc.element.heaptids ≠ [] := by
    intro lc hc hm
    unfold LocalElement.layer at hm
    split at hm
    · cases hm
    · rename_i a ha
      obtain ⟨hP, _, hne, _⟩ := (hfound.layer ha).mem hc hm
      exact ⟨hP, hne⟩
  simp only
  refine Valid.bind (hS.write (fun _ _ _ e => by cases e) fun s2 hr2 hi2 _ => ?_)
  have hj2 := hJ hr2 (hS.inv.mpr hi2) hj1
  have hc2 : ∀ lc, ∀ hc ∈ e.layer lc, Copy False s2 hc.element ∧ hc.element.heaptids ≠ [] :=
    fun lc hc hm => ⟨R.stableP hj1 hr2 (hS.inv.mpr hi2) (hcopies lc hc hm).1, (hcopies lc hc hm).2⟩
  obtain ⟨hw2, y, hy, hyn, hyl⟩ := hd hj2
  unfold Sect.final
  rcases overwriteNeighborTuple_spec hi2.sound hy
    (HnswSetNeighborTuple element.level element.version m e.layerTids)
    (HNSW_NEIGHBOR_TUPLE_SIZE element.level m) with ⟨_, hc, hresp⟩ | ⟨idx', hc, hresp, hw⟩
  · rw [hyn] at hc hresp
    rw [hc, hresp]
    exact ⟨hi2, vacuumGuar_refl late s2, hS.error _⟩
  rw [hyn] at hc hresp
  rw [hc, hresp]
  simp only [List.getLastD_cons, List.getLastD_nil, if_true]
  have htarget : ∀ {v}, (⟨y.elem, HnswSetNeighborTuple element.level element.version m e.layerTids,
      HNSW_NEIGHBOR_TUPLE_SIZE element.level m⟩ : Node V).Names v → Target s2 v := by
    intro v hv
    obtain ⟨lc, _, hm⟩ := mem_neighborSlots hv.2 hv.1
    obtain ⟨hc, hcm, rfl⟩ := List.mem_map.mp hm
    exact (hc2 lc hc hcm).1.2.1 (hc2 lc hc hcm).2
  obtain ⟨g1, g2⟩ := insertion_wrote hi2 hy hw rfl rfl rfl fun hv => Or.inr (htarget hv)
  have hv : Versions s2.index idx' := hw.versions hy (Or.inl ⟨rfl, rfl, fun hdel => by
    rw [hi2.alive hy hyl] at hdel
    cases hdel⟩)
  have hclean : idx'.CleanAt element.tid := by
    intro x hx v hxv
    rw [hw.node, if_pos rfl] at hx
    cases hx
    exact g1.live ((htarget hxv).1 hw2)
  refine ⟨g2, g1.vacuumGuar hv, ?_⟩
  -- the neighbors are updated; the element stays clean
  let J' (s : St V) : Prop := J s ∧ Inv s ∧ s.index.CleanAt element.tid
  have hstep : ∀ {s s' : St V}, J s → Insertion s s' → s.index.CleanAt element.tid →
      s'.index.CleanAt element.tid := fun hj hins hcl =>
    hins.clean (hd hj).1 (hins.live (hd hj).2.live) fun _ => hcl
  have htid : e.element.tid = element.tid := by rw [he]; rfl
  refine Valid.bind (Valid.mono (valid_updateNeighbors (J := J') (s := { s2 with index := idx' }) R rel
    true (fun _ h => hS.inv.mp h) (fun s hj' => ?_) (fun {s s'} hj hr hi' hj' => ?_)
    (fun _ _ h _ => hS.safe (noMark_safe h)) hS.commit (fun s idx'' _ _ hj' hins hinv hvs hmp => ?_)
    (hJw hj2 g1 hw.same.metap) (hS.inv.mpr g2) ⟨hJw hj2 g1 hw.same.metap, g2, hclean⟩
    fun lc hc hm => ?_) ?_)
  · rw [htid]
    exact hj'.2.1.target_of_live (hd hj'.1).2.live
  · exact ⟨hJ hr hi' hj, hS.inv.mp hi', hstep hj (hS.insertion hr) hj'.2.2⟩
  · exact ⟨hS.inv.mpr hinv, hS.guar (hins.vacuumGuar hvs), hJw hj'.1 hins hmp, hJw hj'.1 hins hmp, hinv,
      hstep hj'.1 hins hj'.2.2⟩
  · obtain ⟨⟨z, hz, hzn⟩, ht, _⟩ := (hc2 lc hc hm).1
    obtain ⟨z', hz', e'⟩ := g1.kept hz
    exact ⟨⟨z', hz', e'.trans hzn⟩, fun hne => g1.target (ht hne), fun hl => hl.elim⟩
  · rintro _ s3 ⟨_, _, hj3⟩
    exact ⟨hj3.1, hj3.2.1, fun _ => hj3.2.2⟩

/-! ## 4. `RepairGraphEntryPoint` -/

/-- **What holds in `RepairGraphEntryPoint`.** -/
structure Ready (S : Spec (Op V) (St V)) (deleted : List ItemPointer) (highestPoint : Option EntryPoint)
    (s : St V) : Prop where
  phase : s.phase = .repairGraphEntryPoint deleted highestPoint
  dying : Dying deleted s
  highest : ∀ {h}, highestPoint = some h → s.index.LiveAt h.tid
  apart : EntryFixed S → ∀ {ep h}, s.index.metap.entry = some ep → highestPoint = some h →
    ep.tid ≠ h.tid

namespace Ready

variable {deleted : List ItemPointer} {highestPoint : Option EntryPoint} {s s' : St V}

theorem waited (h : Ready S deleted highestPoint s) : s.phase.waited = true := by
  rw [h.phase]
  rfl

theorem rely (hS : VacuumSpec late S) (h : Ready S deleted highestPoint s) (hr : S.rely s s') :
    Ready S deleted highestPoint s' := by
  have hins := hS.insertion hr
  refine ⟨hins.phase.trans h.phase, h.dying.insertion hins, fun hh => hins.live (h.highest hh),
    fun hf {ep hp} hep => ?_⟩
  rw [hf hr (by rw [h.phase]; rfl)] at hep
  exact h.apart hf hep

theorem write {idx' : Index V} (h : Ready S deleted highestPoint s)
    (hi : Insertion s { s with index := idx' }) (hm : idx'.metap = s.index.metap) :
    Ready S deleted highestPoint { s with index := idx' } := by
  refine ⟨h.phase, h.dying.insertion hi, fun hh => hi.live (h.highest hh), fun hf {ep hp} hep => ?_⟩
  simp only [hm] at hep
  exact h.apart hf hep

end Ready

/-- Whatever is known about a clean node stays. -/
theorem Insertion.cleanAt {s s' : St V} (h : Insertion s s') (hw : s.phase.waited = true)
    {u : ItemPointer} (hl : s.index.LiveAt u) (hc : s.index.CleanAt u) : s'.index.CleanAt u :=
  h.clean hw (h.live hl) fun _ => hc

theorem present_load {s : St V} {u : ItemPointer} {y : Node V} (hy : s.index.node? u = some y)
    (hl : y.elem.isLive = true) (ptr : Nat) (a b : Bool) :
    Present (HnswLoadElementFromTuple (HnswInitElementFromBlock u ptr) y.elem a b) s := ⟨y, hy, rfl, hl⟩

/-- `HnswLoadElement` of a live node. -/
theorem valid_hnswLoadElement (hS : VacuumSpec late S) {u : ItemPointer} {J : St V → Prop}
    (hJ : ∀ {s s'}, S.rely s s' → S.inv s' → J s → J s') (hd : ∀ {s}, J s → s.index.LiveAt u) {s : St V}
    (hj : J s) : Valid (hnswMachine V) 0 S (HnswLoadElement u) (fun element s' => J s' ∧ Inv s' ∧
      element.tid = u ∧ Present element s') s := by
  unfold HnswLoadElement
  refine Valid.bind (hS.read (fun _ => rfl) (fun _ _ _ e => by cases e) fun s1 hr1 hi1 _ => ?_)
  have hj1 := hJ hr1 (hS.inv.mpr hi1) hj
  obtain ⟨y, hy, hl⟩ := hd hj1
  simp only [execPage, Index.node?_elem hy]
  exact ⟨hj1, hi1, rfl, present_load hy hl 0 true true⟩

/-- **The first part of `RepairGraphEntryPoint`**: the highest point is clean. -/
theorem valid_repairHighestPoint (hS : VacuumSpec late S) (rel : HnswRel V δ) (m : Nat)
    {deleted : List ItemPointer} (highestPoint : Option EntryPoint) (budget : Nat) {s : St V}
    (h : Ready S deleted highestPoint s) (hi : Inv s) :
    Valid (hnswMachine V) 0 S (repairHighestPoint rel m deleted highestPoint budget)
      (fun r s' => Ready S deleted highestPoint s' ∧ Inv s' ∧
        ∀ h, r = some h → s'.index.LiveAt h.tid ∧ s'.index.CleanAt h.tid) s := by
  unfold repairHighestPoint
  cases highestPoint with
  | none => exact ⟨h, hi, fun h hh => by cases hh⟩
  | some hp =>
      refine Valid.bind (Valid.mono (hS.lock _ _ _ (J := Ready S deleted (some hp))
        (fun hr _ hj => hj.rely hS hr) (fun hj => ⟨hj.phase, hj.dying, hj.highest, hj.apart⟩) h) ?_)
      rintro _ s1 ⟨h1, hi1, hm1⟩
      let H (s : St V) : Prop := Ready S deleted (some hp) s ∧
        (⟨0, .HNSW_UPDATE_LOCK, .ShareLock⟩ : Holder) ∈ s.holders
      have hH : ∀ {s s'}, S.rely s s' → H s → H s' := fun hr hh =>
        ⟨hh.1.rely hS hr, ((hS.rely hr).holders rfl).mpr hh.2⟩
      refine Valid.bind (Valid.mono (valid_hnswLoadElement hS (u := hp.tid) (J := H)
        (fun hr _ hj => hH hr hj) (fun hj => hj.1.highest rfl) ⟨h1, hm1⟩) ?_)
      rintro element s2 ⟨h2, hi2, htid, hpr2⟩
      let J (s : St V) : Prop := H s ∧ Present element s
      have hJ : ∀ {s s'}, S.rely s s' → S.inv s' → J s → J s' := fun hr _ hj =>
        ⟨hH hr hj.1, hj.2.insertion (hS.insertion hr)⟩
      refine Valid.bind (Valid.mono (valid_needsUpdated hS (J := J) hJ
        (fun hj => ⟨hj.1.1.dying, hj.2⟩) ⟨h2, hpr2⟩) ?_)
      rintro needs s3 ⟨hj3, hi3, hclean3⟩
      let K (s : St V) : Prop := Ready S deleted (some hp) s ∧ Present element s ∧
        s.index.CleanAt element.tid
      have hK : ∀ {s s'}, S.rely s s' → S.inv s' → K s → K s' := fun hr _ hk =>
        ⟨hk.1.rely hS hr, hk.2.1.insertion (hS.insertion hr),
          (hS.insertion hr).cleanAt hk.1.waited hk.2.1.live hk.2.2⟩
      -- the lock is given back with the point clean
      have hend : ∀ {s}, K s → Valid (hnswMachine V) 0 S (do
          UnlockPage .HNSW_UPDATE_LOCK .ShareLock
          return some element.asEntryPoint) (fun r s' => Ready S deleted (some hp) s' ∧ Inv s' ∧
            ∀ h, r = some h → s'.index.LiveAt h.tid ∧ s'.index.CleanAt h.tid) s := by
        intro s hk
        refine Valid.bind (Valid.mono (hS.unlock _ _ (J := K) hK (fun hk => ⟨⟨hk.1.phase, hk.1.dying,
          hk.1.highest, hk.1.apart⟩, hk.2⟩) hk) ?_)
        rintro _ s' ⟨hk', hi'⟩
        refine ⟨hk'.1, hi', fun h hh => ?_⟩
        cases hh
        exact ⟨hk'.2.1.live, hk'.2.2⟩
      cases needs with
      | false => exact hend ⟨hj3.1.1, hj3.2, hclean3 rfl⟩
      | true =>
          refine Valid.bind (hS.getEntryPoint fun s4 hr4 hi4 hcond => ?_)
          have hj4 := hJ hr4 (hS.inv.mpr hi4) hj3
          -- where the entry point is this element, nothing of it is to be repaired
          have hskip : s4.index.metap.entry.map EntryPoint.tid = some element.tid →
              s4.index.CleanAt element.tid := by
            intro he
            obtain ⟨ep, hep, het⟩ := Option.map_eq_some_iff.mp he
            rcases hcond with hf | hc
            · exact absurd (het.trans htid) (hj4.1.1.apart hf hep rfl)
            · rw [htid]
              exact hc deleted hp ep hj4.1.1.phase hj4.1.2 hep (het.trans htid)
          let L (s : St V) : Prop := J s ∧
            (s4.index.metap.entry.map EntryPoint.tid = some element.tid → s.index.CleanAt element.tid)
          refine Valid.bind (Valid.bind (Valid.mono (valid_repairElement hS rel m budget (J := L)
            (fun hr hi' hl => ⟨hJ hr hi' hl.1, fun he =>
              (hS.insertion hr).cleanAt hl.1.1.1.waited hl.1.2.live (hl.2 he)⟩)
            (fun hl hins hm => ⟨⟨⟨hl.1.1.1.write hins hm, hl.1.1.2⟩, hl.1.2.insertion hins⟩, fun he =>
              hins.cleanAt hl.1.1.1.waited hl.1.2.live (hl.2 he)⟩)
            (fun hl => ⟨hl.1.1.1.waited, hl.1.2⟩) ⟨hj4, hskip⟩ hi4 fun ep hep => hi4.entry hep) ?_))
          rintro _ s5 ⟨hl5, _, hclean5⟩
          refine hend ⟨hl5.1.1.1, hl5.1.2, ?_⟩
          by_cases he : s4.index.metap.entry.map EntryPoint.tid = some element.tid
          · exact hl5.2 he
          · exact hclean5 he

/-- The phase goes on, before `MarkDeleted`. -/
theorem Inv.enter {s : St V} (h : Inv s) {p : VacuumPhase} (hm : s.phase.marking = false)
    (hp : p.marking = false) : Inv { s with phase := p } where
  sound := h.sound
  named := h.named
  entry := h.entry
  alive := h.alive
  locks := h.locks
  undeleted _ := h.undeleted hm
  clean hm' := by
    rw [show p.marking = true from hm'] at hp
    cases hp
  finished hf := by
    rw [show p = .finished from hf] at hp
    cases hp

/-- What is needed to go on to another phase. -/
theorem vacuumGuar_phase {s : St V} {p : VacuumPhase}
    (hwu : s.phase.waited = true → p.waited = true) (heu : s.phase.entryDone = true → p.entryDone = true)
    (hmu : s.phase.marking = true → p.marking = true)
    (hw : p.waited = s.phase.waited ∨ ∀ h ∈ s.holders, h.lock = .HNSW_UPDATE_LOCK → h.backend = 0)
    (hm : p.marking = s.phase.marking ∨ (∀ h ∈ s.holders, h.lock = .HNSW_SCAN_LOCK → h.backend = 0) ∧
      (late → ∀ h ∈ s.holders, h.lock = .HNSW_UPDATE_LOCK → h.backend = 0)) :
    VacuumGuar late s { s with phase := p } :=
  ⟨fun hx => ⟨_, hx, rfl⟩, Versions.refl s.index, fun _ => Iff.rfl, hwu, heu, hmu, hw, hm, fun _ _ h => h,
    fun _ _ _ h => h, fun _ _ h => h⟩

/-- What holds from the end of `RepairGraphEntryPoint` on. -/
structure EntryReady (deleted : List ItemPointer) (s : St V) : Prop where
  phase : s.phase = .repairGraph
  dying : Dying deleted s
  entry : s.index.EntryClean

theorem EntryReady.waited {deleted : List ItemPointer} {s : St V} (h : EntryReady deleted s) :
    s.phase.waited = true := by
  rw [h.phase]
  rfl

theorem EntryReady.insertion {deleted : List ItemPointer} {s s' : St V} (h : EntryReady deleted s)
    (hi : Insertion s s') : EntryReady deleted s' :=
  ⟨hi.phase.trans h.phase, h.dying.insertion hi, hi.entryClean h.waited h.entry⟩

/-- The second part of `RepairGraphEntryPoint` starts here: the point it was given is clean. -/
structure Chosen (deleted : List ItemPointer) (highestPoint r : Option EntryPoint) (s : St V) : Prop where
  phase : s.phase = .repairGraphEntryPoint deleted highestPoint
  dying : Dying deleted s
  point : ∀ {h}, r = some h → s.index.LiveAt h.tid ∧ s.index.CleanAt h.tid

theorem Chosen.insertion {deleted : List ItemPointer} {highestPoint r : Option EntryPoint} {s s' : St V}
    (h : Chosen deleted highestPoint r s) (hi : Insertion s s') : Chosen deleted highestPoint r s' := by
  refine ⟨hi.phase.trans h.phase, h.dying.insertion hi, fun hh => ?_⟩
  obtain ⟨h1, h2⟩ := h.point hh
  exact ⟨hi.live h1, hi.cleanAt (by rw [h.phase]; rfl) h1 h2⟩

theorem updateMetaPage_always (metap : HnswMetaPage) (r : Option EntryPoint) (ip : Option Nat) :
    (HnswUpdateMetaPageInfo metap .always r ip).entry = r := by
  unfold HnswUpdateMetaPageInfo
  cases r <;> simp

/-- **The second part of `RepairGraphEntryPoint`**: the entry point is live and clean. -/
theorem valid_repairEntryPoint (hS : VacuumSpec late S) (rel : HnswRel V δ) (m : Nat)
    {deleted : List ItemPointer} {highestPoint : Option EntryPoint} (r : Option EntryPoint) (budget : Nat)
    {s : St V} (h : Chosen deleted highestPoint r s) :
    Valid (hnswMachine V) 0 S (repairEntryPoint rel m deleted r budget)
      (fun _ s' => Chosen deleted highestPoint r s' ∧ s'.index.EntryClean ∧ Inv s') s := by
  unfold repairEntryPoint
  refine Valid.bind (hS.getEntryPoint fun s1 hr1 hi1 _ => ?_)
  have h1 := h.insertion (hS.insertion hr1)
  cases hep : s1.index.metap.entry with
  | none => exact ⟨h1, fun ep he => (by rw [hep] at he; cases he), hi1⟩
  | some ep =>
      simp only
      split
      · -- the entry point is dying: the highest point takes its place
        refine hS.write (fun _ _ _ e => by cases e) fun s2 hr2 hi2 _ => ?_
        have h2 := h1.insertion (hS.insertion hr2)
        have hnew : ∀ p, (HnswUpdateMetaPageInfo s2.index.metap .always r none).entry = some p →
            s2.index.LiveAt p.tid ∧ s2.index.CleanAt p.tid := by
          intro p hp
          rw [updateMetaPage_always] at hp
          exact h2.point hp
        obtain ⟨g1, g2⟩ := insertion_metap hi2 (HnswUpdateMetaPageInfo s2.index.metap .always r
          none) rfl (Or.inr fun p hp => ⟨hi2.target_of_live (hnew p hp).1, fun _ => (hnew p hp).2⟩)
        exact ⟨g2, g1.vacuumGuar (Versions.refl s2.index), h2.insertion g1, hnew, g2⟩
      · rename_i hnd
        obtain ⟨y, hy⟩ := hi1.entry hep
        let J (s : St V) : Prop := Chosen deleted highestPoint r s ∧ s.index.LiveAt ep.tid ∧
          (s.index.metap.entry = some ep ∨ s.index.EntryClean)
        have hJ : ∀ {s s'}, S.rely s s' → S.inv s' → J s → J s' := by
          intro s s' hr _ hj
          have hins := hS.insertion hr
          have hw : s.phase.waited = true := by rw [hj.1.phase]; rfl
          refine ⟨hj.1.insertion hins, hins.live hj.2.1, ?_⟩
          rcases hj.2.2 with he | he
          · exact (hins.entry hw).imp (fun e => e.trans he) fun e => e
          · exact Or.inr (hins.entryClean hw he)
        have hend : ∀ {s}, J s → s.index.CleanAt ep.tid → s.index.EntryClean := by
          intro s hj hcl
          rcases hj.2.2 with he | he
          · intro p hp
            rw [he] at hp
            cases hp
            exact ⟨hj.2.1, hcl⟩
          · exact he
        refine Valid.bind (Valid.mono (valid_hnswLoadElement hS (J := J) hJ (fun hj => hj.2.1)
          ⟨h1, h1.dying.live hy hnd, Or.inl hep⟩) ?_)
        rintro element s2 ⟨hj2, hi2, htid, hpr2⟩
        let K (s : St V) : Prop := J s ∧ Present element s
        have hK : ∀ {s s'}, S.rely s s' → S.inv s' → K s → K s' := fun hr hi' hk =>
          ⟨hJ hr hi' hk.1, hk.2.insertion (hS.insertion hr)⟩
        refine Valid.bind (Valid.mono (valid_needsUpdated hS (J := K) hK
          (fun hk => ⟨hk.1.1.dying, hk.2⟩) ⟨hj2, hpr2⟩) ?_)
        rintro needs s3 ⟨hk3, hi3, hclean3⟩
        rw [htid] at hclean3
        cases needs with
        | false => exact ⟨hk3.1.1, hend hk3.1 (hclean3 rfl), hi3⟩
        | true =>
            refine Valid.bind (Valid.mono (valid_repairElement hS rel m budget (J := K) hK
              (fun {s idx'} hk hins hm => ⟨⟨hk.1.1.insertion hins, hins.live hk.1.2.1, ?_⟩,
                hk.2.insertion hins⟩)
              (fun hk => ⟨by rw [hk.1.1.phase]; rfl, hk.2⟩) hk3 hi3 fun p hp => ?_) ?_)
            · rcases hk.1.2.2 with he | he
              · exact Or.inl (by simp only [hm]; exact he)
              · exact Or.inr (hins.entryClean (by rw [hk.1.1.phase]; rfl) he)
            · obtain ⟨x, hx, _⟩ := (hk3.1.1.point hp).1
              exact ⟨x, hx⟩
            · rintro _ s4 ⟨hk4, hi4, hclean4⟩
              refine ⟨hk4.1.1, hend hk4.1 ?_, hi4⟩
              by_cases he : r.map EntryPoint.tid = some element.tid
              · obtain ⟨p, hp, hpt⟩ := Option.map_eq_some_iff.mp he
                rw [← htid, ← hpt]
                exact (hk4.1.1.point hp).2
              · rw [← htid]
                exact hclean4 he

/-- **`RepairGraphEntryPoint`.** -/
theorem valid_repairGraphEntryPoint (hS : VacuumSpec late S) (rel : HnswRel V δ) (m : Nat)
    {deleted : List ItemPointer} (highestPoint : Option EntryPoint) (budget : Nat) {s : St V}
    (h : Ready S deleted highestPoint s) (hi : Inv s) :
    Valid (hnswMachine V) 0 S (RepairGraphEntryPoint rel m deleted highestPoint budget)
      (fun _ s' => EntryReady deleted s' ∧ Inv s') s := by
  unfold RepairGraphEntryPoint
  refine Valid.bind (Valid.mono (valid_repairHighestPoint hS rel m highestPoint budget h hi) ?_)
  rintro r s1 ⟨h1, _, hpt⟩
  refine Valid.bind (Valid.mono (hS.lock _ _ _ (J := Chosen deleted highestPoint r)
    (fun hr _ hj => hj.insertion (hS.insertion hr)) (fun hj => hj.insertion (insertion_holders _ _))
    ⟨h1.phase, h1.dying, fun hh => hpt _ hh⟩) ?_)
  rintro _ s2 ⟨h2, _⟩
  refine Valid.bind (Valid.mono (valid_repairEntryPoint hS rel m r budget h2) ?_)
  rintro _ s3 ⟨h3, he3, _⟩
  refine Valid.bind (valid_enter fun s4 hr4 hi4 _ => ?_)
  have hins := hS.insertion hr4
  have h4 := h3.insertion hins
  have he4 := hins.entryClean (by rw [h3.phase]; rfl) he3
  have hready : EntryReady deleted { s4 with phase := .repairGraph } := ⟨rfl, h4.dying, he4⟩
  refine ⟨hS.safe (noMark_safe fun _ _ _ e => by cases e),
    hS.inv.mpr ((hS.inv.mp hi4).enter (by rw [h4.phase]; rfl) rfl),
    hS.guar (vacuumGuar_phase (fun _ => rfl) (fun _ => rfl) (fun hm => ?_) (Or.inl ?_) (Or.inl ?_)), ?_⟩
  · rw [h4.phase] at hm
    cases hm
  · rw [h4.phase]
    rfl
  · rw [h4.phase]
    rfl
  · exact hS.unlock _ _ (J := EntryReady deleted) (fun hr _ hj => hj.insertion (hS.insertion hr))
      (fun hj => hj.insertion (insertion_holders _ _)) hready

/-! ## 5. `RepairGraph` -/

/-- The end of a round: the element is repaired and may become the entry point. -/
theorem valid_repairConnections (hS : VacuumSpec late S) (rel : HnswRel V δ) (m : Nat)
    {deleted : List ItemPointer} {element : HnswElement V} {entryPoint : Option EntryPoint}
    (lockmode : LockMode) (budget : Nat) {J : St V → Prop}
    (hJ : ∀ {s s'}, Insertion s s' → J s → J s')
    (hd : ∀ {s}, J s → EntryReady deleted s ∧ Present element s) {s : St V} (hj : J s) (hi : Inv s)
    (hep : s.index.metap.entry = entryPoint) :
    Valid (hnswMachine V) 0 S (repairConnections rel m element entryPoint lockmode budget)
      (fun _ s' => J s' ∧ Inv s' ∧ s'.index.CleanAt element.tid) s := by
  unfold repairConnections
  let L (s : St V) : Prop := J s ∧
    (entryPoint.map EntryPoint.tid = some element.tid → s.index.CleanAt element.tid)
  have hL : ∀ {s s'}, Insertion s s' → L s → L s' := fun hins hl =>
    ⟨hJ hins hl.1, fun he => hins.cleanAt (hd hl.1).1.waited (hd hl.1).2.live (hl.2 he)⟩
  let K (s : St V) : Prop := J s ∧ s.index.CleanAt element.tid
  have hK : ∀ {s s'}, Insertion s s' → K s → K s' := fun hins hk =>
    ⟨hJ hins hk.1, hins.cleanAt (hd hk.1).1.waited (hd hk.1).2.live hk.2⟩
  have hl : L s := by
    refine ⟨hj, fun he => ?_⟩
    obtain ⟨ep, hep', het⟩ := Option.map_eq_some_iff.mp he
    rw [← het]
    exact ((hd hj).1.entry ep (hep.trans hep')).2
  refine Valid.bind (Valid.mono (valid_repairElement hS rel m budget (J := L)
    (fun hr _ hl => hL (hS.insertion hr) hl) (fun hl hins _ => hL hins hl)
    (fun hl => ⟨(hd hl.1).1.waited, (hd hl.1).2⟩) hl hi
    fun ep h => hi.entry (hep.trans h)) ?_)
  rintro ep' s1 ⟨hl1, hi1, hclean1⟩
  have hk1 : K s1 := by
    refine ⟨hl1.1, ?_⟩
    by_cases he : entryPoint.map EntryPoint.tid = some element.tid
    · exact hl1.2 he
    · exact hclean1 he
  have hend : ∀ {s}, K s → Valid (hnswMachine V) 0 S (UnlockPage .HNSW_UPDATE_LOCK lockmode)
      (fun _ s' => J s' ∧ Inv s' ∧ s'.index.CleanAt element.tid) s := fun hk =>
    Valid.mono (hS.unlock _ _ (J := K) (fun hr _ hk => hK (hS.insertion hr) hk)
      (fun hk => hK (insertion_holders _ _) hk) hk) fun _ _ hk' => ⟨hk'.1.1, hk'.2, hk'.1.2⟩
  simp only
  split
  · refine Valid.bind (hS.write (fun _ _ _ e => by cases e) fun s2 hr2 hi2 _ => ?_)
    have hk2 := hK (hS.insertion hr2) hk1
    obtain ⟨g1, g2⟩ := insertion_metap hi2 (HnswUpdateMetaPageInfo s2.index.metap .greater
      (some element.asEntryPoint) none) rfl (by
        simp only [HnswUpdateMetaPageInfo, reduceCtorEq, if_false]
        split
        · refine Or.inr fun q hq => ?_
          cases hq
          exact ⟨hi2.target_of_live (hd hk2.1).2.live, fun _ => hk2.2⟩
        · exact Or.inl rfl)
    exact ⟨g2, g1.vacuumGuar (Versions.refl s2.index), hend (hK g1 hk2)⟩
  · exact hend hk1

/-- **One round of `RepairGraph`** leaves the element clean. -/
theorem valid_repairOne (hS : VacuumSpec late S) (rel : HnswRel V δ) (m : Nat)
    {deleted : List ItemPointer} {element : HnswElement V} (budget : Nat) {J : St V → Prop}
    (hJ : ∀ {s s'}, Insertion s s' → J s → J s')
    (hd : ∀ {s}, J s → EntryReady deleted s ∧ Present element s) {s : St V} (hj : J s) :
    Valid (hnswMachine V) 0 S (repairOne rel m deleted budget element)
      (fun _ s' => J s' ∧ Inv s' ∧ s'.index.CleanAt element.tid) s := by
  have hJr : ∀ {s s'}, S.rely s s' → S.inv s' → J s → J s' := fun hr _ hj => hJ (hS.insertion hr) hj
  have hJh : ∀ {s hs}, J s → J { s with holders := hs } := fun hj => hJ (insertion_holders _ _) hj
  unfold repairOne
  refine Valid.bind (Valid.mono (valid_needsUpdated hS (J := J) hJr
    (fun hj => ⟨(hd hj).1.dying, (hd hj).2⟩) hj) ?_)
  rintro needs s1 ⟨hj1, hi1, hclean1⟩
  cases needs with
  | false => exact ⟨hj1, hi1, hclean1 rfl⟩
  | true =>
      refine Valid.bind (Valid.mono (hS.lock _ _ _ hJr hJh hj1) ?_)
      rintro _ s2 ⟨hj2, _⟩
      refine Valid.bind (hS.getEntryPoint fun s3 hr3 hi3 _ => ?_)
      have hj3 := hJr hr3 (hS.inv.mpr hi3) hj2
      split
      · refine Valid.bind (Valid.mono (hS.unlock _ _ hJr hJh hj3) ?_)
        rintro _ s4 ⟨hj4, _⟩
        refine Valid.bind (Valid.mono (hS.lock _ _ _ hJr hJh hj4) ?_)
        rintro _ s5 ⟨hj5, _⟩
        refine Valid.bind (hS.getEntryPoint fun s6 hr6 hi6 _ => ?_)
        exact valid_repairConnections hS rel m _ budget hJ hd (hJr hr6 (hS.inv.mpr hi6) hj5) hi6 rfl
      · exact valid_repairConnections hS rel m _ budget hJ hd hj3 hi3 rfl

/-- **What `RepairGraph` has reached**: the live nodes it has seen are clean, but for those still to go. -/
structure Repaired (deleted : List ItemPointer) (Seen : ItemPointer → Prop) (rest : List ItemPointer)
    (s : St V) : Prop where
  ready : EntryReady deleted s
  clean : ∀ {u}, Seen u → u ∉ rest → s.index.LiveAt u → s.index.CleanAt u

theorem Repaired.insertion {deleted rest : List ItemPointer} {Seen : ItemPointer → Prop} {s s' : St V}
    (h : Repaired deleted Seen rest s) (hi : Insertion s s') : Repaired deleted Seen rest s' :=
  ⟨h.ready.insertion hi, fun hs hu hl => hi.clean h.ready.waited hl fun hl0 => h.clean hs hu hl0⟩

/-- The page loop. -/
theorem valid_repairGraphLoop (hS : VacuumSpec late S) (rel : HnswRel V δ) (m : Nat)
    {deleted : List ItemPointer} (budget : Nat) : ∀ (n b : Nat) {s : St V},
    Repaired deleted (fun u => u.blkno < b) [] s →
    Valid (hnswMachine V) 0 S (repairGraphLoop rel m deleted budget n (some b))
      (fun _ s' => Repaired deleted (fun _ => True) [] s') s
  | 0, _, _, _ => hS.cuts
  | n + 1, b, s, h => by
      unfold repairGraphLoop
      refine Valid.bind (hS.read (fun _ => rfl) (fun _ _ _ e => by cases e) fun s1 hr1 hi1 _ => ?_)
      have h1 := h.insertion (hS.insertion hr1)
      simp only [execPage]
      cases hres : Hnsw.liveElements s1.index b with
      | none => exact hS.error _
      | some r =>
          obtain ⟨⟨p, hp, hn⟩, hmem⟩ := liveElements_spec hi1.sound hres
          -- the elements of the page, for every region that adds this page at most
          have hpage : ∀ Seen : ItemPointer → Prop,
              (∀ u, Seen u → s1.index.LiveAt u → u.blkno < b ∨ u.blkno = b) →
              Valid (hnswMachine V) 0 S
                (r.elements.foldlM (fun _ element => repairOne rel m deleted budget element) ())
                (fun _ s' => Repaired deleted Seen [] s') s1 := by
            intro Seen hseen
            let I (l : List (HnswElement V)) (s : St V) : Prop :=
              Repaired deleted Seen (l.map HnswElement.tid) s ∧ ∀ e ∈ l, Present e s
            have hI : ∀ {l s s'}, Insertion s s' → I l s → I l s' := fun hins hI =>
              ⟨hI.1.insertion hins, fun e he => (hI.2 e he).insertion hins⟩
            refine Valid.mono (Valid.foldlM_rest (I := fun l _ s => I l s) r.elements ⟨⟨h1.ready,
              fun {u} hu hnot hl => ?_⟩, fun e he => ?_⟩ fun e l _ s hIs => ?_) fun _ _ hI => hI.1
            · rcases hseen u hu hl with hlt | heq
              · exact h1.clean hlt List.not_mem_nil hl
              · obtain ⟨x, hx, hxl⟩ := hl
                obtain ⟨ub, uo⟩ := u
                simp only at heq
                subst heq
                exact absurd (List.mem_map.mpr ⟨_, (hmem _).mpr ⟨uo, x, hx, hxl, rfl⟩, rfl⟩) hnot
            · obtain ⟨o, x, hx, hxl, rfl⟩ := (hmem e).mp he
              exact present_load hx hxl 0 false true
            · refine Valid.mono (valid_repairOne hS rel m budget (J := I (e :: l)) hI
                (fun hI => ⟨hI.1.ready, hI.2 e List.mem_cons_self⟩) hIs) ?_
              rintro _ s' ⟨hI', _, hclean⟩
              refine ⟨⟨hI'.1.ready, fun {u} hu hnot hl => ?_⟩, fun x hx => hI'.2 x
                (List.mem_cons_of_mem _ hx)⟩
              by_cases hue : u = e.tid
              · rw [hue]
                exact hclean
              · exact hI'.1.clean hu (by
                  rw [List.map_cons, List.mem_cons]
                  exact not_or.mpr ⟨hue, hnot⟩) hl
          refine Valid.bind ?_
          simp only [hn]
          rcases hi1.sound.next_cases hp with ⟨e, _⟩ | ⟨e, hlast⟩
          · rw [e]
            refine Valid.mono (hpage (fun u => u.blkno < b + 1) fun u hu _ => by omega) ?_
            exact fun _ s' h' => valid_repairGraphLoop hS rel m budget n (b + 1) h'
          · rw [e]
            refine Valid.mono (hpage (fun _ => True) fun u _ hl => ?_) ?_
            · obtain ⟨x, hx, _⟩ := hl
              have := hlast u x hx
              omega
            · intro _ s' h'
              cases n <;> exact h'

/-- **`RepairGraph`**: in the end every live node is clean. -/
theorem valid_repairGraph (hS : VacuumSpec late S) (rel : HnswRel V δ) (m : Nat) (vs : VacuumState)
    (budget : Nat) {entryPoint : Option EntryPoint} {s : St V}
    (h : Noted S entryPoint (fun _ => True) vs s) :
    Valid (hnswMachine V) 0 S (RepairGraph rel m vs budget)
      (fun _ s' => Repaired vs.deleted (fun _ => True) [] s') s := by
  unfold RepairGraph
  -- the wait for inserts: the exclusive lock goes through when none is under way
  refine Valid.bind (valid_lock fun s1 hr1 hi1 _ => ⟨hS.safe (noMark_safe fun _ _ _ e => by cases e),
    fun hw => ?_⟩)
  have h1 := h.rely hS hr1 (hS.inv.mp hi1)
  have hinv1 := h1.inv.holders (h1.inv.locks.cons hw)
  refine ⟨hS.inv.mpr hinv1, hS.guar (vacuumGuar_holders fun {a} hb => ?_), ?_⟩
  · simp only [List.mem_cons]
    refine ⟨fun hm => hm.resolve_left ?_, Or.inr⟩
    rintro rfl
    exact hb rfl
  have h1' : Noted S entryPoint (fun _ => True) vs
      { s1 with holders := ⟨0, .HNSW_UPDATE_LOCK, .ExclusiveLock⟩ :: s1.holders } :=
    ⟨h1.phase, hinv1, h1.dying, h1.highest, h1.entry⟩
  refine Valid.bind (valid_enter fun s2 hr2 hi2 _ => ?_)
  have h2 := h1'.rely hS hr2 (hS.inv.mp hi2)
  have hheld : (⟨0, .HNSW_UPDATE_LOCK, .ExclusiveLock⟩ : Holder) ∈ s2.holders :=
    ((hS.rely hr2).holders rfl).mpr List.mem_cons_self
  have hready : Ready S vs.deleted vs.highestPoint
      { s2 with phase := .repairGraphEntryPoint vs.deleted vs.highestPoint } := by
    refine ⟨rfl, fun u x hx hl => h2.dying hx trivial hl, fun hh => (h2.highest hh).2.1,
      fun hf {ep hp} hep hh he => (h2.highest hh).2.2 ?_⟩
    rw [← h2.entry hf]
    simp only at hep
    rw [hep, ← he]
    rfl
  refine ⟨hS.safe (noMark_safe fun _ _ _ e => by cases e),
    hS.inv.mpr (h2.inv.enter (by rw [h2.phase]; rfl) rfl),
    hS.guar (vacuumGuar_phase (fun _ => rfl) (fun he => ?_) (fun hm => ?_)
      (Or.inr (h2.inv.locks.alone hheld)) (Or.inl (by rw [h2.phase]; rfl))), ?_⟩
  · rw [h2.phase] at he
    cases he
  · rw [h2.phase] at hm
    cases hm
  refine Valid.bind (Valid.mono (hS.unlock _ _ (J := Ready S vs.deleted vs.highestPoint)
    (fun hr _ hj => hj.rely hS hr) (fun hj => ⟨hj.phase, hj.dying, hj.highest, hj.apart⟩) hready) ?_)
  rintro _ s3 ⟨h3, hi3⟩
  refine Valid.bind (Valid.mono (valid_repairGraphEntryPoint hS rel m vs.highestPoint budget h3 hi3) ?_)
  rintro _ s4 ⟨h4, _⟩
  refine valid_repairGraphLoop hS rel m budget budget HNSW_HEAD_BLKNO ⟨h4, fun {u} hu _ ⟨x, hx, _⟩ => ?_⟩
  exact absurd hu (Nat.not_lt.mpr (Index.node?_blkno hx).1)

/-! ## 6. `MarkDeleted` -/

/-- One page of `MarkDeleted` keeps the invariant. -/
theorem marked_step (late : Prop) {s : St V} (h : Inv s) (hm : s.phase = .markDeleted) {idx' : Index V} {zeroDatum : V}
    (hk : Marked zeroDatum s.index idx') :
    Inv { s with index := idx' } ∧ VacuumGuar late s { s with index := idx' } := by
  have hmark : s.phase.marking = true := by rw [hm]; rfl
  obtain ⟨hcl, hent⟩ := h.clean hmark
  have hlive : ∀ {u}, s.index.LiveAt u → idx'.LiveAt u := fun ⟨x, hx, hl⟩ =>
    ⟨x, hk.stays hx (Or.inl hl), hl⟩
  have hunlive : ∀ {u}, idx'.LiveAt u → s.index.LiveAt u := by
    rintro u ⟨x', hx', hl⟩
    rcases hk.back hx' with hx | ⟨x, hx, _, hxl, rfl⟩
    · exact ⟨x', hx, hl⟩
    · exact absurd hl (by
        rw [show (x.marked zeroDatum).elem.isLive = x.elem.isLive from rfl, hxl]
        exact Bool.false_ne_true)
  have hnames : ∀ {u x' v}, idx'.node? u = some x' → x'.Names v → s.index.node? u = some x' := by
    intro u x' v hx' hv
    rcases hk.back hx' with hx | ⟨x, _, _, _, rfl⟩
    · exact hx
    · exact absurd hv Node.not_names_marked
  have hclean : ∀ {u}, s.index.CleanAt u → idx'.CleanAt u := fun hc x' hx' v hv =>
    hlive (hc x' (hnames hx' hv) v hv)
  constructor
  · refine ⟨hk.sound, fun {t x' v} hx' hv => ?_, fun {ep} hep => ?_, fun {t x'} hx' hl => ?_, h.locks,
      fun hm' => ?_, fun _ => ⟨fun t ht => hclean (hcl t (hunlive ht)), fun ep hep => ?_⟩, fun hp => ?_⟩
    · obtain ⟨y, hy⟩ := h.named (hnames hx' hv) hv
      obtain ⟨y', hy', _⟩ := hk.kept hy
      exact ⟨y', hy'⟩
    · rw [show idx'.metap = s.index.metap from hk.same.metap] at hep
      obtain ⟨y, hy⟩ := h.entry hep
      obtain ⟨y', hy', _⟩ := hk.kept hy
      exact ⟨y', hy'⟩
    · rcases hk.back hx' with hx | ⟨x, _, _, hxl, rfl⟩
      · exact h.alive hx hl
      · rw [show (x.marked zeroDatum).elem.isLive = x.elem.isLive from rfl, hxl] at hl
        cases hl
    · rw [hmark] at hm'
      cases hm'
    · rw [show idx'.metap = s.index.metap from hk.same.metap] at hep
      exact hlive (hent ep hep)
    · rw [show s.phase = .finished from hp] at hm
      cases hm
  · refine ⟨fun hx => ?_, fun {u x} hx => ?_, fun _ => Iff.rfl, id, id, id, Or.inl rfl, Or.inl rfl,
      fun _ _ => hlive, fun _ _ _ => hclean, fun hm' => ?_⟩
    · obtain ⟨x', hx', rfl | ⟨_, _, rfl⟩⟩ := hk.kept hx
      · exact ⟨x', hx', rfl⟩
      · exact ⟨_, hx', rfl⟩
    · obtain ⟨x', hx', rfl | ⟨hd, _, rfl⟩⟩ := hk.kept hx
      · exact ⟨x', hx', Or.inl ⟨rfl, rfl, fun _ => rfl⟩⟩
      · exact ⟨_, hx', Or.inr ⟨hd, rfl, nextVersion_ne _⟩⟩
    · rw [show s.phase.marking = false from hm'] at hmark
      cases hmark

theorem Settled.insertion {s s' : St V} {u : ItemPointer} (h : Settled s.index u) (hi : Insertion s s') :
    Settled s'.index u := by
  intro x' hx'
  by_contra hne
  rw [not_or] at hne
  obtain ⟨x, hx, hl, hd⟩ := hi.dying hx' (by simpa using hne.1)
  rcases h x hx with h' | h'
  · rw [hl] at h'
    cases h'
  · exact hne.2 (by rw [hd]; exact h')

/-- In a phase of `MarkDeleted` nothing dying is named by a live node. -/
theorem Inv.markSafe {s : St V} (h : Inv s) (hm : s.phase.marking = true) (o : Op V) : MarkSafe s o := by
  obtain ⟨h1, h2⟩ := h.clean hm
  intro _ _ _ d x _ hx _ _ hl
  have hdead : ¬ s.index.LiveAt d := by
    rintro ⟨y, hy, hyl⟩
    rw [hx] at hy
    cases hy
    rw [hl] at hyl
    cases hyl
  refine ⟨fun t y hy hyl hn => hdead (h1 t ⟨y, hy, hyl⟩ y hy d hn), fun ep hep he => ?_⟩
  exact hdead (he ▸ h2 ep hep)

/-- What the page loop of `MarkDeleted` has reached. -/
structure Marking (Seen : ItemPointer → Prop) (s : St V) : Prop where
  phase : s.phase = .markDeleted
  settled : ∀ {u}, Seen u → Settled s.index u

theorem Marking.insertion {Seen : ItemPointer → Prop} {s s' : St V} (h : Marking Seen s)
    (hi : Insertion s s') : Marking Seen s' :=
  ⟨hi.phase.trans h.phase, fun hu => (h.settled hu).insertion hi⟩

omit [LinearOrder δ] in
/-- The page loop. -/
theorem valid_markDeletedLoop (hS : VacuumSpec late S) (zeroDatum : V) :
    ∀ (n b : Nat) (ip : Option Nat) {s : St V}, Marking (fun u => u.blkno < b) s →
    Valid (hnswMachine V) 0 S (markDeletedLoop zeroDatum n (some b) ip)
      (fun _ s' => Marking (fun _ => True) s' ∧ Inv s') s
  | 0, _, _, _, _ => hS.cuts
  | n + 1, b, ip, s, h => by
      unfold markDeletedLoop
      refine Valid.bind (valid_section fun s1 hr1 hi1 _ => ?_)
      have h1 := h.insertion (hS.insertion hr1)
      have hinv1 := hS.inv.mp hi1
      obtain ⟨_, hk, hset, hpage, hresp⟩ := markDeleted_spec hinv1.sound zeroDatum b ip
      obtain ⟨g1, g2⟩ := marked_step late hinv1 h1.phase hk
      refine ⟨hS.safe (hinv1.markSafe (by rw [h1.phase]; rfl) _), hS.inv.mpr g1, hS.guar g2,
        fun _ _ => hS.commit _, ?_⟩
      have h2 : Marking (fun u => u.blkno < b + 1) { s1 with
          index := (execPage (.markDeleted zeroDatum b ip) s1.index).final s1.index } := by
        refine ⟨h1.phase, fun {u} hu => ?_⟩
        rcases Nat.lt_succ_iff_lt_or_eq.mp hu with hlt | heq
        · exact hset u (h1.settled hlt)
        · exact hpage u heq
      simp only [execPage] at g1 h2 ⊢
      rcases hresp with ⟨hresp, _⟩ | ⟨r, p, hresp, hp, hn⟩
      · rw [hresp]
        exact hS.error _
      · rw [hresp]
        simp only [hn]
        rcases hinv1.sound.next_cases hp with ⟨e, _⟩ | ⟨e, hlast⟩
        · rw [e]
          exact valid_markDeletedLoop hS zeroDatum n (b + 1) r.insertPage h2
        · rw [e]
          have h3 : Marking (fun _ => True) { s1 with
              index := (Hnsw.markDeleted zeroDatum s1.index b ip).final s1.index } := by
            refine ⟨h1.phase, fun {u} _ x hx => ?_⟩
            obtain ⟨y, hy⟩ : ∃ y, s1.index.node? u = some y := by
              rcases hk.back hx with hy | ⟨y, hy, _⟩
              · exact ⟨_, hy⟩
              · exact ⟨y, hy⟩
            exact h2.settled (Nat.lt_succ_of_le (hlast u y hy)) x hx
          cases n <;> exact ⟨h3, g1⟩

omit [LinearOrder δ] in
/-- **`MarkDeleted`**, once every live node is clean. -/
theorem valid_markDeleted (hS : VacuumSpec late S) (zeroDatum : V) (budget : Nat)
    {deleted : List ItemPointer} {s : St V} (h : Repaired deleted (fun _ => True) [] s) :
    Valid (hnswMachine V) 0 S (MarkDeleted zeroDatum budget)
      (fun _ s' => Marking (fun _ => True) s' ∧ Inv s') s := by
  unfold MarkDeleted
  refine Valid.bind (Valid.mono (hS.lock _ _ _ (J := Repaired deleted (fun _ => True) [])
    (fun hr _ hj => hj.insertion (hS.insertion hr)) (fun hj => hj.insertion (insertion_holders _ _)) h) ?_)
  rintro _ s1 ⟨h1, _, hheld⟩
  refine Valid.bind (valid_enter fun s2 hr2 hi2 ha2 => ?_)
  have h2 := h1.insertion (hS.insertion hr2)
  have hinv2 := hS.inv.mp hi2
  have hheld2 := ((hS.rely hr2).holders rfl).mpr hheld
  have hinv : Inv { s2 with phase := .markDeleted } := by
    refine ⟨hinv2.sound, hinv2.named, hinv2.entry, hinv2.alive, hinv2.locks, fun hm => (by cases hm),
      fun _ => ⟨fun t ht => h2.clean trivial List.not_mem_nil ht, fun ep hep => ?_⟩,
      fun hp => (by cases hp)⟩
    exact (h2.ready.entry ep hep).1
  refine ⟨hS.safe (noMark_safe fun _ _ _ e => by cases e), hS.inv.mpr hinv,
    hS.guar (vacuumGuar_phase (fun _ => rfl) (fun _ => rfl) (fun _ => rfl) (Or.inl ?_)
      (Or.inr ⟨hinv2.locks.alone hheld2, fun hl => hS.late hl ha2⟩)), ?_⟩
  · rw [h2.ready.phase]
    rfl
  refine Valid.bind (Valid.mono (hS.unlock _ _ (J := Marking fun u => u.blkno < HNSW_HEAD_BLKNO)
    (fun hr _ hj => hj.insertion (hS.insertion hr)) (fun hj => hj.insertion (insertion_holders _ _))
    ⟨rfl, fun {u} hu x hx => absurd hu (Nat.not_lt.mpr (Index.node?_blkno hx).1)⟩) ?_)
  rintro _ s3 ⟨h3, _⟩
  refine Valid.bind (Valid.mono (valid_markDeletedLoop hS zeroDatum budget HNSW_HEAD_BLKNO none h3) ?_)
  rintro ip s4 ⟨h4, _⟩
  refine hS.write (fun _ _ _ e => by cases e) fun s5 hr5 hi5 _ => ?_
  have h5 := h4.insertion (hS.insertion hr5)
  obtain ⟨g1, g2⟩ := insertion_metap hi5 (HnswUpdateMetaPageInfo s5.index.metap .no none ip) rfl
    (Or.inl rfl)
  exact ⟨g2, g1.vacuumGuar (Versions.refl s5.index), h5.insertion g1, g2⟩

/-! ## 7. `hnswbulkdelete` -/

/-- **`hnswbulkdelete` among other backends.** -/
theorem valid_hnswbulkdelete (hS : VacuumSpec late S) (rel : HnswRel V δ)
    (stats : Option IndexBulkDeleteResult) (callback : ItemPointer → Bool) (budget : Nat) {s : St V}
    (hp : s.phase = .idle) :
    Valid (hnswMachine V) 0 S (hnswbulkdelete rel stats callback budget)
      (fun _ s' => s'.phase = .finished ∧ Inv s') s := by
  unfold hnswbulkdelete
  refine Valid.bind (hS.read (fun _ => rfl) (fun _ _ _ e => by cases e) fun s1 hr1 hi1 _ => ?_)
  have hp1 := (hS.insertion hr1).phase.trans hp
  refine Valid.bind (valid_enter fun s2 hr2 hi2 _ => ?_)
  have hp2 := (hS.insertion hr2).phase.trans hp1
  refine ⟨hS.safe (noMark_safe fun _ _ _ e => by cases e),
    hS.inv.mpr ((hS.inv.mp hi2).enter (by rw [hp2]; rfl) rfl),
    hS.guar (vacuumGuar_phase (fun hw => ?_) (fun he => ?_) (fun hm => ?_) (Or.inl (by rw [hp2]; rfl))
      (Or.inl (by rw [hp2]; rfl))), ?_⟩
  · rw [hp2] at hw
    cases hw
  · rw [hp2] at he
    cases he
  · rw [hp2] at hm
    cases hm
  refine Valid.bind (Valid.mono (valid_removeHeapTids hS _ callback budget rfl) ?_)
  rintro vs s3 ⟨ep, h3⟩
  refine Valid.bind (Valid.mono (valid_repairGraph hS rel _ vs budget h3) ?_)
  intro _ s4 h4
  refine Valid.bind (Valid.mono (valid_markDeleted hS _ budget h4) ?_)
  rintro _ s5 ⟨h5, _⟩
  refine Valid.bind (valid_enter fun s6 hr6 hi6 _ => ?_)
  have h6 := h5.insertion (hS.insertion hr6)
  have hinv6 := hS.inv.mp hi6
  have hmark : s6.phase.marking = true := by rw [h6.phase]; rfl
  have hinv : Inv { s6 with phase := .finished } :=
    ⟨hinv6.sound, hinv6.named, hinv6.entry, hinv6.alive, hinv6.locks, fun hm => (by cases hm),
      fun _ => hinv6.clean hmark, fun _ t => h6.settled trivial⟩
  refine ⟨hS.safe (noMark_safe fun _ _ _ e => by cases e), hS.inv.mpr hinv,
    hS.guar (vacuumGuar_phase (fun _ => rfl) (fun _ => rfl) (fun _ => rfl) (Or.inl ?_) (Or.inl ?_)),
    rfl, hinv⟩
  · rw [h6.phase]
    rfl
  · rw [h6.phase]
    rfl

end Repair

end Vacuum

end Pgvec.Hnsw
