/-
  File:      Pgvec/Hnsw/Interleaved.lean
  Subject:   ONE VACUUM AND ANY NUMBER OF INSERTS, INTERLEAVED: what `MarkDeleted` marks and what inserts
             load.

  * `Index.NoDeletedLink` -- the index the runs start from; `Index.checkLinks` decides it for a given one;
  * `vacuumSpec` -- the specification of backend 0; with `insertSpec` for the others it gives
    `good_backends`, the invariant of every interleaving;
  * **`mark_unlinked`** -- no page of `MarkDeleted` marks an element that a live element or the entry point
    names, in every run in which `RepairGraphEntryPoint` never leaves out a highest point that needs
    repair; `mark_linked` -- a run in which it does;
  * **`insert_loads_undeleted`** -- an insert that starts after `RepairGraphEntryPoint` loads no deleted
    element, in every run in which no insert is under way when `MarkDeleted` starts;
    `insert_loads_deleted` -- a run in which one is.
-/
import Pgvec.Hnsw.ScanComplete
import Pgvec.Hnsw.VacuumSteps

namespace Pgvec.Hnsw

open Conc

variable {V δ : Type}

/-! ## 1. The start -/

/-- **No valid slot and no entry point refers to a deleted element**; an element with heap TIDs is not
    deleted. -/
structure Index.NoDeletedLink (idx : Index V) : Prop where
  sound : idx.Sound
  slots : ∀ {t x v}, idx.node? t = some x → x.Names v → idx.Undeleted v
  entry : ∀ {ep}, idx.metap.entry = some ep → idx.Undeleted ep.tid
  alive : ∀ {t x}, idx.node? t = some x → x.elem.isLive = true → x.elem.deleted = false

theorem Index.NoDeletedLink.inv {idx : Index V} (h : idx.NoDeletedLink) : Inv (⟨idx, [], .idle⟩ : St V) where
  sound := h.sound
  named hx hv := by
    obtain ⟨y, hy, _⟩ := h.slots hx hv
    exact ⟨y, hy⟩
  entry hep := by
    obtain ⟨y, hy, _⟩ := h.entry hep
    exact ⟨y, hy⟩
  alive := h.alive
  locks a ha := absurd ha List.not_mem_nil
  undeleted _ := ⟨fun _ _ _ hx hv => h.slots hx hv, fun _ hep => h.entry hep⟩
  clean hm := by cases hm
  finished hp := by cases hp

namespace Index

/-- The node at a TID is there and not marked. -/
def undeleted? (idx : Index V) (t : ItemPointer) : Bool := (idx.node? t).any fun x => !x.elem.deleted

/-- Element and neighbor tuples are paired. -/
def checkPaired (idx : Index V) : Bool :=
  idx.tids.all fun t => (idx.elem? t).all fun e =>
    (idx.neighSlot? e.neighbortid).isSome && idx.tids.all fun u => (idx.elem? u).all fun f =>
      e.neighbortid != f.neighbortid || t == u

/-- The pages are a chain. -/
def checkChained (idx : Index V) : Bool :=
  decide (1 ≤ idx.pages.length) && (List.range' 1 idx.pages.length).all fun b =>
    (idx.page? b).all fun p =>
      decide (p.nextblkno = if b < idx.pages.length then some (b + 1) else none) &&
        decide (p.page.pd_special = itemAreaEnd)

/-- `NoDeletedLink`, computed. -/
def checkLinks (idx : Index V) : Bool :=
  idx.checkPaired && idx.checkChained &&
    (idx.tids.all fun t => (idx.node? t).all fun x =>
      (!x.elem.isLive || !x.elem.deleted) &&
        x.neigh.indextids.all fun v => !v.isValid || idx.undeleted? v) &&
    idx.metap.entry.all fun ep => idx.undeleted? ep.tid

variable {idx : Index V}

theorem undeleted?_spec {t : ItemPointer} (h : idx.undeleted? t = true) : idx.Undeleted t := by
  obtain ⟨x, hx, hd⟩ := (Option.any_eq_true _ _).mp h
  exact ⟨x, hx, by simpa using hd⟩

theorem checkPaired_spec (h : idx.checkPaired = true) : idx.Paired := by
  have key : ∀ {t e}, idx.elem? t = some e → (∃ n, idx.neighSlot? e.neighbortid = some n) ∧
      ∀ {u f}, idx.elem? u = some f → e.neighbortid = f.neighbortid → t = u := by
    intro t e he
    have h1 := (Option.all_eq_true _ _).mp (List.all_eq_true.mp h t (elem?_mem_tids he)) e he
    rw [Bool.and_eq_true] at h1
    refine ⟨Option.isSome_iff_exists.mp h1.1, fun {u f} hf hn => ?_⟩
    have h2 := (Option.all_eq_true _ _).mp (List.all_eq_true.mp h1.2 u (elem?_mem_tids hf)) f hf
    simpa [hn] using h2
  exact ⟨fun he => (key he).1, fun he hf => (key he).2 hf⟩

theorem checkChained_spec (h : idx.checkChained = true) : idx.Chained := by
  unfold checkChained at h
  rw [Bool.and_eq_true] at h
  have key : ∀ {b p}, idx.page? b = some p →
      p.nextblkno = (if b < idx.pages.length then some (b + 1) else none) ∧
        p.page.pd_special = itemAreaEnd := by
    intro b p hp
    have hb := page?_pos hp
    have hm : b ∈ List.range' 1 idx.pages.length := List.mem_range'_1.mpr ⟨hb.1, by omega⟩
    have h1 := (Option.all_eq_true _ _).mp (List.all_eq_true.mp h.2 b hm) p hp
    rw [Bool.and_eq_true, decide_eq_true_iff, decide_eq_true_iff] at h1
    exact h1
  exact ⟨of_decide_eq_true h.1, fun hp => (key hp).1, fun hp => (key hp).2⟩

theorem checkLinks_spec (h : idx.checkLinks = true) : idx.NoDeletedLink := by
  unfold checkLinks at h
  simp only [Bool.and_eq_true] at h
  obtain ⟨⟨⟨h1, h2⟩, h3⟩, h4⟩ := h
  have key : ∀ {t x}, idx.node? t = some x → (x.elem.isLive = true → x.elem.deleted = false) ∧
      ∀ v ∈ x.neigh.indextids, v.isValid = true → idx.Undeleted v := by
    intro t x hx
    have hk := (Option.all_eq_true _ _).mp
      (List.all_eq_true.mp h3 t (elem?_mem_tids (node?_elem hx))) x hx
    rw [Bool.and_eq_true] at hk
    refine ⟨fun hl => by simpa [hl] using hk.1, fun v hv hvv => undeleted?_spec ?_⟩
    simpa [hvv] using List.all_eq_true.mp hk.2 v hv
  refine ⟨⟨checkPaired_spec h1, checkChained_spec h2⟩, fun hx hv => (key hx).2 _ hv.1 hv.2,
    fun {ep} hep => ?_, fun hx => (key hx).1⟩
  exact undeleted?_spec ((Option.all_eq_true _ _).mp h4 ep hep)

end Index

/-! ## 2. The backends -/

/-- One call of `hnswinsert`, with what it draws from outside. -/
structure InsertCall (V δ : Type) where
  rel : HnswRel V δ
  value : Option V
  heaptid : ItemPointer
  rnd : Nat
  budget : Nat

/-- One call of `hnswbulkdelete`. -/
structure VacuumCall (V δ : Type) where
  rel : HnswRel V δ
  stats : Option IndexBulkDeleteResult
  callback : ItemPointer → Bool
  budget : Nat

section Backends

variable [LinearOrder δ] [DecidableEq V]

def InsertCall.prog (c : InsertCall V δ) : HnswProg V Unit :=
  hnswinsert c.rel c.value c.heaptid c.rnd c.budget

def VacuumCall.prog (c : VacuumCall V δ) : HnswProg V Unit :=
  discard (hnswbulkdelete c.rel c.stats c.callback c.budget)

/-- **The vacuum is backend 0, the inserts are the others.** -/
def startConfig (idx : Index V) (vacuum : VacuumCall V δ) (inserts : List (InsertCall V δ)) :
    Config (Op V) Op.Resp (St V) :=
  ⟨⟨idx, [], .idle⟩, vacuum.prog :: inserts.map InsertCall.prog⟩

end Backends

/-- **The specification of the vacuum.** With `late` no insert is under way when `MarkDeleted` starts. With
    `fixed` the entry point is left to the vacuum until it has dealt with it; without, `EntryCond` holds
    where it reads the entry point. -/
def vacuumSpec (late fixed : Prop) : Spec (Op V) (St V) where
  inv := Inv
  rely s s' := VacuumRely s s' ∧
    (fixed → s.phase.entryDone = false → s'.index.metap.entry = s.index.metap.entry)
  guar := VacuumGuar late
  allow s o :=
    (late → o = .enter .markDeleted → ∀ h ∈ s.holders, h.lock = .HNSW_UPDATE_LOCK → h.backend = 0) ∧
      (¬ fixed → o = .page .getMetaPageInfo → EntryCond s)
  safe := MarkSafe
  commit _ := True
  errors := True
  cuts := True

theorem vacuumSpec_refl {late fixed : Prop} (s : St V) : (vacuumSpec late fixed).rely s s :=
  ⟨.refl s, fun _ _ => rfl⟩

theorem vacuumSpec_trans {late fixed : Prop} {a b c : St V} (h : (vacuumSpec late fixed).rely a b)
    (h' : (vacuumSpec late fixed).rely b c) : (vacuumSpec late fixed).rely a c :=
  ⟨h.1.trans h'.1, fun hl he =>
    (h'.2 hl (by rw [h.1.insertion.phase]; exact he)).trans (h.2 hl he)⟩

theorem vacuumSpec_ok (late fixed : Prop) : VacuumSpec late (vacuumSpec (V := V) late fixed) where
  inv := Iff.rfl
  refl := vacuumSpec_refl
  trans := vacuumSpec_trans
  rely h := h.1
  guar h := h
  safe h := h
  commit _ := trivial
  errors := trivial
  cuts := trivial
  late hl _ ha := ha.1 hl rfl
  entry := by
    by_cases hl : fixed
    · exact Or.inl fun h he => h.2 hl he
    · exact Or.inr fun ha => ha.2 hl rfl

/-- The specification of backend `t`. -/
def backendSpec (late : Prop) (t : Nat) : Spec (Op V) (St V) :=
  if t = 0 then vacuumSpec late late else insertSpec late t

theorem backendSpec_succ (late : Prop) (t : Nat) :
    backendSpec (V := V) late (t + 1) = insertSpec late (t + 1) := if_neg (Nat.succ_ne_zero t)

theorem backendSpec_inv (late : Prop) (t : Nat) (s : St V) : (backendSpec late t).inv s ↔ Inv s := by
  cases t with
  | zero => exact Iff.rfl
  | succ t => rw [backendSpec_succ]; exact Iff.rfl

theorem backendSpec_refl (late : Prop) (t : Nat) (s : St V) : (backendSpec late t).rely s s := by
  cases t with
  | zero => exact vacuumSpec_refl s
  | succ t => rw [backendSpec_succ]; exact .refl s

theorem backendSpec_trans (late : Prop) (t : Nat) (a b c : St V) (h : (backendSpec late t).rely a b)
    (h' : (backendSpec late t).rely b c) : (backendSpec late t).rely a c := by
  cases t with
  | zero => exact vacuumSpec_trans h h'
  | succ t =>
      rw [backendSpec_succ] at h h' ⊢
      exact InsertRely.trans h h'

/-- **The guarantee of a backend is what the others rely on.** -/
theorem backendSpec_meets (late : Prop) (t u : Nat) (htu : t ≠ u) (a b : St V)
    (h : (backendSpec late t).guar a b) : (backendSpec late u).rely a b := by
  cases t with
  | zero =>
      cases u with
      | zero => exact absurd rfl htu
      | succ u =>
          rw [backendSpec_succ]
          exact VacuumGuar.insertRely (Nat.succ_ne_zero u) h
  | succ t =>
      rw [backendSpec_succ] at h
      cases u with
      | zero => exact ⟨h.vacuumRely (Nat.succ_ne_zero t), h.early⟩
      | succ u =>
          rw [backendSpec_succ]
          exact h.rely htu

section Runs

variable [LinearOrder δ] [DecidableEq V] {late : Prop} {idx : Index V} {vacuum : VacuumCall V δ}
  {inserts : List (InsertCall V δ)}

/-- The start is good. -/
theorem good_start (hidx : idx.NoDeletedLink) (hval : ∀ c ∈ inserts, c.heaptid.isValid = true) :
    Good (hnswMachine V) (backendSpec late) (startConfig idx vacuum inserts) where
  inv t := (backendSpec_inv late t _).mpr hidx.inv
  valid t p hp := by
    cases t with
    | zero =>
        cases hp
        exact Valid.bind (Valid.mono (valid_hnswbulkdelete (vacuumSpec_ok late late) vacuum.rel vacuum.stats
          vacuum.callback vacuum.budget rfl) fun _ _ _ => trivial)
    | succ t =>
        rw [backendSpec_succ]
        obtain ⟨c, hc, rfl⟩ := List.mem_map.mp (List.mem_of_getElem? hp)
        exact valid_hnswinsert c.rel c.value (hval c hc) c.rnd c.budget _

/-- **Every interleaving** whose steps are allowed keeps the backends good. -/
theorem good_backends {cond : St V → Nat → Op V → Prop} {c : Config (Op V) Op.Resp (St V)}
    (hcond : ∀ s t o, cond s t o → (backendSpec late t).allow s o) (hidx : idx.NoDeletedLink)
    (hval : ∀ c ∈ inserts, c.heaptid.isValid = true)
    (h : Run (hnswMachine V) cond (startConfig idx vacuum inserts) c) :
    Good (hnswMachine V) (backendSpec late) c :=
  valid_run (backendSpec_inv late) (backendSpec_refl late) (backendSpec_trans late)
    (backendSpec_meets late) hcond (good_start hidx hval) h

/-! ## 3. What `MarkDeleted` marks -/

/-- **`MarkDeleted` marks no element that a live element or the entry point names**, in every interleaving
    in which the highest point is clean whenever `RepairGraphEntryPoint` finds it to be the entry point. -/
theorem mark_unlinked (hidx : idx.NoDeletedLink) (hval : ∀ c ∈ inserts, c.heaptid.isValid = true)
    {c : Config (Op V) Op.Resp (St V)} (h : Run (hnswMachine V)
      (fun s t o => t = 0 → o = .page .getMetaPageInfo → EntryCond s)
      (startConfig idx vacuum inserts) c) {o : Op V} (hn : c.next 0 = some o) : MarkSafe c.shared o := by
  have hgood : Good (hnswMachine V) (backendSpec False) c := by
    refine good_backends (fun s t o hc => ?_) hidx hval h
    cases t with
    | zero => exact ⟨fun hl => hl.elim, fun _ => hc rfl⟩
    | succ t =>
        rw [backendSpec_succ]
        exact fun hl => hl.elim
  intro zeroDatum b ip d x ho
  subst ho
  refine hgood.safe (backendSpec_refl False) hn ⟨fun hl => hl.elim, fun _ e => ?_⟩ zeroDatum b ip d x rfl
  cases e

end Runs

/-- The vacuum of the index with two elements that deletes the second one. -/
def pairVacuum : VacuumCall Nat Nat := ⟨numberRel, none, fun t => decide (t = ⟨7, 3⟩), 20⟩

/-- An insert between the two elements, on a new top layer. -/
def pairInsert : InsertCall Nat Nat := ⟨numberRel, some 15, ⟨7, 9⟩, 1, 20⟩

theorem pairIndex_noDeletedLink : pairIndex.NoDeletedLink := Index.checkLinks_spec (by decide +kernel)

/-- The node at a TID names live nodes only. -/
def Index.clean? (idx : Index V) (t : ItemPointer) : Bool :=
  (idx.node? t).all fun x => x.neigh.indextids.all fun v =>
    !v.isValid || (idx.node? v).any fun y => y.elem.isLive

theorem Index.clean?_spec {idx : Index V} {t : ItemPointer} (h : idx.clean? t = true) : idx.CleanAt t := by
  intro x hx v hv
  have hall := List.all_eq_true.mp ((Option.all_eq_true _ _).mp h x hx) v hv.1
  rw [hv.2, Bool.not_true, Bool.false_or] at hall
  obtain ⟨y, hy, hl⟩ := (Option.any_eq_true _ _).mp hall
  exact ⟨y, hy, hl⟩

/-- `EntryCond`, computed. -/
def entryCond? (s : St V) : Bool :=
  match s.phase, s.index.metap.entry with
  | .repairGraphEntryPoint _ (some h), some ep => ep.tid != h.tid || s.index.clean? h.tid
  | _, _ => true

theorem entryCond?_spec {s : St V} (h : entryCond? s = true) : EntryCond s := by
  intro deleted hp ep hph _ hep he
  unfold entryCond? at h
  rw [hph, hep] at h
  simp only [he, bne_self_eq_false, Bool.false_or] at h
  exact Index.clean?_spec h

/-- The vacuum is about to read the entry point, under its share lock, and that is the highest point. -/
def entryIsHighest (c : Config (Op V) Op.Resp (St V)) : Bool :=
  match c.shared.phase, c.shared.index.metap.entry, c.next 0 with
  | .repairGraphEntryPoint _ (some h), some ep, some (.page .getMetaPageInfo) =>
      ep.tid == h.tid && c.shared.holders.contains ⟨0, .HNSW_UPDATE_LOCK, .ShareLock⟩
  | _, _, _ => false

/-- The vacuum is about to mark elements of page `1`. -/
def aboutToMark (c : Config (Op V) Op.Resp (St V)) : Bool :=
  match c.next 0 with
  | some (.page (.markDeleted _ b _)) => decide (b = 1)
  | _ => false

theorem aboutToMark_spec {c : Config (Op V) Op.Resp (St V)} (h : aboutToMark c = true) :
    ∃ zeroDatum ip, c.next 0 = some (.page (.markDeleted zeroDatum 1 ip)) := by
  unfold aboutToMark at h
  split at h
  · rename_i z b ip hn
    obtain rfl := of_decide_eq_true h
    exact ⟨z, ip, hn⟩
  · cases h

/-- The same two elements, with an empty second page to insert to. -/
def pairIndexTwoPages : Index Nat :=
  ⟨⟨2, some ⟨1, 1, 0⟩, some 2⟩,
    [{ pairPage with nextblkno := some 2 },
      { page := { items := [], pd_special := 8184, fits := by decide }, nextblkno := none }]⟩

/-- An insert between two pages of `RemoveHeapTids`: it does not find the element that has lost its heap TID,
    and makes its own element, on the second page, the entry point and so the highest point; it gives its
    lock back after the vacuum has seen that page. Then the vacuum goes on up to its pages of `MarkDeleted`. -/
theorem mark_unlinked_pair : ∃ c0 c : Config (Op Nat) Op.Resp (St Nat),
    Run (hnswMachine Nat) (fun s t o => t = 0 → o = .page .getMetaPageInfo → EntryCond s)
      (startConfig pairIndexTwoPages pairVacuum [pairInsert]) c0 ∧ entryIsHighest c0 = true ∧
    Run (hnswMachine Nat) (fun s t o => t = 0 → o = .page .getMetaPageInfo → EntryCond s) c0 c ∧
    ∃ o zeroDatum ip, c.next 0 = some o ∧ o = .page (.markDeleted zeroDatum 1 ip) ∧ MarkSafe c.shared o := by
  have hidx : pairIndexTwoPages.NoDeletedLink := Index.checkLinks_spec (by decide +kernel)
  obtain ⟨c0, hrun0, hc0⟩ := run_of_check (M := hnswMachine Nat)
    (c := startConfig pairIndexTwoPages pairVacuum [pairInsert])
    (fun s t o => t = 0 → o = .page .getMetaPageInfo → EntryCond s) (fun s _ _ => entryCond? s)
    (List.replicate 4 0 ++ List.replicate 14 1 ++ [0, 1] ++ List.replicate 6 0)
    (fun c0 => entryIsHighest c0 &&
      (schedule (hnswMachine Nat) (fun s _ _ => entryCond? s) (List.replicate 31 0) c0).any aboutToMark)
    (fun _ _ _ hs _ _ => entryCond?_spec hs) (by decide +kernel)
  rw [Bool.and_eq_true] at hc0
  obtain ⟨c, hrun, hc⟩ := run_of_check
    (fun s t o => t = 0 → o = .page .getMetaPageInfo → EntryCond s) _ _ aboutToMark
    (fun _ _ _ hs _ _ => entryCond?_spec hs) hc0.2
  obtain ⟨z, ip, hn⟩ := aboutToMark_spec hc
  exact ⟨c0, c, hrun0, hc0.1, hrun, _, z, ip, hn, rfl, mark_unlinked hidx
    (fun i hi => by rw [List.mem_singleton.mp hi]; rfl) (hrun0.trans hrun) hn⟩

/-- The live node at `t` names the node at `u`, which is neither live nor deleted. -/
def namesDying (idx : Index V) (t u : ItemPointer) : Bool :=
  match idx.node? t, idx.node? u with
  | some y, some x => !x.elem.deleted && !x.elem.isLive && y.elem.isLive && decide (u ∈ y.neigh.indextids)
  | _, _ => false

theorem namesDying_spec {idx : Index V} {t u : ItemPointer} (h : namesDying idx t u = true) :
    ∃ x y, idx.node? u = some x ∧ idx.node? t = some y ∧ x.elem.deleted = false ∧
      x.elem.isLive = false ∧ y.elem.isLive = true ∧ u ∈ y.neigh.indextids := by
  unfold namesDying at h
  split at h
  · rename_i y x hy hx
    simp only [Bool.and_eq_true, Bool.not_eq_true', decide_eq_true_eq] at h
    obtain ⟨⟨⟨hd, hl⟩, hyl⟩, hm⟩ := h
    exact ⟨x, y, hx, hy, hd, hl, hyl, hm⟩
  · cases h

/-- **A run that marks an element a live element names**: the insert makes its element the entry point after
    `RemoveHeapTids` has read the old one, so the element is the highest point as well, and
    `RepairGraphElement` leaves it out each time. -/
theorem mark_linked : pairIndex.NoDeletedLink ∧ pairInsert.heaptid.isValid = true ∧
    ∃ c : Config (Op Nat) Op.Resp (St Nat), Run (hnswMachine Nat) (fun _ _ _ => True)
      (startConfig pairIndex pairVacuum [pairInsert]) c ∧
    ∃ o zeroDatum ip, c.next 0 = some o ∧ o = .page (.markDeleted zeroDatum 1 ip) ∧
      ¬ MarkSafe c.shared o := by
  refine ⟨pairIndex_noDeletedLink, rfl, ?_⟩
  obtain ⟨c, hrun, hc⟩ := run_of_check (M := hnswMachine Nat)
    (c := startConfig pairIndex pairVacuum [pairInsert]) (fun _ _ _ => True) (fun _ _ _ => true)
    ([0, 0, 0] ++ List.replicate 17 1 ++ List.replicate 37 0)
    (fun c => aboutToMark c && namesDying c.shared.index ⟨1, 5⟩ ⟨1, 3⟩)
    (fun _ _ _ _ => trivial) (by decide +kernel)
  rw [Bool.and_eq_true] at hc
  obtain ⟨z, ip, hn⟩ := aboutToMark_spec hc.1
  obtain ⟨x, y, hx, hy, hd, hl, hyl, hm⟩ := namesDying_spec hc.2
  refine ⟨c, hrun, _, z, ip, hn, rfl, fun hsafe => ?_⟩
  exact (hsafe z 1 ip ⟨1, 3⟩ x rfl hx rfl hd hl).1 ⟨1, 5⟩ y hy hyl ⟨hm, rfl⟩

/-! ## 4. What inserts load -/

/-- An insert takes `HNSW_UPDATE_LOCK` only when `RepairGraphEntryPoint` is over. -/
def LateInsert (s : St V) (t : Nat) (o : Op V) : Prop :=
  t ≠ 0 → ∀ mode caller, o = .lockPage .HNSW_UPDATE_LOCK mode caller → s.phase.entryDone = true

/-- **An insert that starts after `RepairGraphEntryPoint` loads no deleted element**, in every interleaving
    in which no insert holds `HNSW_UPDATE_LOCK` when `MarkDeleted` goes on from its wait. -/
theorem insert_loads_undeleted [LinearOrder δ] [DecidableEq V] {idx : Index V} {vacuum : VacuumCall V δ}
    {inserts : List (InsertCall V δ)} (hidx : idx.NoDeletedLink)
    (hval : ∀ c ∈ inserts, c.heaptid.isValid = true) {c : Config (Op V) Op.Resp (St V)}
    (h : Run (hnswMachine V) (fun s t o => LateInsert s t o ∧ (t = 0 → o = .enter .markDeleted →
        ∀ h ∈ s.holders, h.lock = .HNSW_UPDATE_LOCK → h.backend = 0))
      (startConfig idx vacuum inserts) c) {t : Nat} (ht : t ≠ 0) {u : ItemPointer} {l : Loader}
    (hn : c.next t = some (.page (.loadElement u l))) {e : HnswElementTuple V}
    (he : c.shared.index.elem? u = some e) : e.deleted = false := by
  have hgood : Good (hnswMachine V) (backendSpec True) c := by
    refine good_backends (fun s t o hc => ?_) hidx hval h
    cases t with
    | zero => exact ⟨fun _ => hc.2 rfl, fun hl => absurd trivial hl⟩
    | succ t =>
        rw [backendSpec_succ]
        exact fun _ => hc.1 (Nat.succ_ne_zero t)
  cases t with
  | zero => exact absurd rfl ht
  | succ t =>
      have hsafe := hgood.safe (backendSpec_refl True) hn (by
        rw [backendSpec_succ]
        intro _ mode caller e
        cases e)
      rw [backendSpec_succ] at hsafe
      exact hsafe trivial u l e rfl he

/-- A page with four elements; the third one alone names the fourth. -/
def chainPage : HnswPage Nat where
  page :=
    { items :=
        [⟨.element (HnswSetElementTuple 0 1 [⟨7, 1⟩] 10 ⟨1, 2⟩), 80⟩,
          ⟨.neighbor (HnswSetNeighborTuple 0 1 2 fun _ => [⟨1, 3⟩, ⟨1, 5⟩]), 32⟩,
          ⟨.element (HnswSetElementTuple 0 1 [⟨7, 2⟩] 12 ⟨1, 4⟩), 80⟩,
          ⟨.neighbor (HnswSetNeighborTuple 0 1 2 fun _ => [⟨1, 1⟩, ⟨1, 5⟩]), 32⟩,
          ⟨.element (HnswSetElementTuple 0 1 [⟨7, 3⟩] 20 ⟨1, 6⟩), 80⟩,
          ⟨.neighbor (HnswSetNeighborTuple 0 1 2 fun _ => [⟨1, 7⟩]), 32⟩,
          ⟨.element (HnswSetElementTuple 0 1 [⟨7, 4⟩] 22 ⟨1, 8⟩), 80⟩,
          ⟨.neighbor (HnswSetNeighborTuple 0 1 2 fun _ => [⟨1, 5⟩]), 32⟩]
      pd_special := 8184
      fits := by decide }
  nextblkno := none

/-- An index of that page; the first element is the entry point. -/
def chainIndex : Index Nat := ⟨⟨2, some ⟨1, 1, 0⟩, some 1⟩, [chainPage]⟩

theorem chainIndex_noDeletedLink : chainIndex.NoDeletedLink := Index.checkLinks_spec (by decide +kernel)

/-- The vacuum that deletes the fourth element. -/
def chainVacuum : VacuumCall Nat Nat := ⟨numberRel, none, fun t => decide (t = ⟨7, 4⟩), 20⟩

/-- An insert next to it. -/
def chainInsert : InsertCall Nat Nat := ⟨numberRel, some 21, ⟨7, 9⟩, 0, 20⟩

/-- `LateInsert`, computed. -/
def lateInsert (s : St V) (t : Nat) : Op V → Bool
  | .lockPage .HNSW_UPDATE_LOCK _ _ => t == 0 || s.phase.entryDone
  | _ => true

theorem lateInsert_spec {s : St V} {t : Nat} {o : Op V} (h : lateInsert s t o = true) :
    LateInsert s t o := by
  intro ht mode caller ho
  subst ho
  simpa [lateInsert, ht] using h

/-- The vacuum starts `MarkDeleted` only when nobody else holds a lock. -/
def markAlone (s : St V) (t : Nat) : Op V → Bool
  | .enter .markDeleted => t != 0 || s.holders.all fun h => h.backend == 0
  | _ => true

theorem markAlone_spec {s : St V} {t : Nat} {o : Op V} (h : markAlone s t o = true) (ht : t = 0)
    (ho : o = .enter .markDeleted) : ∀ h ∈ s.holders, h.lock = .HNSW_UPDATE_LOCK → h.backend = 0 := by
  subst ht ho
  intro a ha _
  have hall : ∀ a ∈ s.holders, a.backend = 0 := by simpa [markAlone] using h
  exact hall a ha

/-- Backend `b` is about to load the element at `t`. -/
def insertLoads (b : Nat) (t : ItemPointer) (c : Config (Op V) Op.Resp (St V)) : Option Loader :=
  match c.next b with
  | some (.page (.loadElement u loader)) => if u = t then some loader else none
  | _ => none

theorem insertLoads_spec {b : Nat} {t : ItemPointer} {c : Config (Op V) Op.Resp (St V)} {loader : Loader}
    (h : insertLoads b t c = some loader) : c.next b = some (.page (.loadElement t loader)) := by
  unfold insertLoads at h
  split at h
  · rename_i u l hn
    split at h
    · rename_i hu
      cases h
      rw [hn, hu]
    · cases h
  · cases h

/-- A second insert, further out. -/
def chainInsert' : InsertCall Nat Nat := ⟨numberRel, some 23, ⟨7, 8⟩, 0, 20⟩

/-- **Inserts beside the vacuum.** The first one starts in `RepairGraph` and has read the slots of the third
    element before the vacuum repairs it: it loads the dying element, not marked yet. The second one starts
    when `MarkDeleted` is about to mark that element: it loads the third one. -/
theorem insert_loads_undeleted_chain : ∃ c0 c : Config (Op Nat) Op.Resp (St Nat),
    Run (hnswMachine Nat) (fun s t o => LateInsert s t o ∧ (t = 0 → o = .enter .markDeleted →
        ∀ h ∈ s.holders, h.lock = .HNSW_UPDATE_LOCK → h.backend = 0))
      (startConfig chainIndex chainVacuum [chainInsert, chainInsert']) c0 ∧
    (∃ l e, c0.next 1 = some (.page (.loadElement ⟨1, 7⟩ l)) ∧ c0.shared.index.elem? ⟨1, 7⟩ = some e ∧
      e.isLive = false ∧ e.deleted = false) ∧
    Run (hnswMachine Nat) (fun s t o => LateInsert s t o ∧ (t = 0 → o = .enter .markDeleted →
        ∀ h ∈ s.holders, h.lock = .HNSW_UPDATE_LOCK → h.backend = 0)) c0 c ∧
    (∃ zeroDatum ip, c.next 0 = some (.page (.markDeleted zeroDatum 1 ip))) ∧
    ∃ l e, c.next 2 = some (.page (.loadElement ⟨1, 5⟩ l)) ∧ c.shared.index.elem? ⟨1, 5⟩ = some e ∧
      e.deleted = false := by
  have hval : ∀ c ∈ [chainInsert, chainInsert'], c.heaptid.isValid = true := by decide
  have hspec : ∀ (s : St Nat) t o, (lateInsert s t o && markAlone s t o) = true → LateInsert s t o ∧
      (t = 0 → o = .enter .markDeleted → ∀ h ∈ s.holders, h.lock = .HNSW_UPDATE_LOCK → h.backend = 0) := by
    intro s t o hs
    rw [Bool.and_eq_true] at hs
    exact ⟨lateInsert_spec hs.1, markAlone_spec hs.2⟩
  obtain ⟨c0, hrun0, hc0⟩ := run_of_check (M := hnswMachine Nat)
    (c := startConfig chainIndex chainVacuum [chainInsert, chainInsert']) _ _
    (List.replicate 44 0 ++ List.replicate 7 1 ++ List.replicate 35 0)
    (fun c0 => (insertLoads 1 ⟨1, 7⟩ c0).isSome && (c0.shared.index.elem? ⟨1, 7⟩).any (!·.isLive) &&
      (schedule (hnswMachine Nat) (fun s t o => lateInsert s t o && markAlone s t o)
        (List.replicate 12 1 ++ List.replicate 7 0 ++ List.replicate 4 2) c0).any
        fun c => aboutToMark c && (insertLoads 2 ⟨1, 5⟩ c).isSome && (c.shared.index.elem? ⟨1, 5⟩).isSome)
    (fun s t o hs => hspec s t o hs) (by decide +kernel)
  simp only [Bool.and_eq_true] at hc0
  obtain ⟨⟨h1, h2⟩, h3⟩ := hc0
  obtain ⟨c, hrun, hc⟩ := run_of_check _ _ _ _ (fun s t o hs => hspec s t o hs) h3
  simp only [Bool.and_eq_true] at hc
  obtain ⟨⟨hm, h4⟩, h5⟩ := hc
  obtain ⟨l0, hl0⟩ := Option.isSome_iff_exists.mp h1
  obtain ⟨e0, he0, hlive⟩ := (Option.any_eq_true _ _).mp h2
  obtain ⟨z, ip, hz⟩ := aboutToMark_spec hm
  obtain ⟨l, hl⟩ := Option.isSome_iff_exists.mp h4
  obtain ⟨e, he⟩ := Option.isSome_iff_exists.mp h5
  refine ⟨c0, c, hrun0, ⟨l0, e0, insertLoads_spec hl0, he0, by simpa using hlive, ?_⟩, hrun, ⟨z, ip, hz⟩,
    l, e, insertLoads_spec hl, he, ?_⟩
  · exact insert_loads_undeleted chainIndex_noDeletedLink hval hrun0 (Nat.succ_ne_zero 0)
      (insertLoads_spec hl0) he0
  · exact insert_loads_undeleted chainIndex_noDeletedLink hval (hrun0.trans hrun) (Nat.succ_ne_zero 1)
      (insertLoads_spec hl) he

/-- **A run in which an insert loads a deleted element**: it has read the slots of the third element when
    the vacuum repairs that element and marks the fourth one. -/
theorem insert_loads_deleted : chainIndex.NoDeletedLink ∧ chainInsert.heaptid.isValid = true ∧
    ∃ c : Config (Op Nat) Op.Resp (St Nat), Run (hnswMachine Nat) LateInsert
      (startConfig chainIndex chainVacuum [chainInsert]) c ∧
    ∃ e, c.next 1 = some (.page (.loadElement ⟨1, 7⟩ .HnswSearchLayer)) ∧
      c.shared.index.elem? ⟨1, 7⟩ = some e ∧ e.deleted = true := by
  refine ⟨chainIndex_noDeletedLink, rfl, ?_⟩
  obtain ⟨c, hrun, hc⟩ := run_of_check (M := hnswMachine Nat)
    (c := startConfig chainIndex chainVacuum [chainInsert]) LateInsert (fun s t o => lateInsert s t o)
    (List.replicate 44 0 ++ List.replicate 7 1 ++ List.replicate 43 0)
    (fun c => decide (insertLoads 1 ⟨1, 7⟩ c = some .HnswSearchLayer) &&
      (c.shared.index.elem? ⟨1, 7⟩).any (·.deleted))
    (fun _ _ _ hs => lateInsert_spec hs) (by decide +kernel)
  rw [Bool.and_eq_true, decide_eq_true_eq, Option.any_eq_true] at hc
  obtain ⟨hl, e, he, hd⟩ := hc
  exact ⟨c, hrun, e, insertLoads_spec hl, he, hd⟩

end Pgvec.Hnsw
