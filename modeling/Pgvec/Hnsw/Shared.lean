/-
  File:      Pgvec/Hnsw/Shared.lean
  Subject:   WHAT VACUUM, INSERTS AND SCANS KEEP BETWEEN THEM: the invariant of the shared state, and what
             a write of one backend means to the others.

  * `Index.LiveAt`, `Index.Undeleted`, `Index.CleanAt` -- a node with a heap TID, one that is not marked,
    one all of whose slots name live nodes;
  * `Inv` -- what is named is there; before `MarkDeleted` nothing deleted is named, from then on live
    nodes name live ones only; the page locks held are compatible;
  * `Target` -- a node a slot may be made to name; `Insertion` -- what a step of an insert can do, as the
    others see it;
  * **`insertion_wrote`**, **`insertion_placed`**, `insertion_extended`, `insertion_metap` -- the writes of
    an insert keep the invariant and are insertions;
  * `Steady`, `Reads` for `Tid`, `Copy` -- what a search may count on under steady changes.
-/
import Pgvec.Hnsw.Placement
import Pgvec.Hnsw.SearchLogic

namespace Pgvec.Hnsw

open Conc

variable {V : Type}

/-! ## 1. Phases and locks -/

/-- The wait for inserts at the start of `RepairGraph` is over. -/
def VacuumPhase.waited : VacuumPhase → Bool
  | .idle | .removeHeapTids => false
  | _ => true

/-- `RepairGraphEntryPoint` is over. -/
def VacuumPhase.entryDone : VacuumPhase → Bool
  | .repairGraph | .markDeleted | .finished => true
  | _ => false

/-- `MarkDeleted` has waited for scans. -/
def VacuumPhase.marking : VacuumPhase → Bool
  | .markDeleted | .finished => true
  | _ => false

theorem VacuumPhase.entryDone_of_marking {p : VacuumPhase} (h : p.marking = true) :
    p.entryDone = true := by
  cases p <;> first | rfl | cases h

theorem VacuumPhase.waited_of_entryDone {p : VacuumPhase} (h : p.entryDone = true) :
    p.waited = true := by
  cases p <;> first | rfl | cases h

theorem VacuumPhase.waited_of_marking {p : VacuumPhase} (h : p.marking = true) : p.waited = true :=
  waited_of_entryDone (entryDone_of_marking h)

/-- No two backends hold a lock in conflicting modes. -/
def Compatible (hs : List Holder) : Prop :=
  ∀ a ∈ hs, ∀ b ∈ hs, a.backend ≠ b.backend → a.lock = b.lock → a.mode.conflicts b.mode = false

theorem conflicts_comm (a b : LockMode) : a.conflicts b = b.conflicts a := Bool.or_comm _ _

theorem Compatible.cons {hs : List Holder} {t : Nat} {lock : PageLock} {mode : LockMode}
    (h : Compatible hs) (hw : mustWait hs t lock mode = false) : Compatible (⟨t, lock, mode⟩ :: hs) := by
  have hfree : ∀ b ∈ hs, b.backend ≠ t → b.lock = lock → b.mode.conflicts mode = false := by
    intro b hb hbt hbl
    have := List.any_eq_false.mp hw b hb
    simpa [hbt, hbl] using this
  intro a ha b hb hne hl
  rcases List.mem_cons.mp ha with rfl | ha' <;> rcases List.mem_cons.mp hb with rfl | hb'
  · exact absurd rfl hne
  · rw [conflicts_comm]
    exact hfree b hb' (Ne.symm hne) hl.symm
  · exact hfree a ha' hne hl
  · exact h a ha' b hb' hne hl

theorem Compatible.sub {hs hs' : List Holder} (h : Compatible hs) (hsub : ∀ a ∈ hs', a ∈ hs) :
    Compatible hs' := fun a ha b hb => h a (hsub a ha) b (hsub b hb)

/-- Who holds a lock in exclusive mode holds it alone. -/
theorem Compatible.alone {hs : List Holder} {t : Nat} {lock : PageLock} (h : Compatible hs)
    (hm : (⟨t, lock, .ExclusiveLock⟩ : Holder) ∈ hs) : ∀ a ∈ hs, a.lock = lock → a.backend = t := by
  intro a ha hl
  by_contra hne
  have := h a ha _ hm hne hl
  simp [LockMode.conflicts] at this

/-! ## 2. Nodes -/

namespace Index

/-- A node with a heap TID. -/
def LiveAt (idx : Index V) (u : ItemPointer) : Prop :=
  ∃ x, idx.node? u = some x ∧ x.elem.isLive = true

/-- A node that is not marked. -/
def Undeleted (idx : Index V) (u : ItemPointer) : Prop :=
  ∃ x, idx.node? u = some x ∧ x.elem.deleted = false

/-- The slots of the node name live nodes only. -/
def CleanAt (idx : Index V) (u : ItemPointer) : Prop :=
  ∀ x, idx.node? u = some x → ∀ v, x.Names v → idx.LiveAt v

/-- The entry point is live and names live nodes only. -/
def EntryClean (idx : Index V) : Prop :=
  ∀ ep, idx.metap.entry = some ep → idx.LiveAt ep.tid ∧ idx.CleanAt ep.tid

end Index

/-- **The invariant of the shared state.** -/
structure Inv (s : St V) : Prop where
  sound : s.index.Sound
  named : ∀ {t x v}, s.index.node? t = some x → x.Names v → ∃ y, s.index.node? v = some y
  entry : ∀ {ep}, s.index.metap.entry = some ep → ∃ y, s.index.node? ep.tid = some y
  alive : ∀ {t x}, s.index.node? t = some x → x.elem.isLive = true → x.elem.deleted = false
  locks : Compatible s.holders
  undeleted : s.phase.marking = false →
    (∀ t x v, s.index.node? t = some x → x.Names v → s.index.Undeleted v) ∧
    ∀ ep, s.index.metap.entry = some ep → s.index.Undeleted ep.tid
  clean : s.phase.marking = true → (∀ t, s.index.LiveAt t → s.index.CleanAt t) ∧
    ∀ ep, s.index.metap.entry = some ep → s.index.LiveAt ep.tid
  finished : s.phase = .finished → ∀ t, Settled s.index t

/-- A node that a slot may be made to name: it stays until the names of deleted nodes are gone. -/
def Target (s : St V) (u : ItemPointer) : Prop :=
  (s.phase.waited = true → s.index.LiveAt u) ∧ (s.phase.waited = false → s.index.Undeleted u)

theorem Target.node {s : St V} {u : ItemPointer} (h : Target s u) : ∃ y, s.index.node? u = some y := by
  cases hw : s.phase.waited with
  | true =>
      obtain ⟨x, hx, _⟩ := h.1 hw
      exact ⟨x, hx⟩
  | false =>
      obtain ⟨x, hx, _⟩ := h.2 hw
      exact ⟨x, hx⟩

theorem Inv.undeleted_of_live {s : St V} (h : Inv s) {u : ItemPointer} (hl : s.index.LiveAt u) :
    s.index.Undeleted u := by
  obtain ⟨x, hx, hxl⟩ := hl
  exact ⟨x, hx, h.alive hx hxl⟩

theorem Inv.target_of_live {s : St V} (h : Inv s) {u : ItemPointer} (hl : s.index.LiveAt u) :
    Target s u := ⟨fun _ => hl, fun _ => h.undeleted_of_live hl⟩

theorem Target.undeleted {s : St V} (h : Inv s) {u : ItemPointer} (ht : Target s u) :
    s.index.Undeleted u := by
  cases hw : s.phase.waited with
  | true => exact h.undeleted_of_live (ht.1 hw)
  | false => exact ht.2 hw

/-! ## 3. What an insert does to the shared state -/

/-- **A step of an insert**, as the others see it: nodes stay and live ones stay live, none dies, live
    nodes that are clean stay so and new ones are clean. -/
structure Insertion (s s' : St V) : Prop where
  kept : ∀ {u x}, s.index.node? u = some x →
    ∃ x', s'.index.node? u = some x' ∧ x'.elem.neighbortid = x.elem.neighbortid
  m : s'.index.metap.m = s.index.metap.m
  phase : s'.phase = s.phase
  live : ∀ {u}, s.index.LiveAt u → s'.index.LiveAt u
  undeleted : ∀ {u}, s.index.Undeleted u → s'.index.Undeleted u
  dying : ∀ {u x'}, s'.index.node? u = some x' → x'.elem.isLive = false →
    ∃ x, s.index.node? u = some x ∧ x.elem.isLive = false ∧ x'.elem.deleted = x.elem.deleted
  clean : s.phase.waited = true → ∀ {u}, s'.index.LiveAt u →
    (s.index.LiveAt u → s.index.CleanAt u) → s'.index.CleanAt u
  entry : s.phase.waited = true →
    s'.index.metap.entry = s.index.metap.entry ∨ s'.index.EntryClean

theorem Insertion.refl (s : St V) : Insertion s s where
  kept h := ⟨_, h, rfl⟩
  m := rfl
  phase := rfl
  live h := h
  undeleted h := h
  dying h hl := ⟨_, h, hl, rfl⟩
  clean _ _ hl hc := hc hl
  entry _ := Or.inl rfl

theorem Insertion.trans {a b c : St V} (h : Insertion a b) (h' : Insertion b c) : Insertion a c where
  kept hx := by
    obtain ⟨y, hy, hyn⟩ := h.kept hx
    obtain ⟨z, hz, hzn⟩ := h'.kept hy
    exact ⟨z, hz, hzn.trans hyn⟩
  m := h'.m.trans h.m
  phase := h'.phase.trans h.phase
  live hl := h'.live (h.live hl)
  undeleted hl := h'.undeleted (h.undeleted hl)
  dying hz hl := by
    obtain ⟨y, hy, hyl, e⟩ := h'.dying hz hl
    obtain ⟨x, hx, hxl, e'⟩ := h.dying hy hyl
    exact ⟨x, hx, hxl, e.trans e'⟩
  clean hw u hl hc := h'.clean (by rw [h.phase]; exact hw) hl fun hlb => h.clean hw hlb hc
  entry hw := by
    have hw' : b.phase.waited = true := by rw [h.phase]; exact hw
    rcases h'.entry hw' with e | e
    · rcases h.entry hw with e' | e'
      · exact Or.inl (e.trans e')
      · refine Or.inr fun ep hep => ?_
        obtain ⟨h1, h2⟩ := e' ep (by rw [← e]; exact hep)
        exact ⟨h'.live h1, h'.clean hw' (h'.live h1) fun _ => h2⟩
    · exact Or.inr e

theorem Insertion.target {s s' : St V} (h : Insertion s s') {u : ItemPointer} (ht : Target s u) :
    Target s' u := by
  refine ⟨fun hw => h.live (ht.1 ?_), fun hw => h.undeleted (ht.2 ?_)⟩ <;> rw [← h.phase] <;> exact hw

/-- Only the locks changed. -/
theorem insertion_holders (s : St V) (hs : List Holder) : Insertion s { s with holders := hs } where
  kept h := ⟨_, h, rfl⟩
  m := rfl
  phase := rfl
  live h := h
  undeleted h := h
  dying h hl := ⟨_, h, hl, rfl⟩
  clean _ _ hl hc := hc hl
  entry _ := Or.inl rfl

theorem Inv.holders {s : St V} (h : Inv s) {hs : List Holder} (hc : Compatible hs) :
    Inv { s with holders := hs } where
  sound := h.sound
  named := h.named
  entry := h.entry
  alive := h.alive
  locks := hc
  undeleted := h.undeleted
  clean := h.clean
  finished := h.finished

section Write

variable {s : St V} {idx' : Index V}

/-- The invariant after a step that keeps nodes, when what is new is accounted for. -/
theorem Insertion.inv (h : Inv s) (hi : Insertion s { s with index := idx' }) (hsound : idx'.Sound)
    (halive : ∀ {t x}, idx'.node? t = some x → x.elem.isLive = true → x.elem.deleted = false)
    (hnames : ∀ {t x' v}, idx'.node? t = some x' → x'.Names v →
      (∃ x, s.index.node? t = some x ∧ x.Names v) ∨ Target s v)
    (hentry : ∀ {ep}, idx'.metap.entry = some ep →
      s.index.metap.entry = some ep ∨ Target s ep.tid) :
    Inv { s with index := idx' } where
  sound := hsound
  named {t x v} hx hv := by
    have hnode : ∃ y, s.index.node? v = some y := by
      rcases hnames hx hv with ⟨x0, hx0, hv0⟩ | ht
      · exact h.named hx0 hv0
      · exact ht.node
    obtain ⟨y, hy⟩ := hnode
    obtain ⟨z, hz, _⟩ := hi.kept hy
    exact ⟨z, hz⟩
  entry {ep} hep := by
    have hnode : ∃ y, s.index.node? ep.tid = some y := by
      rcases hentry hep with h0 | ht
      · exact h.entry h0
      · exact ht.node
    obtain ⟨y, hy⟩ := hnode
    obtain ⟨z, hz, _⟩ := hi.kept hy
    exact ⟨z, hz⟩
  alive := halive
  locks := h.locks
  undeleted hm := by
    obtain ⟨h1, h2⟩ := h.undeleted hm
    refine ⟨fun t x v hx hv => hi.undeleted ?_, fun ep hep => hi.undeleted ?_⟩
    · rcases hnames hx hv with ⟨x0, hx0, hv0⟩ | ht
      · exact h1 t x0 v hx0 hv0
      · exact ht.undeleted h
    · rcases hentry hep with h0 | ht
      · exact h2 ep h0
      · exact ht.undeleted h
  clean hm := by
    obtain ⟨h1, h2⟩ := h.clean hm
    have hw : s.phase.waited = true := VacuumPhase.waited_of_marking hm
    refine ⟨fun t ht => hi.clean hw ht fun hl => h1 t hl, fun ep hep => hi.live ?_⟩
    rcases hentry hep with h0 | ht
    · exact h2 ep h0
    · exact ht.1 hw
  finished hp t x hx := by
    by_contra hne
    rw [not_or] at hne
    obtain ⟨x0, hx0, hl0, hd⟩ := hi.dying hx (by simpa using hne.1)
    rcases h.finished hp t x0 hx0 with h' | h'
    · rw [hl0] at h'
      cases h'
    · exact hne.2 (by rw [hd]; exact h')

/-- **A node is rewritten**: it keeps its neighbor tuple, its flag and its life, and new names are
    targets. -/
theorem insertion_wrote (h : Inv s) {t : ItemPointer} {x x' : Node V} (hx : s.index.node? t = some x)
    (hw : Wrote s.index idx' t x') (hnt : x'.elem.neighbortid = x.elem.neighbortid)
    (hl : x'.elem.isLive = x.elem.isLive) (hd : x'.elem.deleted = x.elem.deleted)
    (hn : ∀ {v}, x'.Names v → x.Names v ∨ Target s v) :
    Insertion s { s with index := idx' } ∧ Inv { s with index := idx' } := by
  have hnode : ∀ u, idx'.node? u = if u = t then some x' else s.index.node? u := hw.node
  have hkept : ∀ {u y}, s.index.node? u = some y → ∃ y', idx'.node? u = some y' ∧
      y'.elem.neighbortid = y.elem.neighbortid ∧ y'.elem.isLive = y.elem.isLive ∧
      y'.elem.deleted = y.elem.deleted := by
    intro u y hy
    rw [hnode]
    by_cases hu : u = t
    · subst hu
      rw [hx] at hy
      cases hy
      exact ⟨x', if_pos rfl, hnt, hl, hd⟩
    · rw [if_neg hu]
      exact ⟨y, hy, rfl, rfl, rfl⟩
  have hback : ∀ {u y'}, idx'.node? u = some y' → ∃ y, s.index.node? u = some y ∧
      y'.elem.isLive = y.elem.isLive ∧ y'.elem.deleted = y.elem.deleted ∧
      ∀ {v}, y'.Names v → y.Names v ∨ Target s v := by
    intro u y' hy'
    rw [hnode] at hy'
    by_cases hu : u = t
    · subst hu
      rw [if_pos rfl] at hy'
      cases hy'
      exact ⟨x, hx, hl, hd, hn⟩
    · rw [if_neg hu] at hy'
      exact ⟨y', hy', rfl, rfl, Or.inl⟩
  have hlive : ∀ {u}, s.index.LiveAt u → idx'.LiveAt u := by
    rintro u ⟨y, hy, hyl⟩
    obtain ⟨y', hy', _, e, _⟩ := hkept hy
    exact ⟨y', hy', e.trans hyl⟩
  have hi : Insertion s { s with index := idx' } := {
    kept := fun hy => by
      obtain ⟨y', hy', e, _⟩ := hkept hy
      exact ⟨y', hy', e⟩
    m := by rw [hw.same.metap]
    phase := rfl
    live := hlive
    undeleted := by
      rintro u ⟨y, hy, hyd⟩
      obtain ⟨y', hy', _, _, e⟩ := hkept hy
      exact ⟨y', hy', e.trans hyd⟩
    dying := fun hy' hyl => by
      obtain ⟨y, hy, e1, e2, _⟩ := hback hy'
      exact ⟨y, hy, e1 ▸ hyl, e2⟩
    clean := fun hwt {u} hlu hc z hz v hv => by
      obtain ⟨y, hy, e1, _, hnv⟩ := hback hz
      have hlu0 : s.index.LiveAt u := by
        obtain ⟨z', hz', hzl⟩ := hlu
        have : z' = z := Option.some.inj (hz'.symm.trans hz)
        subst this
        exact ⟨y, hy, e1 ▸ hzl⟩
      rcases hnv hv with hv | ht
      · exact hlive (hc hlu0 y hy v hv)
      · exact hlive (ht.1 hwt)
    entry := fun _ => Or.inl (by rw [hw.same.metap]) }
  refine ⟨hi, hi.inv h hw.sound (fun {u y'} hy' hyl => ?_) (fun {u y' v} hy' hv => ?_) fun hep => ?_⟩
  · obtain ⟨y, hy, e1, e2, _⟩ := hback hy'
    rw [e2]
    exact h.alive hy (e1 ▸ hyl)
  · obtain ⟨y, hy, _, _, hnv⟩ := hback hy'
    exact (hnv hv).imp (fun hv => ⟨y, hy, hv⟩) id
  · rw [hw.same.metap] at hep
    exact Or.inl hep

/-- The same nodes on more pages. -/
theorem insertion_extended (h : Inv s) (he : Extended s.index idx') :
    Insertion s { s with index := idx' } ∧ Inv { s with index := idx' } := by
  have hlive : ∀ {u}, s.index.LiveAt u → idx'.LiveAt u := fun ⟨y, hy, hl⟩ => ⟨y, by rw [he.node]; exact hy, hl⟩
  have hi : Insertion s { s with index := idx' } := {
    kept := fun hy => ⟨_, by rw [he.node]; exact hy, rfl⟩
    m := by rw [he.metap]
    phase := rfl
    live := hlive
    undeleted := fun ⟨y, hy, hd⟩ => ⟨y, by rw [he.node]; exact hy, hd⟩
    dying := fun hy' hl => ⟨_, by rw [← he.node]; exact hy', hl, rfl⟩
    clean := fun _ {u} hlu hc z hz v hv => by
      have hz0 : s.index.node? u = some z := by rw [← he.node]; exact hz
      obtain ⟨y, hy, hl⟩ := hlu
      exact hlive (hc ⟨y, by rw [← he.node]; exact hy, hl⟩ z hz0 v hv)
    entry := fun _ => Or.inl (by rw [he.metap]) }
  refine ⟨hi, hi.inv h he.sound (fun hy hl => ?_) (fun hy hv => Or.inl ⟨_, ?_, hv⟩) fun hep => ?_⟩
  · rw [he.node] at hy
    exact h.alive hy hl
  · rw [he.node] at hy
    exact hy
  · rw [he.metap] at hep
    exact Or.inl hep

/-- **A new live node whose names are targets.** -/
theorem insertion_placed (h : Inv s) {e : NewElement V} {tid ntid : ItemPointer} {version : Nat}
    (hp : Placed s.index idx' e tid ntid version) (hl : (e.node version ntid).elem.isLive = true)
    (hn : ∀ {v}, (e.node version ntid).Names v → Target s v) :
    Insertion s { s with index := idx' } ∧ Inv { s with index := idx' } ∧ idx'.LiveAt tid ∧
      (s.phase.waited = true → idx'.CleanAt tid) := by
  have hnode : ∀ u, idx'.node? u = if u = tid then some (e.node version ntid) else s.index.node? u :=
    hp.node
  have hnew : idx'.node? tid = some (e.node version ntid) := by rw [hnode, if_pos rfl]
  have hdead : ∀ {x}, s.index.node? tid = some x → x.elem.deleted = true ∧
      x.elem.neighbortid = ntid := by
    intro x hx
    rcases hp.old with ⟨h0, _⟩ | ⟨y, hy, hd, _, hnt⟩
    · rw [h0] at hx
      cases hx
    · rw [hy] at hx
      cases hx
      exact ⟨hd, hnt.symm⟩
  have hlive : ∀ {u}, s.index.LiveAt u → idx'.LiveAt u := by
    rintro u ⟨y, hy, hyl⟩
    by_cases hu : u = tid
    · subst hu
      exact ⟨_, hnew, hl⟩
    · exact ⟨y, by rw [hnode, if_neg hu]; exact hy, hyl⟩
  have hclean : s.phase.waited = true → idx'.CleanAt tid := by
    intro hw z hz v hv
    rw [hnew] at hz
    cases hz
    exact hlive ((hn hv).1 hw)
  have hi : Insertion s { s with index := idx' } := {
    kept := fun {u y} hy => by
      by_cases hu : u = tid
      · subst hu
        exact ⟨_, hnew, (hdead hy).2.symm⟩
      · exact ⟨y, by rw [hnode, if_neg hu]; exact hy, rfl⟩
    m := by rw [hp.metap]
    phase := rfl
    live := hlive
    undeleted := by
      rintro u ⟨y, hy, hyd⟩
      by_cases hu : u = tid
      · subst hu
        rw [(hdead hy).1] at hyd
        cases hyd
      · exact ⟨y, by rw [hnode, if_neg hu]; exact hy, hyd⟩
    dying := fun {u y'} hy' hyl => by
      rw [hnode] at hy'
      split at hy'
      · cases hy'
        rw [hl] at hyl
        cases hyl
      · exact ⟨y', hy', hyl, rfl⟩
    clean := fun hw {u} hlu hc => by
      by_cases hu : u = tid
      · rw [hu]
        exact hclean hw
      · intro z hz v hv
        rw [hnode, if_neg hu] at hz
        obtain ⟨y, hy, hyl⟩ := hlu
        rw [hnode, if_neg hu] at hy
        exact hlive (hc ⟨y, hy, hyl⟩ z hz v hv)
    entry := fun _ => Or.inl (by rw [hp.metap]) }
  refine ⟨hi, hi.inv h hp.sound (fun {u y'} hy' hyl => ?_) (fun {u y' v} hy' hv => ?_) fun hep => ?_,
    ⟨_, hnew, hl⟩, hclean⟩
  · rw [hnode] at hy'
    split at hy'
    · cases hy'
      rfl
    · exact h.alive hy' hyl
  · rw [hnode] at hy'
    split at hy'
    · cases hy'
      exact Or.inr (hn hv)
    · exact Or.inl ⟨y', hy', hv⟩
  · rw [hp.metap] at hep
    exact Or.inl hep

/-- The metapage changes; a new entry point is a target, live and clean once inserts were waited for. -/
theorem insertion_metap (h : Inv s) (metap : HnswMetaPage) (hm : metap.m = s.index.metap.m)
    (he : metap.entry = s.index.metap.entry ∨ ∀ ep, metap.entry = some ep → Target s ep.tid ∧
      (s.phase.waited = true → s.index.CleanAt ep.tid)) :
    Insertion s { s with index := { s.index with metap := metap } } ∧
      Inv { s with index := { s.index with metap := metap } } := by
  have hnode : ∀ u, ({ s.index with metap := metap } : Index V).node? u = s.index.node? u := fun _ => rfl
  have hi : Insertion s { s with index := { s.index with metap := metap } } := {
    kept := fun hy => ⟨_, hy, rfl⟩
    m := hm
    phase := rfl
    live := fun hl => hl
    undeleted := fun hl => hl
    dying := fun hy hl => ⟨_, hy, hl, rfl⟩
    clean := fun _ {u} hlu hc => hc hlu
    entry := fun hw => he.imp id fun he ep hep => ⟨(he ep hep).1.1 hw, (he ep hep).2 hw⟩ }
  refine ⟨hi, hi.inv h ⟨?_, h.sound.chained.metap metap⟩ (fun hy hl => h.alive hy hl)
    (fun hy hv => Or.inl ⟨_, hy, hv⟩) fun {ep} hep => ?_⟩
  · exact ⟨fun hy => h.sound.paired.ntup hy, fun hy hz => h.sound.paired.owner hy hz⟩
  · rcases he with he | he
    · exact Or.inl (he ▸ hep)
    · exact Or.inr (he ep hep).1

end Write

/-! ## 4. What a search may count on -/

/-- What the others leave to a search: nodes stay, and so does what made them worth naming. -/
structure Steady (late : Prop) (s s' : St V) : Prop where
  kept : ∀ {u x}, s.index.node? u = some x →
    ∃ x', s'.index.node? u = some x' ∧ x'.elem.neighbortid = x.elem.neighbortid
  waited : s'.phase.waited = s.phase.waited
  marking : late → s'.phase.marking = s.phase.marking
  live : s.phase.waited = true → ∀ {u}, s.index.LiveAt u → s'.index.LiveAt u
  undeleted : s'.phase.marking = false → ∀ {u}, s.index.Undeleted u → s'.index.Undeleted u

theorem Insertion.steady {s s' : St V} (h : Insertion s s') (late : Prop) : Steady late s s' where
  kept := h.kept
  waited := by rw [h.phase]
  marking _ := by rw [h.phase]
  live _ := h.live
  undeleted _ := h.undeleted

theorem not_marking {p : VacuumPhase} (h : p.waited = false) : p.marking = false := by
  cases p <;> first | rfl | cases h

theorem Steady.target {late : Prop} {s s' : St V} (h : Steady late s s') {u : ItemPointer}
    (ht : Target s u) : Target s' u := by
  refine ⟨fun hw => ?_, fun hw => ?_⟩
  · rw [h.waited] at hw
    exact h.live hw (ht.1 hw)
  · exact h.undeleted (not_marking hw) (ht.2 (by rw [← h.waited]; exact hw))

/-- A TID read from the index. With `late` it is one that `MarkDeleted` has not reached. -/
def Tid (late : Prop) (s : St V) (u : ItemPointer) : Prop :=
  (∃ y, s.index.node? u = some y) ∧ (late →
    (s.phase.marking = true → s.index.LiveAt u) ∧ (s.phase.marking = false → s.index.Undeleted u))

/-- A copy of an element: its node is there, and may be named if the copy has heap TIDs. -/
def Copy (late : Prop) (s : St V) (e : HnswElement V) : Prop :=
  (∃ y, s.index.node? e.tid = some y ∧ y.elem.neighbortid = e.neighbortid) ∧
    (e.heaptids ≠ [] → Target s e.tid) ∧ (late → s.phase.marking = true → s.index.LiveAt e.tid)

/-- Only undeleted elements are loaded. -/
def LoadSafe (late : Prop) (s : St V) (o : Op V) : Prop :=
  late → ∀ u l e, o = .page (.loadElement u l) → s.index.elem? u = some e → e.deleted = false

/-- The operation is not a page of `MarkDeleted`. -/
def NoMark (o : Op V) : Prop := ∀ zeroDatum b ip, o ≠ .page (.markDeleted zeroDatum b ip)

/-- **A search under steady changes.** -/
theorem reads_of_steady {late : Prop} {S : Spec (Op V) (St V)} {H : St V → Prop} (m : Nat)
    (hrefl : ∀ s, S.rely s s) (htrans : ∀ {a b c}, S.rely a b → S.rely b c → S.rely a c)
    (hguar : ∀ s, S.guar s s) (hinv : ∀ s, S.inv s → Inv s)
    (hH : ∀ {s s'}, H s → S.rely s s' → S.inv s' → H s' ∧ Steady late s s')
    (hsafe : ∀ s o, NoMark o → LoadSafe late s o → S.safe s o) :
    Reads S m true H (Tid late) (Copy late) where
  refl := hrefl
  trans := htrans
  guar := hguar
  held h hr hi := (hH h hr hi).1
  stableT {s s' u} h hr hi := by
    rintro ⟨⟨y, hy⟩, hl⟩
    have hst := (hH h hr hi).2
    obtain ⟨y', hy', _⟩ := hst.kept hy
    refine ⟨⟨y', hy'⟩, fun l => ⟨fun hm => ?_, fun hm => ?_⟩⟩
    · rw [hst.marking l] at hm
      exact hst.live (VacuumPhase.waited_of_marking hm) ((hl l).1 hm)
    · exact hst.undeleted hm ((hl l).2 (by rw [← hst.marking l]; exact hm))
  stableP {s s' e} h hr hi := by
    rintro ⟨⟨y, hy, hyn⟩, ht, hl⟩
    have hst := (hH h hr hi).2
    obtain ⟨y', hy', e'⟩ := hst.kept hy
    refine ⟨⟨y', hy', e'.trans hyn⟩, fun he => hst.target (ht he), fun l hm => ?_⟩
    rw [hst.marking l] at hm
    exact hst.live (VacuumPhase.waited_of_marking hm) (hl l hm)
  load {s u} h hi := by
    rintro ⟨⟨y, hy⟩, hl⟩
    refine Or.inl ⟨y.elem, Index.node?_elem hy, ⟨y, hy, rfl⟩, fun he => ?_, fun l hm => (hl l).1 hm⟩
    refine (hinv s hi).target_of_live ⟨y, hy, (isLive_iff _).mpr ?_⟩
    exact he
  safeLoad {s u l} h hi ht := by
    refine hsafe s _ (fun _ _ _ e => by cases e) fun hlate u' l' e he hel => ?_
    cases he
    obtain ⟨⟨y, hy⟩, hl⟩ := ht
    have hye : y.elem = e := Option.some.inj ((Index.node?_elem hy).symm.trans hel)
    cases hm : s.phase.marking with
    | true =>
        obtain ⟨z, hz, hzd⟩ := (hinv s hi).undeleted_of_live ((hl hlate).1 hm)
        rw [hy] at hz
        cases hz
        rw [← hye]
        exact hzd
    | false =>
        obtain ⟨z, hz, hzd⟩ := (hl hlate).2 hm
        rw [hy] at hz
        cases hz
        rw [← hye]
        exact hzd
  tids {s e} h hi := by
    rintro ⟨⟨y, hy, hyn⟩, _, hl⟩
    refine Or.inl ⟨y.neigh, by rw [← hyn]; exact Index.node?_neigh hy, fun lm lc l hll u hu => ?_⟩
    have hnames : y.Names u := by
      obtain ⟨hm, hv⟩ := mem_validPrefix hu
      refine ⟨?_, hv⟩
      unfold neighborTids at hll
      split at hll
      · cases hll
      · cases hll
        exact List.mem_of_mem_drop (List.mem_of_mem_take hm)
    refine ⟨(hinv s hi).named hy hnames, fun late => ⟨fun hm => ?_, fun hm => ?_⟩⟩
    · exact ((hinv s hi).clean hm).1 e.tid (hl late hm) y hy u hnames
    · exact ((hinv s hi).undeleted hm).1 e.tid y u hy hnames
  safeRead {s n} := by
    refine hsafe s _ (fun _ _ _ e => by cases e) fun _ u l e he => ?_
    cases he

/-- The entry point just read. -/
theorem tid_entry {late : Prop} {s : St V} (h : Inv s) {ep : EntryPoint}
    (hep : s.index.metap.entry = some ep) : Tid late s ep.tid :=
  ⟨h.entry hep, fun _ => ⟨fun hm => (h.clean hm).2 ep hep, fun hm => (h.undeleted hm).2 ep hep⟩⟩

/-! ## 5. Updating neighbors -/

/-- What becomes of the versions: they stay, or the node is marked and its neighbor tuple is no longer of
    the old version. -/
def Versions (idx idx' : Index V) : Prop :=
  ∀ {u x}, idx.node? u = some x → ∃ x', idx'.node? u = some x' ∧
    (x'.elem.deleted = x.elem.deleted ∧ x'.elem.version = x.elem.version ∧
      (x.elem.deleted = true → x'.neigh.version = x.neigh.version) ∨
    x.elem.deleted = false ∧ x'.elem.deleted = true ∧ x'.neigh.version ≠ x.elem.version)

theorem Versions.refl (idx : Index V) : Versions idx idx :=
  fun {_ x} h => ⟨x, h, Or.inl ⟨rfl, rfl, fun _ => rfl⟩⟩

theorem Wrote.versions {idx idx' : Index V} {t : ItemPointer} {x x' : Node V} (hw : Wrote idx idx' t x')
    (hx : idx.node? t = some x)
    (h : x'.elem.deleted = x.elem.deleted ∧ x'.elem.version = x.elem.version ∧
      (x.elem.deleted = true → x'.neigh.version = x.neigh.version) ∨
      x.elem.deleted = false ∧ x'.elem.deleted = true ∧ x'.neigh.version ≠ x.elem.version) :
    Versions idx idx' := by
  intro u y hy
  rw [hw.node]
  by_cases hu : u = t
  · subst hu
    rw [hx] at hy
    cases hy
    exact ⟨x', if_pos rfl, h⟩
  · exact ⟨y, by rw [if_neg hu]; exact hy, Or.inl ⟨rfl, rfl, fun _ => rfl⟩⟩

/-- What `UpdateNeighborOnDisk` puts into a tuple. -/
theorem updateNeighborTuple_names {n n' : HnswNeighborTuple} {u : NeighborUpdate}
    (h : updateNeighborTuple n u = some n') :
    n'.version = n.version ∧ ∀ v ∈ n'.indextids, v ∈ n.indextids ∨ v = u.newTid := by
  unfold updateNeighborTuple at h
  simp only at h
  split at h
  · cases h
    exact ⟨rfl, fun v hv => List.mem_or_eq_of_mem_set hv⟩
  · cases h

/-- **One update of a neighbor tuple.** -/
theorem updateNeighbor_step {s : St V} (h : Inv s) {t : ItemPointer} {x : Node V}
    (hx : s.index.node? t = some x) {u : NeighborUpdate} (hu : u.ntid = x.elem.neighbortid)
    (ht : Target s u.newTid) :
    Insertion s { s with index := (execPage (.updateNeighbor u) s.index).final s.index } ∧
      Inv { s with index := (execPage (.updateNeighbor u) s.index).final s.index } ∧
      Versions s.index ((execPage (.updateNeighbor u) s.index).final s.index) ∧
      ((execPage (.updateNeighbor u) s.index).final s.index).metap = s.index.metap := by
  unfold Sect.final
  rcases updateNeighbor_spec h.sound hx hu with ⟨_, hc⟩ | ⟨n, idx', hn, hc, hw⟩
  · rw [hc]
    exact ⟨.refl s, h, Versions.refl s.index, rfl⟩
  · rw [hc]
    obtain ⟨hv, hm⟩ := updateNeighborTuple_names hn
    obtain ⟨h1, h2⟩ := insertion_wrote h hx hw rfl rfl rfl fun {v} hvn =>
      (hm v hvn.1).imp (fun hv => ⟨hv, hvn.2⟩) fun (e : v = u.newTid) => by rw [e]; exact ht
    exact ⟨h1, h2, hw.versions hx (Or.inl ⟨rfl, rfl, fun _ => hv⟩), hw.same.metap⟩

section Update

variable {δ : Type} [LinearOrder δ] {late : Prop} {S : Spec (Op V) (St V)} {t m : Nat} {H J : St V → Prop}

/-- **`HnswUpdateNeighborsOnDisk`**, for an element that may be named as long as `J` holds. -/
theorem valid_updateNeighbors (R : Reads S m true H (Tid late) (Copy late)) (rel : HnswRel V δ)
    {e : LocalElement V δ} (checkExisting : Bool) (hinv : ∀ s, S.inv s → Inv s)
    (hJ : ∀ s, J s → Target s e.element.tid)
    (hstable : ∀ {s s'}, H s → S.rely s s' → S.inv s' → J s → J s')
    (hsafe : ∀ s o, NoMark o → LoadSafe late s o → S.safe s o) (hcommit : ∀ s, S.commit s)
    (hstep : ∀ s idx', H s → S.inv s → J s → Insertion s { s with index := idx' } →
      Inv { s with index := idx' } → Versions s.index idx' → idx'.metap = s.index.metap →
      S.inv { s with index := idx' } ∧ S.guar s { s with index := idx' } ∧
        H { s with index := idx' } ∧ J { s with index := idx' })
    {s : St V} (hH : H s) (hi : S.inv s) (hj : J s)
    (hcopies : ∀ lc, ∀ hc ∈ e.layer lc, Copy late s hc.element) :
    Valid (hnswMachine V) t S (HnswUpdateNeighborsOnDisk rel e m checkExisting)
      (fun _ s' => H s' ∧ S.inv s' ∧ J s') s := by
  let I (s : St V) : Prop := H s ∧ S.inv s ∧ J s ∧ ∀ lc, ∀ hc ∈ e.layer lc, Copy late s hc.element
  refine Valid.mono (Q := fun _ s => I s) ?_ fun _ _ h => ⟨h.1, h.2.1, h.2.2.1⟩
  refine Valid.foldlM (I := fun _ s => I s) _ ⟨hH, hi, hj, hcopies⟩ fun _ lc s _ hI => ?_
  refine Valid.foldlM (I := fun _ s => I s) _ hI fun _ hc s hmem hI => ?_
  obtain ⟨hH, hi, hj, hcopies⟩ := hI
  have hcopy := hcopies lc hc hmem
  have hmove : ∀ {s'}, S.rely s s' → S.inv s' → I s' := fun hr hi' =>
    ⟨R.held hH hr hi', hi', hstable hH hr hi' hj, fun lc hc hm => R.stableP hH hr hi' (hcopies lc hc hm)⟩
  unfold updateOneNeighbor
  refine Valid.bind (Valid.mono (valid_getUpdateIndex (F := fun _ => True) R rel e.element hc.distance
    (HnswGetLayerM m lc) lc (fun _ _ _ _ _ _ _ _ _ => trivial) (fun _ _ _ _ _ _ => trivial) hH hcopy) ?_)
  rintro i s1 ⟨hr1, hi1, _⟩
  obtain ⟨hH1, _, hj1, hc1⟩ := hmove hr1 hi1
  split
  · exact ⟨hH1, hi1, hj1, hc1⟩
  · refine valid_section fun s2 hr2 hi2 _ => ?_
    have hH2 := R.held hH1 hr2 hi2
    have hj2 := hstable hH1 hr2 hi2 hj1
    have hc2 : ∀ lc, ∀ hc ∈ e.layer lc, Copy late s2 hc.element := fun lc hc hm =>
      R.stableP hH1 hr2 hi2 (hc1 lc hc hm)
    obtain ⟨⟨y, hy, hyn⟩, _, _⟩ := hc2 lc hc hmem
    obtain ⟨h1, h2, h3, h4⟩ := updateNeighbor_step (hinv s2 hi2) hy (u := ⟨hc.element.neighbortid,
      hc.element.level, e.element.tid, i, m, HnswGetLayerM m lc, lc, checkExisting⟩) hyn.symm
      (hJ s2 hj2)
    obtain ⟨g1, g2, g3, g4⟩ := hstep s2 _ hH2 hi2 hj2 h1 h2 h3 h4
    refine ⟨hsafe s2 _ (fun _ _ _ e => by cases e) fun _ u l e he => (by cases he), g1, g2,
      fun c _ => hcommit _, g3, g1, g4, fun lc hc hm => ?_⟩
    obtain ⟨⟨z, hz, hzn⟩, ht, hl⟩ := hc2 lc hc hm
    obtain ⟨z', hz', e'⟩ := h1.kept hz
    exact ⟨⟨z', hz', e'.trans hzn⟩, fun he => h1.target (ht he), fun l hm => h1.live (hl l hm)⟩

end Update

end Pgvec.Hnsw
