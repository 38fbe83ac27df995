/-
  File:      Pgvec/Hnsw/RepairEnds.lean
  Subject:   A REPAIR COMES TO AN END: `RepairGraphElement` and what `RepairGraph` does around it, run by a
             backend that no other one makes wait.

  Nothing is assumed about the links of the index: a TID without an element tuple, an element without a
  neighbor tuple and a tuple that does not fit are errors, and an error is an end. A search has no more to
  do than there are elements, since a repair adds none.

  * `Elems`, `elems_modifyItem`, `execPage_elems` -- no operation of a repair makes an element;
  * `Room` -- what holds throughout: nobody else holds `HNSW_UPDATE_LOCK`, and the elements are in `F`;
  * `repairSpec`, `Repairing` -- total correctness, errors allowed; **`Repairing.ends`**;
  * `repair_reads`, `repairing_findNeighbors` -- the search under it: with a budget beyond twice the number
    of elements it is not cut off;
  * **`repairing_repairOne`**, **`repairing_repairGraphEntryPoint`** -- one element of `RepairGraph`, and
    `RepairGraphEntryPoint`.
-/
import Pgvec.Hnsw.Graph
import Pgvec.Hnsw.Issued
import Pgvec.Hnsw.SearchLogic

namespace Pgvec.Hnsw

open Conc

variable {V δ : Type}

/-! ## 1. No new elements -/

/-- Where an element is, one was before. -/
def Elems (idx idx' : Index V) : Prop := ∀ {u e}, idx'.elem? u = some e → ∃ e', idx.elem? u = some e'

theorem Elems.refl (idx : Index V) : Elems idx idx := fun {_ e} h => ⟨e, h⟩

/-- A neighbor tuple is put where it stands. -/
theorem elems_of_slot {idx idx' : Index V} {t : ItemPointer} {n : HnswNeighborTuple} {size : Nat}
    (h : ∀ u, idx'.slot? u = if u = t then some ⟨.neighbor n, size⟩ else idx.slot? u) : Elems idx idx' := by
  intro u e he
  have hs := h u
  split at hs
  · rw [Index.elem?_eq_some, Index.item?_eq_slot?, hs] at he
    cases he
  · rw [Index.elem?_slot_congr hs] at he
    exact ⟨e, he⟩

/-- Items are changed in place, and one that was no element does not become one. -/
theorem elems_modifyItem (idx : Index V) (u : ItemPointer) {f : HnswItem V → HnswItem V}
    (hf : ∀ it e, f it = .element e → ∃ e', it = .element e') : Elems idx (idx.modifyItem u f) := by
  intro v e he
  simp only [Index.elem?_eq_some, Index.item?_eq_slot?, Index.slot?_modifyItem] at he ⊢
  split at he
  · cases hs : idx.slot? v with
    | none =>
        rw [hs] at he
        cases he
    | some x =>
        rw [hs] at he
        obtain ⟨e', he'⟩ := hf x.item e (Option.some.inj he)
        exact ⟨e', by rw [Option.map_some, he']⟩
  · exact ⟨e, he⟩

/-- **No section of a repair makes an element.** -/
theorem execPage_elems {o : PageOp V} (h : Repairs (.page o)) (idx : Index V) :
    ∀ c ∈ (execPage o idx).commits, Elems idx c := by
  have hnil : ∀ c ∈ ([] : List (Index V)), Elems idx c := fun c hc => absurd hc List.not_mem_nil
  have hone : ∀ {i : Index V}, Elems idx i → ∀ c ∈ [i], Elems idx c := fun hi c hc => by
    rw [List.mem_singleton.mp hc]
    exact hi
  cases o with
  | getMetaPageInfo => exact hnil
  | updateMetaPage ue ep ip => exact hone (Elems.refl idx)
  | loadElement tid l => exact hnil
  | readNeighborTuple ntid => exact hnil
  | updateNeighbor u =>
      simp only [execPage]
      split
      · exact hnil
      · rename_i ntup hn
        split
        · exact hnil
        · rename_i ntup' _
          rw [Index.neigh?_eq_some, Index.item?_eq_slot?, Option.map_eq_some_iff] at hn
          obtain ⟨x, hs, _⟩ := hn
          refine hone (@elems_of_slot _ _ _ u.ntid ntup' x.lp_len fun v => ?_)
          rw [Index.slot?_modifyItem]
          split
          · rename_i hv
            rw [hv, hs]
            rfl
          · rfl
  | overwriteNeighborTuple ntid ntup size =>
      simp only [execPage]
      split
      · rename_i idx' hw
        exact hone (elems_of_slot (Index.slot?_overwriteItem hw))
      · exact hnil
  | _ => exact h.elim

/-! ## 2. What a repair may count on -/

/-- **What holds while backend `t` repairs**: nobody else holds the update lock, and the elements are in
    `F`. -/
structure Room (t : Nat) (F : Finset ItemPointer) (s : St V) : Prop where
  alone : ∀ h ∈ s.holders, h.lock = .HNSW_UPDATE_LOCK → h.backend = t
  elems : ∀ {u e}, s.index.elem? u = some e → u ∈ F

/-- **Total correctness, errors allowed**: nothing happens between two operations, none of them waits, and
    no loop is cut off. -/
def repairSpec (t : Nat) (F : Finset ItemPointer) : Spec (Op V) (St V) where
  inv := Room t F
  rely s s' := s' = s
  guar _ _ := True
  allow _ _ := True
  safe s o := ∃ r, (hnswMachine V).exec t o s = some r
  commit _ := True
  errors := True
  cuts := False

/-- The program keeps `Room` and comes to an end. -/
abbrev Repairing {α : Type} (t : Nat) (F : Finset ItemPointer) (p : HnswProg V α) (s : St V) : Prop :=
  Valid (hnswMachine V) t (repairSpec t F) p (fun _ s' => Room t F s') s

section Room

variable {t : Nat} {F : Finset ItemPointer} {s : St V}

/-- All elements of a state are among its TIDs. -/
theorem room_tids (h : ∀ h ∈ s.holders, h.lock = .HNSW_UPDATE_LOCK → h.backend = t) :
    Room t s.index.tids.toFinset s :=
  ⟨h, fun {_ _} he => List.mem_toFinset.mpr (Index.elem?_mem_tids he)⟩

/-- An error gives locks back and takes none. -/
theorem Room.mayFail (t' : Nat) (h : Room t F s) : Room t F ((hnswMachine V).abort t' s) :=
  ⟨fun x hx => h.alone x (List.mem_filter.mp hx).1, h.elems⟩

theorem mayFail (s : St V) : MayFail (repairSpec t F) s :=
  ⟨trivial, fun t' _ _ h => ⟨h.mayFail t', trivial⟩⟩

/-- **One section of a repair.** -/
theorem repairing_section (o : PageOp V) (ho : Repairs (.page o)) {s : St V} :
    Repairing t F (section_ o) s := by
  refine valid_section fun s' _ hi _ => ?_
  have hroom : Room t F { s' with index := (execPage o s'.index).final s'.index } :=
    ⟨hi.alone, fun {u e} he => by
      obtain ⟨e', he'⟩ := Sect.final_of_commits (P := fun i => Elems s'.index i) (Elems.refl _)
        (execPage_elems ho s'.index) he
      exact hi.elems he'⟩
  exact ⟨⟨_, exec_page t o s'⟩, hroom, trivial, fun _ _ => trivial, hroom⟩

/-- **`LockPage` does not wait.** -/
theorem repairing_lock (mode : LockMode) (caller : Caller) {s : St V} :
    Repairing t F (LockPage .HNSW_UPDATE_LOCK mode caller) s := by
  refine valid_lock fun s' _ hi _ => ?_
  have hw : mustWait s'.holders t .HNSW_UPDATE_LOCK mode = false := by
    simp only [mustWait, List.any_eq_false]
    intro h hm
    by_cases hl : h.lock = .HNSW_UPDATE_LOCK
    · simp [hi.alone h hm hl]
    · simp [hl]
  have hgranted : (hnswMachine V).exec t (.lockPage .HNSW_UPDATE_LOCK mode caller) s' =
      some ⟨[], { s' with holders := ⟨t, .HNSW_UPDATE_LOCK, mode⟩ :: s'.holders }, ()⟩ := by
    simp only [hnswMachine, hw, Bool.false_eq_true, if_false]
  have hroom : Room t F { s' with holders := ⟨t, .HNSW_UPDATE_LOCK, mode⟩ :: s'.holders } :=
    ⟨fun h hm hl => by
      rcases List.mem_cons.mp hm with rfl | hm
      · rfl
      · exact hi.alone h hm hl, hi.elems⟩
  exact ⟨⟨_, hgranted⟩, fun _ => ⟨hroom, trivial, hroom⟩⟩

theorem repairing_unlock (mode : LockMode) {s : St V} :
    Repairing t F (UnlockPage .HNSW_UPDATE_LOCK mode) s := by
  refine valid_unlock fun s' _ hi _ => ?_
  have hroom : Room t F { s' with holders := s'.holders.erase ⟨t, .HNSW_UPDATE_LOCK, mode⟩ } :=
    ⟨fun h hm => hi.alone h (List.mem_of_mem_erase hm), hi.elems⟩
  exact ⟨⟨_, rfl⟩, hroom, trivial, hroom⟩

theorem repairing_enter (phase : VacuumPhase) {s : St V} : Repairing t F (.op (.enter phase) .ret) s :=
  valid_enter fun _ _ hi _ => ⟨⟨_, rfl⟩, ⟨hi.alone, hi.elems⟩, trivial, ⟨hi.alone, hi.elems⟩⟩

theorem repairing_error {α : Type} (msg : String) {s : St V} :
    Repairing t F (.error msg : HnswProg V α) s := (mayFail s).valid t msg _

/-- Sequencing. -/
theorem repairing_bind {α β : Type} {p : HnswProg V α} {f : α → HnswProg V β} (h : Repairing t F p s)
    (hf : ∀ a s', Room t F s' → Repairing t F (f a) s') : Repairing t F (p >>= f) s :=
  Valid.bind (h.mono fun a s' hs' => hf a s' hs')

/-- **A repair comes to an end.** -/
theorem Repairing.ends {α : Type} {p : HnswProg V α} (h : Repairing t F p s) (hs : Room t F s) :
    Ends (hnswMachine V) t p s ∧ ∀ r, run (hnswMachine V) t p s = some r → Room t F r.2 :=
  ⟨ends_of_valid (fun _ => rfl) (fun _ _ => trivial) id (fun _ _ h => h) hs h,
    fun r hr => ((valid_alone (fun _ => rfl) (fun _ _ => trivial) hs h).1 r hr).1⟩

/-- **The search of a repair**: nothing is known about a TID that was read, a copy is of an element. -/
theorem repair_reads (t m : Nat) (F : Finset ItemPointer) :
    Reads (repairSpec (V := V) t F) m true (fun _ => True) (fun _ _ => True) (fun _ e => e.tid ∈ F) where
  refl _ := rfl
  trans h h' := h'.trans h
  guar _ := trivial
  held _ _ _ := trivial
  stableT _ _ _ _ := trivial
  stableP _ _ _ h := h
  load {s u} _ hi _ := by
    cases he : s.index.elem? u with
    | none => exact Or.inr ⟨rfl, mayFail s⟩
    | some e => exact Or.inl ⟨e, rfl, hi.elems he⟩
  safeLoad {s u l} _ _ _ := ⟨_, exec_page t (.loadElement u l) s⟩
  tids {s e} _ _ _ := by
    cases hn : s.index.neigh? e.neighbortid with
    | none => exact Or.inr ⟨rfl, mayFail s⟩
    | some n => exact Or.inl ⟨n, rfl, fun _ _ _ _ _ _ => trivial⟩
  safeRead {s n} := ⟨_, exec_page t (.readNeighborTuple n) s⟩

end Room

/-! ## 3. One element -/

section Repair

variable [LinearOrder δ] {t : Nat} {F : Finset ItemPointer} {s : St V} {budget : Nat}

/-- `HnswUpdateNeighborsOnDisk` on copies of elements. -/
theorem repairing_updateNeighbors (rel : HnswRel V δ) (e : LocalElement V δ) (m : Nat)
    (checkExisting : Bool) (hs : Room t F s) (he : ∀ lc, ∀ hc ∈ e.layer lc, hc.element.tid ∈ F) :
    Repairing t F (HnswUpdateNeighborsOnDisk rel e m checkExisting) s := by
  refine Valid.foldlM (I := fun _ s => Room t F s) _ hs fun _ lc s _ hs => ?_
  refine Valid.foldlM (I := fun _ s => Room t F s) _ hs fun _ hc s hmem hs => ?_
  unfold updateOneNeighbor
  refine Valid.bind ((valid_getUpdateIndex (F := fun _ => True) (repair_reads t m F) rel e.element
    hc.distance (HnswGetLayerM m lc) lc (fun _ _ _ _ _ _ _ _ _ => trivial) (fun _ _ _ _ _ _ => trivial)
    trivial (he lc hc hmem)).mono fun i s1 h1 => ?_)
  split
  · exact h1.2.1
  · exact repairing_section (.updateNeighbor _) trivial

/-- **The search for neighbors**: it leaves the index, and its copies are of elements. -/
theorem repairing_findNeighbors (rel : HnswRel V δ) (m : Nat) (element : HnswElement V)
    (entryPoint : Option EntryPoint) (existing : Bool) (hb : 2 * F.card < budget) (hs : Room t F s) :
    Valid (hnswMachine V) t (repairSpec t F) (findNeighborsOnDisk rel element entryPoint m existing budget)
      (fun r s' => s' = s ∧ ∀ lc, ∀ hc ∈ r.1.layer lc, hc.element.tid ∈ F) s := by
  refine (valid_findNeighbors (repair_reads t m F) (Or.inr ⟨fun _ _ _ _ h => h, hb⟩) rel element existing
    trivial hs fun _ _ => trivial).mono ?_
  rintro ⟨e, ep⟩ s1 ⟨hs1, _, _, hfound, _⟩
  refine ⟨hs1, fun lc hc hm => ?_⟩
  unfold LocalElement.layer at hm
  split at hm
  · cases hm
  · rename_i a ha
    exact ((hfound.layer ha).mem hc hm).1

/-- **`RepairGraphElement`.** -/
theorem repairing_repairElement (rel : HnswRel V δ) (m : Nat) (element : HnswElement V)
    (entryPoint : Option EntryPoint) (hb : 2 * F.card < budget) (hs : Room t F s) :
    Repairing t F (RepairGraphElement rel m element entryPoint budget) s := by
  unfold RepairGraphElement
  split
  · exact hs
  · refine Valid.bind ((repairing_findNeighbors rel m { element with heaptids := [] } entryPoint true hb
      hs).mono ?_)
    rintro ⟨e, ep⟩ s1 ⟨rfl, hcopies⟩
    refine repairing_bind (repairing_section (.overwriteNeighborTuple _ _ _) trivial) fun ok s2 hs2 => ?_
    show Repairing t F (if ok = true then _ else _) s2
    split
    · exact repairing_bind (repairing_updateNeighbors rel e m true hs2 hcopies) fun _ _ hs3 => hs3
    · exact repairing_error _

theorem repairing_needsUpdated (deleted : List ItemPointer) (element : HnswElement V) :
    Repairing t F (NeedsUpdated deleted element) s := by
  refine repairing_bind (repairing_section (.readNeighborTuple _) trivial) fun n s1 hs1 => ?_
  cases n with
  | none => exact repairing_error _
  | some ntup => exact hs1

theorem repairing_loadElement (tid : ItemPointer) :
    Repairing t F (HnswLoadElement tid : HnswProg V (HnswElement V)) s := by
  refine repairing_bind (repairing_section (.loadElement tid _) trivial) fun e s1 hs1 => ?_
  cases e with
  | none => exact repairing_error _
  | some etup => exact hs1

theorem repairing_getEntryPoint : Repairing t F (HnswGetEntryPoint : HnswProg V _) s :=
  repairing_bind (repairing_section .getMetaPageInfo trivial) fun _ _ hs1 => hs1

variable (rel : HnswRel V δ) (m : Nat) (deleted : List ItemPointer) (hb : 2 * F.card < budget)
include hb

theorem repairing_repairConnections (element : HnswElement V) (entryPoint : Option EntryPoint)
    (lockmode : LockMode) (hs : Room t F s) :
    Repairing t F (repairConnections rel m element entryPoint lockmode budget) s := by
  refine repairing_bind (repairing_repairElement rel m element entryPoint hb hs) fun ep s1 _ => ?_
  split
  · exact repairing_bind (repairing_section (.updateMetaPage _ _ none) rfl) fun _ _ _ => repairing_unlock lockmode
  · exact repairing_unlock lockmode

/-- **One element of `RepairGraph`.** -/
theorem repairing_repairOne (element : HnswElement V) :
    Repairing t F (repairOne rel m deleted budget element) s := by
  refine repairing_bind (repairing_needsUpdated deleted element) fun needed s1 hs1 => ?_
  split
  · refine repairing_bind (repairing_lock .ShareLock .RepairGraph) fun _ s2 _ =>
      repairing_bind repairing_getEntryPoint fun ep s3 hs3 => ?_
    split
    · exact repairing_bind (repairing_unlock .ShareLock) fun _ _ _ =>
        repairing_bind (repairing_lock .ExclusiveLock .RepairGraph) fun _ _ _ =>
          repairing_bind repairing_getEntryPoint fun ep _ hs4 =>
            repairing_repairConnections rel m hb element ep .ExclusiveLock hs4
    · exact repairing_repairConnections rel m hb element ep .ShareLock hs3
  · exact hs1

/-! ## 4. `RepairGraphEntryPoint` -/

theorem repairing_repairHighestPoint (highestPoint : Option EntryPoint) (hs : Room t F s) :
    Repairing t F (repairHighestPoint rel m deleted highestPoint budget) s := by
  unfold repairHighestPoint
  cases highestPoint with
  | none => exact hs
  | some p =>
      refine repairing_bind (repairing_lock _ _) fun _ _ _ =>
        repairing_bind (repairing_loadElement p.tid) fun element _ _ =>
          repairing_bind (repairing_needsUpdated deleted element) fun needed s1 _ => ?_
      split
      · exact repairing_bind repairing_getEntryPoint fun ep _ hs2 =>
          repairing_bind (repairing_bind (repairing_repairElement rel m element ep hb hs2) fun _ _ h => h)
            fun _ _ _ => repairing_bind (repairing_unlock _) fun _ _ h => h
      · exact repairing_bind (repairing_unlock _) fun _ _ h => h

theorem repairing_repairEntryPoint (highestPoint : Option EntryPoint) :
    Repairing t F (repairEntryPoint rel m deleted highestPoint budget) s := by
  refine repairing_bind repairing_getEntryPoint fun ep s1 hs1 => ?_
  cases ep with
  | none => exact hs1
  | some ep =>
      simp only
      split
      · exact repairing_section (.updateMetaPage _ _ none) rfl
      · refine repairing_bind (repairing_loadElement ep.tid) fun element _ _ =>
          repairing_bind (repairing_needsUpdated deleted element) fun needed s2 hs2 => ?_
        split
        · exact repairing_bind (repairing_repairElement rel m element highestPoint hb hs2) fun _ _ h => h
        · exact hs2

/-- **`RepairGraphEntryPoint`.** -/
theorem repairing_repairGraphEntryPoint (highestPoint : Option EntryPoint) (hs : Room t F s) :
    Repairing t F (RepairGraphEntryPoint rel m deleted highestPoint budget) s :=
  repairing_bind (repairing_repairHighestPoint rel m deleted hb highestPoint hs) fun hp _ _ =>
    repairing_bind (repairing_lock _ _) fun _ _ _ =>
      repairing_bind (repairing_repairEntryPoint rel m deleted hb hp) fun _ _ _ =>
        repairing_bind (repairing_enter _) fun _ _ _ => repairing_unlock _

end Repair

end Pgvec.Hnsw
