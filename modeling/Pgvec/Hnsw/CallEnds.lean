/-
  File:      Pgvec/Hnsw/CallEnds.lean
  Subject:   EVERY CALL COMES TO AN END: inserts on disk and vacuums, started while nobody else holds a page
             lock, with a budget beyond the pages and beyond twice the tuples.

  * `Quiet` -- the pages are a chain and nobody else holds a page lock; `Quiet.run` -- any program keeps it;
  * `ends_then`, `ends_lock`, `ends_unlock`, `ends_enter` -- one step, and what comes after it;
  * **`bulkdelete_ends`** -- a vacuum: its page loops follow the chain, and no pass makes an element;
  * **`insertTuple_ends`** -- an insert: the search comes first, and the page loop follows the chain.
-/
import Pgvec.Hnsw.PageLoops
import Pgvec.Hnsw.Insert

namespace Pgvec.Hnsw

open Conc

variable {V δ α β : Type} {t : Nat} {s : St V}

/-! ## 1. Running alone -/

/-- **Nobody else holds a page lock**, and the pages are a chain. -/
structure Quiet (t : Nat) (s : St V) : Prop where
  chained : s.index.Chained
  alone : ∀ h ∈ s.holders, h.backend = t

/-- One operation. -/
theorem Quiet.step (hs : Quiet t s) {o : Op V} {r : Outcome (St V) o.Resp}
    (hx : (hnswMachine V).exec t o s = some r) : Quiet t r.final := by
  refine ⟨(chained_step hx hs.chained).1, ?_⟩
  cases o with
  | lockPage lock mode caller =>
      simp only [hnswMachine] at hx
      split at hx
      · cases hx
      · cases hx
        intro h hm
        rcases List.mem_cons.mp hm with rfl | hm
        · rfl
        · exact hs.alone h hm
  | unlockPage lock mode =>
      cases hx
      exact fun h hm => hs.alone h (List.mem_of_mem_erase hm)
  | enter phase =>
      cases hx
      exact hs.alone
  | page o =>
      rw [exec_page] at hx
      cases hx
      exact hs.alone

/-- **Any program.** -/
theorem Quiet.run (hs : Quiet t s) {p : HnswProg V α} {r : α × St V}
    (hr : run (hnswMachine V) t p s = some r) : Quiet t r.2 :=
  (((all_any p).alone (I := Quiet t) (C := fun _ => True)
    (fun _ _ _ h _ hx => ⟨h.step hx, fun _ _ => trivial⟩) hs).1 r hr).2

theorem Quiet.after (hs : Quiet t s) (o : PageOp V) : Quiet t (s.after o) := hs.step (exec_page t o s)

/-- A repair has what it counts on. -/
theorem Quiet.room (hs : Quiet t s) {F : Finset ItemPointer} (hF : ∀ {u e}, s.index.elem? u = some e → u ∈ F) :
    Room t F s := ⟨fun h hm _ => hs.alone h hm, hF⟩

/-- A program, and what comes after it. -/
theorem ends_then {p : HnswProg V α} {f : α → HnswProg V β} (hp : Ends (hnswMachine V) t p s)
    (hs : Quiet t s) (hf : ∀ r, run (hnswMachine V) t p s = some r → Quiet t r.2 →
      Ends (hnswMachine V) t (f r.1) r.2) : Ends (hnswMachine V) t (p >>= f) s :=
  ends_bind hp fun r hr => hf r hr (hs.run hr)

section Steps

variable {f : Unit → HnswProg V α}

/-- `LockPage` does not wait. -/
theorem ends_lock {lock : PageLock} {mode : LockMode} {caller : Caller} (hs : Quiet t s)
    (hf : ∀ s', s'.index = s.index → Quiet t s' → Ends (hnswMachine V) t (f ()) s') :
    Ends (hnswMachine V) t (LockPage lock mode caller >>= f) s := by
  have hw : mustWait s.holders t lock mode = false := by
    simp only [mustWait, List.any_eq_false]
    intro h hm
    simp [hs.alone h hm]
  have hx : (hnswMachine V).exec t (.lockPage lock mode caller) s =
      some ⟨[], { s with holders := ⟨t, lock, mode⟩ :: s.holders }, ()⟩ := by
    simp only [hnswMachine, hw, Bool.false_eq_true, if_false]
  exact ⟨_, hx, hf _ rfl (hs.step hx)⟩

theorem ends_unlock {lock : PageLock} {mode : LockMode} (hs : Quiet t s)
    (hf : ∀ s', s'.index = s.index → Quiet t s' → Ends (hnswMachine V) t (f ()) s') :
    Ends (hnswMachine V) t (UnlockPage lock mode >>= f) s :=
  ⟨_, rfl, hf _ rfl (hs.step (o := .unlockPage lock mode) rfl)⟩

theorem ends_enter {phase : VacuumPhase} (hs : Quiet t s)
    (hf : ∀ s', s'.index = s.index → Quiet t s' → Ends (hnswMachine V) t (f ()) s') :
    Ends (hnswMachine V) t (enter phase >>= f) s :=
  ⟨_, rfl, hf _ rfl (hs.step (o := .enter phase) rfl)⟩

end Steps

/-- What the operations of a program keep of the index. -/
theorem index_run {ok : Op V → Prop} {I : Index V → Prop} {p : HnswProg V α} (h : All ok (fun _ => True) p)
    (hpage : ∀ o, ok (.page o) → ∀ i, I i → ∀ c ∈ (execPage o i).commits, I c) (hs : I s.index)
    {r : α × St V} (hr : run (hnswMachine V) t p s = some r) : I r.2.index := by
  exact ((h.alone (M := hnswMachine V) (t := t) (I := fun s => I s.index) (C := fun _ => True)
    (fun o ho s' hs' x hx => ⟨(exec_keeps hx hs' fun p hp => hpage p (hp ▸ ho) s'.index hs').1,
      fun _ _ => trivial⟩) hs).1 r hr).2

/-! ## 2. A vacuum -/

section Calls

variable {budget : Nat}

/-- **`RemoveHeapTids`** adds no page and makes no element. -/
theorem removeHeapTids_run {stats : IndexBulkDeleteResult} {callback : ItemPointer → Bool}
    {r : VacuumState × St V}
    (hr : run (hnswMachine V) t (RemoveHeapTids stats callback budget) s = some r) :
    Elems s.index r.2.index ∧ r.2.index.pages.length = s.index.pages.length := by
  have hall : All (fun o => o = .page .getMetaPageInfo ∨ ∃ b, o = .page (.removeHeapTids b callback))
      (fun _ => True) (RemoveHeapTids stats callback budget : HnswProg V VacuumState) :=
    all_removeHeapTids stats callback budget (Or.inl rfl) fun b => Or.inr ⟨b, rfl⟩
  refine index_run (I := fun i => Elems s.index i ∧ i.pages.length = s.index.pages.length) hall
    (fun o ho i hi => ?_) ⟨Elems.refl s.index, rfl⟩ hr
  rcases ho with ho | ⟨b, ho⟩
  · cases ho
    exact fun c hc => absurd hc List.not_mem_nil
  · cases ho
    refine removeHeapTids_keeps hi fun j o hj => ⟨fun {u e} he => ?_, ?_⟩
    · obtain ⟨e', he'⟩ := elems_modifyItem j ⟨b, o⟩ (fun it e h => by
        cases it <;> first | exact ⟨_, rfl⟩ | cases h) he
      exact hj.1 he'
    · exact (Index.same_modifyItem _).length.trans hj.2

theorem removeHeapTids_ends (stats : IndexBulkDeleteResult) (callback : ItemPointer → Bool) (hs : Quiet t s)
    (hn : s.index.pages.length ≤ budget) :
    Ends (hnswMachine V) t (RemoveHeapTids stats callback budget) s :=
  ends_section (removeHeapTids_loop t callback _ budget 1 _ hs.chained ⟨Nat.le_refl 1, hs.chained.pos⟩
    (by omega)).1

/-- **`MarkDeleted`.** -/
theorem markDeleted_ends (zeroDatum : V) (hs : Quiet t s) (hn : s.index.pages.length ≤ budget) :
    Ends (hnswMachine V) t (MarkDeleted zeroDatum budget) s := by
  refine ends_lock hs fun s1 h1 hs1 => ends_enter hs1 fun s2 h2 hs2 => ends_unlock hs2 fun s3 h3 hs3 => ?_
  rw [h2.trans h1] at h3
  exact ends_then (markDeleted_loop t zeroDatum budget 1 none hs3.chained ⟨Nat.le_refl 1, hs3.chained.pos⟩
    (by rw [h3]; omega)).1 hs3 fun _ _ _ => ⟨_, exec_page t _ _, trivial⟩

variable [LinearOrder δ] (rel : HnswRel V δ)

/-- `RepairGraph` adds no page. -/
theorem repairGraph_run {m : Nat} {vs : VacuumState} {r : Unit × St V}
    (hr : run (hnswMachine V) t (RepairGraph rel m vs budget) s = some r) :
    r.2.index.pages.length = s.index.pages.length := by
  have hall : All (fun o => Repairs o ∨ ∃ b, o = .page (.liveElements b)) (fun _ => True)
      (RepairGraph rel m vs budget) :=
    all_repairGraph rel m budget (fun _ ho => Or.inl ho) (fun b => Or.inr ⟨b, rfl⟩) vs
  refine index_run (I := fun i => i.pages.length = s.index.pages.length) hall (fun o ho i hi c hc => ?_) rfl hr
  rcases ho with ho | ⟨b, ho⟩
  · exact (execPage_repaired ho i c hc).length.trans hi
  · cases ho
    exact absurd hc List.not_mem_nil

/-- **A vacuum comes to an end.** -/
theorem bulkdelete_ends (stats : Option IndexBulkDeleteResult) (callback : ItemPointer → Bool)
    (hs : Quiet t s) (hn : s.index.pages.length ≤ budget) (hb : 2 * s.index.tids.length < budget) :
    Ends (hnswMachine V) t (hnswbulkdelete rel stats callback budget) s := by
  have hcard : 2 * s.index.tids.toFinset.card < budget := by
    have := List.toFinset_card_le s.index.tids
    omega
  refine ends_section (ends_enter (s := s) hs fun s1 h1 hs1 => ?_)
  refine ends_then (removeHeapTids_ends _ callback hs1 (by rw [h1]; exact hn)) hs1 fun r2 hr2 hs2 => ?_
  obtain ⟨helems, hlen⟩ := removeHeapTids_run hr2
  rw [h1] at helems hlen
  have hroom : Room t s.index.tids.toFinset r2.2 := hs2.room fun {u e} he => by
    obtain ⟨e', he'⟩ := helems he
    exact List.mem_toFinset.mpr (Index.elem?_mem_tids he')
  refine ends_then (repairGraph_ends hcard rel _ r2.1 hs2.chained hroom (by rw [hlen]; exact hn)) hs2
    fun r3 hr3 hs3 => ?_
  have hlen3 : r3.2.index.pages.length ≤ budget := by
    rw [repairGraph_run rel hr3, hlen]
    exact hn
  exact ends_then (markDeleted_ends rel.support.zeroDatum hs3 hlen3) hs3 fun r4 _ hs4 =>
    ends_enter hs4 fun _ _ _ => trivial

/-! ## 3. An insert -/

omit [LinearOrder δ] in
/-- **`AddElementOnDisk`**, from any insert page. -/
theorem addElementOnDisk_ends (e : LocalElement V δ) (m : Nat) (value : V) (insertPage : Option Nat)
    (hs : Quiet t s) (hn : s.index.pages.length ≤ budget) :
    Ends (hnswMachine V) t (AddElementOnDisk rel e m value insertPage budget) s := by
  unfold AddElementOnDisk
  cases insertPage with
  | none => trivial
  | some b =>
      refine ends_then ?_ hs fun _ _ _ => trivial
      by_cases hb : s.index.HasPage b
      · exact (addElement_loop t _ budget b none s hs.chained hb).2 (by have := hb.1; omega)
      · -- there is no such page: the first round is an error
        obtain ⟨n, rfl⟩ : ∃ n, budget = n + 1 :=
          Nat.exists_eq_succ_of_ne_zero (by have := hs.chained.pos; omega)
        have hpage : s.index.page? b = none := by
          cases hp : s.index.page? b with
          | none => rfl
          | some p => exact absurd (Index.hasPage_iff.mpr ⟨p, hp⟩) hb
        unfold addElementLoop
        refine ends_section ?_
        simp only [execPage, addElement, hpage]
        trivial

/-- `HnswUpdateNeighborsOnDisk`, for any neighbors. -/
theorem updateNeighbors_ends (e : LocalElement V δ) (m : Nat) (hs : Quiet t s) :
    Ends (hnswMachine V) t (HnswUpdateNeighborsOnDisk rel e m false) s := by
  let F := s.index.tids.toFinset ∪ (e.neighbors.flatMap fun a => a.items.map fun hc => hc.element.tid).toFinset
  have hroom : Room t F s := hs.room fun {u e'} he =>
    Finset.mem_union_left _ (List.mem_toFinset.mpr (Index.elem?_mem_tids he))
  refine ((repairing_updateNeighbors rel e m false hroom fun lc hc hm => ?_).ends hroom).1
  refine Finset.mem_union_right _ (List.mem_toFinset.mpr ?_)
  unfold LocalElement.layer at hm
  split at hm
  · cases hm
  · rename_i a ha
    exact List.mem_flatMap.mpr ⟨a, List.mem_of_getElem? ha, List.mem_map_of_mem hm⟩

variable [DecidableEq V]

omit [LinearOrder δ] in
theorem findDuplicate_ends (value : V) (heaptid : ItemPointer) :
    ∀ (l : List (HnswCandidate (HnswElement V) δ)) (s : St V),
      Ends (hnswMachine V) t (FindDuplicateOnDisk value heaptid l) s
  | [], _ => trivial
  | hc :: l, s => by
      unfold FindDuplicateOnDisk
      split
      · trivial
      · refine ends_section ?_
        show Ends _ _ (if _ = true then _ else _) _
        split
        · trivial
        · exact findDuplicate_ends value heaptid l _

/-- **`UpdateGraphOnDisk`.** -/
theorem updateGraph_ends (e : LocalElement V δ) (value : V) (heaptid : ItemPointer) (m : Nat)
    (entryPoint : Option EntryPoint) (hs : Quiet t s) (hn : s.index.pages.length ≤ budget) :
    Ends (hnswMachine V) t (UpdateGraphOnDisk rel e value heaptid m entryPoint budget) s := by
  have hconnect : ∀ (e : LocalElement V δ) (s : St V), Quiet t s → Ends (hnswMachine V) t (do
      HnswUpdateNeighborsOnDisk rel e m false
      if levelAbove e.element.level entryPoint then
        section_ (.updateMetaPage .greater (some e.element.asEntryPoint) none) : HnswProg V Unit) s := by
    intro e s hs
    refine ends_then (updateNeighbors_ends rel e m hs) hs fun r _ _ => ?_
    split
    · exact ⟨_, exec_page t _ _, trivial⟩
    · trivial
  unfold UpdateGraphOnDisk
  refine ends_then (findDuplicate_ends value heaptid _ s) hs fun r hr hs1 => ?_
  have hlen : r.2.index.pages.length = s.index.pages.length := by
    have hall : All (fun o => ∃ tid, o = .page (.addDuplicate tid heaptid)) (fun _ => True)
        (FindDuplicateOnDisk value heaptid (e.layer 0)) :=
      all_findDuplicate value heaptid (fun tid => ⟨tid, rfl⟩) _
    refine index_run (I := fun i => i.pages.length = s.index.pages.length) hall (fun o ho i hi c hc => ?_) rfl hr
    obtain ⟨tid, ho⟩ := ho
    cases ho
    exact (execPage_same (.addDuplicate tid heaptid) trivial i c hc).length.trans hi
  split
  · trivial
  · refine ends_section (ends_then (s := r.2) (addElementOnDisk_ends rel e m value _ hs1 (by rw [hlen]; exact hn))
      hs1 fun r2 _ hs2 => ?_)
    obtain ⟨⟨e', nip⟩, s2⟩ := r2
    simp only
    split
    · exact ends_section (hconnect e' _ (hs2.after _))
    · exact hconnect e' s2 hs2

/-- **An insert comes to an end.** -/
theorem insertTuple_ends (value : V) (heaptid : ItemPointer) (rnd : Nat) (hs : Quiet t s)
    (hn : s.index.pages.length ≤ budget) (hb : 2 * s.index.tids.length < budget) :
    Ends (hnswMachine V) t (HnswInsertTupleOnDisk rel value heaptid rnd budget) s := by
  -- what is done under the lock
  have hbody : ∀ (m : Nat) (ep : Option EntryPoint) (mode : LockMode) (s' : St V), s'.index = s.index →
      Quiet t s' → Ends (hnswMachine V) t (do
        let found ← findNeighborsOnDisk rel (HnswInitElement heaptid m rnd value) ep m false budget
        UpdateGraphOnDisk rel found.1 value heaptid m found.2 budget
        UnlockPage .HNSW_UPDATE_LOCK mode) s' := by
    intro m ep mode s' h' hs'
    have hroom : Room t s.index.tids.toFinset s' := hs'.room fun {u e} he =>
      List.mem_toFinset.mpr (Index.elem?_mem_tids (h' ▸ he))
    have hfind := repairing_findNeighbors rel m (HnswInitElement heaptid m rnd value) ep false
      (show 2 * s.index.tids.toFinset.card < budget by
        have := List.toFinset_card_le s.index.tids
        omega) hroom
    refine ends_then (ends_of_valid (fun _ => rfl) (fun _ _ => trivial) id (fun _ _ h => h) hroom hfind) hs'
      fun r hr hs1 => ?_
    have hr2 : r.2 = s' := ((valid_alone (fun _ => rfl) (fun _ _ => trivial) hroom hfind).1 r hr).1.1
    refine ends_then (updateGraph_ends rel r.1.1 value heaptid m r.1.2 hs1 (by rw [hr2, h']; exact hn)) hs1
      fun r2 _ _ => ?_
    exact ⟨_, rfl, trivial⟩
  unfold HnswInsertTupleOnDisk
  refine ends_lock hs fun s1 h1 hs1 => ends_section ?_
  simp only
  split
  · refine ends_unlock (s := s1) hs1 fun s2 h2 hs2 => ends_lock hs2 fun s3 h3 hs3 => ends_section ?_
    exact hbody _ _ _ s3 (h3.trans (h2.trans h1)) hs3
  · exact hbody _ _ _ s1 h1 hs1

end Calls

end Pgvec.Hnsw
