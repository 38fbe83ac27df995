/-
  File:      Pgvec/Hnsw/Released.lean
  Subject:   EVERY CALL GIVES ITS PAGE LOCKS BACK: inserts on disk and vacuums, whatever the index answers.

  * `Moves` -- a program that returns takes the holders from one list to another; its rules;
  * `moves_repairOne`, `moves_repairGraph`, `moves_markDeleted` -- the passes of a vacuum;
  * **`moves_insertTupleOnDisk`**, **`moves_bulkdelete`** -- a call leaves the holders as they were.
-/
import Pgvec.Hnsw.Insert
import Pgvec.Hnsw.Issued

namespace Pgvec.Hnsw

open Conc

variable {V δ α β : Type} {t : Nat} {hs hs' hs'' : List Holder}

/-! ## 1. The holders of a run -/

/-- **Run from the first holders, the program returns with the second ones**, if it returns. -/
def Moves (t : Nat) (p : HnswProg V α) (hs hs' : List Holder) : Prop :=
  ∀ (s : St V) (r : α × St V), s.holders = hs → run (hnswMachine V) t p s = some r → r.2.holders = hs'

theorem moves_ret (a : α) : Moves (V := V) t (.ret a) hs hs := fun _ _ h hr => by
  cases hr
  exact h

theorem moves_error (msg : String) : Moves (V := V) t (.error msg : HnswProg V α) hs hs' := fun _ _ _ hr => by
  cases hr

/-- Sequencing. -/
theorem Moves.bind {p : HnswProg V α} {f : α → HnswProg V β} (h : Moves t p hs hs')
    (hf : ∀ a, Moves t (f a) hs' hs'') : Moves t (p >>= f) hs hs'' := fun s r' hh hr => by
  rw [run_bind] at hr
  obtain ⟨r, hp, hr⟩ := Option.bind_eq_some_iff.mp hr
  exact hf r.1 r.2 r' (h s r hh hp) hr

/-- A loop whose rounds leave the holders as they were. -/
theorem moves_foldlM {f : β → α → HnswProg V β} (h : ∀ b a, Moves t (f b a) hs hs) :
    ∀ (l : List α) (b : β), Moves t (l.foldlM f b) hs hs
  | [], b => moves_ret b
  | a :: l, b => by
      rw [List.foldlM_cons]
      exact (h b a).bind fun b' => moves_foldlM h l b'

theorem moves_lock (lock : PageLock) (mode : LockMode) (caller : Caller) :
    Moves (V := V) t (LockPage lock mode caller) hs (⟨t, lock, mode⟩ :: hs) := fun s _ hh hr => by
  simp only [LockPage, run, hnswMachine] at hr
  cases hw : mustWait s.holders t lock mode with
  | true =>
      rw [hw] at hr
      cases hr
  | false =>
      rw [hw] at hr
      cases hr
      exact congrArg _ hh

theorem moves_unlock (lock : PageLock) (mode : LockMode) :
    Moves (V := V) t (UnlockPage lock mode) (⟨t, lock, mode⟩ :: hs) hs := fun s _ hh hr => by
  cases hr
  show s.holders.erase ⟨t, lock, mode⟩ = hs
  rw [hh, List.erase_cons_head]

/-- **A program that takes no page lock and gives none back.** -/
theorem moves_of_all {p : HnswProg V α} {Q : α → Prop} (h : All NoLock Q p) : Moves t p hs hs := by
  intro s r hh hr
  refine ((h.alone (M := hnswMachine V) (t := t) (I := fun s => s.holders = hs) (C := fun _ => True)
    (fun o ho s' hs' x hx => ?_) hh).1 r hr).2
  cases o with
  | lockPage lock mode caller => exact ho.elim
  | unlockPage lock mode => exact ho.elim
  | enter phase =>
      cases hx
      exact ⟨hs', fun _ _ => trivial⟩
  | page o =>
      cases hx
      exact ⟨hs', fun _ _ => trivial⟩

theorem moves_section (o : PageOp V) : Moves t (section_ o) hs hs :=
  moves_of_all (Q := fun _ => True) ⟨trivial, fun _ => trivial⟩

theorem moves_pages {p : HnswProg V α} {Q : α → Prop} (h : All RepairsPages Q p) : Moves t p hs hs :=
  moves_of_all (h.mono (fun _ ho => ho.2) fun _ hq => hq)

/-! ## 2. A vacuum -/

section Calls

variable [LinearOrder δ] (rel : HnswRel V δ) (m : Nat) (deleted : List ItemPointer) (budget : Nat)

theorem moves_repairConnections (element : HnswElement V) (entryPoint : Option EntryPoint)
    (lockmode : LockMode) : Moves t (repairConnections rel m element entryPoint lockmode budget)
      (⟨t, .HNSW_UPDATE_LOCK, lockmode⟩ :: hs) hs := by
  refine (moves_pages (all_repairGraphElement rel m budget element entryPoint)).bind fun ep => ?_
  split
  · exact (moves_section _).bind fun _ => moves_unlock _ _
  · exact moves_unlock _ _

/-- **One element of `RepairGraph`**, with the share lock or after it with the exclusive one. -/
theorem moves_repairOne (element : HnswElement V) :
    Moves t (repairOne rel m deleted budget element) hs hs := by
  refine (moves_pages (all_needsUpdated deleted element)).bind fun needed => ?_
  split
  · refine (moves_lock _ _ _).bind fun _ => (moves_pages all_getEntryPoint).bind fun ep => ?_
    split
    · exact (moves_unlock _ _).bind fun _ => (moves_lock _ _ _).bind fun _ =>
        (moves_pages all_getEntryPoint).bind fun ep => moves_repairConnections rel m budget element ep _
    · exact moves_repairConnections rel m budget element ep _
  · exact moves_ret ()

theorem moves_repairGraphLoop : ∀ (n : Nat) (b : Option Nat),
    Moves t (repairGraphLoop rel m deleted budget n b) hs hs
  | 0, none => moves_ret ()
  | _ + 1, none => moves_ret ()
  | 0, some _ => fun _ _ _ hr => by cases hr
  | n + 1, some b => by
      unfold repairGraphLoop
      refine (moves_section (.liveElements b)).bind fun r => ?_
      cases r with
      | none => exact moves_error _
      | some r =>
          exact (moves_foldlM (fun _ element => moves_repairOne rel m deleted budget element) _ ()).bind
            fun _ => moves_repairGraphLoop n _

theorem moves_repairHighestPoint (highestPoint : Option EntryPoint) :
    Moves t (repairHighestPoint rel m deleted highestPoint budget) hs hs := by
  unfold repairHighestPoint
  cases highestPoint with
  | none => exact moves_ret none
  | some p =>
      refine (moves_lock _ _ _).bind fun _ => (moves_pages (all_loadElement p.tid)).bind fun element =>
        (moves_pages (all_needsUpdated deleted element)).bind fun needed => ?_
      split
      · exact (moves_pages all_getEntryPoint).bind fun ep =>
          (moves_pages (all_discardRepair rel m budget element ep)).bind fun _ =>
            (moves_unlock _ _).bind fun _ => moves_ret _
      · exact (moves_unlock _ _).bind fun _ => moves_ret _

/-- **`RepairGraph`.** -/
theorem moves_repairGraph (vs : VacuumState) : Moves t (RepairGraph rel m vs budget) hs hs :=
  (moves_lock _ _ _).bind fun _ => (moves_pages (all_enter _)).bind fun _ => (moves_unlock _ _).bind fun _ =>
    -- `RepairGraphEntryPoint`
    ((moves_repairHighestPoint rel m vs.deleted budget vs.highestPoint).bind fun hp =>
      (moves_lock _ _ _).bind fun _ => (moves_pages (all_repairEntryPoint rel m vs.deleted budget hp)).bind
        fun _ => (moves_pages (all_enter _)).bind fun _ => moves_unlock _ _).bind fun _ =>
    moves_repairGraphLoop rel m vs.deleted budget budget _

omit [LinearOrder δ] in
theorem all_markDeletedLoop (zeroDatum : V) : ∀ (n : Nat) (b ip : Option Nat),
    All NoLock (fun _ => True) (markDeletedLoop zeroDatum n b ip)
  | 0, none, _ => trivial
  | _ + 1, none, _ => trivial
  | 0, some _, _ => trivial
  | n + 1, some b, ip => by
      refine ⟨trivial, fun r => ?_⟩
      cases r with
      | none => trivial
      | some r => exact all_markDeletedLoop zeroDatum n _ _

omit [LinearOrder δ] in
/-- **`MarkDeleted`.** -/
theorem moves_markDeleted (zeroDatum : V) : Moves t (MarkDeleted zeroDatum budget) hs hs :=
  (moves_lock _ _ _).bind fun _ => (moves_pages (all_enter _)).bind fun _ => (moves_unlock _ _).bind fun _ =>
    (moves_of_all (all_markDeletedLoop zeroDatum budget _ _)).bind fun _ =>
      moves_section _

/-- **`hnswbulkdelete` leaves the holders as they were.** -/
theorem moves_bulkdelete (stats : Option IndexBulkDeleteResult) (callback : ItemPointer → Bool) :
    Moves t (hnswbulkdelete rel stats callback budget) hs hs :=
  (moves_section .getMetaPageInfo).bind fun metap => (moves_pages (all_enter _)).bind fun _ =>
    (moves_of_all (all_removeHeapTids _ callback budget trivial fun _ => trivial)).bind fun vs =>
      (moves_repairGraph rel metap.m budget vs).bind fun _ =>
        (moves_markDeleted budget rel.support.zeroDatum).bind fun _ =>
          (moves_pages (all_enter _)).bind fun _ => moves_ret _

/-! ## 3. An insert -/

variable [DecidableEq V]

/-- **`HnswInsertTupleOnDisk` leaves the holders as they were.** -/
theorem moves_insertTupleOnDisk (value : V) (heaptid : ItemPointer) (rnd : Nat) :
    Moves t (HnswInsertTupleOnDisk rel value heaptid rnd budget) hs hs := by
  -- what is done under the lock
  have hbody : ∀ (m : Nat) (ep : Option EntryPoint) (mode : LockMode), Moves t (do
      let found ← findNeighborsOnDisk rel (HnswInitElement heaptid m rnd value) ep m false budget
      UpdateGraphOnDisk rel found.1 value heaptid m found.2 budget
      UnlockPage .HNSW_UPDATE_LOCK mode) (⟨t, .HNSW_UPDATE_LOCK, mode⟩ :: hs) hs := by
    intro m ep mode
    exact (moves_of_all ((all_findNeighborsOnDisk rel m budget _ ep false).mono (fun _ ho => ho.repairs.2)
      fun _ h => h)).bind fun found =>
        (moves_of_all (all_updateGraphOnDisk rel found.1 value heaptid m found.2 budget (fun _ => trivial)
          (fun _ _ _ => trivial) (fun _ ho => ho.repairs.2) trivial fun _ _ _ => trivial)).bind fun _ =>
            moves_unlock _ _
  unfold HnswInsertTupleOnDisk
  refine (moves_lock _ _ _).bind fun _ => (moves_section .getMetaPageInfo).bind
    fun metap => ?_
  simp only
  split
  · exact (moves_unlock _ _).bind fun _ => (moves_lock _ _ _).bind fun _ =>
      (moves_pages all_getEntryPoint).bind fun ep => hbody _ ep _
  · exact hbody _ metap.entry _

end Calls

end Pgvec.Hnsw
