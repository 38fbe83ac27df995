/-
  File:      Pgvec/Machine/LWLock.lean
  Subject:   LIGHTWEIGHT LOCKS: shared and exclusive holders, no lock is taken twice. Names nothing of any
             program.

  * `mustWait`, `release` -- when an acquisition has to wait, and what a release leaves;
  * `Compatible` -- an exclusive holder is alone; kept by `Compatible.cons` and `Compatible.release`;
  * `Compatible.alone`, `Compatible.none_exclusive` -- what follows for the one who holds the lock;
  * `Owns` -- the locks one process holds, kept up to date by `Owns.acquire` and `Owns.release`.
-/
import Mathlib.Data.List.Basic

namespace LWLock

/-- `LW_SHARED` and `LW_EXCLUSIVE`. -/
inductive Mode where
  | LW_SHARED | LW_EXCLUSIVE
  deriving DecidableEq, Repr

/-- A lock that is held: the process, the lock, the mode. -/
structure Held (L : Type) where
  proc : Nat
  lock : L
  mode : Mode
  deriving DecidableEq, Repr

variable {L : Type} [DecidableEq L] {hs : List (Held L)} {t u : Nat} {lock : L} {mode : Mode}

/-- Somebody holds the lock, and one of the two modes is exclusive. -/
def mustWait (hs : List (Held L)) (lock : L) (mode : Mode) : Bool :=
  hs.any fun h => decide (h.lock = lock) && (h.mode == .LW_EXCLUSIVE || mode == .LW_EXCLUSIVE)

/-- What is left when process `t` gives the lock back. -/
def release (hs : List (Held L)) (t : Nat) (lock : L) : List (Held L) :=
  hs.filter fun h => !decide (h.proc = t ∧ h.lock = lock)

/-- **An exclusive holder is alone.** -/
def Compatible (hs : List (Held L)) : Prop :=
  hs.Pairwise fun a b => a.lock = b.lock → a.mode = .LW_SHARED ∧ b.mode = .LW_SHARED

theorem mustWait_false (h : mustWait hs lock mode = false) :
    ∀ a ∈ hs, a.lock = lock → a.mode = .LW_SHARED ∧ mode = .LW_SHARED := by
  intro a ha hl
  have := List.any_eq_false.mp h a ha
  rw [hl] at this
  revert this
  cases a.mode <;> cases mode <;> simp

theorem Compatible.cons (h : Compatible hs) (hw : mustWait hs lock mode = false) :
    Compatible (⟨t, lock, mode⟩ :: hs) := by
  refine List.Pairwise.cons (fun a ha hl => ?_) h
  obtain ⟨h1, h2⟩ := mustWait_false hw a ha hl.symm
  exact ⟨h2, h1⟩

theorem Compatible.release (h : Compatible hs) (t : Nat) (lock : L) : Compatible (release hs t lock) :=
  List.Pairwise.filter _ h

omit [DecidableEq L] in
/-- Whoever else holds a lock that is held in exclusive mode is the same holder. -/
theorem Compatible.alone (h : Compatible hs) (hm : (⟨t, lock, .LW_EXCLUSIVE⟩ : Held L) ∈ hs) :
    ∀ a ∈ hs, a.lock = lock → a = ⟨t, lock, .LW_EXCLUSIVE⟩ := by
  induction hs with
  | nil => cases hm
  | cons b hs ih =>
    obtain ⟨hb, hrest⟩ := List.pairwise_cons.mp h
    intro a ha hl
    rcases List.mem_cons.mp hm with rfl | hm' <;> rcases List.mem_cons.mp ha with rfl | ha'
    · rfl
    · exact absurd (hb a ha' hl.symm).1 (by simp)
    · exact absurd (hb _ hm' hl).2 (by simp)
    · exact ih hrest hm' a ha' hl

omit [DecidableEq L] in
/-- While a lock is held in shared mode, nobody holds it in exclusive mode. -/
theorem Compatible.none_exclusive (h : Compatible hs) (hm : (⟨t, lock, .LW_SHARED⟩ : Held L) ∈ hs) :
    ∀ u, (⟨u, lock, .LW_EXCLUSIVE⟩ : Held L) ∉ hs := by
  intro u hu
  have := h.alone hu _ hm rfl
  simp at this

theorem mem_release {a : Held L} : a ∈ release hs t lock ↔ a ∈ hs ∧ ¬ (a.proc = t ∧ a.lock = lock) := by
  simp only [release, List.mem_filter, Bool.not_eq_true', decide_eq_false_iff_not]

/-- The holders that are another process's, or of another lock, stay. -/
theorem mem_release_of_ne {a : Held L} (hne : a.proc ≠ t ∨ a.lock ≠ lock) :
    a ∈ release hs t lock ↔ a ∈ hs := by
  rw [mem_release]
  refine ⟨fun h => h.1, fun h => ⟨h, fun ⟨h1, h2⟩ => ?_⟩⟩
  rcases hne with h' | h'
  · exact h' h1
  · exact h' h2

/-- **Process `t` holds exactly these locks.** -/
def Owns (hs : List (Held L)) (t : Nat) (locks : List (L × Mode)) : Prop :=
  ∀ lock mode, (⟨t, lock, mode⟩ : Held L) ∈ hs ↔ (lock, mode) ∈ locks

/-- The locks left after one is given back. -/
def without (locks : List (L × Mode)) (lock : L) : List (L × Mode) :=
  locks.filter fun l => !decide (l.1 = lock)

variable {locks : List (L × Mode)}

omit [DecidableEq L] in
theorem Owns.acquire (h : Owns hs t locks) (lock : L) (mode : Mode) :
    Owns (⟨t, lock, mode⟩ :: hs) t ((lock, mode) :: locks) := by
  intro lock' mode'
  rw [List.mem_cons, List.mem_cons, h lock' mode']
  simp

theorem Owns.release (h : Owns hs t locks) (lock : L) : Owns (release hs t lock) t (without locks lock) := by
  intro lock' mode'
  rw [mem_release, h lock' mode', without, List.mem_filter]
  simp

omit [DecidableEq L] in
/-- What the others do with their locks. -/
theorem Owns.congr (h : Owns hs t locks) {hs' : List (Held L)}
    (hh : ∀ {x : Held L}, x.proc = t → (x ∈ hs' ↔ x ∈ hs)) : Owns hs' t locks :=
  fun lock mode => (hh rfl).trans (h lock mode)

end LWLock
