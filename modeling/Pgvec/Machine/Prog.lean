/-
  File:      Pgvec/Machine/Prog.lean
  Subject:   PROGRAMS AS TREES OF ATOMIC SECTIONS, AND THEIR RUNS. Names nothing of any program.

  A program over operations `O` (operation `o` answers with an `R o`) is a tree: it returns, it
  runs one operation and continues with the answer, it fails with an error message, or it was cut
  off because the budget of one of its loops ran out. A machine says what one operation does to
  the shared state `σ` when process `t` runs it:

  * `exec t o s = none` -- the operation has to wait (a lock another process holds);
  * `exec t o s = some r` -- it answers `r.resp` and leaves the shared state `r.final`; on its way
    it made the states `r.commits` durable, in this order (one operation is atomic for the other
    processes, but a crash may expose every state in `r.commits`).

  * `run` -- the program alone, from a state to its answer and the state it leaves;
  * `commits` -- the durable states a program run alone passes through;
  * `Config`, `step`, `Run` -- several programs on one shared state, interleaved operation by
    operation; `schedule` runs an interleaving given as a list of process numbers.
-/
import Mathlib.Data.List.Basic

namespace Conc

/-- A program: a tree of operations. `cut` is a loop whose budget ran out; it makes no step. -/
inductive Prog (O : Type) (R : O → Type) (α : Type) : Type where
  | ret (a : α) : Prog O R α
  | op (o : O) (k : R o → Prog O R α) : Prog O R α
  | error (msg : String) : Prog O R α
  | cut : Prog O R α

variable {O : Type} {R : O → Type} {σ α β γ : Type}

namespace Prog

/-- Sequencing: the continuation takes over where the first program returns. -/
def bind : Prog O R α → (α → Prog O R β) → Prog O R β
  | .ret a, f => f a
  | .op o k, f => .op o fun r => (k r).bind f
  | .error msg, _ => .error msg
  | .cut, _ => .cut

instance : Monad (Prog O R) where
  pure := .ret
  bind := bind

/-- The program of one operation. -/
def perform (o : O) : Prog O R (R o) := .op o .ret

@[simp] theorem pure_eq (a : α) : (pure a : Prog O R α) = .ret a := rfl

@[simp] theorem ret_bind (a : α) (f : α → Prog O R β) : Prog.ret a >>= f = f a := rfl

@[simp] theorem op_bind (o : O) (k : R o → Prog O R α) (f : α → Prog O R β) :
    Prog.op o k >>= f = .op o fun r => k r >>= f := rfl

@[simp] theorem error_bind (msg : String) (f : α → Prog O R β) :
    (Prog.error msg : Prog O R α) >>= f = .error msg := rfl

@[simp] theorem cut_bind (f : α → Prog O R β) : (Prog.cut : Prog O R α) >>= f = .cut := rfl

@[simp] theorem perform_bind (o : O) (f : R o → Prog O R β) :
    Prog.perform o >>= f = .op o f := rfl

theorem bind_ret (p : Prog O R α) : p >>= Prog.ret = p := by
  induction p with
  | ret a => rfl
  | op o k ih => exact congrArg (Prog.op o) (funext ih)
  | error msg => rfl
  | cut => rfl

theorem bind_assoc (p : Prog O R α) (f : α → Prog O R β) (g : β → Prog O R γ) :
    (p >>= f) >>= g = p >>= fun a => f a >>= g := by
  induction p with
  | ret a => rfl
  | op o k ih => exact congrArg (Prog.op o) (funext ih)
  | error msg => rfl
  | cut => rfl

instance : LawfulMonad (Prog O R) :=
  LawfulMonad.mk' (Prog O R) bind_ret (fun _ _ => rfl) bind_assoc

end Prog

/-- What one operation did: the durable states it passed, the state it leaves, its answer. -/
structure Outcome (σ ρ : Type) where
  commits : List σ
  final : σ
  resp : ρ

/-- A machine: the meaning of each operation, and what an error of a process does to the shared
    state (it gives back what the process holds). -/
structure Machine (O : Type) (R : O → Type) (σ : Type) where
  exec : Nat → (o : O) → σ → Option (Outcome σ (R o))
  abort : Nat → σ → σ

/-- A machine without durable states and without errors. -/
def Machine.plain (exec : Nat → (o : O) → σ → Option (σ × R o)) : Machine O R σ where
  exec t o s := (exec t o s).map fun r => ⟨[], r.1, r.2⟩
  abort _ s := s

/-! ## 1. One program alone -/

section Alone

variable (M : Machine O R σ) (t : Nat)

/-- The program run alone as process `t`: its answer and the state it leaves. -/
def run : Prog O R α → σ → Option (α × σ)
  | .ret a, s => some (a, s)
  | .op o k, s =>
      match M.exec t o s with
      | none => none
      | some r => run (k r.resp) r.final
  | .error _, _ => none
  | .cut, _ => none

/-- The durable states the program passes through when it runs alone, in order. -/
def commits : Prog O R α → σ → List σ
  | .ret _, _ => []
  | .op o k, s =>
      match M.exec t o s with
      | none => []
      | some r => r.commits ++ commits (k r.resp) r.final
  | .error _, _ => []
  | .cut, _ => []

@[simp] theorem run_ret (a : α) (s : σ) : run M t (.ret a : Prog O R α) s = some (a, s) := rfl

theorem run_op {o : O} {k : R o → Prog O R α} {s : σ} {r : Outcome σ (R o)}
    (h : M.exec t o s = some r) : run M t (.op o k) s = run M t (k r.resp) r.final := by
  simp only [run, h]

theorem run_bind (p : Prog O R α) (f : α → Prog O R β) (s : σ) :
    run M t (p >>= f) s = (run M t p s).bind fun r => run M t (f r.1) r.2 := by
  induction p generalizing s with
  | ret a => rfl
  | op o k ih =>
      rw [Prog.op_bind]
      simp only [run]
      cases M.exec t o s with
      | none => rfl
      | some r => exact ih r.resp r.final
  | error msg => rfl
  | cut => rfl

end Alone

/-! ## 2. Several programs on one shared state -/

/-- The shared state and what each process still has to run. -/
structure Config (O : Type) (R : O → Type) (σ : Type) where
  shared : σ
  threads : List (Prog O R Unit)

/-- **One step of process `t`**: it runs the operation it stands at, or, after an error, gives
    back what it holds and ends. -/
def step (M : Machine O R σ) (t : Nat) (c : Config O R σ) : Option (Config O R σ) :=
  match c.threads[t]? with
  | some (.op o k) =>
      match M.exec t o c.shared with
      | some r => some ⟨r.final, c.threads.set t (k r.resp)⟩
      | none => none
  | some (.error _) => some ⟨M.abort t c.shared, c.threads.set t (.ret ())⟩
  | _ => none

/-- The operation process `t` stands at. -/
def Config.next (c : Config O R σ) (t : Nat) : Option O :=
  match c.threads[t]? with
  | some (.op o _) => some o
  | _ => none

/-- **The configurations an interleaving reaches.** `cond` restricts the steps taken: an operation
    `o` of process `t` is run from a state `s` only if `cond s t o`. -/
inductive Run (M : Machine O R σ) (cond : σ → Nat → O → Prop) (c0 : Config O R σ) :
    Config O R σ → Prop where
  | start : Run M cond c0 c0
  | step (c c' : Config O R σ) (t : Nat) (h : Run M cond c0 c)
      (hc : ∀ o, c.next t = some o → cond c.shared t o) (hs : Conc.step M t c = some c') :
      Run M cond c0 c'

/-- The interleaving given as a list of process numbers, as long as every operation passes a test. -/
def schedule (M : Machine O R σ) (ok : σ → Nat → O → Bool) :
    List Nat → Config O R σ → Option (Config O R σ)
  | [], c => some c
  | t :: ts, c =>
      if (c.next t).all (ok c.shared t) then (step M t c).bind (schedule M ok ts) else none

theorem Run.trans {M : Machine O R σ} {cond : σ → Nat → O → Prop} {c0 c c' : Config O R σ}
    (h : Run M cond c0 c) (h' : Run M cond c c') : Run M cond c0 c' := by
  induction h' with
  | start => exact h
  | step d d' t _ hc hs ih => exact .step d d' t ih hc hs

/-- A schedule that goes through is an interleaving. -/
theorem run_of_schedule {M : Machine O R σ} {ok : σ → Nat → O → Bool} :
    ∀ (ts : List Nat) {c c' : Config O R σ}, schedule M ok ts c = some c' →
      Run M (fun s t o => ok s t o = true) c c'
  | [], c, c', h => by
      cases h
      exact .start
  | t :: ts, c, c', h => by
      unfold schedule at h
      split at h
      · rename_i hok
        obtain ⟨d, hd, h'⟩ := Option.bind_eq_some_iff.mp h
        refine (Run.step c d t .start (fun o ho => ?_) hd).trans (run_of_schedule ts h')
        exact (Option.all_eq_true _ _).mp hok o ho
      · cases h

theorem Run.mono {M : Machine O R σ} {cond cond' : σ → Nat → O → Prop} {c0 c : Config O R σ}
    (h : Run M cond c0 c) (hc : ∀ s t o, cond s t o → cond' s t o) : Run M cond' c0 c := by
  induction h with
  | start => exact .start
  | step d d' t _ hcd hs ih => exact .step d d' t ih (fun o ho => hc _ _ _ (hcd o ho)) hs

/-- A schedule whose end meets a test: a configuration with that property is reached. -/
theorem run_of_check {M : Machine O R σ} (cond : σ → Nat → O → Prop) (ok : σ → Nat → O → Bool)
    (ts : List Nat) {c : Config O R σ} (p : Config O R σ → Bool)
    (hok : ∀ s t o, ok s t o = true → cond s t o) (h : (schedule M ok ts c).any p = true) :
    ∃ c', Run M cond c c' ∧ p c' = true := by
  obtain ⟨c', hc, hp⟩ := (Option.any_eq_true _ _).mp h
  exact ⟨c', (run_of_schedule ts hc).mono hok, hp⟩

/-- What a step of process `t` did: an operation of the program it stood at, or the end of a
    failed program. -/
theorem step_cases {M : Machine O R σ} {t : Nat} {c c' : Config O R σ}
    (h : step M t c = some c') :
    (∃ o k r, c.threads[t]? = some (.op o k) ∧ M.exec t o c.shared = some r ∧
      c' = ⟨r.final, c.threads.set t (k r.resp)⟩) ∨
    (∃ msg, c.threads[t]? = some (.error msg) ∧
      c' = ⟨M.abort t c.shared, c.threads.set t (.ret ())⟩) := by
  unfold step at h
  split at h
  · rename_i o k hk
    split at h
    · rename_i r hr
      exact Or.inl ⟨o, k, r, hk, hr, (Option.some.inj h).symm⟩
    · cases h
  · rename_i msg hk
    exact Or.inr ⟨msg, hk, (Option.some.inj h).symm⟩
  · cases h

end Conc
