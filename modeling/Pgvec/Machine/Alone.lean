/-
  File:      Pgvec/Machine/Alone.lean
  Subject:   ONE PROGRAM AFTER THE OTHER: what a program run alone leaves behind and which operations it
             performs. Names nothing of any program.

  * `leaves` -- the state after the program, also when it failed; `leaves_bind` -- of two in sequence;
    `leaves_cases` -- which of the two it was;
  * `All.leaves`, **`valid_leaves`** -- what its operations keep holds of that state;
  * `issued` -- the operations performed, in order; `issued_bind`, `All.issued`.
-/
import Pgvec.Machine.Logic

namespace Conc

variable {O : Type} {R : O → Type} {σ α β γ : Type}

section Alone

variable (M : Machine O R σ) (t : Nat)

/-- The state a program run alone leaves. One that fails gives back what it holds; one that has to wait
    or is cut off leaves none. -/
def leaves : Prog O R α → σ → Option σ
  | .ret _, s => some s
  | .op o k, s =>
      match M.exec t o s with
      | none => none
      | some r => leaves (k r.resp) r.final
  | .error _, s => some (M.abort t s)
  | .cut, _ => none

/-- The operations a program run alone performs, as far as they are selected, in order. -/
def issued (sel : O → Option γ) : Prog O R α → σ → List γ
  | .ret _, _ => []
  | .op o k, s =>
      match M.exec t o s with
      | none => []
      | some r => (sel o).toList ++ issued sel (k r.resp) r.final
  | .error _, _ => []
  | .cut, _ => []

variable {M t}

theorem leaves_of_run {p : Prog O R α} {s : σ} {r : α × σ} (h : run M t p s = some r) :
    leaves M t p s = some r.2 := by
  induction p generalizing s with
  | ret a =>
      cases h
      rfl
  | op o k ih =>
      simp only [run, leaves] at h ⊢
      cases hx : M.exec t o s with
      | none =>
          rw [hx] at h
          cases h
      | some x =>
          rw [hx] at h
          exact ih x.resp h
  | error msg => cases h
  | cut => cases h

/-- **Two programs in sequence**: the second one runs, or the first one failed. -/
theorem leaves_bind {p : Prog O R α} {f : α → Prog O R β} {s s' : σ}
    (h : leaves M t (p >>= f) s = some s') :
    (∃ r, run M t p s = some r ∧ leaves M t (f r.1) r.2 = some s') ∨
      run M t p s = none ∧ leaves M t p s = some s' := by
  induction p generalizing s with
  | ret a => exact Or.inl ⟨(a, s), rfl, h⟩
  | op o k ih =>
      rw [Prog.op_bind] at h
      simp only [run, leaves] at h ⊢
      cases hx : M.exec t o s with
      | none =>
          rw [hx] at h
          cases h
      | some x =>
          rw [hx] at h
          exact ih x.resp h
  | error msg => exact Or.inr ⟨rfl, h⟩
  | cut => cases h

/-- What the operations of a program keep, it leaves behind. -/
theorem All.leaves {ok : O → Prop} {Q : α → Prop} {I : σ → Prop} {p : Prog O R α} (h : All ok Q p)
    (hop : ∀ o, ok o → ∀ s, I s → ∀ r, M.exec t o s = some r → I r.final)
    (hab : ∀ s, I s → I (M.abort t s)) {s s' : σ} (hs : I s) (hl : leaves M t p s = some s') : I s' := by
  induction p generalizing s with
  | ret a =>
      cases hl
      exact hs
  | op o k ih =>
      simp only [Conc.leaves] at hl
      cases hx : M.exec t o s with
      | none =>
          rw [hx] at hl
          cases hl
      | some x =>
          rw [hx] at hl
          exact ih x.resp (h.2 x.resp) (hop o h.1 s hs x hx) hl
  | error msg =>
      cases hl
      exact hab s hs
  | cut => cases hl

/-- **It returned, or it failed** in a state with what the operations keep. -/
theorem leaves_cases {I : σ → Prop} (hop : ∀ o s, I s → ∀ r, M.exec t o s = some r → I r.final)
    {p : Prog O R α} {s s' : σ} (hs : I s) (hl : leaves M t p s = some s') :
    (∃ a, run M t p s = some (a, s')) ∨ ∃ s0, I s0 ∧ s' = M.abort t s0 := by
  induction p generalizing s with
  | ret a =>
      cases hl
      exact Or.inl ⟨a, rfl⟩
  | op o k ih =>
      simp only [leaves] at hl
      cases hx : M.exec t o s with
      | none =>
          rw [hx] at hl
          cases hl
      | some x =>
          rw [hx] at hl
          rw [run_op M t hx]
          exact ih x.resp (hop o s hs x hx) hl
  | error msg =>
      cases hl
      exact Or.inr ⟨s, hs, rfl⟩
  | cut => cases hl

/-- **A valid program run alone** leaves a state with the invariant, and its postcondition unless it
    failed. -/
theorem valid_leaves {S : Spec O σ} {p : Prog O R α} {Q : α → σ → Prop} {s s' : σ}
    (hrefl : ∀ s, S.rely s s) (hall : ∀ s o, S.allow s o) (hi : S.inv s) (h : Valid M t S p Q s)
    (hl : leaves M t p s = some s') : S.inv s' ∧ (S.errors ∨ ∃ a, Q a s') := by
  induction p generalizing s with
  | ret a =>
      cases hl
      exact ⟨hi, Or.inr ⟨a, h⟩⟩
  | op o k ih =>
      simp only [Conc.leaves] at hl
      cases hx : M.exec t o s with
      | none =>
          rw [hx] at hl
          cases hl
      | some x =>
          rw [hx] at hl
          obtain ⟨h1, _, _, h4⟩ := (h s (hrefl s) hi (hall s o)).2 x hx
          exact ih x.resp h1 h4 hl
  | error msg =>
      cases hl
      exact ⟨(h.2 s (hrefl s) hi).1, Or.inl h.1⟩
  | cut => cases hl

/-! ## 1. The operations performed -/

theorem issued_bind {sel : O → Option γ} {p : Prog O R α} {f : α → Prog O R β} {s : σ} :
    issued M t sel (p >>= f) s = issued M t sel p s ++
      match run M t p s with
      | none => []
      | some r => issued M t sel (f r.1) r.2 := by
  induction p generalizing s with
  | ret a => rfl
  | op o k ih =>
      rw [Prog.op_bind]
      simp only [run, issued]
      cases M.exec t o s with
      | none => rfl
      | some x =>
          simp only
          rw [ih, List.append_assoc]
  | error msg => rfl
  | cut => rfl

/-- A program without selected operations. -/
theorem All.issued {sel : O → Option γ} {ok : O → Prop} {Q : α → Prop} {p : Prog O R α} (h : All ok Q p)
    (hsel : ∀ o, ok o → sel o = none) (s : σ) : issued M t sel p s = [] := by
  induction p generalizing s with
  | ret a => rfl
  | op o k ih =>
      simp only [Conc.issued]
      cases M.exec t o s with
      | none => rfl
      | some x =>
          simp only [hsel o h.1, Option.toList_none, List.nil_append]
          exact ih x.resp (h.2 x.resp) x.final
  | error msg => rfl
  | cut => rfl

end Alone

end Conc
