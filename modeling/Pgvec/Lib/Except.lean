/-
  File:      Pgvec/Lib/Except.lean
  Subject:   COMPUTATIONS THAT MAY FAIL: what follows when they succeeded. Names nothing of any program.

  * `bind_eq_ok` -- two computations in sequence succeeded;
  * `foldlM_ok` -- an invariant of a loop that went through.
-/
import Mathlib.Data.List.Basic

namespace Except

variable {ε α β : Type}

/-- The value of a computation that succeeds. -/
theorem bind_eq_ok {p : Except ε α} {k : α → Except ε β} {b : β} :
    (p >>= k) = .ok b ↔ ∃ a, p = .ok a ∧ k a = .ok b := by
  cases p with
  | error e => exact ⟨fun h => (nomatch h), fun h => (nomatch h)⟩
  | ok a =>
      constructor
      · intro h
        exact ⟨a, rfl, h⟩
      · rintro ⟨a', h, hk⟩
        cases h
        exact hk

/-- **A loop that went through** keeps what its rounds keep. -/
theorem foldlM_ok {f : β → α → Except ε β} {I : β → Prop}
    (h : ∀ b a b', I b → f b a = .ok b' → I b') : ∀ (l : List α) {b b' : β}, I b →
      l.foldlM f b = .ok b' → I b'
  | [], b, b', hb, hl => by
      cases hl
      exact hb
  | a :: l, b, b', hb, hl => by
      rw [List.foldlM_cons] at hl
      obtain ⟨c, hc, hl⟩ := bind_eq_ok.mp hl
      exact foldlM_ok h l (h b a c hb hc) hl

end Except
