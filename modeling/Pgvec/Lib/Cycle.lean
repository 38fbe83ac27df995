/-
  File:      Pgvec/Lib/Cycle.lean
  Subject:   CYCLES OF A RELATION, as closed walks and as paths from a point back to itself. Names nothing of any
             program.

  * `Cyclic` -- a list of points each of which is related to the next, and the last to the first;
  * `Cyclic.transGen`, `exists_cyclic` -- a point is on a cycle iff it is reached from itself;
  * `not_transGen_of_closed` -- a set of points that is left nowhere, and never for the start.
-/
import Mathlib.Data.List.Chain
import Mathlib.Logic.Relation

namespace Cycle

variable {α : Type} {r s : α → α → Prop} {a b : α} {l : List α}

open Relation (TransGen)

/-- A closed walk. -/
def Cyclic (r : α → α → Prop) : List α → Prop
  | [] => False
  | a :: l => List.IsChain r (a :: l ++ [a])

theorem transGen_of_head : ∀ {a : α}, List.IsChain r (a :: l) → ∀ b ∈ l, TransGen r a b := by
  induction l with
  | nil => exact fun _ _ hb => absurd hb List.not_mem_nil
  | cons c l ih =>
      intro a h b hb
      obtain ⟨hac, hl⟩ := List.isChain_cons_cons.mp h
      rcases List.mem_cons.mp hb with rfl | hb
      · exact .single hac
      · exact .head hac (ih hl b hb)

theorem transGen_to_last (h : List.IsChain r (l ++ [b])) : ∀ a ∈ l, TransGen r a b := by
  induction l with
  | nil => exact fun _ ha => absurd ha List.not_mem_nil
  | cons c l ih =>
      intro a ha
      rcases List.mem_cons.mp ha with rfl | ha
      · exact transGen_of_head h b (List.mem_append_right _ (List.mem_singleton.mpr rfl))
      · exact ih (List.IsChain.tail h) a ha

/-- **A point on a cycle is reached from itself.** -/
theorem Cyclic.transGen (h : Cyclic r l) (ha : a ∈ l) : TransGen r a a := by
  cases l with
  | nil => exact h.elim
  | cons c l =>
      have hto := transGen_to_last (l := c :: l) h a ha
      rcases List.mem_cons.mp ha with rfl | hm
      · exact hto
      · exact hto.trans (transGen_of_head h a (List.mem_append_left _ hm))

theorem exists_chain (h : TransGen r a b) : ∃ l, List.IsChain r (a :: l ++ [b]) := by
  induction h with
  | single hab => exact ⟨[], List.isChain_pair.mpr hab⟩
  | @tail b c _ hbc ih =>
      obtain ⟨l, hl⟩ := ih
      refine ⟨l ++ [b], ?_⟩
      have hsplit := List.isChain_split.mpr ⟨hl, List.isChain_pair.mpr hbc⟩
      rw [List.cons_append, List.append_assoc]
      exact hsplit

/-- **A point that is reached from itself is on a cycle.** -/
theorem exists_cyclic (h : TransGen r a a) : ∃ l, Cyclic r l ∧ a ∈ l := by
  obtain ⟨l, hl⟩ := exists_chain h
  exact ⟨a :: l, hl, List.mem_cons_self⟩

/-- A cycle is one of another relation when its steps are. -/
theorem Cyclic.imp (h : Cyclic r l) (hrs : ∀ a ∈ l, ∀ b ∈ l, r a b → s a b) : Cyclic s l := by
  cases l with
  | nil => exact h.elim
  | cons c l =>
      have hmem : ∀ x ∈ c :: l ++ [c], x ∈ c :: l := by
        intro x hx
        rcases List.mem_append.mp hx with hx | hx
        · exact hx
        · exact List.mem_singleton.mp hx ▸ List.mem_cons_self
      exact List.IsChain.imp_of_mem_imp (fun a b ha hb => hrs a (hmem a ha) b (hmem b hb)) h

/-- **A set that holds the start, is left nowhere, and from which no step goes to the start.** -/
theorem not_transGen_of_closed {V : α → Prop} (ha : V a) (h : ∀ b, V b → ∀ c, r b c → V c ∧ c ≠ a) :
    ¬TransGen r a a := by
  have hreach : ∀ b, TransGen r a b → V b ∧ b ≠ a := by
    intro b hb
    induction hb with
    | single hab => exact h a ha _ hab
    | tail _ hbc ih => exact h _ ih.1 _ hbc
  exact fun haa => (hreach a haa).2 rfl

end Cycle
