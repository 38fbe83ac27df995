/-
  File:      Pgvec/Lib/Floor.lean
  Subject:   THE LAST ELEMENT NOT ABOVE A KEY of a sorted list, and how a binary search and a tree of low
             keys find it. Names nothing of any program.

  * `search_spec` -- a binary search splits the indices where a downward closed test stops to hold;
  * `floor` -- the last element whose key is at most `x`; `floor_of_split` reads it off such a split;
  * **`floor_flatMap`** -- one level of a tree: the floor among the children's low keys, then in that child;
  * `mem_iff_floor` -- membership in an increasing list of numbers is a floor that is the number itself;
  * `search_floor`, `search_member` -- the two searches of a sorted list.
-/
import Mathlib.Data.List.Basic
import Mathlib.Data.List.GetD
import Mathlib.Tactic.Common

namespace Floor

variable {α β : Type}

/-! ## 1. Binary search -/

/-- The binary search of `[low, high)` for the first index that `p` does not pass over. -/
def search (p : Nat → Bool) (low high : Nat) : Nat :=
  if low < high then
    let mid := low + (high - low) / 2
    if p mid then search p (mid + 1) high else search p low mid
  else low
termination_by high - low

/-- **The search** ends where the test stops to hold. -/
theorem search_spec {p : Nat → Bool} {n : Nat} (hdown : ∀ i j, i ≤ j → j < n → p j → p i) :
    ∀ (low high : Nat), low ≤ high → high ≤ n → (∀ j, j < low → p j) →
      (∀ j, high ≤ j → j < n → p j = false) →
      search p low high ≤ high ∧ (∀ j, j < search p low high → p j) ∧
        ∀ j, search p low high ≤ j → j < n → p j = false := by
  intro low high
  induction low, high using search.induct (p := p) with
  | case1 low high hlt mid hmid ih =>
      intro _ hn _ hhigh
      have hbelow : ∀ j, j < mid + 1 → p j := fun j hj => hdown j mid (by omega) (by omega) hmid
      obtain ⟨hle, hl, hr⟩ := ih (by omega) hn hbelow hhigh
      rw [search, if_pos hlt, if_pos hmid]
      exact ⟨hle, hl, hr⟩
  | case2 low high hlt mid hmid ih =>
      intro _ hn hlow hhigh
      have habove : ∀ j, mid ≤ j → j < n → p j = false := by
        intro j hj hjn
        refine Bool.eq_false_iff.mpr fun hright => hmid (hdown mid j hj hjn hright)
      obtain ⟨hle, hl, hr⟩ := ih (by omega) (by omega) hlow habove
      rw [search, if_pos hlt, if_neg hmid]
      exact ⟨Nat.le_trans hle (show mid ≤ high by omega), hl, hr⟩
  | case3 low high hlt =>
      intro hle _ hlow hhigh
      rw [search, if_neg hlt]
      exact ⟨hle, hlow, fun j hj hjn => hhigh j (by omega) hjn⟩

/-- Only what is below `high` is tested. -/
theorem search_congr {p p' : Nat → Bool} : ∀ (low high : Nat), (∀ m, m < high → p m = p' m) →
    search p low high = search p' low high := by
  intro low high
  induction low, high using search.induct (p := p) with
  | case1 low high hlt mid hmid ih =>
      intro h
      have hmid' : p' mid := by rw [← h mid (by omega)]; exact hmid
      rw [search, search, if_pos hlt, if_pos hlt, if_pos hmid, if_pos hmid']
      exact ih h
  | case2 low high hlt mid hmid ih =>
      intro h
      have hmid' : ¬ p' mid := by rw [← h mid (by omega)]; exact hmid
      rw [search, search, if_pos hlt, if_pos hlt, if_neg hmid, if_neg hmid']
      exact ih fun m hm => h m (by omega)
  | case3 low high hlt =>
      intro _
      rw [search, search, if_neg hlt, if_neg hlt]

/-! ## 2. The floor -/

/-- The last element of `l` whose key is at most `x`. -/
def floor (key : α → Nat) (x : Nat) (l : List α) : Option α :=
  (l.filter fun a => decide (key a ≤ x)).getLast?

variable {key : α → Nat} {x : Nat} {l : List α}

theorem floor_append (l₁ l₂ : List α) : floor key x (l₁ ++ l₂) = (floor key x l₂).or (floor key x l₁) := by
  unfold floor
  rw [List.filter_append, List.getLast?_append]

theorem floor_eq_none : floor key x l = none ↔ ∀ a ∈ l, x < key a := by
  unfold floor
  rw [List.getLast?_eq_none_iff, List.filter_eq_nil_iff]
  simp

theorem floor_mem {a : α} (h : floor key x l = some a) : a ∈ l ∧ key a ≤ x := by
  have hmem := List.mem_of_getLast? h
  rw [List.mem_filter, decide_eq_true_eq] at hmem
  exact hmem

/-- **A split of the indices** names the floor. -/
theorem floor_of_split {r : Nat} (hlow : ∀ a ∈ l.take r, key a ≤ x)
    (hhigh : ∀ a ∈ l.drop r, x < key a) : floor key x l = (l.take r).getLast? := by
  have hkeep : (l.take r).filter (fun a => decide (key a ≤ x)) = l.take r :=
    List.filter_eq_self.mpr fun a ha => decide_eq_true (hlow a ha)
  have hdrop : (l.drop r).filter (fun a => decide (key a ≤ x)) = [] :=
    List.filter_eq_nil_iff.mpr fun a ha => by
      have := hhigh a ha
      simp only [decide_eq_true_eq]
      omega
  have hall : l.filter (fun a => decide (key a ≤ x)) = l.take r := by
    conv_lhs => rw [← List.take_append_drop r l]
    rw [List.filter_append, hkeep, hdrop, List.append_nil]
  unfold floor
  rw [hall]

/-- **One level of a tree**: every child holds its low key, and nothing below it. -/
theorem floor_flatMap {k : β → Nat} {f : β → List α} : ∀ (cs : List β),
    (∀ c ∈ cs, (∃ a ∈ f c, key a = k c) ∧ ∀ a ∈ f c, k c ≤ key a) →
      floor key x (cs.flatMap f) = (floor k x cs).bind fun c => floor key x (f c)
  | [], _ => rfl
  | c :: cs, h => by
      obtain ⟨⟨a, ha, hak⟩, hmin⟩ := h c List.mem_cons_self
      have ih := floor_flatMap (k := k) (f := f) cs fun d hd => h d (List.mem_cons_of_mem c hd)
      have hcons : floor k x (c :: cs) = (floor k x cs).or (floor k x [c]) := floor_append [c] cs
      rw [List.flatMap_cons, floor_append, ih, hcons]
      cases hrest : floor k x cs with
      | some d =>
          -- a later child qualifies, and then holds an element that does
          obtain ⟨hd, hdx⟩ := floor_mem hrest
          obtain ⟨⟨b, hb, hbk⟩, -⟩ := h d (List.mem_cons_of_mem c hd)
          have hsome : floor key x (f d) ≠ none := fun hnone => by
            have := floor_eq_none.mp hnone b hb
            omega
          obtain ⟨e, he⟩ := Option.ne_none_iff_exists'.mp hsome
          show (floor key x (f d)).or (floor key x (f c)) = floor key x (f d)
          rw [he]
          rfl
      | none =>
          show floor key x (f c) = (floor k x [c]).bind _
          by_cases hc : k c ≤ x
          · have hone : floor k x [c] = some c := by
              unfold floor
              rw [List.filter_cons_of_pos (by simpa using hc)]
              rfl
            rw [hone]
            rfl
          · have hone : floor k x [c] = none := floor_eq_none.mpr fun d hd => by
              rw [List.mem_singleton.mp hd]
              omega
            rw [hone]
            refine floor_eq_none.mpr fun b hb => ?_
            have := hmin b hb
            omega

/-- Membership, by the floor of an increasing list of numbers. -/
theorem mem_iff_floor : ∀ {l : List Nat} (_ : l.Pairwise (· < ·)) (x : Nat),
    x ∈ l ↔ floor (fun v => v) x l = some x := by
  intro l hl x
  constructor
  · intro hx
    obtain ⟨s, t, rfl⟩ := List.append_of_mem hx
    have hup : ∀ b ∈ t, x < b := (List.pairwise_cons.mp (List.pairwise_append.mp hl).2.1).1
    have hlast : floor (fun v => v) x (x :: t) = some x := by
      have hcons : floor (fun v => v) x (x :: t) = (floor (fun v => v) x t).or (floor (fun v => v) x [x]) :=
        floor_append [x] t
      rw [hcons, floor_eq_none.mpr hup]
      unfold floor
      rw [List.filter_cons_of_pos (by simp)]
      rfl
    rw [floor_append, hlast]
    rfl
  · intro hx
    exact (floor_mem hx).1

/-! ## 3. The search in a list -/

/-- **The search in a list** whose tail fails a test once an element does. -/
theorem search_split {test : α → Bool} (hdown : l.Pairwise fun a b => test b → test a) (d : α) :
    search (fun mid => test (l.getD mid d)) 0 l.length ≤ l.length ∧
    (∀ a ∈ l.take (search (fun mid => test (l.getD mid d)) 0 l.length), test a) ∧
    ∀ a ∈ l.drop (search (fun mid => test (l.getD mid d)) 0 l.length), test a = false := by
  have hget : ∀ j (hj : j < l.length), l.getD j d = l[j] := fun j hj => List.getD_eq_getElem _ _ hj
  obtain ⟨hle, hlow, hhigh⟩ := search_spec (p := fun mid => test (l.getD mid d)) (n := l.length)
    (fun i j hij hj hright => by
      rcases Nat.lt_or_eq_of_le hij with hlt | rfl
      · rw [hget j hj] at hright
        rw [hget i (by omega)]
        exact List.pairwise_iff_getElem.mp hdown i j (by omega) hj hlt hright
      · exact hright)
    0 l.length (Nat.zero_le _) (Nat.le_refl _) (fun j hj => absurd hj (Nat.not_lt_zero j))
    (fun j hj hjn => absurd hjn (Nat.not_lt_of_le hj))
  generalize search (fun mid => test (l.getD mid d)) 0 l.length = r at hle hlow hhigh ⊢
  refine ⟨hle, fun a ha => ?_, fun a ha => ?_⟩
  · obtain ⟨j, hj, rfl⟩ := List.mem_iff_getElem.mp ha
    rw [List.length_take] at hj
    have htest := hlow j (by omega)
    rwa [hget j (by omega), ← List.getElem_take (h := by rw [List.length_take]; exact hj)] at htest
  · obtain ⟨j, hj, rfl⟩ := List.mem_iff_getElem.mp ha
    rw [List.length_drop] at hj
    have htest := hhigh (r + j) (by omega) (by omega)
    rwa [hget _ (by omega), ← List.getElem_drop (h := by rw [List.length_drop]; exact hj)] at htest

/-- **The search past equal keys** finds the floor. -/
theorem search_floor (hsorted : l.Pairwise fun a b => key a < key b) (d : α) :
    floor key x l =
      if search (fun mid => decide (key (l.getD mid d) ≤ x)) 0 l.length = 0 then none
      else some (l.getD (search (fun mid => decide (key (l.getD mid d) ≤ x)) 0 l.length - 1) d) := by
  have hdown : l.Pairwise fun a b => decide (key b ≤ x) → decide (key a ≤ x) :=
    hsorted.imp fun hab hb => decide_eq_true (Nat.le_trans (Nat.le_of_lt hab) (of_decide_eq_true hb))
  obtain ⟨hle, hlow, hhigh⟩ := search_split hdown d
  generalize search (fun mid => decide (key (l.getD mid d) ≤ x)) 0 l.length = r at hle hlow hhigh ⊢
  have hfloor : floor key x l = (l.take r).getLast? := floor_of_split (fun a ha => of_decide_eq_true (hlow a ha))
    fun a ha => Nat.lt_of_not_le (of_decide_eq_false (hhigh a ha))
  rw [hfloor, List.getLast?_take]
  split
  · rfl
  · have hr : r - 1 < l.length := by omega
    rw [List.getElem?_eq_getElem hr, List.getD_eq_getElem _ _ hr]
    rfl

/-- **The search before equal keys** finds a member. -/
theorem search_member {l : List Nat} (hsorted : l.Pairwise (· < ·)) (x d : Nat) :
    x ∈ l ↔ search (fun mid => decide (l.getD mid d < x)) 0 l.length < l.length ∧
      l.getD (search (fun mid => decide (l.getD mid d < x)) 0 l.length) d = x := by
  have hdown : l.Pairwise fun a b => decide (b < x) → decide (a < x) :=
    hsorted.imp fun hab hb => decide_eq_true (Nat.lt_trans hab (of_decide_eq_true hb))
  obtain ⟨hle, hlow, hhigh⟩ := search_split hdown d
  generalize search (fun mid => decide (l.getD mid d < x)) 0 l.length = r at hle hlow hhigh ⊢
  constructor
  · intro hx
    rw [← List.take_append_drop r l, List.mem_append] at hx
    rcases hx with hx | hx
    · exact absurd (of_decide_eq_true (hlow x hx)) (Nat.lt_irrefl x)
    · have hr : r < l.length := by
        by_contra hge
        rw [List.drop_eq_nil_of_le (by omega)] at hx
        exact absurd hx List.not_mem_nil
      refine ⟨hr, ?_⟩
      rw [List.getD_eq_getElem _ _ hr]
      have hcons := List.drop_eq_getElem_cons hr
      have hfirst := of_decide_eq_false (hhigh l[r] (by rw [hcons]; exact List.mem_cons_self))
      have hrest := (List.pairwise_cons.mp (hcons ▸ hsorted.sublist (List.drop_sublist r l))).1
      rw [hcons] at hx
      rcases List.mem_cons.mp hx with rfl | hx
      · rfl
      · exact absurd (hrest x hx) hfirst
  · intro ⟨hr, hx⟩
    rw [← hx, List.getD_eq_getElem _ _ hr]
    exact List.getElem_mem hr

end Floor
