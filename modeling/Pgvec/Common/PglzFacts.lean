/-
  File:      Pgvec/Common/PglzFacts.lean
  Subject:   THE HISTORY OF THE BUILT-IN LZ COMPRESSOR.

  Every position of the source enters the history once and in order, so the contents of the static arrays
  that can be reached at the position `n` follow from `n` alone: the list of a hash key holds the positions
  of that key among the last 4096, newest first (`chain`), linked both ways (`Linked`, `HistInv`). What the
  compressor finds is then a function of the source (`findSpec`), whatever earlier calls left behind.

  * `HistInv.add` -- one entry added, the oldest one recycled;
  * `find_match_eq` -- the search; `findSpec_match` -- what it finds is a match.
-/
import Pgvec.Common.Pglz

namespace Pgvec.Pglz

/-! ## 1. The lists of the history -/

theorem history_size : PGLZ_HISTORY_SIZE = 4096 := by
  unfold PGLZ_HISTORY_SIZE
  rfl

/-- The history entry of a position. -/
def ent (p : Nat) : Nat := p % PGLZ_HISTORY_SIZE + 1

theorem ent_ne_invalid (p : Nat) : ent p ≠ INVALID_ENTRY := Nat.succ_ne_zero _

theorem ent_inj {lo p q : Nat} (hp : lo ≤ p) (hp' : p < lo + PGLZ_HISTORY_SIZE) (hq : lo ≤ q)
    (hq' : q < lo + PGLZ_HISTORY_SIZE) (h : ent p = ent q) : p = q := by
  unfold ent at h
  rw [history_size] at *
  omega

/-- The positions between `lo` and `n` with the hash key `h`, newest first. -/
def chain (hidx : Nat → Nat) (lo n h : Nat) : List Nat :=
  ((List.range' lo (n - lo)).filter fun p => hidx p = h).reverse

variable {hidx : Nat → Nat} {lo n h : Nat}

theorem mem_chain {p : Nat} : p ∈ chain hidx lo n h ↔ lo ≤ p ∧ p < n ∧ hidx p = h := by
  simp only [chain, List.mem_reverse, List.mem_filter, List.mem_range'_1, decide_eq_true_eq]
  omega

theorem chain_nodup : (chain hidx lo n h).Nodup :=
  List.nodup_reverse.mpr ((List.nodup_range' (s := lo) (n := n - lo)).filter _)

theorem length_chain : (chain hidx lo n h).length ≤ n - lo := by
  unfold chain
  rw [List.length_reverse]
  exact (List.length_filter_le _ _).trans (List.length_range').le

/-- A newer position comes to the front of its list. -/
theorem chain_succ (hlo : lo ≤ n) :
    chain hidx lo (n + 1) h = if hidx n = h then n :: chain hidx lo n h else chain hidx lo n h := by
  have hr : List.range' lo (n + 1 - lo) = List.range' lo (n - lo) ++ [n] := by
    rw [Nat.succ_sub hlo, List.range'_concat, Nat.one_mul, Nat.add_sub_cancel' hlo]
  rw [chain, hr, List.filter_append, List.reverse_append]
  by_cases hn : hidx n = h
  · rw [if_pos hn, List.filter_cons_of_pos (by simpa using hn)]
    rfl
  · rw [if_neg hn, List.filter_cons_of_neg (by simpa using hn)]
    rfl

/-- The oldest position is the last of its list. -/
theorem chain_oldest (hlo : lo < n) :
    chain hidx lo n h = chain hidx (lo + 1) n h ++ if hidx lo = h then [lo] else [] := by
  have hr : List.range' lo (n - lo) = lo :: List.range' (lo + 1) (n - (lo + 1)) := by
    rw [show n - lo = n - (lo + 1) + 1 by omega, List.range'_succ]
  rw [chain, hr]
  by_cases hl : hidx lo = h
  · rw [if_pos hl, List.filter_cons_of_pos (by simpa using hl), List.reverse_cons]
    rfl
  · rw [if_neg hl, List.filter_cons_of_neg (by simpa using hl), List.append_nil]
    rfl

/-- The entries of the positions `l`, linked both ways from `head` on; `prev` stands before them. -/
inductive Linked (entries : Nat → PGLZ_HistEntry) (h : Nat) : Option Nat → Nat → List Nat → Prop
  | nil {prev : Option Nat} : Linked entries h prev INVALID_ENTRY []
  | cons {prev : Option Nat} {p next : Nat} {l : List Nat} (he : entries (ent p) = ⟨some next, prev, h, p⟩)
      (hl : Linked entries h (some (ent p)) next l) : Linked entries h prev (ent p) (p :: l)

variable {entries entries' : Nat → PGLZ_HistEntry} {prev : Option Nat} {head : Nat} {l : List Nat}

/-- A list sees its own entries only. -/
theorem Linked.congr (hl : Linked entries h prev head l) (he : ∀ p ∈ l, entries' (ent p) = entries (ent p)) :
    Linked entries' h prev head l := by
  induction hl with
  | nil => exact .nil
  | cons h1 _ ih =>
      exact .cons ((he _ List.mem_cons_self).trans h1) (ih fun q hq => he q (List.mem_cons_of_mem _ hq))

/-- The head of a list is one of its entries, or the unused entry. -/
theorem Linked.head_eq (hl : Linked entries h prev head l) :
    (l = [] ∧ head = INVALID_ENTRY) ∨ ∃ p ∈ l, head = ent p := by
  cases hl with
  | nil => exact Or.inl ⟨rfl, rfl⟩
  | cons => exact Or.inr ⟨_, List.mem_cons_self, rfl⟩

/-- **The last entry of a list**, and the list without it. -/
theorem Linked.last {o : Nat} (hnd : (l.map ent).Nodup) (hl : Linked entries h prev head (l ++ [o])) :
    ∃ pv, entries (ent o) = ⟨some INVALID_ENTRY, pv, h, o⟩ ∧ (l = [] → pv = prev) ∧
      (l ≠ [] → ∃ q ∈ l, pv = some (ent q) ∧ Linked (Function.update entries (ent q)
        { entries (ent q) with next := some INVALID_ENTRY }) h prev head l) := by
  induction l generalizing prev head with
  | nil =>
      cases hl with
      | cons h1 h2 =>
          cases h2
          exact ⟨prev, h1, fun _ => rfl, fun hne => absurd rfl hne⟩
  | cons p l ih =>
      cases hl with
      | cons h1 h2 =>
          rw [List.map_cons, List.nodup_cons] at hnd
          obtain ⟨pv, k1, k2, k3⟩ := ih hnd.2 h2
          refine ⟨pv, k1, nofun, fun _ => ?_⟩
          by_cases hl : l = []
          · subst hl
            refine ⟨p, List.mem_cons_self, k2 rfl, .cons ?_ .nil⟩
            rw [Function.update_self, h1]
          · obtain ⟨q, hq, hpv, hlink⟩ := k3 hl
            refine ⟨q, List.mem_cons_of_mem _ hq, hpv, .cons ?_ hlink⟩
            have hne : ent p ≠ ent q := fun e => hnd.1 (e ▸ List.mem_map_of_mem hq)
            rw [Function.update_of_ne hne, h1]

/-- **What the arrays hold at the position `n`.** -/
structure HistInv (hidx : Nat → Nat) (hashsz n : Nat) (st : HistState) : Prop where
  next : st.hist_next = ent n
  recycle : st.hist_recycle = true ↔ PGLZ_HISTORY_SIZE ≤ n
  lists : ∀ h < hashsz, Linked st.hist_entries h none (st.hist_start h)
    (chain hidx (n - PGLZ_HISTORY_SIZE) n h)

theorem chain_ent_nodup (hlo : n ≤ lo + PGLZ_HISTORY_SIZE) : ((chain hidx lo n h).map ent).Nodup := by
  refine chain_nodup.map_on fun p hp q hq he => ?_
  obtain ⟨h1, h2, _⟩ := mem_chain.mp hp
  obtain ⟨h3, h4, _⟩ := mem_chain.mp hq
  exact ent_inj h1 (by omega) h3 (by omega) he

variable {hashsz : Nat} {st : HistState}

/-- **The entry to be recycled is the oldest one**, and the lists without it. -/
theorem HistInv.delinked (hi : HistInv hidx hashsz n st) (hh : ∀ p, hidx p < hashsz) :
    ∀ h < hashsz, Linked (if st.hist_recycle then st.delink else st).hist_entries h none
      ((if st.hist_recycle then st.delink else st).hist_start h)
      (chain hidx (n + 1 - PGLZ_HISTORY_SIZE) n h) := by
  by_cases hn : PGLZ_HISTORY_SIZE ≤ n
  · have hrec : st.hist_recycle = true := hi.recycle.mpr hn
    rw [if_pos hrec]
    obtain ⟨o, rfl⟩ := Nat.exists_eq_add_of_le hn
    have hlo : PGLZ_HISTORY_SIZE + o - PGLZ_HISTORY_SIZE = o := Nat.add_sub_cancel_left _ _
    have hlo' : PGLZ_HISTORY_SIZE + o + 1 - PGLZ_HISTORY_SIZE = o + 1 := by omega
    have hent : st.hist_next = ent o := by rw [hi.next, ent, Nat.add_mod_left, ent]
    have hlt : o < PGLZ_HISTORY_SIZE + o := by
      rw [history_size]
      omega
    have hlists := hi.lists
    rw [hlo] at hlists
    rw [hlo']
    have hmine := hlists (hidx o) (hh o)
    rw [chain_oldest hlt, if_pos rfl] at hmine
    have hnd : ((chain hidx (o + 1) (PGLZ_HISTORY_SIZE + o) (hidx o)).map ent).Nodup :=
      chain_ent_nodup (by omega)
    obtain ⟨pv, he, h1, h2⟩ := hmine.last hnd
    -- the entries that change are the one before it in its list, and the unused one
    have hother : ∀ h < hashsz, h ≠ hidx o → Linked st.hist_entries h none (st.hist_start h)
        (chain hidx (o + 1) (PGLZ_HISTORY_SIZE + o) h) := by
      intro h hlt' hne
      have := hlists h hlt'
      rwa [chain_oldest hlt, if_neg (Ne.symm hne), List.append_nil] at this
    intro h hlt'
    unfold HistState.delink
    simp only [hent, he]
    by_cases hl : chain hidx (o + 1) (PGLZ_HISTORY_SIZE + o) (hidx o) = []
    · rw [h1 hl]
      simp only [HistState.setStart, HistState.modify, Option.getD_some]
      by_cases hho : h = hidx o
      · subst hho
        rw [hl, Function.update_self]
        exact .nil
      · rw [Function.update_of_ne hho]
        exact (hother h hlt' hho).congr fun p _ => Function.update_of_ne (ent_ne_invalid p) _ _
    · obtain ⟨q, hq, rfl, hlink⟩ := h2 hl
      simp only [HistState.modify]
      by_cases hho : h = hidx o
      · subst hho
        exact hlink.congr fun p _ => Function.update_of_ne (ent_ne_invalid p) _ _
      · refine (hother h hlt' hho).congr fun p hp => ?_
        rw [Function.update_of_ne (ent_ne_invalid p), Function.update_of_ne]
        obtain ⟨k1, k2, k3⟩ := mem_chain.mp hp
        obtain ⟨j1, j2, j3⟩ := mem_chain.mp hq
        intro e
        have : p = q := ent_inj k1 (by omega) j1 (by omega) e
        exact hho (k3.symm.trans (this ▸ j3))
  · rw [if_neg fun hrec => hn (hi.recycle.mp hrec)]
    have := hi.lists
    rwa [show n - PGLZ_HISTORY_SIZE = n + 1 - PGLZ_HISTORY_SIZE by omega] at this

theorem delink_locals (st : HistState) :
    st.delink.hist_next = st.hist_next ∧ st.delink.hist_recycle = st.hist_recycle := by
  unfold HistState.delink
  generalize st.hist_entries st.hist_next = e
  obtain ⟨next, prev, _, _⟩ := e
  cases prev <;> cases next <;> exact ⟨rfl, rfl⟩

/-- **Adding the position `n`.** -/
theorem HistInv.add {source : List UInt8} {mask : Nat} (hi : HistInv hidx hashsz n st)
    (hh : ∀ p, hidx p < hashsz) (hn : hidx n = pglz_hist_idx source n mask) :
    HistInv hidx hashsz (n + 1) (pglz_hist_add source mask st n) := by
  have hlists := hi.delinked hh
  have hrec : (if st.hist_recycle then st.delink else st).hist_recycle = st.hist_recycle := by
    split
    · exact (delink_locals st).2
    · rfl
  unfold pglz_hist_add
  simp only [← hn, hi.next]
  generalize (if st.hist_recycle then st.delink else st) = st1 at hlists hrec
  have hmine := hlists (hidx n) (hh n)
  -- the entry `ent n` is in no list
  have hfree : ∀ {h : Nat} {p : Nat}, p ∈ chain hidx (n + 1 - PGLZ_HISTORY_SIZE) n h → ent p ≠ ent n := by
    intro h p hp e
    obtain ⟨h1, h2, _⟩ := mem_chain.mp hp
    have := ent_inj h1 (by omega) (by rw [history_size]; omega : n + 1 - PGLZ_HISTORY_SIZE ≤ n)
      (by rw [history_size]; omega) e
    omega
  have hhead : st1.hist_start (hidx n) ≠ ent n := by
    rcases hmine.head_eq with ⟨_, he⟩ | ⟨p, hp, he⟩
    · rw [he]
      exact (ent_ne_invalid n).symm
    · rw [he]
      exact hfree hp
  have hsucc : ∀ h, chain hidx (n + 1 - PGLZ_HISTORY_SIZE) (n + 1) h =
      if hidx n = h then n :: chain hidx (n + 1 - PGLZ_HISTORY_SIZE) n h
      else chain hidx (n + 1 - PGLZ_HISTORY_SIZE) n h := fun h => chain_succ (by rw [history_size]; omega)
  have hnew : ∀ h < hashsz, Linked
      (Function.update (Function.update st1.hist_entries (ent n) ⟨some (st1.hist_start (hidx n)), none, hidx n, n⟩)
        (st1.hist_start (hidx n))
        { Function.update st1.hist_entries (ent n) ⟨some (st1.hist_start (hidx n)), none, hidx n, n⟩
            (st1.hist_start (hidx n)) with prev := some (ent n) })
      h none (Function.update st1.hist_start (hidx n) (ent n) h)
      (chain hidx (n + 1 - PGLZ_HISTORY_SIZE) (n + 1) h) := by
    intro h hlt
    rw [hsucc h]
    by_cases hho : hidx n = h
    · subst hho
      rw [if_pos rfl, Function.update_self]
      refine .cons (?_ : _ = (⟨some (st1.hist_start (hidx n)), _, _, _⟩ : PGLZ_HistEntry)) ?_
      · rw [Function.update_of_ne hhead.symm, Function.update_self]
      · -- the old head now has an entry before it
        have hnd : ((chain hidx (n + 1 - PGLZ_HISTORY_SIZE) n (hidx n)).map ent).Nodup :=
          chain_ent_nodup (by omega)
        generalize hl : chain hidx (n + 1 - PGLZ_HISTORY_SIZE) n (hidx n) = l at hmine hnd
        generalize st1.hist_start (hidx n) = head at hmine hhead
        cases hmine with
        | nil => exact .nil
        | cons he htail =>
            rename_i p next l'
            rw [List.map_cons, List.nodup_cons] at hnd
            refine .cons ?_ (htail.congr fun q hq => ?_)
            · rw [Function.update_self, Function.update_of_ne hhead, he]
            · have hq' : q ∈ chain hidx (n + 1 - PGLZ_HISTORY_SIZE) n (hidx n) :=
                hl ▸ List.mem_cons_of_mem _ hq
              have hqp : ent q ≠ ent p := fun e => hnd.1 (e ▸ List.mem_map_of_mem hq)
              rw [Function.update_of_ne hqp, Function.update_of_ne (hfree hq')]
    · rw [if_neg hho, Function.update_of_ne (Ne.symm hho)]
      refine (hlists h hlt).congr fun p hp => ?_
      have hne : ent p ≠ st1.hist_start (hidx n) := by
        rcases hmine.head_eq with ⟨_, he⟩ | ⟨q, hq, he⟩
        · rw [he]
          exact ent_ne_invalid p
        · rw [he]
          intro e
          obtain ⟨k1, k2, k3⟩ := mem_chain.mp hp
          obtain ⟨j1, j2, j3⟩ := mem_chain.mp hq
          exact hho (j3.symm.trans (ent_inj k1 (by omega) j1 (by omega) e ▸ k3))
      rw [Function.update_of_ne hne, Function.update_of_ne (hfree hp)]
  have hent : ent n = n % 4096 + 1 ∧ ent (n + 1) = (n + 1) % 4096 + 1 := by
    unfold ent
    rw [history_size]
    exact ⟨rfl, rfl⟩
  have hrec' := hi.recycle
  simp only [HistState.modify, HistState.setStart]
  by_cases hwrap : PGLZ_HISTORY_SIZE + 1 ≤ ent n + 1
  · rw [if_pos hwrap]
    rw [history_size] at hwrap
    refine ⟨show 1 = ent (n + 1) by omega, iff_of_true rfl (by rw [history_size]; omega), hnew⟩
  · rw [if_neg hwrap]
    rw [history_size] at hwrap
    refine ⟨show ent n + 1 = ent (n + 1) by omega, ?_, hnew⟩
    show st1.hist_recycle = true ↔ _
    rw [hrec, hrec', history_size]
    omega

theorem histInv_start (hist : History) : HistInv hidx hashsz 0 (startHistory hist hashsz) where
  next := by
    unfold ent
    rw [Nat.zero_mod]
    rfl
  recycle := iff_of_false Bool.false_ne_true (by rw [history_size]; omega)
  lists h hlt := by
    rw [show (startHistory hist hashsz).hist_start h = INVALID_ENTRY from if_pos hlt, Nat.zero_sub]
    exact .nil

/-! ## 2. What is found -/

/-- The search of `pglz_find_match` in a list of positions. -/
def findList (source : List UInt8) (input good_drop : Nat) : List Nat → Nat → Nat → Nat → Nat × Nat
  | [], len, off, _ => (len, off)
  | hp :: l, len, off, good_match =>
      if 0x0fff ≤ input - hp then (len, off)
      else
        let best := if len < matchLength source input hp len then (matchLength source input hp len, input - hp)
          else (len, off)
        if l = [] ∨ good_match ≤ best.1 then best
        else findList source input good_drop l best.1 best.2 (good_match - good_match * good_drop / 100)

theorem findLoop_eq {source : List UInt8} {input good_drop : Nat} (hl : Linked entries h prev head l) :
    ∀ {fuel len off good_match : Nat}, l.length < fuel →
      findLoop entries source input good_drop fuel head len off good_match =
        some (findList source input good_drop l len off good_match) := by
  induction hl with
  | nil =>
      intro fuel len off good_match hfuel
      obtain ⟨fuel, rfl⟩ := Nat.exists_eq_succ_of_ne_zero (Nat.ne_of_gt hfuel)
      simp [findLoop, findList]
  | cons he htail ih =>
      rename_i _ p next l
      intro fuel len off good_match hfuel
      obtain ⟨fuel, rfl⟩ := Nat.exists_eq_succ_of_ne_zero (Nat.ne_zero_of_lt hfuel)
      rw [findLoop, if_neg (ent_ne_invalid p), he, findList]
      simp only
      by_cases hfar : 0x0fff ≤ input - p
      · rw [if_pos hfar, if_pos hfar]
      · rw [if_neg hfar, if_neg hfar]
        generalize (if len < matchLength source input p len then (matchLength source input p len, input - p)
          else (len, off)) = best
        rcases htail.head_eq with ⟨hnil, hnext⟩ | ⟨q, hq, hnext⟩
        · rw [if_pos hnext, if_pos (Or.inl hnil)]
        · rw [if_neg (hnext ▸ ent_ne_invalid q)]
          by_cases hgood : good_match ≤ best.1
          · rw [if_pos hgood, if_pos (Or.inr hgood)]
          · rw [if_neg hgood, if_neg (fun k => k.elim (List.ne_nil_of_mem hq) hgood)]
            exact ih (Nat.lt_of_succ_lt_succ hfuel)

/-- What `pglz_find_match` finds at the position `n` of the source. -/
def findSpec (source : List UInt8) (good_match good_drop mask n : Nat) : Option (Nat × Nat) :=
  let r := findList source n good_drop (chain (fun p => pglz_hist_idx source p mask) (n - PGLZ_HISTORY_SIZE) n
    (pglz_hist_idx source n mask)) 0 0 good_match
  if 2 < r.1 then some r else none

theorem hist_idx_lt (source : List UInt8) (s : Nat) {hashsz : Nat} (h1 : 0 < hashsz) (h2 : hashsz ≤ 8192) :
    pglz_hist_idx source s (hashsz - 1) < hashsz := by
  unfold pglz_hist_idx
  rw [BitVec.toNat_and]
  have h3 : (BitVec.ofNat 32 (hashsz - 1)).toNat = hashsz - 1 := by
    rw [BitVec.toNat_ofNat]
    omega
  rw [h3]
  exact Nat.lt_of_le_of_lt Nat.and_le_right (by omega)

theorem find_match_of_linked {source : List UInt8} {input good_match good_drop mask : Nat}
    (hl : Linked st.hist_entries h prev (st.hist_start (pglz_hist_idx source input mask)) l)
    (hlen : l.length ≤ PGLZ_HISTORY_SIZE) :
    pglz_find_match st source input good_match good_drop mask =
      some (if 2 < (findList source input good_drop l 0 0 good_match).1 then
        some (findList source input good_drop l 0 0 good_match) else none) := by
  unfold pglz_find_match
  rw [findLoop_eq hl (Nat.lt_succ_of_le hlen)]
  exact Option.bind_some _ _

theorem find_match_eq {source : List UInt8} {good_match good_drop mask : Nat}
    (hi : HistInv (fun p => pglz_hist_idx source p mask) hashsz n st)
    (hh : ∀ p, pglz_hist_idx source p mask < hashsz) :
    pglz_find_match st source n good_match good_drop mask =
      some (findSpec source good_match good_drop mask n) := by
  have hlen : (chain (fun p => pglz_hist_idx source p mask) (n - PGLZ_HISTORY_SIZE) n
      (pglz_hist_idx source n mask)).length ≤ PGLZ_HISTORY_SIZE := by
    refine length_chain.trans ?_
    generalize PGLZ_HISTORY_SIZE = size
    omega
  exact find_match_of_linked (hi.lists _ (hh n)) hlen

/-- The source repeats itself: at `input` stand `len` bytes that stand `off` bytes before, too. -/
structure Match (source : List UInt8) (input off len : Nat) : Prop where
  off_pos : 0 < off
  off_le : off ≤ input
  off_lt : off < 0x0fff
  len_le : len ≤ PGLZ_MAX_MATCH
  inside : input + len ≤ source.length
  same : ∀ i < len, source.getD (input + i) 0 = source.getD (input - off + i) 0

theorem countMatch_spec (source : List UInt8) (n : Nat) : ∀ ip hp : Nat, countMatch source n ip hp ≤ n ∧
    (ip ≤ source.length → ip + countMatch source n ip hp ≤ source.length) ∧
    ∀ i < countMatch source n ip hp, source.getD (ip + i) 0 = source.getD (hp + i) 0 := by
  induction n with
  | zero => exact fun _ _ => ⟨Nat.le_refl _, fun h => h, fun i hi => absurd hi (Nat.not_lt_zero i)⟩
  | succ n ih =>
      intro ip hp
      rw [countMatch]
      split
      · rename_i hcond
        obtain ⟨h1, h2, h3⟩ := ih (ip + 1) (hp + 1)
        refine ⟨Nat.succ_le_succ h1, fun _ => ?_, fun i hi => ?_⟩
        · have := h2 hcond.1
          omega
        · cases i with
          | zero => exact hcond.2
          | succ i =>
              have := h3 i (Nat.lt_of_succ_lt_succ hi)
              rwa [Nat.add_right_comm, Nat.add_assoc, Nat.add_right_comm, Nat.add_assoc] at this
      · exact ⟨Nat.zero_le _, fun h => h, fun i hi => absurd hi (Nat.not_lt_zero i)⟩

/-- The best match so far: none, or a match. -/
def BestMatch (source : List UInt8) (input : Nat) (r : Nat × Nat) : Prop := r.1 = 0 ∨ Match source input r.2 r.1

theorem matchLength_spec {source : List UInt8} {input hp len : Nat} (hin : input ≤ source.length)
    (hlen : input + len ≤ source.length) (hmax : len ≤ PGLZ_MAX_MATCH) :
    matchLength source input hp len ≤ PGLZ_MAX_MATCH ∧ input + matchLength source input hp len ≤ source.length ∧
    ∀ i < matchLength source input hp len, source.getD (input + i) 0 = source.getD (hp + i) 0 := by
  unfold matchLength
  by_cases h16 : 16 ≤ len
  · rw [if_pos h16]
    by_cases heq : (source.drop input).take len = (source.drop hp).take len
    · rw [if_pos heq]
      obtain ⟨h1, h2, h3⟩ := countMatch_spec source (PGLZ_MAX_MATCH - len) (input + len) (hp + len)
      refine ⟨by omega, by have := h2 hlen; omega, fun i hi => ?_⟩
      by_cases hil : i < len
      · have hget := congrArg (·[i]?) heq
        simp only [List.getElem?_take_of_lt hil, List.getElem?_drop] at hget
        rw [List.getD_eq_getElem?_getD, List.getD_eq_getElem?_getD, hget]
      · have := h3 (i - len) (by omega)
        rwa [Nat.add_assoc, Nat.add_assoc, Nat.add_sub_cancel' (Nat.le_of_not_lt hil)] at this
    · rw [if_neg heq]
      exact ⟨Nat.zero_le _, hin, fun i hi => absurd hi (Nat.not_lt_zero i)⟩
  · rw [if_neg h16]
    obtain ⟨h1, h2, h3⟩ := countMatch_spec source PGLZ_MAX_MATCH input hp
    exact ⟨h1, h2 hin, h3⟩

/-- **What is found is a match.** -/
theorem findList_spec {source : List UInt8} {input : Nat} (hin : input ≤ source.length) (good_drop : Nat) :
    ∀ {l : List Nat} {len off : Nat} (good_match : Nat), (∀ p ∈ l, p < input) → BestMatch source input (len, off) →
      BestMatch source input (findList source input good_drop l len off good_match) := by
  intro l
  induction l with
  | nil => exact fun _ _ h => h
  | cons p l ih =>
      intro len off good_match hp hbest
      rw [findList]
      by_cases hfar : 0x0fff ≤ input - p
      · rw [if_pos hfar]
        exact hbest
      · rw [if_neg hfar]
        have hplt := hp p List.mem_cons_self
        have hb : BestMatch source input (if len < matchLength source input p len then
            (matchLength source input p len, input - p) else (len, off)) := by
          split
          · refine Or.inr ?_
            have hlen : input + len ≤ source.length ∧ len ≤ PGLZ_MAX_MATCH := by
              rcases hbest with h0 | hm
              · simp only at h0
                rw [h0]
                exact ⟨hin, Nat.zero_le _⟩
              · exact ⟨hm.inside, hm.len_le⟩
            obtain ⟨h1, h2, h3⟩ := matchLength_spec hin hlen.1 hlen.2
            refine ⟨by simp only; omega, by simp only; omega, by simp only; omega, h1, h2, fun i hi => ?_⟩
            rw [show input - (input - p) = p by omega]
            exact h3 i hi
          · exact hbest
        generalize (if len < matchLength source input p len then
            (matchLength source input p len, input - p) else (len, off)) = best at hb
        simp only
        split
        · exact hb
        · exact ih _ (fun q hq => hp q (List.mem_cons_of_mem _ hq)) hb

theorem findSpec_match {source : List UInt8} {good_match good_drop mask n len off : Nat} (hn : n ≤ source.length)
    (h : findSpec source good_match good_drop mask n = some (len, off)) : Match source n off len ∧ 2 < len := by
  unfold findSpec at h
  have hb := findList_spec hn good_drop good_match
    (l := chain (fun p => pglz_hist_idx source p mask) (n - PGLZ_HISTORY_SIZE) n (pglz_hist_idx source n mask))
    (fun p hp => (mem_chain.mp hp).2.1) (Or.inl rfl : BestMatch source n (0, 0))
  generalize findList source n good_drop (chain (fun p => pglz_hist_idx source p mask) (n - PGLZ_HISTORY_SIZE) n
    (pglz_hist_idx source n mask)) 0 0 good_match = r at h hb
  simp only at h
  split at h
  · rename_i hlt
    cases h
    exact ⟨hb.resolve_left (Nat.ne_of_gt (Nat.lt_trans Nat.two_pos hlt)), hlt⟩
  · cases h

end Pgvec.Pglz
