/-
  File:      Pgvec/Common/SimplehashGrow.lean
  Subject:   GROWING THE HASH TABLE: the copy loop of `SH_GROW`.

  The old table is copied from a bucket on that nothing reaches over, each element into the first empty
  bucket from its optimal one on. A bucket of the new table lies over one of the old table, so many steps
  behind the start; no element is further on there than it was in the old table. So the bucket over its old
  one is still empty when an element is copied, and the elements between its optimal bucket and its new one
  are the ones that were there before.

  * `growProbe_spec` -- the first empty bucket;
  * `Copied` -- the new table after so many buckets of the old one; `Copied.next` -- one more;
  * **`grow_spec`** -- the table holds what it held.
-/
import Pgvec.Common.SimplehashFacts

namespace Pgvec.Simplehash

open RobinHood (pos gap Ordered Chained)

variable {κ δ : Type} {p : Template κ}

/-! ## 1. The start and the search -/

section Search

variable {tb : SH_TYPE κ δ}

/-- The start of the copy is empty or has an element at its optimal position. -/
theorem growStart_spec (p : Template κ) (tb : SH_TYPE κ δ) {olddata : Nat → Element κ δ} {l : List Nat}
    (h : ∃ i ∈ l, (olddata i).status ≠ .IN_USE) : growStart p tb olddata l ∈ l ∧
      ((olddata (growStart p tb olddata l)).status ≠ .IN_USE ∨
        optimalOf p tb (olddata (growStart p tb olddata l)) = growStart p tb olddata l) := by
  induction l with
  | nil =>
      obtain ⟨i, hi, -⟩ := h
      cases hi
  | cons a l ih =>
      rw [growStart]
      split
      · rename_i ha
        exact ⟨List.mem_cons_self, Or.inl ha⟩
      · rename_i ha
        split
        · rename_i hopt
          exact ⟨List.mem_cons_self, Or.inr hopt⟩
        · obtain ⟨i, hi, hne⟩ := h
          have hil : i ∈ l := (List.mem_cons.mp hi).resolve_left fun he => ha (he ▸ hne)
          obtain ⟨hmem, hcase⟩ := ih ⟨i, hil, hne⟩
          exact ⟨List.mem_cons_of_mem a hmem, hcase⟩

/-- The first empty bucket from `s` on, when there is one within `d` steps. -/
theorem growProbe_spec (h : Params tb) {s d : Nat} (hs : s < tb.size) (hd : d < tb.size)
    (hempty : (tb.data (pos tb.size s d)).status = .EMPTY) (fuel : Nat) :
    ∀ k, k ≤ d → d - k < fuel → ∃ k', k ≤ k' ∧ k' ≤ d ∧
      growProbe tb fuel (pos tb.size s k) = some (pos tb.size s k') ∧
      (tb.data (pos tb.size s k')).status = .EMPTY ∧
      ∀ i, k ≤ i → i < k' → (tb.data (pos tb.size s i)).status = .IN_USE := by
  induction fuel with
  | zero => exact fun k _ hf => absurd hf (Nat.not_lt_zero _)
  | succ fuel ih =>
      intro k hk hf
      rw [growProbe]
      rcases status_cases (tb.data (pos tb.size s k)) with he | hu
      · rw [if_pos he]
        exact ⟨k, Nat.le_refl k, hk, rfl, he, fun i h1 h2 => absurd h1 (by omega)⟩
      · have hkd : k ≠ d := fun he => by
          rw [he, hempty] at hu
          cases hu
        rw [if_neg (in_use_iff.mp hu), h.next_pos hs (by omega)]
        obtain ⟨k', h1, h2, hrun, he, hall⟩ := ih (k + 1) (by omega) (by omega)
        refine ⟨k', by omega, h2, hrun, he, fun i hi hlt => ?_⟩
        rcases Nat.lt_or_eq_of_le hi with hi | rfl
        · exact hall i hi hlt
        · exact hu

end Search

/-! ## 2. The copy -/

/-- **The new table after `i` buckets of the old one**, counted from the start `s`. -/
structure Copied (p : Template κ) (n s : Nat) (old : Nat → Element κ δ) (i : Nat) (tb : SH_TYPE κ δ) : Prop where
  source : ∀ b, b < tb.size → (tb.data b).status = .IN_USE → ∃ a d d', a < i ∧
    (old (pos n s a)).status = .IN_USE ∧ tb.data b = old (pos n s a) ∧ gap n s (b % n) ≤ a ∧
    disp p tb.size tb.data b = some d ∧ disp p n old (pos n s a) = some d' ∧ d + (a - d') = gap n s (b % n)
  has : ∀ a, a < i → (old (pos n s a)).status = .IN_USE → ∃ b, b < tb.size ∧ tb.data b = old (pos n s a)
  unique : ∀ b b', b < tb.size → b' < tb.size → (tb.data b).status = .IN_USE → (tb.data b').status = .IN_USE →
    (tb.data b).key = (tb.data b').key → b = b'
  ordered : Ordered tb.size (disp p tb.size tb.data)

section Copy

variable {tb : SH_TYPE κ δ} {n s i : Nat} {old : Nat → Element κ δ} {M : κ → Option δ}

/-- What the copy knows of the old table. -/
structure Source (p : Template κ) (n s : Nat) (old : Nat → Element κ δ) (M : κ → Option δ) : Prop where
  start_lt : s < n
  start : disp p n old s = none ∨ disp p n old s = some 0
  ordered : Ordered n (disp p n old)
  content : Content p n old M

theorem Copied.skip (h : Copied p n s old i tb) (he : (old (pos n s i)).status = .EMPTY) :
    Copied p n s old (i + 1) tb := by
  refine ⟨fun b hb hu => ?_, fun a ha hu => ?_, h.unique, h.ordered⟩
  · obtain ⟨a, d, d', ha, hrest⟩ := h.source b hb hu
    exact ⟨a, d, d', by omega, hrest⟩
  · rcases Nat.lt_or_eq_of_le (Nat.le_of_lt_succ ha) with ha | rfl
    · exact h.has a ha hu
    · rw [he] at hu
      cases hu

/-- Over which bucket of the old table the buckets behind an optimal one lie. -/
theorem gap_over (hs : s < n) (hdvd : n ∣ tb.size) (hsize : 0 < tb.size) {hash d k : Nat} (hi : i < n)
    (hd : gap n (hash % n) (pos n s i) = d) (hdi : d ≤ i) (hk : k ≤ d) :
    gap n s (pos tb.size (hash % tb.size) k % n) = i - d + k := by
  have hn : 0 < n := by omega
  have hle : n ≤ tb.size := Nat.le_of_dvd hsize hdvd
  have ho : hash % n < n := Nat.mod_lt _ hn
  -- the optimal bucket lies over the one of the old table
  have hhome : hash % n = pos n s (i - d) := by
    unfold gap pos at *
    split_ifs at hd ⊢ <;> omega
  have hmod : pos tb.size (hash % tb.size) k % n = pos n (hash % n) k := by
    rw [← RobinHood.add_mod_eq_pos (Nat.mod_lt _ hsize) (by omega), Nat.mod_mod_of_dvd _ hdvd, Nat.add_mod,
      Nat.mod_mod_of_dvd _ hdvd, ← Nat.add_mod_mod, ← RobinHood.add_mod_eq_pos ho (by omega)]
    simp only [Nat.add_mod_mod]
  rw [hmod, hhome, RobinHood.pos_pos hs (by omega), RobinHood.gap_pos hs (by omega)]

/-- **One more bucket**: its element goes to the first empty bucket from its optimal one on, which is no
    further on than it was. -/
theorem Copied.next (hsrc : Source p n s old M) (hp : Params tb) (hdvd : n ∣ tb.size) (h : Copied p n s old i tb)
    (hi : i < n) (hu : (old (pos n s i)).status = .IN_USE) :
    ∃ c, growProbe tb tb.size (optimalOf p tb (old (pos n s i))) = some c ∧
      Copied p n s old (i + 1) { tb with data := setElem tb.data c (old (pos n s i)) } := by
  have hs := hsrc.start_lt
  have h2 := hp.two_le
  have hle : n ≤ tb.size := Nat.le_of_dvd (by omega) hdvd
  have hN : optimalOf p tb (old (pos n s i)) < tb.size := optimalOf_lt hp _
  have hN' : optimalOf p tb (old (pos n s i)) = SH_ENTRY_HASH p (old (pos n s i)) % tb.size := optimalOf_eq hp _
  have hdisp := disp_of_in_use (p := p) (n := n) hu
  have hdi := hsrc.ordered.le_of_start hs hsrc.start hi hdisp
  obtain ⟨d, hd⟩ : ∃ d, gap n (SH_ENTRY_HASH p (old (pos n s i)) % n) (pos n s i) = d := ⟨_, rfl⟩
  rw [hd] at hdi hdisp
  have hover : ∀ k, k ≤ d →
      gap n s (pos tb.size (optimalOf p tb (old (pos n s i))) k % n) = i - d + k := by
    intro k hk
    rw [hN']
    exact gap_over hs hdvd (by omega) hi hd hdi hk
  -- the bucket over the old one is still empty
  have hempty : (tb.data (pos tb.size (optimalOf p tb (old (pos n s i))) d)).status = .EMPTY := by
    rcases status_cases (tb.data (pos tb.size (optimalOf p tb (old (pos n s i))) d)) with he | hu'
    · exact he
    · obtain ⟨a, -, -, ha, -, -, hle', -⟩ := h.source _ (RobinHood.pos_lt hN (by omega)) hu'
      rw [hover d (Nat.le_refl d)] at hle'
      omega
  obtain ⟨k, -, hkd, hrun, hfree, hbefore⟩ := growProbe_spec hp hN (by omega) hempty tb.size 0 (Nat.zero_le d)
    (by omega)
  rw [RobinHood.pos_zero hN] at hrun
  refine ⟨_, hrun, ?_⟩
  obtain ⟨c, hc⟩ : ∃ c, c = pos tb.size (optimalOf p tb (old (pos n s i))) k := ⟨_, rfl⟩
  have hclt : c < tb.size := by
    rw [hc]
    exact RobinHood.pos_lt hN (by omega)
  have hgapc : gap n s (c % n) = i - d + k := by
    rw [hc]
    exact hover k hkd
  have hdispc : gap tb.size (SH_ENTRY_HASH p (old (pos n s i)) % tb.size) c = k := by
    rw [hc, ← hN', RobinHood.gap_pos hN (by omega)]
  rw [← hc] at hfree ⊢
  -- the displacements change in this bucket only
  have hnew : disp p tb.size (setElem tb.data c (old (pos n s i))) =
      Function.update (disp p tb.size tb.data) c (some k) := by
    funext b
    by_cases hb : b = c
    · have hself := setElem_self tb.data c (old (pos n s i))
      rw [hb, Function.update_self, disp_of_in_use (by rw [hself]; exact hu), hself, hdispc]
    · rw [Function.update_of_ne hb]
      exact disp_congr (setElem_of_ne hb _ _)
  -- a key is copied once
  have hkeys : ∀ b, b < tb.size → (tb.data b).status = .IN_USE → (tb.data b).key ≠ (old (pos n s i)).key := by
    intro b hb hub he
    obtain ⟨a, -, -, ha, hua, hold, -⟩ := h.source b hb hub
    rw [hold] at he
    have hsame := hsrc.content.unique _ _ (RobinHood.pos_lt hs (by omega)) (RobinHood.pos_lt hs hi.le) hua hu he
    have hai := RobinHood.pos_inj (by omega) hi hsame
    omega
  refine ⟨fun b hb hub => ?_, fun a ha hua => ?_, fun b b' hb hb' hub hub' he => ?_, ?_⟩
  · by_cases hbc : b = c
    · have hself := setElem_self tb.data c (old (pos n s i))
      refine ⟨i, k, d, Nat.lt_succ_self i, hu, by rw [hbc]; exact hself, by rw [hbc, hgapc]; omega, ?_, hdisp, ?_⟩
      · show disp p tb.size (setElem tb.data c (old (pos n s i))) b = some k
        rw [hnew, hbc, Function.update_self]
      · rw [hbc, hgapc]
        omega
    · have hkeep : setElem tb.data c (old (pos n s i)) b = tb.data b := setElem_of_ne hbc _ _
      have hub : (tb.data b).status = .IN_USE := by
        rw [← hkeep]
        exact hub
      obtain ⟨a, x, y, ha, hua, hold, hgap, hx, hrest⟩ := h.source b hb hub
      exact ⟨a, x, y, by omega, hua, hkeep.trans hold, hgap, (disp_congr hkeep).trans hx, hrest⟩
  · rcases Nat.lt_or_eq_of_le (Nat.le_of_lt_succ ha) with ha | rfl
    · obtain ⟨b, hb, hold⟩ := h.has a ha hua
      have hbc : b ≠ c := fun e => by
        rw [← hold, e, hfree] at hua
        cases hua
      exact ⟨b, hb, (setElem_of_ne hbc _ _).trans hold⟩
    · exact ⟨c, hclt, setElem_self _ _ _⟩
  · have hself := setElem_self tb.data c (old (pos n s i))
    have hkeep : ∀ b, b ≠ c → setElem tb.data c (old (pos n s i)) b = tb.data b := fun b hbc => setElem_of_ne hbc _ _
    simp only at hub hub' he
    by_cases hbc : b = c
    · by_cases hbc' : b' = c
      · rw [hbc, hbc']
      · rw [hkeep b' hbc'] at hub' he
        rw [hbc, hself] at he
        exact absurd he.symm (hkeys b' hb' hub')
    · rw [hkeep b hbc] at hub he
      by_cases hbc' : b' = c
      · rw [hbc', hself] at he
        exact absurd he (hkeys b hb hub)
      · rw [hkeep b' hbc'] at hub' he
        exact h.unique b b' hb hb' hub hub' he
  · show Ordered tb.size (disp p tb.size (setElem tb.data c (old (pos n s i))))
    rw [hnew]
    refine h.ordered.set (by omega) (disp_of_empty hfree) fun q hq hnext => ?_
    cases k with
    | zero => exact RobinHood.chained_zero _
    | succ k =>
        -- the element in front wanted to be no further on than the new one
        have hqe : q = pos tb.size (optimalOf p tb (old (pos n s i))) k := by
          rw [hc] at hnext
          unfold pos at *
          split_ifs at hnext ⊢ <;> omega
        have huq := hbefore k (Nat.zero_le k) (Nat.lt_succ_self k)
        rw [← hqe] at huq
        obtain ⟨a, x, y, ha, hua, -, -, hx, hy, hsum⟩ := h.source q hq huq
        have hwanted := hsrc.ordered.wanted_le hs ha.le hi hy hdisp
        have hgapq : gap n s (q % n) = i - d + k := by
          rw [hqe]
          exact hover k (by omega)
        rw [hx]
        intro e he
        obtain rfl : k = e := by simpa using he
        exact ⟨x, rfl, by omega⟩

end Copy

/-! ## 3. `SH_GROW` -/

section Grow

variable {tb : SH_TYPE κ δ} {n s : Nat} {old : Nat → Element κ δ} {M : κ → Option δ}

/-- **The copy loop.** -/
theorem growCopy_spec (hsrc : Source p n s old M) (left : Nat) : ∀ (i : Nat) (tb : SH_TYPE κ δ), Params tb →
    n ∣ tb.size → i + left = n → Copied p n s old i tb →
    ∃ data, growCopy p old n left (pos n s i) tb = some { tb with data := data } ∧
      Copied p n s old n { tb with data := data } := by
  induction left with
  | zero =>
      intro i tb _ _ hin h
      obtain rfl : i = n := hin
      exact ⟨tb.data, rfl, h⟩
  | succ left ih =>
      intro i tb hp hdvd hin h
      have hs := hsrc.start_lt
      have hnext : (if n ≤ pos n s i + 1 then 0 else pos n s i + 1) = pos n s (i + 1) := by
        unfold pos
        split_ifs <;> omega
      rw [growCopy]
      simp only [hnext]
      rcases status_cases (old (pos n s i)) with he | hu
      · have hne : (old (pos n s i)).status ≠ .IN_USE := by
          rw [he]
          exact SH_STATUS.noConfusion
        rw [if_neg hne]
        exact ih (i + 1) tb hp hdvd (by omega) (h.skip he)
      · rw [if_pos hu]
        obtain ⟨c, hrun, hnew⟩ := h.next hsrc hp hdvd (by omega) hu
        rw [hrun]
        exact ih (i + 1) _ ⟨hp.pow2, hp.mask⟩ hdvd (by omega) hnew

/-- The whole old table has been copied. -/
theorem Copied.content (hsrc : Source p n s old M) (h : Copied p n s old n tb) :
    Content p tb.size tb.data M where
  stored b hb hu := by
    obtain ⟨a, -, -, ha, hua, hold, -⟩ := h.source b hb hu
    rw [hold]
    exact hsrc.content.stored _ (RobinHood.pos_lt hsrc.start_lt ha.le) hua
  own b hb hu := by
    obtain ⟨a, -, -, ha, hua, hold, -⟩ := h.source b hb hu
    rw [hold]
    exact hsrc.content.own _ (RobinHood.pos_lt hsrc.start_lt ha.le) hua
  has key hkey := by
    obtain ⟨b, hb, hu, he⟩ := hsrc.content.has key hkey
    rw [← RobinHood.pos_gap hsrc.start_lt hb] at hu he
    obtain ⟨c, hc, hold⟩ := h.has _ (RobinHood.gap_lt hsrc.start_lt hb) hu
    exact ⟨c, hc, by rw [hold]; exact hu, by rw [hold]; exact he⟩
  unique := h.unique

variable [Inhabited κ] [Inhabited δ]

/-- **`SH_GROW`**: a table at least twice as large that holds the same. -/
theorem grow_spec (h : Good p tb M) {newsize : Nat} (hlt : tb.size < newsize) (hmax : newsize ≤ SH_MAX_SIZE) :
    ∃ tb', SH_GROW p tb newsize = some tb' ∧ Good p tb' M ∧ tb'.members = tb.members ∧
      tb'.size = SH_COMPUTE_SIZE newsize ∧ 2 * tb.size ≤ tb'.size := by
  obtain ⟨e, -, -, hsize⟩ := h.params.pow2
  obtain ⟨e', h1, h2, hcompute, hle⟩ := compute_size hmax
  have hee : e < e' := by
    refine (Nat.pow_lt_pow_iff_right (show 1 < 2 by decide)).mp ?_
    rw [← hsize]
    omega
  have hpow : SH_COMPUTE_SIZE (SH_COMPUTE_SIZE newsize) = 2 ^ e' := by
    rw [hcompute]
    exact compute_size_pow h1
  -- the new table before the copy
  obtain ⟨new, hnew⟩ : ∃ new : SH_TYPE κ δ, new = SH_UPDATE_PARAMETERS
      { tb with data := fun _ => ⟨.EMPTY, default, 0, default⟩ } (SH_COMPUTE_SIZE newsize) := ⟨_, rfl⟩
  have hparams : Params new := hnew ▸ update_params _ h1 h2 hpow
  have hnewsize : new.size = 2 ^ e' := by
    rw [hnew]
    exact hpow
  have hdata : ∀ b, (new.data b).status = .EMPTY := fun b => by
    rw [hnew]
    rfl
  have hdvd : tb.size ∣ new.size := by
    rw [hsize, hnewsize]
    exact Nat.pow_dvd_pow 2 hee.le
  have htwice : 2 * tb.size ≤ new.size := by
    rw [hsize, hnewsize, ← Nat.pow_succ']
    exact Nat.pow_le_pow_right (by decide) hee
  -- where the copy begins
  obtain ⟨b, hb, hempty⟩ := h.exists_empty
  obtain ⟨hmem, hstart⟩ := growStart_spec p new
    ⟨b, List.mem_range.mpr hb, (by rw [hempty]; exact SH_STATUS.noConfusion : (tb.data b).status ≠ .IN_USE)⟩
  obtain ⟨s, hs⟩ : ∃ s, s = growStart p new tb.data (List.range tb.size) := ⟨_, rfl⟩
  rw [← hs] at hmem hstart
  have hslt := List.mem_range.mp hmem
  have hsrc : Source p tb.size s tb.data M := by
    refine ⟨hslt, ?_, h.ordered, h.content⟩
    rcases status_cases (tb.data s) with he | hu
    · exact Or.inl (disp_of_empty he)
    · have hopt := hstart.resolve_left fun hne => hne hu
      -- the optimal bucket in the new table is the one in the old table
      have hhome : SH_ENTRY_HASH p (tb.data s) % tb.size = s := by
        rw [optimalOf_eq hparams] at hopt
        rw [← Nat.mod_mod_of_dvd _ hdvd, hopt, Nat.mod_eq_of_lt hslt]
      have hzero : gap tb.size s s = 0 := by
        unfold gap
        rw [if_pos (Nat.le_refl s), Nat.sub_self]
      rw [disp_of_in_use hu, hhome, hzero]
      exact Or.inr rfl
  have hcopied : Copied p tb.size s tb.data 0 new := by
    refine ⟨fun b hb hu => ?_, fun a ha => absurd ha (Nat.not_lt_zero a), fun b b' hb hb' hu => ?_, fun b hb => ?_⟩
    · rw [hdata b] at hu
      cases hu
    · rw [hdata b] at hu
      cases hu
    · rw [disp_of_empty (hdata b), disp_of_empty (hdata (pos new.size b 1))]
      exact RobinHood.chained_none _
  obtain ⟨data, hrun, hdone⟩ := growCopy_spec hsrc tb.size 0 new hparams hdvd (Nat.zero_add _) hcopied
  rw [RobinHood.pos_zero hslt, hs] at hrun
  have hgrow : SH_GROW p tb newsize = some { new with data := data } := by
    unfold SH_GROW
    simp only
    rw [← hnew]
    exact hrun
  have hmembers : new.members = tb.members := by
    rw [hnew]
    rfl
  have hroom := h.room
  refine ⟨_, hgrow, ⟨⟨hparams.pow2, hparams.mask⟩, hdone.ordered, hdone.content hsrc, ?_, ?_, ?_⟩, hmembers, ?_,
    htwice⟩
  · obtain ⟨K, hK, hcard⟩ := h.count
    exact ⟨K, hK, hmembers.trans hcard⟩
  · show new.members < new.size
    omega
  · show new.grow_threshold < new.size
    rw [hnew]
    exact update_threshold _ (by rw [hpow]; exact Nat.two_pow_pos e')
  · show new.size = _
    rw [hnewsize, hcompute]

end Grow

/-! ## 4. `SH_INSERT` -/

section Insert

variable {tb : SH_TYPE κ δ} {M : κ → Option δ} [DecidableEq κ]

/-- **What `SH_INSERT` comes to** in a table that holds `M`: the error, in a table that has grown to
    `SH_MAX_SIZE`; or the bucket of the key, which was there or is new. -/
def Inserted (p : Template κ) (M : κ → Option δ) (key : κ) :
    Except (String × SH_TYPE κ δ) (SH_TYPE κ δ × Nat × Bool) → Prop
  | .error (msg, tb) => msg = "hash table size exceeded" ∧ tb.size = SH_MAX_SIZE
  | .ok (tb, entry, found) => entry < tb.size ∧ (tb.data entry).status = .IN_USE ∧ (tb.data entry).key = key ∧
      found = (M key).isSome ∧ (found = true → M key = some (tb.data entry).data) ∧
      Good p tb (Function.update M key (some (tb.data entry).data))

/-- One search, in a table with room for one more. -/
theorem insertSearch_spec (h : Good p tb M) (hroom : tb.members + 1 < tb.size) (key : κ) :
    ∃ r, insertLoop p tb key (p.SH_HASH_KEY key) tb.size (SH_INITIAL_BUCKET tb (p.SH_HASH_KEY key)) 0 = some r ∧
      ((r = .restart ∧ tb.size ≤ 10 * tb.members) ∨
        ∃ tb' entry found, r = .done tb' entry found ∧ Inserted p M key (.ok (tb', entry, found))) := by
  have hs := h.params.initial_lt (p.SH_HASH_KEY key)
  obtain ⟨m, hm, hempty, hused⟩ := h.first_empty hs
  obtain ⟨r, hrun, hr⟩ := insertLoop_spec h hs hm hempty hused key tb.size 0 (Nat.zero_le m) (by omega)
    (fun i hi => absurd hi (Nat.not_lt_zero i)) fun i hi => absurd hi (Nat.not_lt_zero i)
  rw [RobinHood.pos_zero hs] at hrun
  refine ⟨r, hrun, ?_⟩
  rcases hr with hrestart | ⟨i, hi, rfl, hkey⟩ | ⟨k, data', rfl, ht⟩
  · exact Or.inl hrestart
  · have hb := RobinHood.pos_lt hs (hi.trans hm).le
    have hst := h.content.stored _ hb (hused i hi)
    rw [hkey] at hst
    refine Or.inr ⟨tb, _, true, rfl, hb, hused i hi, hkey, by rw [hst]; rfl, fun _ => hst, ?_⟩
    rw [← hst, Function.update_eq_self]
    exact h
  · have hb := RobinHood.pos_lt hs (ht.le.trans hm.le)
    have habsent := ht.absent_key h hempty
    exact Or.inr ⟨_, _, false, rfl, hb, ht.new_status, ht.new_key, by rw [habsent]; rfl,
      fun hf => absurd hf Bool.false_ne_true, ht.good h hm hempty hused hroom⟩

variable [Inhabited κ] [Inhabited δ]

/-- A restart grows the table. -/
theorem insertRestart_spec (key : κ) (fuel : Nat) : ∀ (tb : SH_TYPE κ δ) (e : Nat), Good p tb M →
    tb.size = 2 ^ e → (tb.grow_threshold = 0 ∧ 33 ≤ fuel + e) ∨ 34 ≤ fuel + e →
    ∃ r, insertRestart p key (p.SH_HASH_KEY key) fuel tb = some r ∧ Inserted p M key r := by
  induction fuel with
  | zero =>
      intro tb e h he hfuel
      obtain ⟨e', -, h2, he'⟩ := h.params.pow2
      have heq : e = e' := Nat.pow_right_injective (Nat.le_refl 2) (he.symm.trans he')
      omega
  | succ fuel ih =>
      intro tb e h he hfuel
      rw [insertRestart]
      -- a search, and the restart it may come to
      have hsearch : ∀ (tb' : SH_TYPE κ δ) (e' : Nat), Good p tb' M → tb'.size = 2 ^ e' →
          tb'.members + 1 < tb'.size → 33 ≤ fuel + e' →
          (insertLoop p tb' key (p.SH_HASH_KEY key) tb'.size (SH_INITIAL_BUCKET tb' (p.SH_HASH_KEY key)) 0 =
              some .restart ∧
            ∃ r, insertRestart p key (p.SH_HASH_KEY key) fuel { tb' with grow_threshold := 0 } = some r ∧
              Inserted p M key r) ∨
          ∃ tb entry found, insertLoop p tb' key (p.SH_HASH_KEY key) tb'.size
              (SH_INITIAL_BUCKET tb' (p.SH_HASH_KEY key)) 0 = some (.done tb entry found) ∧
            Inserted p M key (.ok (tb, entry, found)) := by
        intro tb' e' h' he' hroom hf
        obtain ⟨r, hrun, hr⟩ := insertSearch_spec h' hroom key
        rcases hr with ⟨rfl, -⟩ | ⟨tb'', entry, found, rfl, hins⟩
        · have hgood : Good p { tb' with grow_threshold := 0 } M :=
            ⟨⟨h'.params.pow2, h'.params.mask⟩, h'.ordered, h'.content, h'.count, h'.room, h'.size_pos⟩
          exact Or.inl ⟨hrun, ih _ e' hgood he' (Or.inl ⟨rfl, hf⟩)⟩
        · exact Or.inr ⟨tb'', entry, found, hrun, hins⟩
      split
      · split
        · rename_i hsize
          exact ⟨_, rfl, rfl, hsize⟩
        · rename_i hgrow hsize
          obtain ⟨e'', -, h2, he''⟩ := h.params.pow2
          have heq : e = e'' := Nat.pow_right_injective (Nat.le_refl 2) (he.symm.trans he'')
          have hpos := h.size_pos
          have hmax : tb.size * 2 ≤ SH_MAX_SIZE := by
            have hne : e ≠ 32 := fun h32 => hsize (by rw [he, h32]; rfl)
            rw [he, ← Nat.pow_succ]
            exact Nat.pow_le_pow_right (by decide) (by omega)
          obtain ⟨tb', hrun, hgood, hmembers, hnewsize, htwice⟩ := grow_spec h (by omega) hmax
          rw [hrun]
          have hsize' : tb'.size = 2 ^ (e + 1) := by
            rw [hnewsize, he, ← Nat.pow_succ]
            exact compute_size_pow (Nat.le_add_left 1 e)
          have hroom := h.room
          rcases hsearch tb' (e + 1) hgood hsize' (by omega) (by omega) with ⟨hloop, hr⟩ | ⟨tb2, entry, found, hloop, hr⟩
          · simp only [hloop]
            exact hr
          · simp only [hloop]
            exact ⟨_, rfl, hr⟩
      · rename_i hbelow
        have hthreshold := h.threshold
        rcases hsearch tb e h he (by omega) (by omega) with ⟨hloop, hr⟩ | ⟨tb2, entry, found, hloop, hr⟩
        · simp only [hloop]
          exact hr
        · simp only [hloop]
          exact ⟨_, rfl, hr⟩

/-- **`SH_INSERT`** ends, and gives the bucket of the key. -/
theorem insert_spec (h : Good p tb M) (key : κ) :
    ∃ r, SH_INSERT p tb key = some r ∧ Inserted p M key r := by
  obtain ⟨e, h1, -, he⟩ := h.params.pow2
  exact insertRestart_spec key 34 tb e h he (Or.inr (by omega))

end Insert

end Pgvec.Simplehash
