/-
  File:      Pgvec/Common/SimplehashFacts.lean
  Subject:   WHAT THE HASH TABLE HOLDS: the state of a table between two calls, looking up, inserting and
             deleting.

  * `Params` -- size and mask: the bucket functions walk the circle of `Lib/RobinHood.lean`;
  * `disp`, `Content` -- how far an element is from its optimal bucket, and the map an array stands for;
  * **`Good`** -- a table between two calls;
  * **`lookup_spec`**, `insertLoop_spec`, **`delete_spec`**, `delete_item_spec`.
-/
import Mathlib.Data.Finset.Card
import Mathlib.Data.Finset.Range
import Mathlib.Data.Nat.Find
import Mathlib.Data.Finset.Insert
import Pgvec.Lib.RobinHood
import Pgvec.Common.Simplehash

namespace Pgvec.Simplehash

open RobinHood (pos gap Ordered Chained)

variable {κ δ : Type} {p : Template κ}

/-! ## 1. Sizes -/

/-- The size is a power of two, and the mask goes with it. -/
structure Params (tb : SH_TYPE κ δ) : Prop where
  pow2 : ∃ e, 1 ≤ e ∧ e ≤ 32 ∧ tb.size = 2 ^ e
  mask : tb.sizemask = tb.size - 1

section Sizes

variable {tb : SH_TYPE κ δ}

theorem Params.two_le (h : Params tb) : 2 ≤ tb.size := by
  obtain ⟨e, h1, -, he⟩ := h.pow2
  rw [he]
  exact Nat.le_self_pow (by omega) 2

theorem Params.dvd (h : Params tb) : tb.size ∣ 2 ^ 32 := by
  obtain ⟨e, -, h2, he⟩ := h.pow2
  rw [he]
  exact Nat.pow_dvd_pow 2 h2

theorem Params.and_mask (h : Params tb) (x : Nat) : x &&& tb.sizemask = x % tb.size := by
  obtain ⟨e, -, -, he⟩ := h.pow2
  rw [h.mask, he]
  exact Nat.and_two_pow_sub_one_eq_mod x e

theorem Params.initial_lt (h : Params tb) (hash : Nat) : SH_INITIAL_BUCKET tb hash < tb.size := by
  unfold SH_INITIAL_BUCKET
  rw [h.and_mask]
  exact Nat.mod_lt _ (by have := h.two_le; omega)

theorem Params.next (h : Params tb) {b : Nat} (hb : b < tb.size) : SH_NEXT tb b = pos tb.size b 1 := by
  have h2 := h.two_le
  unfold SH_NEXT
  rw [h.and_mask, Nat.mod_mod_of_dvd _ h.dvd, RobinHood.add_mod_eq_pos hb (by omega)]

theorem Params.prev (h : Params tb) {b : Nat} (hb : b < tb.size) :
    SH_PREV tb b = pos tb.size b (tb.size - 1) := by
  have h2 := h.two_le
  obtain ⟨q, hq⟩ := h.dvd
  obtain ⟨q', rfl⟩ : ∃ q', q = q' + 1 := ⟨q - 1, by
    have hpos : 0 < q := Nat.pos_of_ne_zero fun h0 => by
      rw [h0, Nat.mul_zero] at hq
      exact absurd hq (by decide)
    omega⟩
  have he : b + (2 ^ 32 - 1) = b + (tb.size - 1) + tb.size * q' := by
    rw [hq, Nat.mul_succ]
    omega
  unfold SH_PREV
  rw [h.and_mask, Nat.mod_mod_of_dvd _ h.dvd, he, Nat.add_mul_mod_self_left,
    RobinHood.add_mod_eq_pos hb (by omega)]

theorem Params.distance (h : Params tb) (o b : Nat) :
    SH_DISTANCE_FROM_OPTIMAL tb o b = gap tb.size o b := by
  have hle : tb.size ≤ 2 ^ 32 := Nat.le_of_dvd (by decide) h.dvd
  unfold SH_DISTANCE_FROM_OPTIMAL gap
  split
  · rfl
  · exact Nat.mod_eq_of_lt (by omega)

/-- One bucket on, and one back, counted from `s`. -/
theorem Params.next_pos (h : Params tb) {s k : Nat} (hs : s < tb.size) (hk : k < tb.size) :
    SH_NEXT tb (pos tb.size s k) = pos tb.size s (k + 1) := by
  rw [h.next (RobinHood.pos_lt hs hk.le), RobinHood.pos_pos hs hk]

theorem Params.prev_pos (h : Params tb) {s k : Nat} (hs : s < tb.size) (hk : k < tb.size) :
    SH_PREV tb (pos tb.size s (k + 1)) = pos tb.size s k := by
  have h2 := h.two_le
  rw [h.prev (RobinHood.pos_lt hs hk)]
  unfold pos
  split_ifs <;> omega

theorem compute_size {newsize : Nat} (h : newsize ≤ 2 ^ 32) :
    ∃ e, 1 ≤ e ∧ e ≤ 32 ∧ SH_COMPUTE_SIZE newsize = 2 ^ e ∧ newsize ≤ 2 ^ e := by
  obtain ⟨num, hnum⟩ : ∃ num, num = max newsize 2 := ⟨_, rfl⟩
  have hle : newsize ≤ num := by omega
  have h2 : 2 ≤ num := by omega
  have hmax : num ≤ 2 ^ 32 := by
    rw [hnum]
    exact max_le h (by decide)
  have hone : ∀ e, num = 2 ^ e → 1 ≤ e := fun e he => by
    by_contra h0
    obtain rfl : e = 0 := by omega
    rw [he] at h2
    exact absurd h2 (by decide)
  unfold SH_COMPUTE_SIZE pg_nextpower2_64
  rw [← hnum]
  split
  · rename_i hand
    obtain ⟨e, he⟩ := (Nat.and_sub_one_eq_zero_iff_isPowerOfTwo (by omega)).mp hand
    refine ⟨e, hone e he, ?_, he, hle.trans he.le⟩
    rw [he] at hmax
    exact (Nat.pow_le_pow_iff_right (by decide)).mp hmax
  · rename_i hand
    -- not a power of two, so below the greatest
    have hlt : num < 2 ^ 32 := by
      refine lt_of_le_of_ne hmax fun he => hand ?_
      rw [he]
      decide
    have hlog : num.log2 < 32 := (Nat.log2_lt (by omega)).mpr hlt
    exact ⟨num.log2 + 1, by omega, by omega, rfl, hle.trans (Nat.lt_log2_self).le⟩

theorem compute_size_pow {e : Nat} (h : 1 ≤ e) : SH_COMPUTE_SIZE (2 ^ e) = 2 ^ e := by
  have h2 : 2 ≤ 2 ^ e := Nat.le_self_pow (by omega) 2
  have hand : 2 ^ e &&& (2 ^ e - 1) = 0 :=
    (Nat.and_sub_one_eq_zero_iff_isPowerOfTwo (by omega)).mpr ⟨e, rfl⟩
  unfold SH_COMPUTE_SIZE pg_nextpower2_64
  rw [max_eq_left h2, if_pos hand]

theorem update_params (tb : SH_TYPE κ δ) {newsize e : Nat} (h1 : 1 ≤ e) (h2 : e ≤ 32)
    (he : SH_COMPUTE_SIZE newsize = 2 ^ e) : Params (SH_UPDATE_PARAMETERS tb newsize) := by
  refine ⟨⟨e, h1, h2, he⟩, ?_⟩
  have hle : 2 ^ e ≤ 2 ^ 32 := Nat.pow_le_pow_right (by decide) h2
  show (SH_COMPUTE_SIZE newsize - 1) % 2 ^ 32 = SH_COMPUTE_SIZE newsize - 1
  rw [he]
  exact Nat.mod_eq_of_lt (by have := Nat.two_pow_pos e; omega)

theorem update_threshold (tb : SH_TYPE κ δ) {newsize : Nat} (h : 0 < SH_COMPUTE_SIZE newsize) :
    (SH_UPDATE_PARAMETERS tb newsize).grow_threshold < (SH_UPDATE_PARAMETERS tb newsize).size := by
  show (if SH_COMPUTE_SIZE newsize = SH_MAX_SIZE then _ else _) < SH_COMPUTE_SIZE newsize
  split <;> omega

end Sizes

/-! ## 2. What an array holds -/

/-- The elements an array holds, as a map: a key has one bucket, and its data there. The stored hashes are
    the keys' own. -/
structure Content (p : Template κ) (n : Nat) (data : Nat → Element κ δ) (M : κ → Option δ) : Prop where
  stored : ∀ b, b < n → (data b).status = .IN_USE → M (data b).key = some (data b).data
  own : ∀ b, b < n → (data b).status = .IN_USE → SH_ENTRY_HASH p (data b) = p.SH_HASH_KEY (data b).key
  has : ∀ k, M k ≠ none → ∃ b, b < n ∧ (data b).status = .IN_USE ∧ (data b).key = k
  unique : ∀ b b', b < n → b' < n → (data b).status = .IN_USE → (data b').status = .IN_USE →
    (data b).key = (data b').key → b = b'

/-- **Displacement**: how far the element of a bucket is from its optimal one. -/
def disp (p : Template κ) (n : Nat) (data : Nat → Element κ δ) (b : Nat) : Option Nat :=
  if (data b).status = .IN_USE then some (gap n (SH_ENTRY_HASH p (data b) % n) b) else none

section Arrays

variable {n s : Nat} {data data' : Nat → Element κ δ} {M : κ → Option δ}

theorem status_cases (e : Element κ δ) : e.status = .EMPTY ∨ e.status = .IN_USE := by
  cases e.status
  · exact Or.inl rfl
  · exact Or.inr rfl

theorem in_use_iff {e : Element κ δ} : e.status = .IN_USE ↔ e.status ≠ .EMPTY := by
  rcases status_cases e with h | h
  · rw [h]
    exact iff_of_false SH_STATUS.noConfusion fun hne => hne rfl
  · rw [h]
    exact iff_of_true rfl SH_STATUS.noConfusion

theorem disp_of_in_use {b : Nat} (h : (data b).status = .IN_USE) :
    disp p n data b = some (gap n (SH_ENTRY_HASH p (data b) % n) b) := if_pos h

theorem disp_of_empty {b : Nat} (h : (data b).status = .EMPTY) : disp p n data b = none :=
  if_neg fun h' => by rw [h] at h'; cases h'

theorem disp_congr {b : Nat} (h : data' b = data b) : disp p n data' b = disp p n data b := by
  unfold disp
  rw [h]

theorem in_use_of_disp {b d : Nat} (h : disp p n data b = some d) : (data b).status = .IN_USE := by
  rcases status_cases (data b) with h' | h'
  · rw [disp_of_empty h'] at h
    cases h
  · exact h'

/-- The circle may begin anywhere. -/
theorem Content.rotate (h : Content p n data M) (hs : s < n) : Content p n (fun k => data (pos n s k)) M where
  stored k hk := h.stored _ (RobinHood.pos_lt hs hk.le)
  own k hk := h.own _ (RobinHood.pos_lt hs hk.le)
  has key hkey := by
    obtain ⟨b, hb, hu, he⟩ := h.has key hkey
    refine ⟨gap n s b, RobinHood.gap_lt hs hb, ?_⟩
    simp only [RobinHood.pos_gap hs hb]
    exact ⟨hu, he⟩
  unique k k' hk hk' hu hu' he :=
    RobinHood.pos_inj hk hk' (h.unique _ _ (RobinHood.pos_lt hs hk.le) (RobinHood.pos_lt hs hk'.le) hu hu' he)

theorem Content.of_rotate (hs : s < n) (h : Content p n (fun k => data (pos n s k)) M) : Content p n data M where
  stored b hb := by
    have hk := h.stored _ (RobinHood.gap_lt hs hb)
    simp only [RobinHood.pos_gap hs hb] at hk
    exact hk
  own b hb := by
    have hk := h.own _ (RobinHood.gap_lt hs hb)
    simp only [RobinHood.pos_gap hs hb] at hk
    exact hk
  has key hkey := by
    obtain ⟨k, hk, hu, he⟩ := h.has key hkey
    exact ⟨pos n s k, RobinHood.pos_lt hs hk.le, hu, he⟩
  unique b b' hb hb' hu hu' he := by
    have hk := h.unique _ _ (RobinHood.gap_lt hs hb) (RobinHood.gap_lt hs hb')
    simp only [RobinHood.pos_gap hs hb, RobinHood.pos_gap hs hb'] at hk
    have hgap := hk hu hu' he
    rw [← RobinHood.pos_gap hs hb, hgap, RobinHood.pos_gap hs hb']

/-- **A new key** in bucket `k`, the elements from there to the empty bucket `m` moved up by one. -/
theorem Content.insert [DecidableEq κ] {g g' : Nat → Element κ δ} (h : Content p n g M) {k m : Nat} (hkm : k ≤ m)
    (hm : m < n) (hfree : (g m).status = .EMPTY) (hlow : ∀ i, i < k → g' i = g i)
    (hnew : (g' k).status = .IN_USE) (hown : SH_ENTRY_HASH p (g' k) = p.SH_HASH_KEY (g' k).key)
    (habsent : M (g' k).key = none) (hmoved : ∀ i, k ≤ i → i < m → g' (i + 1) = g i)
    (hhigh : ∀ i, m < i → i < n → g' i = g i) :
    Content p n g' (Function.update M (g' k).key (some (g' k).data)) := by
  -- where the element of a bucket comes from
  have hfrom : ∀ i, i < n → i ≠ k → ∃ a, a < n ∧ g' i = g a ∧
      (i < k ∧ a = i ∨ k < i ∧ i = a + 1 ∧ a < m ∨ m < i ∧ a = i) := by
    intro i hi hne
    rcases Nat.lt_or_ge i k with h1 | h1
    · exact ⟨i, hi, hlow i h1, Or.inl ⟨h1, rfl⟩⟩
    · rcases Nat.lt_or_ge m i with h2 | h2
      · exact ⟨i, hi, hhigh i h2 hi, Or.inr (Or.inr ⟨h2, rfl⟩)⟩
      · obtain ⟨a, rfl⟩ : ∃ a, i = a + 1 := ⟨i - 1, by omega⟩
        exact ⟨a, by omega, hmoved a (by omega) (by omega), Or.inr (Or.inl ⟨by omega, rfl, by omega⟩)⟩
  have hother : ∀ i, i < n → i ≠ k → (g' i).status = .IN_USE → (g' i).key ≠ (g' k).key := by
    intro i hi hne hu he
    obtain ⟨a, ha, hga, -⟩ := hfrom i hi hne
    rw [hga] at hu he
    have hst := h.stored a ha hu
    rw [he, habsent] at hst
    cases hst
  refine ⟨fun i hi hu => ?_, fun i hi hu => ?_, fun key hkey => ?_, fun i i' hi hi' hu hu' he => ?_⟩
  · by_cases hne : i = k
    · rw [hne, Function.update_self]
    · rw [Function.update_of_ne (hother i hi hne hu)]
      obtain ⟨a, ha, hga, -⟩ := hfrom i hi hne
      rw [hga] at hu ⊢
      exact h.stored a ha hu
  · by_cases hne : i = k
    · rw [hne]
      exact hown
    · obtain ⟨a, ha, hga, -⟩ := hfrom i hi hne
      rw [hga] at hu ⊢
      exact h.own a ha hu
  · by_cases hk : key = (g' k).key
    · exact ⟨k, by omega, hnew, hk.symm⟩
    · rw [Function.update_of_ne hk] at hkey
      obtain ⟨a, ha, hu, he⟩ := h.has key hkey
      have ham : a ≠ m := fun e => by
        rw [e, hfree] at hu
        cases hu
      rcases Nat.lt_or_ge a k with h1 | h1
      · exact ⟨a, ha, by rw [hlow a h1]; exact hu, by rw [hlow a h1]; exact he⟩
      · rcases Nat.lt_or_ge a m with h2 | h2
        · have hg := hmoved a h1 h2
          exact ⟨a + 1, by omega, by rw [hg]; exact hu, by rw [hg]; exact he⟩
        · have hg := hhigh a (by omega) ha
          exact ⟨a, ha, by rw [hg]; exact hu, by rw [hg]; exact he⟩
  · by_cases hne : i = k
    · by_cases hne' : i' = k
      · rw [hne, hne']
      · rw [hne] at he
        exact absurd he.symm (hother i' hi' hne' hu')
    · by_cases hne' : i' = k
      · rw [hne'] at he
        exact absurd he (hother i hi hne hu)
      · obtain ⟨a, ha, hga, hcase⟩ := hfrom i hi hne
        obtain ⟨a', ha', hga', hcase'⟩ := hfrom i' hi' hne'
        rw [hga] at hu he
        rw [hga'] at hu' he
        have haa := h.unique a a' ha ha' hu hu' he
        omega

/-- **Without the key** of the first bucket, the elements behind it up to bucket `j` moved back by one. -/
theorem Content.erase [DecidableEq κ] {g g' : Nat → Element κ δ} (h : Content p n g M) {j : Nat} (hj : j < n)
    (hfirst : (g 0).status = .IN_USE) (hmoved : ∀ i, i < j → g' i = g (i + 1)) (hfree : (g' j).status = .EMPTY)
    (hhigh : ∀ i, j < i → i < n → g' i = g i) : Content p n g' (Function.update M (g 0).key none) := by
  have hfrom : ∀ i, i < n → (g' i).status = .IN_USE → ∃ a, a < n ∧ a ≠ 0 ∧ g' i = g a ∧
      (i < j ∧ a = i + 1 ∨ j < i ∧ a = i) := by
    intro i hi hu
    rcases Nat.lt_trichotomy i j with h1 | h1 | h1
    · exact ⟨i + 1, by omega, Nat.succ_ne_zero i, hmoved i h1, Or.inl ⟨h1, rfl⟩⟩
    · rw [h1, hfree] at hu
      cases hu
    · exact ⟨i, hi, by omega, hhigh i h1 hi, Or.inr ⟨h1, rfl⟩⟩
  have hother : ∀ a, a < n → a ≠ 0 → (g a).status = .IN_USE → (g a).key ≠ (g 0).key :=
    fun a ha hne hu he => hne (h.unique a 0 ha (by omega) hu hfirst he)
  refine ⟨fun i hi hu => ?_, fun i hi hu => ?_, fun key hkey => ?_, fun i i' hi hi' hu hu' he => ?_⟩
  · obtain ⟨a, ha, hne, hga, -⟩ := hfrom i hi hu
    rw [hga] at hu ⊢
    rw [Function.update_of_ne (hother a ha hne hu)]
    exact h.stored a ha hu
  · obtain ⟨a, ha, -, hga, -⟩ := hfrom i hi hu
    rw [hga] at hu ⊢
    exact h.own a ha hu
  · have hk : key ≠ (g 0).key := fun he => by
      rw [he, Function.update_self] at hkey
      exact hkey rfl
    rw [Function.update_of_ne hk] at hkey
    obtain ⟨a, ha, hu, he⟩ := h.has key hkey
    have ha0 : a ≠ 0 := fun e => hk (by rw [← he, e])
    rcases Nat.lt_or_ge j a with h1 | h1
    · have hg := hhigh a h1 ha
      exact ⟨a, ha, by rw [hg]; exact hu, by rw [hg]; exact he⟩
    · obtain ⟨i, rfl⟩ : ∃ i, a = i + 1 := ⟨a - 1, by omega⟩
      have hg := hmoved i (by omega)
      exact ⟨i, by omega, by rw [hg]; exact hu, by rw [hg]; exact he⟩
  · obtain ⟨a, ha, -, hga, hcase⟩ := hfrom i hi hu
    obtain ⟨a', ha', -, hga', hcase'⟩ := hfrom i' hi' hu'
    rw [hga] at hu he
    rw [hga'] at hu' he
    have haa := h.unique a a' ha ha' hu hu' he
    omega

end Arrays

/-! ## 3. A table between two calls -/

/-- **A table between two calls** that holds the map `M`. -/
structure Good (p : Template κ) (tb : SH_TYPE κ δ) (M : κ → Option δ) : Prop where
  params : Params tb
  ordered : Ordered tb.size (disp p tb.size tb.data)
  content : Content p tb.size tb.data M
  count : ∃ K : Finset κ, (∀ k, k ∈ K ↔ M k ≠ none) ∧ tb.members = K.card
  room : tb.members < tb.size
  threshold : tb.grow_threshold < tb.size

section Table

variable {tb : SH_TYPE κ δ} {M : κ → Option δ}

theorem Good.size_pos (h : Good p tb M) : 0 < tb.size := by
  have h2 := h.params.two_le
  omega

/-- **At least one bucket is empty**: the keys of the others are different. -/
theorem Good.exists_empty (h : Good p tb M) : ∃ b, b < tb.size ∧ (tb.data b).status = .EMPTY := by
  obtain ⟨K, hK, hcard⟩ := h.count
  by_contra hnone
  have hall : ∀ b, b < tb.size → (tb.data b).status = .IN_USE := fun b hb =>
    in_use_iff.mpr fun he => hnone ⟨b, hb, he⟩
  have hle : (Finset.range tb.size).card ≤ K.card := by
    refine Finset.card_le_card_of_injOn (fun b => (tb.data b).key) (fun b hb => ?_) fun b hb b' hb' he => ?_
    · have hb := Finset.mem_range.mp hb
      refine (hK _).mpr ?_
      rw [h.content.stored b hb (hall b hb)]
      exact Option.some_ne_none _
    · have hb := Finset.mem_range.mp hb
      have hb' := Finset.mem_range.mp hb'
      exact h.content.unique b b' hb hb' (hall b hb) (hall b' hb') he
  rw [Finset.card_range, ← hcard] at hle
  exact absurd h.room (Nat.not_lt.mpr hle)

/-- The first empty bucket from `s` on. -/
theorem Good.first_empty (h : Good p tb M) {s : Nat} (hs : s < tb.size) :
    ∃ m, m < tb.size ∧ (tb.data (pos tb.size s m)).status = .EMPTY ∧
      ∀ i, i < m → (tb.data (pos tb.size s i)).status = .IN_USE := by
  obtain ⟨b, hb, hempty⟩ := h.exists_empty
  have hex : ∃ m, (tb.data (pos tb.size s m)).status = .EMPTY :=
    ⟨gap tb.size s b, by rw [RobinHood.pos_gap hs hb]; exact hempty⟩
  refine ⟨Nat.find hex, ?_, Nat.find_spec hex, fun i hi => in_use_iff.mpr (Nat.find_min hex hi)⟩
  refine (Nat.find_min' hex ?_).trans_lt (RobinHood.gap_lt hs hb)
  rw [RobinHood.pos_gap hs hb]
  exact hempty

theorem optimalOf_eq (h : Params tb) (e : Element κ δ) : optimalOf p tb e = SH_ENTRY_HASH p e % tb.size :=
  h.and_mask _

theorem optimalOf_lt (h : Params tb) (e : Element κ δ) : optimalOf p tb e < tb.size := h.initial_lt _

/-- The distance that `SH_INSERT_HASH_INTERNAL` computes. -/
theorem disp_eq (h : Params tb) {b : Nat} (hu : (tb.data b).status = .IN_USE) :
    disp p tb.size tb.data b = some (SH_DISTANCE_FROM_OPTIMAL tb (optimalOf p tb (tb.data b)) b) := by
  rw [disp_of_in_use hu, h.distance, optimalOf_eq h]

/-- **From the optimal bucket of a key to its bucket**: all are in use, each by an element that is at least as
    far off as the search has come. -/
theorem Good.path (h : Good p tb M) {key : κ} (hkey : M key ≠ none) :
    ∃ d, d < tb.size ∧ (tb.data (pos tb.size (SH_INITIAL_BUCKET tb (p.SH_HASH_KEY key)) d)).status = .IN_USE ∧
      (tb.data (pos tb.size (SH_INITIAL_BUCKET tb (p.SH_HASH_KEY key)) d)).key = key ∧
      ∀ i, i ≤ d → ∃ d', disp p tb.size tb.data (pos tb.size (SH_INITIAL_BUCKET tb (p.SH_HASH_KEY key)) i) =
        some d' ∧ i ≤ d' := by
  obtain ⟨b, hb, hu, he⟩ := h.content.has key hkey
  have hs := h.params.initial_lt (p.SH_HASH_KEY key)
  have hhome : SH_ENTRY_HASH p (tb.data b) % tb.size = SH_INITIAL_BUCKET tb (p.SH_HASH_KEY key) := by
    rw [h.content.own b hb hu, he]
    exact (h.params.and_mask _).symm
  have hd := disp_of_in_use (p := p) (n := tb.size) hu
  rw [hhome] at hd
  refine ⟨gap tb.size (SH_INITIAL_BUCKET tb (p.SH_HASH_KEY key)) b, RobinHood.gap_lt hs hb, ?_⟩
  rw [← RobinHood.pos_gap hs hb] at hd
  rw [RobinHood.gap_pos hs (RobinHood.gap_lt hs hb)] at hd
  refine ⟨by rw [RobinHood.pos_gap hs hb]; exact hu, by rw [RobinHood.pos_gap hs hb]; exact he, fun i hi => ?_⟩
  exact h.ordered.path hs (RobinHood.gap_lt hs hb) hd (Nat.le_refl _) hi

/-- A key that is not in front of the first empty bucket is not in the table: the way to a key does not pass
    an empty bucket. -/
theorem Good.absent (h : Good p tb M) {key : κ} {m : Nat}
    (hempty : (tb.data (pos tb.size (SH_INITIAL_BUCKET tb (p.SH_HASH_KEY key)) m)).status = .EMPTY)
    (hall : ∀ i, i < m → (tb.data (pos tb.size (SH_INITIAL_BUCKET tb (p.SH_HASH_KEY key)) i)).key ≠ key) :
    M key = none := by
  by_contra hne
  obtain ⟨d, -, -, hkey, hpath⟩ := h.path hne
  rcases Nat.lt_or_ge d m with hdm | hdm
  · exact hall d hdm hkey
  · obtain ⟨d', hd', -⟩ := hpath m hdm
    rw [disp_of_empty hempty] at hd'
    cases hd'

variable [DecidableEq κ]

theorem compare_iff {key : κ} {e : Element κ δ} (hown : SH_ENTRY_HASH p e = p.SH_HASH_KEY e.key) :
    SH_COMPARE_KEYS p (p.SH_HASH_KEY key) key e = true ↔ e.key = key := by
  unfold SH_COMPARE_KEYS
  cases hst : p.SH_STORE_HASH with
  | false =>
      rw [if_neg Bool.false_ne_true]
      exact decide_eq_true_iff
  | true =>
      unfold SH_ENTRY_HASH at hown
      rw [hst, if_pos rfl] at hown
      rw [if_pos rfl, Bool.and_eq_true, decide_eq_true_iff, decide_eq_true_iff, hown]
      exact ⟨fun h => h.2, fun h => ⟨by rw [h], h⟩⟩

theorem lookupLoop_spec (h : Good p tb M) {s m : Nat} (hs : s < tb.size) (hm : m < tb.size)
    (hempty : (tb.data (pos tb.size s m)).status = .EMPTY)
    (hused : ∀ i, i < m → (tb.data (pos tb.size s i)).status = .IN_USE) (key : κ) (fuel : Nat) :
    ∀ k, k ≤ m → m - k < fuel → ∃ r,
      lookupLoop p tb key (p.SH_HASH_KEY key) fuel (pos tb.size s k) = some r ∧
      ((r = none ∧ ∀ i, k ≤ i → i < m → (tb.data (pos tb.size s i)).key ≠ key) ∨
        ∃ i, i < m ∧ r = some (pos tb.size s i) ∧ (tb.data (pos tb.size s i)).key = key) := by
  induction fuel with
  | zero => exact fun k _ hf => absurd hf (Nat.not_lt_zero _)
  | succ fuel ih =>
      intro k hk hf
      rw [lookupLoop]
      by_cases hkm : k = m
      · rw [hkm, if_pos hempty]
        exact ⟨none, rfl, Or.inl ⟨rfl, fun i h1 h2 => absurd h1 (by omega)⟩⟩
      · have hlt : k < m := by omega
        have hu := hused k hlt
        have hown := h.content.own _ (RobinHood.pos_lt hs (by omega)) hu
        rw [if_neg (in_use_iff.mp hu)]
        by_cases hkey : (tb.data (pos tb.size s k)).key = key
        · rw [if_pos ((compare_iff hown).mpr hkey)]
          exact ⟨_, rfl, Or.inr ⟨k, hlt, rfl, hkey⟩⟩
        · rw [if_neg fun hc => hkey ((compare_iff hown).mp hc), h.params.next_pos hs (by omega)]
          obtain ⟨r, hrun, hr⟩ := ih (k + 1) hlt (by omega)
          refine ⟨r, hrun, ?_⟩
          rcases hr with ⟨hnone, hall⟩ | hfound
          · refine Or.inl ⟨hnone, fun i h1 h2 => ?_⟩
            rcases Nat.lt_or_eq_of_le h1 with h1 | rfl
            · exact hall i h1 h2
            · exact hkey
          · exact Or.inr hfound

/-- **`SH_LOOKUP`** finds the bucket of a key, and nothing for any other. -/
theorem lookup_spec (h : Good p tb M) (key : κ) : ∃ r, SH_LOOKUP p tb key = some r ∧
    ((r = none ∧ M key = none) ∨ ∃ b, r = some b ∧ b < tb.size ∧ (tb.data b).status = .IN_USE ∧
      (tb.data b).key = key ∧ M key = some (tb.data b).data) := by
  have hs := h.params.initial_lt (p.SH_HASH_KEY key)
  obtain ⟨m, hm, hempty, hused⟩ := h.first_empty hs
  obtain ⟨r, hrun, hr⟩ := lookupLoop_spec h hs hm hempty hused key tb.size 0 (Nat.zero_le m) (by omega)
  rw [RobinHood.pos_zero hs] at hrun
  refine ⟨r, hrun, ?_⟩
  rcases hr with ⟨hnone, hall⟩ | ⟨i, hi, hfound, hkey⟩
  · exact Or.inl ⟨hnone, h.absent hempty fun i hi => hall i (Nat.zero_le i) hi⟩
  · have hb := RobinHood.pos_lt hs (hi.trans hm).le
    refine Or.inr ⟨_, hfound, hb, hused i hi, hkey, ?_⟩
    have hst := h.content.stored _ hb (hused i hi)
    rw [hkey] at hst
    exact hst

end Table

/-! ## 4. Inserting -/

section Insert

variable {tb : SH_TYPE κ δ} {M : κ → Option δ} {s m : Nat}

theorem setElem_self (data : Nat → Element κ δ) (b : Nat) (e : Element κ δ) : setElem data b e b = e := by
  unfold setElem
  exact Function.update_self b e data

theorem setElem_of_ne {a b : Nat} (h : a ≠ b) (data : Nat → Element κ δ) (e : Element κ δ) :
    setElem data b e a = data a := by
  unfold setElem
  exact Function.update_of_ne h e data

/-- The search for the next empty bucket finds it, or is given up in a table that is filled enough. -/
theorem emptyLoop_spec (h : Params tb) (hs : s < tb.size) (hm : m < tb.size)
    (hempty : (tb.data (pos tb.size s m)).status = .EMPTY)
    (hused : ∀ i, i < m → (tb.data (pos tb.size s i)).status = .IN_USE) (fuel : Nat) :
    ∀ i dist, i < m → m - i ≤ fuel → ∃ r, emptyLoop tb fuel (pos tb.size s i) dist = some r ∧
      (r = .inr (pos tb.size s m) ∨ r = .inl () ∧ tb.size ≤ 10 * tb.members) := by
  induction fuel with
  | zero => exact fun i dist hi hf => absurd hf (by omega)
  | succ fuel ih =>
      intro i dist hi hf
      rw [emptyLoop, h.next_pos hs (by omega)]
      by_cases him : i + 1 = m
      · rw [him, if_pos hempty]
        exact ⟨_, rfl, Or.inl rfl⟩
      · rw [if_neg (in_use_iff.mp (hused (i + 1) (by omega)))]
        split
        · rename_i hgive
          exact ⟨_, rfl, Or.inr ⟨rfl, of_decide_eq_true hgive.2⟩⟩
        · exact ih (i + 1) (dist + 1) (by omega) (by omega)

/-- The shift: the elements from `k` on move up by one. -/
theorem moveLoop_spec (h : Params tb) (hs : s < tb.size) {k : Nat} (fuel : Nat) :
    ∀ (i : Nat) (data : Nat → Element κ δ), k ≤ i → i < tb.size → i - k < fuel → ∃ data',
      moveLoop tb (pos tb.size s k) fuel data (pos tb.size s i) = some data' ∧
      (∀ j, k ≤ j → j < i → data' (pos tb.size s (j + 1)) = data (pos tb.size s j)) ∧
      ∀ j, j < tb.size → j ≤ k ∨ i < j → data' (pos tb.size s j) = data (pos tb.size s j) := by
  induction fuel with
  | zero => exact fun i data _ _ hf => absurd hf (Nat.not_lt_zero _)
  | succ fuel ih =>
      intro i data hk hi hf
      rw [moveLoop]
      by_cases he : i = k
      · rw [he, if_pos rfl]
        exact ⟨data, rfl, fun j h1 h2 => absurd h1 (by omega), fun j _ _ => rfl⟩
      · obtain ⟨i, rfl⟩ : ∃ i', i = i' + 1 := ⟨i - 1, by omega⟩
        have hne : pos tb.size s (i + 1) ≠ pos tb.size s k := fun hp =>
          he (RobinHood.pos_inj hi (by omega) hp)
        rw [if_neg hne, h.prev_pos hs (by omega)]
        obtain ⟨data', hrun, hmoved, hkept⟩ := ih i
          (setElem data (pos tb.size s (i + 1)) (data (pos tb.size s i))) (by omega) (by omega) (by omega)
        have hother : ∀ j, j < tb.size → j ≠ i + 1 →
            setElem data (pos tb.size s (i + 1)) (data (pos tb.size s i)) (pos tb.size s j) =
              data (pos tb.size s j) := by
          intro j hj hne
          exact setElem_of_ne (fun hp => hne (RobinHood.pos_inj hj hi hp)) _ _
        refine ⟨data', hrun, fun j h1 h2 => ?_, fun j hj hcase => ?_⟩
        · rcases Nat.lt_or_eq_of_le (Nat.le_of_lt_succ h2) with h2 | rfl
          · rw [hmoved j h1 h2, hother j (by omega) (by omega)]
          · rw [hkept (j + 1) hi (Or.inr (Nat.lt_succ_self j)), setElem_self]
        · rw [hkept j hj (by omega), hother j hj (by omega)]

/-- **A bucket is taken** for a new key: the element that was there and the ones behind it, up to the empty
    bucket, have moved up. All is counted from the optimal bucket of the key. -/
structure Taken (p : Template κ) (n s : Nat) (data data' : Nat → Element κ δ) (key : κ) (k m : Nat) : Prop where
  le : k ≤ m
  passed : ∀ i, i < k → ∃ d, disp p n data (pos n s i) = some d ∧ i ≤ d
  absent : ∀ i, i < k → (data (pos n s i)).key ≠ key
  less : k < m → ∀ d, disp p n data (pos n s k) = some d → d < k
  low : ∀ i, i < k → data' (pos n s i) = data (pos n s i)
  new_status : (data' (pos n s k)).status = .IN_USE
  new_key : (data' (pos n s k)).key = key
  new_hash : SH_ENTRY_HASH p (data' (pos n s k)) = p.SH_HASH_KEY key
  moved : ∀ i, k ≤ i → i < m → data' (pos n s (i + 1)) = data (pos n s i)
  high : ∀ i, m < i → i < n → data' (pos n s i) = data (pos n s i)

/-- What `fillEntry` leaves in the bucket. -/
theorem fillEntry_hash (p : Template κ) (e : Element κ δ) (key : κ) :
    SH_ENTRY_HASH p ⟨.IN_USE, key, if p.SH_STORE_HASH then p.SH_HASH_KEY key else e.hash, e.data⟩ =
      p.SH_HASH_KEY key := by
  unfold SH_ENTRY_HASH
  cases p.SH_STORE_HASH
  · rfl
  · rfl

variable [DecidableEq κ]

/-- **The search of `SH_INSERT_HASH_INTERNAL`.** -/
theorem insertLoop_spec (h : Good p tb M) (hs : s < tb.size) (hm : m < tb.size)
    (hempty : (tb.data (pos tb.size s m)).status = .EMPTY)
    (hused : ∀ i, i < m → (tb.data (pos tb.size s i)).status = .IN_USE) (key : κ) (fuel : Nat) :
    ∀ k, k ≤ m → m - k < fuel → (∀ i, i < k → ∃ d, disp p tb.size tb.data (pos tb.size s i) = some d ∧ i ≤ d) →
      (∀ i, i < k → (tb.data (pos tb.size s i)).key ≠ key) →
      ∃ r, insertLoop p tb key (p.SH_HASH_KEY key) fuel (pos tb.size s k) k = some r ∧
        ((r = .restart ∧ tb.size ≤ 10 * tb.members) ∨
          (∃ i, i < m ∧ r = .done tb (pos tb.size s i) true ∧ (tb.data (pos tb.size s i)).key = key) ∨
          ∃ k' data', r = .done { tb with members := tb.members + 1, data := data' } (pos tb.size s k') false ∧
            Taken p tb.size s tb.data data' key k' m) := by
  induction fuel with
  | zero => exact fun k _ hf => absurd hf (Nat.not_lt_zero _)
  | succ fuel ih =>
      intro k hk hf hpassed habsent
      rw [insertLoop]
      by_cases hkm : k = m
      · -- an empty bucket
        subst hkm
        rw [if_pos hempty]
        refine ⟨_, rfl, Or.inr (Or.inr ⟨k, _, rfl, ?_⟩)⟩
        have hother : ∀ i, i < tb.size → i ≠ k → pos tb.size s i ≠ pos tb.size s k :=
          fun i hi hne hp => hne (RobinHood.pos_inj hi hm hp)
        exact {
          le := Nat.le_refl k
          passed := hpassed
          absent := habsent
          less := fun hlt => absurd hlt (Nat.lt_irrefl k)
          low := fun i hi => setElem_of_ne (hother i (by omega) (by omega)) _ _
          new_status := by rw [setElem_self]
          new_key := by rw [setElem_self]
          new_hash := by rw [setElem_self]; exact fillEntry_hash p _ key
          moved := fun i h1 h2 => absurd h1 (by omega)
          high := fun i h1 h2 => setElem_of_ne (hother i h2 (by omega)) _ _ }
      · have hlt : k < m := by omega
        have hu := hused k hlt
        have hb := RobinHood.pos_lt hs (show k ≤ tb.size by omega)
        have hown := h.content.own _ hb hu
        rw [if_neg (in_use_iff.mp hu)]
        by_cases hkey : (tb.data (pos tb.size s k)).key = key
        · rw [if_pos ((compare_iff hown).mpr hkey)]
          exact ⟨_, rfl, Or.inr (Or.inl ⟨k, hlt, rfl, hkey⟩)⟩
        · rw [if_neg fun hc => hkey ((compare_iff hown).mp hc)]
          have hdisp := disp_eq (p := p) h.params hu
          split
          · -- a colliding element that is not as far off
            rename_i hless
            obtain ⟨r, hrun, hr⟩ := emptyLoop_spec h.params hs hm hempty hused tb.size k 0 hlt (by omega)
            rw [hrun]
            rcases hr with rfl | ⟨rfl, hfills⟩
            · obtain ⟨data', hmove, hmoved, hkept⟩ := moveLoop_spec h.params hs (k := k) tb.size m tb.data hk hm
                (by omega)
              simp only [hmove]
              refine ⟨_, rfl, Or.inr (Or.inr ⟨k, _, rfl, ?_⟩)⟩
              have hother : ∀ i, i < tb.size → i ≠ k → pos tb.size s i ≠ pos tb.size s k :=
                fun i hi hne hp => hne (RobinHood.pos_inj hi (by omega) hp)
              exact {
                le := hk
                passed := hpassed
                absent := habsent
                less := fun _ d hd => by
                  rw [hdisp] at hd
                  obtain rfl := Option.some.inj hd
                  exact hless
                low := fun i hi => by
                  rw [setElem_of_ne (hother i (by omega) (by omega)), hkept i (by omega) (by omega)]
                new_status := by rw [setElem_self]
                new_key := by rw [setElem_self]
                new_hash := by rw [setElem_self]; exact fillEntry_hash p _ key
                moved := fun i h1 h2 => by
                  rw [setElem_of_ne (hother (i + 1) (by omega) (by omega)), hmoved i h1 h2]
                high := fun i h1 h2 => by
                  rw [setElem_of_ne (hother i h2 (by omega)), hkept i h2 (Or.inr h1)] }
            · exact ⟨_, rfl, Or.inl ⟨rfl, hfills⟩⟩
          · rename_i hfar
            split
            · rename_i hgive
              exact ⟨_, rfl, Or.inl ⟨rfl, of_decide_eq_true hgive.2⟩⟩
            · rw [h.params.next_pos hs (by omega)]
              refine ih (k + 1) hlt (by omega) (fun i hi => ?_) fun i hi => ?_
              · rcases Nat.lt_or_eq_of_le (Nat.le_of_lt_succ hi) with hi | rfl
                · exact hpassed i hi
                · exact ⟨_, hdisp, Nat.le_of_not_lt hfar⟩
              · rcases Nat.lt_or_eq_of_le (Nat.le_of_lt_succ hi) with hi | rfl
                · exact habsent i hi
                · exact hkey

end Insert

section Taken

variable {tb : SH_TYPE κ δ} {M : κ → Option δ} {m : Nat} {key : κ} {data' : Nat → Element κ δ} {k : Nat}

/-- An element is never displaced by the whole circle but one: there is an empty bucket. -/
theorem Good.disp_lt (h : Good p tb M) {b d : Nat} (hb : b < tb.size)
    (hd : disp p tb.size tb.data b = some d) : d + 1 < tb.size := by
  obtain ⟨e, he, hempty⟩ := h.exists_empty
  have ho : SH_ENTRY_HASH p (tb.data b) % tb.size < tb.size := Nat.mod_lt _ h.size_pos
  have hgap := RobinHood.gap_lt ho hb
  have hdisp := disp_of_in_use (p := p) (n := tb.size) (in_use_of_disp hd)
  rw [hd, Option.some.injEq] at hdisp
  by_contra hge
  rw [← RobinHood.pos_gap ho hb] at hd
  obtain ⟨d', hd', -⟩ := h.ordered.path ho hgap hd hdisp.ge
    (show gap tb.size (SH_ENTRY_HASH p (tb.data b) % tb.size) e ≤ _ by
      have := RobinHood.gap_lt ho he
      omega)
  rw [RobinHood.pos_gap ho he, disp_of_empty hempty] at hd'
  cases hd'

/-- The key of a bucket that is taken was not in the table. -/
theorem Taken.absent_key (h : Good p tb M)
    (hempty : (tb.data (pos tb.size (SH_INITIAL_BUCKET tb (p.SH_HASH_KEY key)) m)).status = .EMPTY)
    (ht : Taken p tb.size (SH_INITIAL_BUCKET tb (p.SH_HASH_KEY key)) tb.data data' key k m) : M key = none := by
  by_contra hne
  obtain ⟨d, -, -, hkey, hpath⟩ := h.path hne
  have hkd : k ≤ d := Nat.le_of_not_lt fun hlt => ht.absent d hlt hkey
  obtain ⟨d', hd', hle⟩ := hpath k hkd
  rcases Nat.lt_or_eq_of_le ht.le with hlt | rfl
  · exact absurd hle (Nat.not_le.mpr (ht.less hlt d' hd'))
  · rw [disp_of_empty hempty] at hd'
    cases hd'

/-- **Inserting keeps the table.** -/
theorem Taken.good [DecidableEq κ] (h : Good p tb M) (hm : m < tb.size)
    (hempty : (tb.data (pos tb.size (SH_INITIAL_BUCKET tb (p.SH_HASH_KEY key)) m)).status = .EMPTY)
    (hused : ∀ i, i < m →
      (tb.data (pos tb.size (SH_INITIAL_BUCKET tb (p.SH_HASH_KEY key)) i)).status = .IN_USE)
    (ht : Taken p tb.size (SH_INITIAL_BUCKET tb (p.SH_HASH_KEY key)) tb.data data' key k m)
    (hroom : tb.members + 1 < tb.size) :
    Good p { tb with members := tb.members + 1, data := data' } (Function.update M key
      (some (data' (pos tb.size (SH_INITIAL_BUCKET tb (p.SH_HASH_KEY key)) k)).data)) := by
  have habsent := ht.absent_key h hempty
  have hs := h.params.initial_lt (p.SH_HASH_KEY key)
  have hhome : p.SH_HASH_KEY key % tb.size = SH_INITIAL_BUCKET tb (p.SH_HASH_KEY key) :=
    (h.params.and_mask _).symm
  generalize SH_INITIAL_BUCKET tb (p.SH_HASH_KEY key) = s at *
  have hkm := ht.le
  have hlt : ∀ i, i ≤ tb.size → pos tb.size s i < tb.size := fun i hi => RobinHood.pos_lt hs hi
  refine ⟨⟨h.params.pow2, h.params.mask⟩, ?_, ?_, ?_, hroom, h.threshold⟩
  · -- the displacements
    refine Ordered.of_rotate hs (Ordered.insert (h.ordered.rotate hs) hkm hm ht.passed (fun i h1 h2 => ?_) ?_
      (fun hlt => ht.less hlt) (fun i hi => ?_) ?_ (fun i h1 h2 => ?_) fun i h1 h2 => ?_)
    · exact ⟨_, disp_of_in_use (hused i h2)⟩
    · exact disp_of_empty hempty
    · exact disp_congr (ht.low i hi)
    · show disp p tb.size data' (pos tb.size s k) = some k
      rw [disp_of_in_use ht.new_status, ht.new_hash, hhome, RobinHood.gap_pos hs (by omega)]
    · show disp p tb.size data' (pos tb.size s (i + 1)) = _
      have hu := hused i h2
      have hdisp := disp_of_in_use (p := p) (n := tb.size) hu
      have hfar := h.disp_lt (hlt i (by omega)) hdisp
      have hmoved := ht.moved i h1 h2
      have hu' : (data' (pos tb.size s (i + 1))).status = .IN_USE := by
        rw [hmoved]
        exact hu
      rw [disp_of_in_use hu', hmoved, RobinHood.gap_pos_succ (Nat.mod_lt _ h.size_pos) hs (by omega) hfar, hdisp]
      rfl
    · exact disp_congr (ht.high i h1 h2)
  · -- the elements
    have hc : Content p tb.size (fun i => data' (pos tb.size s i)) _ :=
      Content.insert (h.content.rotate hs) hkm hm hempty ht.low ht.new_status
        (by rw [ht.new_key]; exact ht.new_hash) (by rw [ht.new_key]; exact habsent) ht.moved ht.high
    rw [ht.new_key] at hc
    exact Content.of_rotate hs hc
  · obtain ⟨K, hK, hcard⟩ := h.count
    have hnot : key ∉ K := fun hmem => (hK key).mp hmem habsent
    refine ⟨insert key K, fun q => ?_, ?_⟩
    · rw [Finset.mem_insert, hK q]
      by_cases hq : q = key
      · rw [hq, Function.update_self]
        exact iff_of_true (Or.inl rfl) (Option.some_ne_none _)
      · rw [Function.update_of_ne hq]
        exact ⟨fun h => h.resolve_left hq, Or.inr⟩
    · rw [Finset.card_insert_of_notMem hnot, ← hcard]

end Taken

/-! ## 5. Deleting -/

section Delete

variable {tb : SH_TYPE κ δ} {M : κ → Option δ} {b : Nat}

/-- **The backward shift**, counted from the bucket that is left: the displaced elements behind it move back
    by one, and the last of their buckets is empty. -/
structure Shifted (p : Template κ) (n b : Nat) (data data' : Nat → Element κ δ) (j : Nat) : Prop where
  displaced : ∀ i, i < j → ∃ d, disp p n data (pos n b (i + 1)) = some (d + 1)
  stop : disp p n data (pos n b (j + 1)) = none ∨ disp p n data (pos n b (j + 1)) = some 0
  moved : ∀ i, i < j → data' (pos n b i) = data (pos n b (i + 1))
  cleared : (data' (pos n b j)).status = .EMPTY
  high : ∀ i, j < i → i < n → data' (pos n b i) = data (pos n b i)

/-- The loop, with the first `j` elements already moved. `m` is the next empty bucket. -/
theorem shiftLoop_spec (h : Params tb) (hb : b < tb.size) {m : Nat} (hm : m < tb.size)
    (hempty : (tb.data (pos tb.size b m)).status = .EMPTY) (fuel : Nat) :
    ∀ (j : Nat) (data : Nat → Element κ δ), j < m → m - j ≤ fuel →
      (∀ i, i < j → ∃ d, disp p tb.size tb.data (pos tb.size b (i + 1)) = some (d + 1)) →
      (∀ i, i < j → data (pos tb.size b i) = tb.data (pos tb.size b (i + 1))) →
      (∀ i, j ≤ i → i < tb.size → data (pos tb.size b i) = tb.data (pos tb.size b i)) →
      ∃ j' data', j' < m ∧ shiftLoop p tb fuel data (pos tb.size b j) = some data' ∧
        Shifted p tb.size b tb.data data' j' := by
  induction fuel with
  | zero => exact fun j data hj hf => absurd hf (by omega)
  | succ fuel ih =>
      intro j data hj hf hdisplaced hmoved hrest
      have hother : ∀ i, i < tb.size → i ≠ j → pos tb.size b i ≠ pos tb.size b j :=
        fun i hi hne hp => hne (RobinHood.pos_inj hi (by omega) hp)
      rw [shiftLoop, h.next_pos hb (by omega), hrest (j + 1) (by omega) (by omega)]
      -- the shift ends here
      have hend : disp p tb.size tb.data (pos tb.size b (j + 1)) = none ∨
            disp p tb.size tb.data (pos tb.size b (j + 1)) = some 0 →
          ∃ j' data', j' < m ∧
            some (setElem data (pos tb.size b j) { data (pos tb.size b j) with status := .EMPTY }) = some data' ∧
            Shifted p tb.size b tb.data data' j' := by
        intro hstop
        refine ⟨j, _, hj, rfl, hdisplaced, hstop, fun i hi => ?_, ?_, fun i h1 h2 => ?_⟩
        · rw [setElem_of_ne (hother i (by omega) (by omega)), hmoved i hi]
        · rw [setElem_self]
        · rw [setElem_of_ne (hother i h2 (by omega)), hrest i h1.le h2]
      rcases status_cases (tb.data (pos tb.size b (j + 1))) with he | hu
      · have hne : (tb.data (pos tb.size b (j + 1))).status ≠ .IN_USE := by
          rw [he]
          exact SH_STATUS.noConfusion
        rw [if_pos hne]
        exact hend (Or.inl (disp_of_empty he))
      · rw [if_neg (not_not.mpr hu)]
        have hdisp := disp_of_in_use (p := p) (n := tb.size) hu
        have ho : SH_ENTRY_HASH p (tb.data (pos tb.size b (j + 1))) % tb.size < tb.size :=
          Nat.mod_lt _ (by omega)
        have hlt := RobinHood.pos_lt hb (show j + 1 ≤ tb.size by omega)
        by_cases hopt : optimalOf p tb (tb.data (pos tb.size b (j + 1))) = pos tb.size b (j + 1)
        · rw [if_pos hopt]
          rw [optimalOf_eq h] at hopt
          rw [hopt] at hdisp
          have hzero : gap tb.size (pos tb.size b (j + 1)) (pos tb.size b (j + 1)) = 0 := by
            unfold gap
            rw [if_pos (Nat.le_refl _), Nat.sub_self]
          rw [hzero] at hdisp
          exact hend (Or.inr hdisp)
        · rw [if_neg hopt]
          have hjm : j + 1 ≠ m := fun he => by
            rw [he, hempty] at hu
            cases hu
          have hpos : gap tb.size (SH_ENTRY_HASH p (tb.data (pos tb.size b (j + 1))) % tb.size)
              (pos tb.size b (j + 1)) ≠ 0 := by
            intro h0
            have hback := RobinHood.pos_gap ho hlt
            rw [h0, RobinHood.pos_zero ho] at hback
            exact hopt ((optimalOf_eq h _).trans hback)
          refine ih (j + 1) _ (by omega) (by omega) (fun i hi => ?_) (fun i hi => ?_) fun i h1 h2 => ?_
          · rcases Nat.lt_or_eq_of_le (Nat.le_of_lt_succ hi) with hi | rfl
            · exact hdisplaced i hi
            · exact ⟨gap tb.size (SH_ENTRY_HASH p (tb.data (pos tb.size b (i + 1))) % tb.size)
                (pos tb.size b (i + 1)) - 1, by rw [hdisp]; congr 1; omega⟩
          · rcases Nat.lt_or_eq_of_le (Nat.le_of_lt_succ hi) with hi | rfl
            · rw [setElem_of_ne (hother i (by omega) (by omega)), hmoved i hi]
            · rw [setElem_self]
          · rw [setElem_of_ne (hother i h2 (by omega)), hrest i (by omega) h2]

/-- **Deleting keeps the table.** -/
theorem Shifted.good [DecidableEq κ] (h : Good p tb M) (hb : b < tb.size) (hu : (tb.data b).status = .IN_USE)
    {j : Nat} {data' : Nat → Element κ δ} (hj : j + 1 < tb.size) (hsh : Shifted p tb.size b tb.data data' j) :
    Good p { tb with members := tb.members - 1, data := data' } (Function.update M (tb.data b).key none) := by
  have hroom := h.room
  refine ⟨⟨h.params.pow2, h.params.mask⟩, ?_, ?_, ?_, by show tb.members - 1 < tb.size; omega, h.threshold⟩
  · have hfirst : disp p tb.size tb.data (pos tb.size b 0) =
        some (gap tb.size (SH_ENTRY_HASH p (tb.data b) % tb.size) b) := by
      rw [RobinHood.pos_zero hb]
      exact disp_of_in_use hu
    refine Ordered.of_rotate hb (Ordered.erase (h.ordered.rotate hb) hj hfirst hsh.displaced hsh.stop
      (fun i hi => ?_) (disp_of_empty hsh.cleared) fun i h1 h2 => disp_congr (hsh.high i h1 h2))
    -- an element that moves back
    obtain ⟨d, hd⟩ := hsh.displaced i hi
    have hui := in_use_of_disp hd
    have hmoved := hsh.moved i hi
    have hu' : (data' (pos tb.size b i)).status = .IN_USE := by
      rw [hmoved]
      exact hui
    show disp p tb.size data' (pos tb.size b i) = (disp p tb.size tb.data (pos tb.size b (i + 1))).map _
    have hdisp := disp_of_in_use (p := p) (n := tb.size) hui
    have hgap := hd
    rw [hdisp, Option.some.injEq] at hgap
    have hpred := RobinHood.gap_pos_pred (Nat.mod_lt (SH_ENTRY_HASH p (tb.data (pos tb.size b (i + 1))))
      h.size_pos) hb (show i < tb.size by omega) (by rw [hgap]; exact Nat.succ_pos d)
    rw [disp_of_in_use hu', hmoved, hdisp, Option.map_some, hpred, Nat.add_sub_cancel]
  · have hc : Content p tb.size (fun i => data' (pos tb.size b i)) _ :=
      Content.erase (h.content.rotate hb) (by omega : j < tb.size) (by rw [RobinHood.pos_zero hb]; exact hu)
        hsh.moved hsh.cleared hsh.high
    rw [RobinHood.pos_zero hb] at hc
    exact Content.of_rotate hb hc
  · obtain ⟨K, hK, hcard⟩ := h.count
    have hmem : (tb.data b).key ∈ K := (hK _).mpr (by rw [h.content.stored b hb hu]; exact Option.some_ne_none _)
    refine ⟨K.erase (tb.data b).key, fun q => ?_, ?_⟩
    · rw [Finset.mem_erase, hK q]
      by_cases hq : q = (tb.data b).key
      · rw [hq, Function.update_self]
        exact iff_of_false (fun h => h.1 rfl) fun h => h rfl
      · rw [Function.update_of_ne hq]
        exact ⟨fun h => h.2, fun h => ⟨hq, h⟩⟩
    · show tb.members - 1 = _
      rw [Finset.card_erase_of_mem hmem, hcard]

/-- **`SH_DELETE_ITEM`** of a bucket in use. -/
theorem delete_item_spec [DecidableEq κ] (h : Good p tb M) (hb : b < tb.size) (hu : (tb.data b).status = .IN_USE) :
    ∃ j data', SH_DELETE_ITEM p tb b = some { tb with members := tb.members - 1, data := data' } ∧
      j + 1 < tb.size ∧ Shifted p tb.size b tb.data data' j ∧
      (∀ i, i ≤ j → (tb.data (pos tb.size b i)).status = .IN_USE) ∧
      Good p { tb with members := tb.members - 1, data := data' } (Function.update M (tb.data b).key none) := by
  obtain ⟨m, hm, hempty, hused⟩ := h.first_empty hb
  have hm0 : 0 < m := Nat.pos_of_ne_zero fun h0 => by
    rw [h0, RobinHood.pos_zero hb, hu] at hempty
    cases hempty
  obtain ⟨j, data', hj, hrun, hsh⟩ := shiftLoop_spec (p := p) h.params hb hm hempty tb.size 0 tb.data hm0 (by omega)
    (fun i hi => absurd hi (Nat.not_lt_zero i)) (fun i hi => absurd hi (Nat.not_lt_zero i)) fun i _ _ => rfl
  rw [RobinHood.pos_zero hb] at hrun
  refine ⟨j, data', ?_, by omega, hsh, fun i hi => hused i (by omega), hsh.good h hb hu (by omega)⟩
  unfold SH_DELETE_ITEM
  rw [hrun]

variable [DecidableEq κ]

theorem deleteLoop_spec (h : Good p tb M) {s m : Nat} (hs : s < tb.size) (hm : m < tb.size)
    (hempty : (tb.data (pos tb.size s m)).status = .EMPTY)
    (hused : ∀ i, i < m → (tb.data (pos tb.size s i)).status = .IN_USE) (key : κ) (fuel : Nat) :
    ∀ k, k ≤ m → m - k < fuel →
      (deleteLoop p tb key (p.SH_HASH_KEY key) fuel (pos tb.size s k) = some (tb, false) ∧
        ∀ i, k ≤ i → i < m → (tb.data (pos tb.size s i)).key ≠ key) ∨
      ∃ i, i < m ∧ (tb.data (pos tb.size s i)).key = key ∧
        deleteLoop p tb key (p.SH_HASH_KEY key) fuel (pos tb.size s k) =
          (SH_DELETE_ITEM p tb (pos tb.size s i)).map fun tb' => (tb', true) := by
  induction fuel with
  | zero => exact fun k _ hf => absurd hf (Nat.not_lt_zero _)
  | succ fuel ih =>
      intro k hk hf
      rw [deleteLoop]
      by_cases hkm : k = m
      · rw [hkm, if_pos hempty]
        exact Or.inl ⟨rfl, fun i h1 h2 => absurd h1 (by omega)⟩
      · have hlt : k < m := by omega
        have hu := hused k hlt
        have hown := h.content.own _ (RobinHood.pos_lt hs (by omega)) hu
        rw [if_neg (in_use_iff.mp hu)]
        by_cases hkey : (tb.data (pos tb.size s k)).key = key
        · rw [if_pos ⟨hu, (compare_iff hown).mpr hkey⟩]
          refine Or.inr ⟨k, hlt, hkey, ?_⟩
          unfold SH_DELETE_ITEM
          cases shiftLoop p tb tb.size tb.data (pos tb.size s k) with
          | none => rfl
          | some data => rfl
        · rw [if_neg fun hc => hkey ((compare_iff hown).mp hc.2), h.params.next_pos hs (by omega)]
          rcases ih (k + 1) hlt (by omega) with ⟨hrun, hall⟩ | hfound
          · refine Or.inl ⟨hrun, fun i h1 h2 => ?_⟩
            rcases Nat.lt_or_eq_of_le h1 with h1 | rfl
            · exact hall i h1 h2
            · exact hkey
          · exact Or.inr hfound

/-- **`SH_DELETE`** deletes the bucket of a key that is in the table. -/
theorem delete_spec (h : Good p tb M) (key : κ) :
    (M key = none ∧ SH_DELETE p tb key = some (tb, false)) ∨
    ∃ b, b < tb.size ∧ (tb.data b).status = .IN_USE ∧ (tb.data b).key = key ∧
      SH_DELETE p tb key = (SH_DELETE_ITEM p tb b).map fun tb' => (tb', true) := by
  have hs := h.params.initial_lt (p.SH_HASH_KEY key)
  obtain ⟨m, hm, hempty, hused⟩ := h.first_empty hs
  have hloop := deleteLoop_spec h hs hm hempty hused key tb.size 0 (Nat.zero_le m) (by omega)
  rw [RobinHood.pos_zero hs] at hloop
  rcases hloop with ⟨hrun, hall⟩ | ⟨i, hi, hkey, hrun⟩
  · exact Or.inl ⟨h.absent hempty fun i hi => hall i (Nat.zero_le i) hi, hrun⟩
  · exact Or.inr ⟨_, RobinHood.pos_lt hs (by omega), hused i hi, hkey, hrun⟩

end Delete

end Pgvec.Simplehash
