/-
  File:      Pgvec/Common/SimplehashMap.lean
  Subject:   THE HASH TABLE AS A MAP, AND ITERATING OVER IT WHILE DELETING.

  * `Reached` -- the tables of a run, and the map of the keys inserted and not deleted since;
  * **`simplehash_map`** -- every operation ends, and agrees with that map;
  * `runCalls`, `Reached.calls` -- the table a list of calls reaches; `put_run`, `delete_run`;
  * `iterateAll` -- the loop of a caller that deletes some of the entries it is given;
  * `iterateAll_around`, **`iterate_delete`** -- it is given every entry once.
-/
import Pgvec.Common.SimplehashGrow

namespace Pgvec.Simplehash

open RobinHood (pos gap Ordered)

variable {κ δ : Type} {p : Template κ}

/-! ## 1. Runs -/

section Runs

variable {tb : SH_TYPE κ δ} {M : κ → Option δ} [DecidableEq κ]

/-- The caller writes the data of an entry. -/
def storeData (tb : SH_TYPE κ δ) (b : Nat) (d : δ) : SH_TYPE κ δ :=
  { tb with data := setElem tb.data b { tb.data b with data := d } }

/-- **The tables of a run**, and what has been inserted and not deleted since. -/
inductive Reached [Inhabited κ] [Inhabited δ] (p : Template κ) : SH_TYPE κ δ → (κ → Option δ) → Prop where
  | create (nelements : Nat) : Reached p (SH_CREATE nelements) fun _ => none
  | insert (tb tb' : SH_TYPE κ δ) (M : κ → Option δ) (key : κ) (entry : Nat) (found : Bool) (h : Reached p tb M)
      (hrun : SH_INSERT p tb key = some (.ok (tb', entry, found))) :
      Reached p tb' (Function.update M key (some (tb'.data entry).data))
  | insert_hash (tb tb' : SH_TYPE κ δ) (M : κ → Option δ) (key : κ) (entry : Nat) (found : Bool)
      (h : Reached p tb M) (hrun : SH_INSERT_HASH p tb key (p.SH_HASH_KEY key) = some (.ok (tb', entry, found))) :
      Reached p tb' (Function.update M key (some (tb'.data entry).data))
  | store (tb : SH_TYPE κ δ) (M : κ → Option δ) (b : Nat) (d : δ) (h : Reached p tb M) (hb : b < tb.size)
      (hu : (tb.data b).status = .IN_USE) :
      Reached p (storeData tb b d) (Function.update M (tb.data b).key (some d))
  | delete (tb tb' : SH_TYPE κ δ) (M : κ → Option δ) (key : κ) (found : Bool) (h : Reached p tb M)
      (hrun : SH_DELETE p tb key = some (tb', found)) : Reached p tb' (Function.update M key none)
  | delete_item (tb tb' : SH_TYPE κ δ) (M : κ → Option δ) (b : Nat) (h : Reached p tb M) (hb : b < tb.size)
      (hu : (tb.data b).status = .IN_USE) (hrun : SH_DELETE_ITEM p tb b = some tb') :
      Reached p tb' (Function.update M (tb.data b).key none)
  | grow (tb tb' : SH_TYPE κ δ) (M : κ → Option δ) (newsize : Nat) (h : Reached p tb M) (hlt : tb.size < newsize)
      (hmax : newsize ≤ SH_MAX_SIZE) (hrun : SH_GROW p tb newsize = some tb') : Reached p tb' M

omit [DecidableEq κ] in
/-- A new table is empty. -/
theorem create_good [Inhabited κ] [Inhabited δ] (p : Template κ) (nelements : Nat) :
    Good p (SH_CREATE nelements : SH_TYPE κ δ) fun _ => none := by
  obtain ⟨e, h1, h2, hcompute, -⟩ := compute_size (show min SH_MAX_SIZE (nelements * 10 / 9) ≤ 2 ^ 32 from
    min_le_left _ _)
  have hpow : SH_COMPUTE_SIZE (SH_COMPUTE_SIZE (min SH_MAX_SIZE (nelements * 10 / 9))) = 2 ^ e := by
    rw [hcompute]
    exact compute_size_pow h1
  have hparams : Params (SH_CREATE nelements : SH_TYPE κ δ) := update_params _ h1 h2 hpow
  have hdata : ∀ b, ((SH_CREATE nelements : SH_TYPE κ δ).data b).status = .EMPTY := fun b => rfl
  have hno : ∀ b, ((SH_CREATE nelements : SH_TYPE κ δ).data b).status ≠ .IN_USE := fun b hu => by
    rw [hdata b] at hu
    cases hu
  have htwo := hparams.two_le
  refine ⟨hparams, fun b hb => ?_, ⟨fun b _ hu => absurd hu (hno b), fun b _ hu => absurd hu (hno b),
    fun k hk => absurd rfl hk, fun b b' _ _ hu => absurd hu (hno b)⟩, ⟨∅, fun k => ?_, rfl⟩, ?_, ?_⟩
  · rw [disp_of_empty (hdata (pos _ b 1))]
    exact RobinHood.chained_none _
  · exact iff_of_false (Finset.notMem_empty k) fun hk => hk rfl
  · show 0 < _
    omega
  · exact update_threshold _ (by rw [hpow]; exact Nat.two_pow_pos e)

/-- Writing the data of an entry. -/
theorem Good.store (h : Good p tb M) {b : Nat} (hb : b < tb.size) (hu : (tb.data b).status = .IN_USE) (d : δ) :
    Good p (storeData tb b d) (Function.update M (tb.data b).key (some d)) := by
  have hself : (storeData tb b d).data b = { tb.data b with data := d } := setElem_self _ _ _
  have hother : ∀ a, a ≠ b → (storeData tb b d).data a = tb.data a := fun a ha => setElem_of_ne ha _ _
  have hstatus : ∀ a, ((storeData tb b d).data a).status = (tb.data a).status := fun a => by
    by_cases ha : a = b
    · rw [ha, hself]
    · rw [hother a ha]
  have hkey : ∀ a, ((storeData tb b d).data a).key = (tb.data a).key := fun a => by
    by_cases ha : a = b
    · rw [ha, hself]
    · rw [hother a ha]
  have hhash : ∀ a, SH_ENTRY_HASH p ((storeData tb b d).data a) = SH_ENTRY_HASH p (tb.data a) := fun a => by
    by_cases ha : a = b
    · rw [ha, hself]
      rfl
    · rw [hother a ha]
  have hdisp : disp p tb.size (storeData tb b d).data = disp p tb.size tb.data := by
    funext a
    unfold disp
    rw [hstatus, hhash]
  refine ⟨⟨h.params.pow2, h.params.mask⟩, ?_, ⟨fun a ha hua => ?_, fun a ha hua => ?_, fun k hk => ?_,
    fun a a' ha ha' hua hua' he => ?_⟩, ?_, h.room, h.threshold⟩
  · show Ordered tb.size (disp p tb.size (storeData tb b d).data)
    rw [hdisp]
    exact h.ordered
  · rw [hstatus] at hua
    by_cases hab : a = b
    · rw [hab, hkey, Function.update_self, hself]
    · have hne : (tb.data a).key ≠ (tb.data b).key := fun he => hab (h.content.unique a b ha hb hua hu he)
      rw [hkey, Function.update_of_ne hne, hother a hab]
      exact h.content.stored a ha hua
  · rw [hstatus] at hua
    rw [hhash, hkey]
    exact h.content.own a ha hua
  · have hk' : M k ≠ none := by
      by_cases hkb : k = (tb.data b).key
      · rw [hkb, h.content.stored b hb hu]
        exact Option.some_ne_none _
      · rwa [Function.update_of_ne hkb] at hk
    obtain ⟨a, ha, hua, he⟩ := h.content.has k hk'
    exact ⟨a, ha, by rw [hstatus]; exact hua, by rw [hkey]; exact he⟩
  · rw [hstatus] at hua hua'
    rw [hkey, hkey] at he
    exact h.content.unique a a' ha ha' hua hua' he
  · obtain ⟨K, hK, hcard⟩ := h.count
    refine ⟨K, fun k => ?_, hcard⟩
    rw [hK k]
    by_cases hkb : k = (tb.data b).key
    · rw [hkb, Function.update_self, h.content.stored b hb hu]
      exact iff_of_true (Option.some_ne_none _) (Option.some_ne_none _)
    · rw [Function.update_of_ne hkb]

/-- `SH_DELETE` ends, in a table without the key. -/
theorem delete_good (h : Good p tb M) (key : κ) : ∃ tb', SH_DELETE p tb key = some (tb', (M key).isSome) ∧
    Good p tb' (Function.update M key none) := by
  rcases delete_spec h key with ⟨hnone, hrun⟩ | ⟨b, hb, hu, hkey, hrun⟩
  · refine ⟨tb, by rw [hrun, hnone]; rfl, ?_⟩
    rw [← hnone, Function.update_eq_self]
    exact h
  · obtain ⟨j, data', hitem, -, -, -, hgood⟩ := delete_item_spec h hb hu
    have hst := h.content.stored b hb hu
    rw [hkey] at hst hgood
    exact ⟨_, by rw [hrun, hitem, hst]; rfl, hgood⟩

variable [Inhabited κ] [Inhabited δ]

/-- **Every table of a run is a table that holds the map of the run.** -/
theorem Reached.good (h : Reached p tb M) : Good p tb M := by
  induction h with
  | create nelements => exact create_good p nelements
  | insert tb tb' M key entry found h hrun ih =>
      obtain ⟨r, hr, hins⟩ := insert_spec ih key
      rw [hrun] at hr
      cases hr
      exact hins.2.2.2.2.2
  | insert_hash tb tb' M key entry found h hrun ih =>
      obtain ⟨r, hr, hins⟩ := insert_spec ih key
      have hr' : SH_INSERT_HASH p tb key (p.SH_HASH_KEY key) = some r := hr
      rw [hrun] at hr'
      cases hr'
      exact hins.2.2.2.2.2
  | store tb M b d h hb hu ih => exact ih.store hb hu d
  | delete tb tb' M key found h hrun ih =>
      obtain ⟨tb'', hr, hgood⟩ := delete_good ih key
      rw [hrun] at hr
      cases hr
      exact hgood
  | delete_item tb tb' M b h hb hu hrun ih =>
      obtain ⟨j, data', hr, -, -, -, hgood⟩ := delete_item_spec ih hb hu
      rw [hrun] at hr
      cases hr
      exact hgood
  | grow tb tb' M newsize h hlt hmax hrun ih =>
      obtain ⟨tb'', hr, hgood, -⟩ := grow_spec ih hlt hmax
      rw [hrun] at hr
      cases hr
      exact hgood

/-- **The hash table is a finite map.** For every table of a run: all operations end; what they find, and
    whether they find it, is the map's; every key of the map has one bucket, with its data, and no other
    bucket is in use; `members` is their number; and some bucket is empty. An insert fails only in a table
    that has grown to `SH_MAX_SIZE`. -/
theorem simplehash_map (h : Reached p tb M) :
    (∀ key, ∃ r, SH_INSERT p tb key = some r ∧ Inserted p M key r) ∧
    (∀ key, ∃ r, SH_INSERT_HASH p tb key (p.SH_HASH_KEY key) = some r ∧ Inserted p M key r) ∧
    (∀ key, ∃ r, SH_LOOKUP p tb key = some r ∧ ((r = none ∧ M key = none) ∨
      ∃ b, r = some b ∧ b < tb.size ∧ (tb.data b).status = .IN_USE ∧ (tb.data b).key = key ∧
        M key = some (tb.data b).data)) ∧
    (∀ key, ∃ tb', SH_DELETE p tb key = some (tb', (M key).isSome) ∧ Good p tb' (Function.update M key none)) ∧
    (∀ b, b < tb.size → (tb.data b).status = .IN_USE →
      ∃ tb', SH_DELETE_ITEM p tb b = some tb' ∧ Good p tb' (Function.update M (tb.data b).key none)) ∧
    (∀ newsize, tb.size < newsize → newsize ≤ SH_MAX_SIZE →
      ∃ tb', SH_GROW p tb newsize = some tb' ∧ Good p tb' M) ∧
    (∀ key d, M key = some d → ∃! b, b < tb.size ∧ (tb.data b).status = .IN_USE ∧ (tb.data b).key = key) ∧
    (∀ b, b < tb.size → (tb.data b).status = .IN_USE → M (tb.data b).key = some (tb.data b).data) ∧
    (∃ K : Finset κ, (∀ key, key ∈ K ↔ M key ≠ none) ∧ tb.members = K.card) ∧
    ∃ b, b < tb.size ∧ (tb.data b).status = .EMPTY := by
  have hg := h.good
  refine ⟨insert_spec hg, insert_spec hg, lookup_spec hg, delete_good hg, fun b hb hu => ?_,
    fun newsize hlt hmax => ?_, fun key d hd => ?_, hg.content.stored, hg.count, hg.exists_empty⟩
  · obtain ⟨j, data', hr, -, -, -, hgood⟩ := delete_item_spec hg hb hu
    exact ⟨_, hr, hgood⟩
  · obtain ⟨tb', hr, hgood, -⟩ := grow_spec hg hlt hmax
    exact ⟨tb', hr, hgood⟩
  · obtain ⟨b, hb, hu, he⟩ := hg.content.has key (by rw [hd]; exact Option.some_ne_none d)
    exact ⟨b, ⟨hb, hu, he⟩, fun b' ⟨hb', hu', he'⟩ => hg.content.unique b' b hb' hb hu' hu (he'.trans he.symm)⟩

/-- What a caller asks for: to store data under a key, to delete a key, to grow the table. -/
inductive Call (κ δ : Type) where
  | put (key : κ) (d : δ)
  | delete (key : κ)
  | grow (newsize : Nat)

/-- One call, on a table and the map of its run; `none` if it does not end, or fails. -/
def Call.run (p : Template κ) (tb : SH_TYPE κ δ) (M : κ → Option δ) :
    Call κ δ → Option (SH_TYPE κ δ × (κ → Option δ))
  | .put key d =>
      match SH_INSERT p tb key with
      | some (.ok (tb', b, _)) =>
          if b < tb'.size ∧ (tb'.data b).status = .IN_USE then
            some (storeData tb' b d, Function.update (Function.update M key (some (tb'.data b).data))
              (tb'.data b).key (some d))
          else none
      | _ => none
  | .delete key => (SH_DELETE p tb key).map fun r => (r.1, Function.update M key none)
  | .grow newsize =>
      if tb.size < newsize ∧ newsize ≤ SH_MAX_SIZE then (SH_GROW p tb newsize).map fun tb' => (tb', M)
      else none

/-- Calls one after the other. -/
def runCalls (p : Template κ) (calls : List (Call κ δ)) (tb : SH_TYPE κ δ) (M : κ → Option δ) :
    Option (SH_TYPE κ δ × (κ → Option δ)) :=
  calls.foldlM (fun r c => c.run p r.1 r.2) (tb, M)

theorem Reached.call (h : Reached p tb M) {c : Call κ δ} {r : SH_TYPE κ δ × (κ → Option δ)}
    (hc : c.run p tb M = some r) : Reached p r.1 r.2 := by
  cases c with
  | put key d =>
      simp only [Call.run] at hc
      split at hc
      · rename_i tb' b found hrun
        split at hc
        · rename_i hb
          cases hc
          exact .store tb' _ b d (.insert tb tb' M key b found h hrun) hb.1 hb.2
        · cases hc
      · cases hc
  | delete key =>
      obtain ⟨⟨tb', found⟩, hrun, rfl⟩ := Option.map_eq_some_iff.mp hc
      exact .delete tb tb' M key found h hrun
  | grow newsize =>
      simp only [Call.run] at hc
      split at hc
      · rename_i hsize
        obtain ⟨tb', hrun, rfl⟩ := Option.map_eq_some_iff.mp hc
        exact .grow tb tb' M newsize h hsize.1 hsize.2 hrun
      · cases hc

/-- **A put** is made, or refused in a table of the largest size. -/
theorem put_run (h : Reached p tb M) (key : κ) (d : δ) :
    (∃ tb', (Call.put key d).run p tb M = some (tb', Function.update M key (some d))) ∨
      (Call.put key d).run p tb M = none ∧ ∃ msg tb', SH_INSERT p tb key = some (.error (msg, tb')) ∧
        tb'.size = SH_MAX_SIZE := by
  obtain ⟨r, hr, hins⟩ := insert_spec h.good key
  match r, hins with
  | .error (msg, tb'), hins => exact Or.inr ⟨by rw [Call.run, hr], msg, tb', hr, hins.2⟩
  | .ok (tb', b, found), hins =>
      obtain ⟨hb, hu, hkey, -⟩ := hins
      refine Or.inl ⟨storeData tb' b d, ?_⟩
      simp only [Call.run, hr]
      rw [if_pos ⟨hb, hu⟩, hkey, Function.update_idem]

/-- **A delete** is made. -/
theorem delete_run (h : Reached p tb M) (key : κ) :
    ∃ tb', (Call.delete key).run p tb M = some (tb', Function.update M key none) := by
  obtain ⟨tb', hr, -⟩ := delete_good h.good key
  exact ⟨tb', by rw [Call.run, hr, Option.map_some]⟩

/-- **A run of calls reaches its table.** -/
theorem Reached.calls : ∀ (calls : List (Call κ δ)) {tb : SH_TYPE κ δ} {M : κ → Option δ}
    {r : SH_TYPE κ δ × (κ → Option δ)}, Reached p tb M → runCalls p calls tb M = some r → Reached p r.1 r.2
  | [], _, _, _, h, hr => by
      cases hr
      exact h
  | c :: calls, tb, M, r, h, hr => by
      obtain ⟨r1, h1, hr⟩ := Option.bind_eq_some_iff.mp ((List.foldlM_cons ..).symm.trans hr)
      exact Reached.calls calls (h.call h1) hr

/-- Keys that collide: the hash of a number is its number of tens. -/
def tens : Template Nat := ⟨fun key => key / 10, true⟩

/-- Three keys for bucket 7 of 8, which go over the end of the array, and one for bucket 1, which the next
    key for bucket 7 displaces. -/
def collide : List (Call Nat Nat) := [.put 70 1, .put 71 2, .put 72 3, .put 10 4, .put 73 5]

example : (runCalls tens collide (SH_CREATE 6) fun _ => none).map
    (fun r => [7, 0, 1, 2, 3].map fun b => (r.1.data b).key) = some [70, 71, 72, 73, 10] := by decide +kernel

/-- Colliding keys, a displacement, a deletion that shifts the keys behind it, and enough new keys that the
    table grows. -/
theorem simplehash_map_collide : ∃ tb M,
    runCalls tens (collide ++ [.delete 71, .put 20 6, .put 30 7, .put 40 8, .put 50 9]) (SH_CREATE 6)
      (fun _ => none) = some (tb, M) ∧
    tb.size = 16 ∧ (∃ b, SH_LOOKUP tens tb 73 = some (some b) ∧ (tb.data b).data = 5) ∧
    SH_LOOKUP tens tb 71 = some none ∧ (∃ tb', SH_DELETE tens tb 73 = some (tb', true)) ∧
    ∃! b, b < tb.size ∧ (tb.data b).status = .IN_USE ∧ (tb.data b).key = 10 := by
  have hrun : (runCalls tens (collide ++ [.delete 71, .put 20 6, .put 30 7, .put 40 8, .put 50 9])
      (SH_CREATE 6) (fun _ => none)).any (fun r =>
        decide (r.1.size = 16 ∧ r.2 73 = some 5 ∧ r.2 71 = none ∧ r.2 10 = some 4)) = true := by
    decide +kernel
  obtain ⟨⟨tb, M⟩, hr, hcheck⟩ := (Option.any_eq_true _ _).mp hrun
  obtain ⟨hsize, h73, h71, h10⟩ := of_decide_eq_true hcheck
  simp only at hsize h73 h71 h10
  have h : Reached tens tb M := (Reached.create 6).calls _ hr
  obtain ⟨-, -, hlookup, hdelete, -, -, hunique, -⟩ := simplehash_map h
  refine ⟨tb, M, hr, hsize, ?_, ?_, ?_, hunique 10 4 h10⟩
  · obtain ⟨r, hl, ⟨-, hnone⟩ | ⟨b, rfl, -, -, -, hb⟩⟩ := hlookup 73
    · rw [h73] at hnone
      cases hnone
    · rw [h73] at hb
      exact ⟨b, hl, (Option.some.inj hb).symm⟩
  · obtain ⟨r, hl, ⟨rfl, -⟩ | ⟨b, -, -, -, -, hb⟩⟩ := hlookup 71
    · exact hl
    · rw [h71] at hb
      cases hb
  · obtain ⟨tb', hd, -⟩ := hdelete 73
    rw [h73] at hd
    exact ⟨tb', hd⟩

end Runs

/-! ## 2. Iterating -/

/-- What the caller does with the entry it has been given. -/
inductive Choice where
  | keep
  | delete_item
  | delete

/-- `SH_ITERATE` until `NULL`. The caller chooses by the entries it has been given so far. -/
def iterateAll [DecidableEq κ] (p : Template κ) (choose : List (Element κ δ) → Choice) :
    Nat → SH_TYPE κ δ → SH_ITERATOR → List (Element κ δ) → Option (List (Element κ δ) × SH_TYPE κ δ)
  | 0, _, _, _ => none
  | fuel + 1, tb, iter, given =>
      match SH_ITERATE tb iter with
      | none => none
      | some (none, _) => some (given, tb)
      | some (some b, iter) =>
          let given := given ++ [tb.data b]
          let after := match choose given with
            | .keep => some tb
            | .delete_item => SH_DELETE_ITEM p tb b
            | .delete => (SH_DELETE p tb (tb.data b).key).map Prod.fst
          match after with
          | none => none
          | some tb => iterateAll p choose fuel tb iter given

section Iterate

variable {tb : SH_TYPE κ δ} {M : κ → Option δ} {s : Nat}

/-- The iterator before the bucket `k` steps behind `s`. -/
def iterAt (n s k : Nat) : SH_ITERATOR := ⟨pos n s k, s, decide (k = 0)⟩

/-- One bucket back. -/
theorem iterateLoop_succ (h : Params tb) (hs : s < tb.size) {k : Nat} (hk : k < tb.size) (fuel : Nat) :
    iterateLoop tb (fuel + 1) (iterAt tb.size s (k + 1)) =
      if (tb.data (pos tb.size s (k + 1))).status = .IN_USE then
        some (some (pos tb.size s (k + 1)), iterAt tb.size s k)
      else iterateLoop tb fuel (iterAt tb.size s k) := by
  have hdone : (decide (k + 1 = 0) : Bool) = false := decide_eq_false (Nat.succ_ne_zero k)
  have hlast : decide (pos tb.size s k &&& tb.sizemask = s &&& tb.sizemask) = decide (k = 0) := by
    have hlt := RobinHood.pos_lt hs (show k ≤ tb.size by omega)
    rw [h.and_mask, h.and_mask, Nat.mod_eq_of_lt hlt, Nat.mod_eq_of_lt hs]
    refine decide_eq_decide.mpr ⟨fun he => ?_, fun he => by rw [he, RobinHood.pos_zero hs]⟩
    have hzero := RobinHood.pos_zero hs
    exact RobinHood.pos_inj (by omega) (show 0 < tb.size by omega) (he.trans hzero.symm)
  rw [iterateLoop]
  unfold iterAt
  simp only [hdone, h.prev_pos hs (show k < tb.size by omega), hlast]
  rw [if_neg Bool.false_ne_true]

/-- The entries of the buckets from `k` steps behind `s` back to one step. -/
def entriesBack (data : Nat → Element κ δ) (n s : Nat) : Nat → List (Element κ δ)
  | 0 => []
  | k + 1 =>
      if (data (pos n s (k + 1))).status = .IN_USE then data (pos n s (k + 1)) :: entriesBack data n s k
      else entriesBack data n s k

/-- One call of `SH_ITERATE`: the next entry back, or none when all the buckets left are empty. -/
theorem iterateLoop_spec (h : Params tb) (hs : s < tb.size) (data : Nat → Element κ δ) (fuel : Nat) :
    ∀ k, k < tb.size → k < fuel → (∀ i, i ≤ k → tb.data (pos tb.size s i) = data (pos tb.size s i)) →
      (∃ iter, iterateLoop tb fuel (iterAt tb.size s k) = some (none, iter) ∧ entriesBack data tb.size s k = []) ∨
      ∃ i, i < k ∧ iterateLoop tb fuel (iterAt tb.size s k) =
          some (some (pos tb.size s (i + 1)), iterAt tb.size s i) ∧
        (tb.data (pos tb.size s (i + 1))).status = .IN_USE ∧
        entriesBack data tb.size s k = tb.data (pos tb.size s (i + 1)) :: entriesBack data tb.size s i := by
  induction fuel with
  | zero => exact fun k _ hf => absurd hf (Nat.not_lt_zero k)
  | succ fuel ih =>
      intro k hk hf hsame
      cases k with
      | zero => exact Or.inl ⟨iterAt tb.size s 0, rfl, rfl⟩
      | succ k =>
          rw [iterateLoop_succ h hs (Nat.lt_of_succ_lt hk) _, entriesBack, ← hsame (k + 1) (Nat.le_refl _)]
          split
          · rename_i hu
            exact Or.inr ⟨k, Nat.lt_succ_self k, rfl, hu, rfl⟩
          · rcases ih k (by omega) (by omega) fun i hi => hsame i (by omega) with hnone | ⟨i, hi, hrest⟩
            · exact Or.inl hnone
            · exact Or.inr ⟨i, by omega, hrest⟩

variable [DecidableEq κ]

/-- **Deleting the entry just given** changes no bucket that is still to be visited: the backward shift ends in
    front of the empty bucket the iteration began at. -/
theorem delete_behind (h : Good p tb M) (hs : s < tb.size) (hempty : (tb.data s).status = .EMPTY) {i : Nat}
    (hi : i + 1 < tb.size) (hu : (tb.data (pos tb.size s (i + 1))).status = .IN_USE) :
    ∃ tb' M', SH_DELETE_ITEM p tb (pos tb.size s (i + 1)) = some tb' ∧ Good p tb' M' ∧ tb'.size = tb.size ∧
      ∀ c, c ≤ i → tb'.data (pos tb.size s c) = tb.data (pos tb.size s c) := by
  have hb := RobinHood.pos_lt hs (show i + 1 ≤ tb.size by omega)
  obtain ⟨j, data', hrun, hj, hsh, hused, hgood⟩ := delete_item_spec h hb hu
  refine ⟨_, _, hrun, hgood, rfl, fun c hc => ?_⟩
  -- the start lies behind the shift
  have hlast : j < tb.size - (i + 1) := by
    by_contra hge
    have hstart := hused (tb.size - (i + 1)) (by omega)
    have hback : pos tb.size (pos tb.size s (i + 1)) (tb.size - (i + 1)) = s := by
      unfold pos
      split_ifs <;> omega
    rw [hback, hempty] at hstart
    cases hstart
  have hbucket : pos tb.size (pos tb.size s (i + 1)) (tb.size - (i + 1) + c) = pos tb.size s c := by
    unfold pos
    split_ifs <;> omega
  show data' (pos tb.size s c) = _
  rw [← hbucket]
  exact hsh.high _ (by omega) (by omega)

/-- The same by the key. -/
theorem delete_key_behind (h : Good p tb M) {b : Nat} (hb : b < tb.size) (hu : (tb.data b).status = .IN_USE) :
    (SH_DELETE p tb (tb.data b).key).map Prod.fst = SH_DELETE_ITEM p tb b := by
  rcases delete_spec h (tb.data b).key with ⟨hnone, -⟩ | ⟨b', hb', hu', hkey, hrun⟩
  · rw [h.content.stored b hb hu] at hnone
    cases hnone
  · rw [hrun, h.content.unique b' b hb' hb hu' hu hkey, Option.map_map]
    exact Option.map_id'

/-- **The loop of the caller**, with the buckets from `k` on back still to be visited. -/
theorem iterateAll_spec (choose : List (Element κ δ) → Choice) (data : Nat → Element κ δ) (fuel : Nat) :
    ∀ (k fuel' : Nat) (tb : SH_TYPE κ δ) (M : κ → Option δ) (iter : SH_ITERATOR) (given : List (Element κ δ)),
      Good p tb M → s < tb.size → (tb.data s).status = .EMPTY → k < tb.size → k < fuel → k < fuel' →
      (∀ i, i ≤ k → tb.data (pos tb.size s i) = data (pos tb.size s i)) →
      SH_ITERATE tb iter = iterateLoop tb fuel' (iterAt tb.size s k) →
      ∃ tb' M', iterateAll p choose fuel tb iter given = some (given ++ entriesBack data tb.size s k, tb') ∧
        Good p tb' M' := by
  induction fuel with
  | zero => exact fun k fuel' tb M iter given _ _ _ _ hf => absurd hf (Nat.not_lt_zero k)
  | succ fuel ih =>
      intro k fuel' tb M iter given h hs hempty hk hf hf' hsame hiter
      rw [iterateAll, hiter]
      rcases iterateLoop_spec h.params hs data fuel' k hk hf' hsame with ⟨iter', hrun, hnil⟩ | ⟨i, hi, hrun, hu, hcons⟩
      · rw [hrun, hnil, List.append_nil]
        exact ⟨tb, M, rfl, h⟩
      · rw [hrun, hcons]
        have hb := RobinHood.pos_lt hs (show i + 1 ≤ tb.size by omega)
        obtain ⟨given', hgiven⟩ : ∃ g, g = given ++ [tb.data (pos tb.size s (i + 1))] := ⟨_, rfl⟩
        -- whatever the caller does, the buckets left stay as they are
        have hafter : ∃ tb' M', (match choose given' with
              | .keep => some tb
              | .delete_item => SH_DELETE_ITEM p tb (pos tb.size s (i + 1))
              | .delete => (SH_DELETE p tb (tb.data (pos tb.size s (i + 1))).key).map Prod.fst) = some tb' ∧
            Good p tb' M' ∧ tb'.size = tb.size ∧
            ∀ c, c ≤ i → tb'.data (pos tb.size s c) = tb.data (pos tb.size s c) := by
          cases choose given' with
          | keep => exact ⟨tb, M, rfl, h, rfl, fun c _ => rfl⟩
          | delete_item => exact delete_behind h hs hempty (by omega) hu
          | delete =>
              simp only [delete_key_behind h hb hu]
              exact delete_behind h hs hempty (by omega) hu
        obtain ⟨tb', M', hstep, hgood, hsize, hkept⟩ := hafter
        have hstart := hkept 0 (Nat.zero_le i)
        rw [RobinHood.pos_zero hs] at hstart
        simp only [← hgiven, hstep]
        obtain ⟨tb'', M'', hrest, hgood'⟩ := ih i (tb'.size + 1) tb' M' (iterAt tb.size s i) given' hgood
          (by omega) (by rw [hstart]; exact hempty) (by omega) (by omega) (by omega)
          (fun c hc => by rw [hsize, hkept c hc, hsame c (by omega)]) (by unfold SH_ITERATE; rw [hsize])
        refine ⟨tb'', M'', ?_, hgood'⟩
        rw [hrest, hsize, hgiven, List.append_assoc]
        rfl

omit [DecidableEq κ] in
theorem mem_entriesBack {data : Nat → Element κ δ} {n : Nat} {e : Element κ δ} {k : Nat} :
    e ∈ entriesBack data n s k ↔ ∃ i, i < k ∧ (data (pos n s (i + 1))).status = .IN_USE ∧
      data (pos n s (i + 1)) = e := by
  induction k with
  | zero => exact iff_of_false List.not_mem_nil fun ⟨i, hi, _⟩ => Nat.not_lt_zero i hi
  | succ k ih =>
      have hrest : (∃ i, i < k + 1 ∧ (data (pos n s (i + 1))).status = .IN_USE ∧ data (pos n s (i + 1)) = e) ↔
          ((data (pos n s (k + 1))).status = .IN_USE ∧ data (pos n s (k + 1)) = e) ∨ e ∈ entriesBack data n s k := by
        rw [ih]
        constructor
        · intro ⟨i, hi, hu, he⟩
          rcases Nat.lt_or_eq_of_le (Nat.le_of_lt_succ hi) with hi | rfl
          · exact Or.inr ⟨i, hi, hu, he⟩
          · exact Or.inl ⟨hu, he⟩
        · intro hcase
          rcases hcase with ⟨hu, he⟩ | ⟨i, hi, hu, he⟩
          · exact ⟨k, Nat.lt_succ_self k, hu, he⟩
          · exact ⟨i, by omega, hu, he⟩
      rw [hrest, entriesBack]
      split
      · rename_i hu
        rw [List.mem_cons]
        exact or_congr ⟨fun he => ⟨hu, he.symm⟩, fun he => he.2.symm⟩ Iff.rfl
      · rename_i hu
        exact ⟨Or.inr, fun hcase => hcase.resolve_left fun he => hu he.1⟩

omit [DecidableEq κ] in
/-- No key comes twice. -/
theorem entriesBack_nodup {data : Nat → Element κ δ} {n : Nat} (h : Content p n data M) (hs : s < n) {k : Nat}
    (hk : k < n) : ((entriesBack data n s k).map Element.key).Nodup := by
  induction k with
  | zero => exact List.nodup_nil
  | succ k ih =>
      rw [entriesBack]
      split
      · rename_i hu
        rw [List.map_cons]
        refine List.nodup_cons.mpr ⟨fun hm => ?_, ih (by omega)⟩
        obtain ⟨e, he, hkey⟩ := List.mem_map.mp hm
        obtain ⟨i, hi, hui, rfl⟩ := mem_entriesBack.mp he
        have hsame := h.unique _ _ (RobinHood.pos_lt hs (by omega)) (RobinHood.pos_lt hs hk.le) hui hu hkey
        have hik := RobinHood.pos_inj (show i + 1 < n by omega) hk hsame
        omega
      · exact ih (by omega)

omit [DecidableEq κ] in
/-- **`SH_START_ITERATE`** begins at an empty bucket; the first call goes on to the one in front of it. -/
theorem start_iterate_spec (h : Good p tb M) : ∃ s, s < tb.size ∧ (tb.data s).status = .EMPTY ∧
    SH_ITERATE tb (SH_START_ITERATE tb) = iterateLoop tb tb.size (iterAt tb.size s (tb.size - 1)) := by
  have h2 := h.params.two_le
  obtain ⟨s, hs, hempty, hstart⟩ : ∃ s, s < tb.size ∧ (tb.data s).status = .EMPTY ∧
      SH_START_ITERATE tb = iterAt tb.size s tb.size := by
    unfold SH_START_ITERATE
    cases hfind : (List.range tb.size).find? fun i => decide ((tb.data i).status ≠ .IN_USE) with
    | none =>
        obtain ⟨b, hb, hempty⟩ := h.exists_empty
        have hno := List.find?_eq_none.mp hfind b (List.mem_range.mpr hb)
        have hne : (tb.data b).status ≠ .IN_USE := by
          rw [hempty]
          exact SH_STATUS.noConfusion
        exact absurd (decide_eq_true hne) hno
    | some s =>
        have hs := List.mem_range.mp (List.mem_of_find?_eq_some hfind)
        have hfound := List.find?_some hfind
        have hne : (tb.data s).status ≠ .IN_USE := of_decide_eq_true hfound
        refine ⟨s, hs, (status_cases _).resolve_right hne, ?_⟩
        have hle : tb.size ≤ 2 ^ 32 := Nat.le_of_dvd (by decide) h.params.dvd
        have hsmall : s % 2 ^ 32 = s := Nat.mod_eq_of_lt (by omega)
        have hzero : decide (tb.size = 0) = false := decide_eq_false (by omega)
        unfold iterAt
        simp only [Option.getD_some, hsmall, RobinHood.pos_self, hzero]
  refine ⟨s, hs, hempty, ?_⟩
  have hback := iterateLoop_succ h.params hs (show tb.size - 1 < tb.size by omega) tb.size
  rw [Nat.sub_add_cancel (by omega : 1 ≤ tb.size), RobinHood.pos_self] at hback
  unfold SH_ITERATE
  rw [hstart, hback, if_neg fun hu => by rw [hempty] at hu; cases hu]

omit [DecidableEq κ] in
/-- From an empty bucket back around the array, every entry is met. -/
theorem mem_entriesBack_around (hs : s < tb.size) (hempty : (tb.data s).status = .EMPTY) (e : Element κ δ) :
    e ∈ entriesBack tb.data tb.size s (tb.size - 1) ↔
      ∃ b, b < tb.size ∧ (tb.data b).status = .IN_USE ∧ tb.data b = e := by
  rw [mem_entriesBack]
  constructor
  · intro ⟨i, hi, hu, he⟩
    exact ⟨_, RobinHood.pos_lt hs (by omega), hu, he⟩
  · intro ⟨b, hb, hu, he⟩
    have hgap := RobinHood.gap_lt hs hb
    have hback := RobinHood.pos_gap hs hb
    -- the first bucket has no entry
    have hpos : gap tb.size s b ≠ 0 := fun h0 => by
      rw [h0, RobinHood.pos_zero hs] at hback
      rw [← hback, hempty] at hu
      cases hu
    refine ⟨gap tb.size s b - 1, by omega, ?_⟩
    rw [Nat.sub_add_cancel (Nat.pos_of_ne_zero hpos), hback]
    exact ⟨hu, he⟩

/-- **The loop over a table** gives its entries, from that bucket back, whatever the caller deletes of them. -/
theorem iterateAll_around (h : Good p tb M) (choose : List (Element κ δ) → Choice) :
    ∃ s tb', s < tb.size ∧ (tb.data s).status = .EMPTY ∧
      iterateAll p choose (tb.size + 1) tb (SH_START_ITERATE tb) [] =
        some (entriesBack tb.data tb.size s (tb.size - 1), tb') := by
  have h2 := h.params.two_le
  obtain ⟨s, hs, hempty, hfirst⟩ := start_iterate_spec h
  obtain ⟨tb', M', hrun, -⟩ := iterateAll_spec (p := p) choose tb.data (tb.size + 1) (tb.size - 1) tb.size tb M
    (SH_START_ITERATE tb) [] h hs hempty (by omega) (by omega) (by omega) (fun i _ => rfl) hfirst
  exact ⟨s, tb', hs, hempty, hrun⟩

/-- **Iterating while deleting.** Whatever the caller deletes of what it has just been given, by the entry or
    by the key, it is given every entry of the table once. -/
theorem iterate_delete [Inhabited κ] [Inhabited δ] (h : Reached p tb M)
    (choose : List (Element κ δ) → Choice) :
    ∃ l tb', iterateAll p choose (tb.size + 1) tb (SH_START_ITERATE tb) [] = some (l, tb') ∧
      (l.map Element.key).Nodup ∧
      (∀ e, e ∈ l ↔ ∃ b, b < tb.size ∧ (tb.data b).status = .IN_USE ∧ tb.data b = e) ∧
      ∀ key d, M key = some d ↔ ∃ e ∈ l, e.key = key ∧ e.data = d := by
  have hg := h.good
  have h2 := hg.params.two_le
  obtain ⟨s, tb', hs, hempty, hrun⟩ := iterateAll_around hg choose
  have hmem := mem_entriesBack_around hs hempty
  refine ⟨_, tb', hrun, entriesBack_nodup hg.content hs (by omega), hmem, fun key d => ?_⟩
  constructor
  · intro hd
    obtain ⟨b, hb, hu, he⟩ := hg.content.has key (by rw [hd]; exact Option.some_ne_none d)
    have hst := hg.content.stored b hb hu
    rw [he, hd] at hst
    exact ⟨tb.data b, (hmem _).mpr ⟨b, hb, hu, rfl⟩, he, (Option.some.inj hst).symm⟩
  · intro ⟨e, he, hkey, hd⟩
    obtain ⟨b, hb, hu, rfl⟩ := (hmem e).mp he
    rw [← hkey, ← hd]
    exact hg.content.stored b hb hu

/-- Of the keys of `collide`, all but 71 are deleted when they come, by the entry or by the key. -/
def deleteSome (given : List (Element Nat Nat)) : Choice :=
  match given.getLast?.map Element.key with
  | some 70 => .delete_item
  | some 73 => .delete_item
  | some 71 => .keep
  | _ => .delete

/-- **Colliding keys over the end of the array**, deleted on the way: 70 goes from bucket 7, and 71, which has
    been given already, is shifted there from bucket 0. -/
theorem iterate_delete_collide : ∃ tb M l tb',
    runCalls tens collide (SH_CREATE 6) (fun _ => none) = some (tb, M) ∧
    iterateAll tens deleteSome (tb.size + 1) tb (SH_START_ITERATE tb) [] = some (l, tb') ∧
    (l.map Element.key).Nodup ∧ (∀ key ∈ [70, 71, 72, 73, 10], key ∈ l.map Element.key) ∧
    tb'.members = 1 ∧ (tb'.data 7).key = 71 := by
  have hrun : (runCalls tens collide (SH_CREATE 6) (fun _ => none)).any (fun r =>
      ([70, 71, 72, 73, 10].all fun key => (r.2 key).isSome) &&
        (iterateAll tens deleteSome (r.1.size + 1) r.1 (SH_START_ITERATE r.1) []).any fun x =>
          decide (x.2.members = 1 ∧ (x.2.data 7).key = 71)) = true := by decide +kernel
  obtain ⟨⟨tb, M⟩, hr, hcheck⟩ := (Option.any_eq_true _ _).mp hrun
  obtain ⟨hkeys, hcheck⟩ := (Bool.and_eq_true _ _).mp hcheck
  have h : Reached tens tb M := (Reached.create 6).calls _ hr
  obtain ⟨l, tb', hall, hnodup, -, hmap⟩ := iterate_delete h deleteSome
  refine ⟨tb, M, l, tb', hr, hall, hnodup, fun key hkey => ?_, ?_⟩
  · obtain ⟨d, hd⟩ := Option.isSome_iff_exists.mp (List.all_eq_true.mp hkeys key hkey)
    obtain ⟨e, he, hek, -⟩ := (hmap key d).mp hd
    exact List.mem_map.mpr ⟨e, he, hek⟩
  · rw [hall] at hcheck
    exact of_decide_eq_true hcheck

end Iterate

end Pgvec.Simplehash
