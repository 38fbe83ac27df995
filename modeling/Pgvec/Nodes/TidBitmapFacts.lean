/-
  File:      Pgvec/Nodes/TidBitmapFacts.lean
  Subject:   WHAT A TID BITMAP STANDS FOR, through additions, unions, intersections and lossification.

  A bitmap is read through `find`, which is blind to `status`: the entry of a block number, if any. `Table`
  says that entries stand at their own block number, chunks at the first page of their range, and that no
  page is stored both ways. A page is lost to a chunk (`LossyAt`) or has an exact entry; `Bounds lo hi` says
  that every TID of `lo` is found one way or the other, and that what is exact and not marked for recheck
  lies in `hi`. Lossification only makes a bitmap coarser (`Coarser`), whatever pages its scan meets.

  * `Table.update` -- one entry changed; `Table.count_update` -- the counters;
  * `Wf.mark_page_lossy`, `Wf.lossify`, `Wf.get_pageentry` -- the building blocks;
  * **`Wf.add_tuples`**, **`Wf.add_page`**, **`Wf.union`**, **`Wf.intersect`**.
-/
import Pgvec.Nodes.TidBitmap
import Mathlib

namespace Pgvec.Tbm

open Pgvec.Hnsw (ItemPointer InvalidBlockNumber)

/-! ## 1. Bits -/

theorem bitnum_lt (x : Nat) : BITNUM x < 64 := Nat.mod_lt x (by decide)

theorem getLsbD_one_shift {b : Nat} (hb : b < 64) (i : Nat) : (1#64 <<< b).getLsbD i = decide (i = b) := by
  rw [BitVec.getLsbD_shiftLeft]
  by_cases h : i = b
  · subst h
    simp [hb]
  · rcases Nat.lt_or_ge i b with hlt | hge
    · simp [h, hlt]
    · have : i - b ≠ 0 := by omega
      simp [h, this, BitVec.getLsbD_one]

theorem getLsbD_zero' (i : Nat) : (0 : BitVec 64).getLsbD i = false := BitVec.getLsbD_zero

/-- A test of one bit. -/
theorem and_shift_ne_zero (w : BitVec 64) {b : Nat} (hb : b < 64) : w &&& (1#64 <<< b) ≠ 0 ↔ w.getLsbD b = true := by
  have hand : ∀ i, (w &&& (1#64 <<< b)).getLsbD i = (w.getLsbD i && decide (i = b)) := by
    intro i
    rw [BitVec.getLsbD_and, getLsbD_one_shift hb]
  constructor
  · intro h
    by_contra hne
    refine h (BitVec.eq_of_getLsbD_eq fun i _ => ?_)
    rw [hand, getLsbD_zero']
    by_cases hi : i = b
    · rw [hi, Bool.eq_false_of_not_eq_true hne]
      rfl
    · simp [hi]
  · intro h h0
    have := hand b
    rw [h0, getLsbD_zero', h] at this
    simp at this

/-- The test of a position as a bit of its word. -/
theorem bit_eq (page : PagetableEntry) (x : Nat) : page.bit x = (page.words (WORDNUM x)).getLsbD (BITNUM x) := by
  rw [Bool.eq_iff_iff, ← and_shift_ne_zero _ (bitnum_lt x), PagetableEntry.bit, bne_iff_ne]

theorem word_split {x y : Nat} (h1 : WORDNUM x = WORDNUM y) (h2 : BITNUM x = BITNUM y) : x = y := by
  unfold WORDNUM BITNUM BITS_PER_BITMAPWORD at *
  omega

@[simp] theorem bit_zero (blockno x : Nat) : (PagetableEntry.zero blockno).bit x = false := by
  rw [bit_eq]
  exact BitVec.getLsbD_zero

theorem bit_setBit (page : PagetableEntry) (x y : Nat) : (page.setBit x).bit y = (page.bit y || decide (y = x)) := by
  rw [bit_eq, bit_eq, PagetableEntry.setBit]
  simp only
  by_cases hw : WORDNUM y = WORDNUM x
  · rw [hw, Function.update_self, BitVec.getLsbD_or, getLsbD_one_shift (bitnum_lt x)]
    congr 1
    refine decide_eq_decide.mpr ⟨fun hb => word_split hw hb, fun e => e ▸ rfl⟩
  · rw [Function.update_of_ne hw, decide_eq_false (p := y = x) fun e => hw (congrArg WORDNUM e), Bool.or_false]

/-- **The loop over a word finds its bits.** -/
theorem mem_bitLoop (w : BitVec 64) (pos k : Nat) : k ∈ bitLoop w pos ↔ ∃ j, k = pos + j ∧ w.getLsbD j = true := by
  induction w, pos using bitLoop.induct with
  | case1 pos => 
      rw [bitLoop, if_pos rfl]
      simp
  | case2 w pos hw ih =>
      rw [bitLoop, if_neg hw, List.mem_append, ih]
      have h1 : w &&& 1 ≠ 0 ↔ w.getLsbD 0 = true := and_shift_ne_zero w (b := 0) (by decide)
      constructor
      · rintro (h | ⟨j, rfl, hj⟩)
        · split at h
          · rename_i hone
            exact ⟨0, List.mem_singleton.mp h, h1.mp hone⟩
          · exact absurd h List.not_mem_nil
        · rw [BitVec.getLsbD_ushiftRight] at hj
          exact ⟨1 + j, by omega, hj⟩
      · rintro ⟨j, rfl, hj⟩
        cases j with
        | zero =>
            rw [if_pos (h1.mpr hj)]
            exact Or.inl (List.mem_singleton.mpr rfl)
        | succ j =>
            refine Or.inr ⟨j, by omega, ?_⟩
            rw [BitVec.getLsbD_ushiftRight, Nat.add_comm]
            exact hj

theorem bitLoop_pairwise (w : BitVec 64) (pos : Nat) : (bitLoop w pos).Pairwise (· < ·) := by
  induction w, pos using bitLoop.induct with
  | case1 pos => rw [bitLoop, if_pos rfl]; exact List.Pairwise.nil
  | case2 w pos hw ih =>
      rw [bitLoop, if_neg hw]
      refine List.pairwise_append.mpr ⟨?_, ih, fun x hx y hy => ?_⟩
      · split
        · exact List.pairwise_singleton _ _
        · exact List.Pairwise.nil
      · obtain ⟨j, rfl, _⟩ := (mem_bitLoop _ _ _).mp hy
        split at hx
        · rw [List.mem_singleton.mp hx]
          omega
        · exact absurd hx List.not_mem_nil

/-- The loop over the words finds the positions that are set. -/
theorem mem_wordBits (words : Nat → BitVec 64) (nwords start k : Nat) :
    k ∈ (List.range nwords).flatMap (fun wordnum =>
        bitLoop (words wordnum) (start + wordnum * BITS_PER_BITMAPWORD)) ↔
      ∃ x, x < nwords * 64 ∧ k = start + x ∧ (words (WORDNUM x)).getLsbD (BITNUM x) = true := by
  rw [List.mem_flatMap]
  constructor
  · intro ⟨wordnum, hw, hk⟩
    obtain ⟨j, rfl, hj⟩ := (mem_bitLoop _ _ _).mp hk
    have hj64 : j < 64 := BitVec.lt_of_getLsbD hj
    rw [List.mem_range] at hw
    refine ⟨wordnum * 64 + j, by omega, by unfold BITS_PER_BITMAPWORD; omega, ?_⟩
    have h1 : WORDNUM (wordnum * 64 + j) = wordnum := by unfold WORDNUM BITS_PER_BITMAPWORD; omega
    have h2 : BITNUM (wordnum * 64 + j) = j := by unfold BITNUM BITS_PER_BITMAPWORD; omega
    rw [h1, h2]
    exact hj
  · intro ⟨x, hx, hk, hb⟩
    refine ⟨WORDNUM x, ?_, (mem_bitLoop _ _ _).mpr ⟨BITNUM x, ?_, hb⟩⟩
    · rw [List.mem_range]
      unfold WORDNUM BITS_PER_BITMAPWORD
      omega
    · unfold WORDNUM BITNUM BITS_PER_BITMAPWORD
      omega

/-- The loop over the words goes up. -/
theorem wordBits_pairwise (words : Nat → BitVec 64) (nwords start : Nat) :
    ((List.range nwords).flatMap (fun wordnum =>
      bitLoop (words wordnum) (start + wordnum * BITS_PER_BITMAPWORD))).Pairwise (· < ·) := by
  rw [List.pairwise_flatMap]
  refine ⟨fun _ _ => bitLoop_pairwise _ _, List.pairwise_lt_range.imp fun {a b} hab x hx y hy => ?_⟩
  obtain ⟨j, rfl, hj⟩ := (mem_bitLoop _ _ _).mp hx
  obtain ⟨j', rfl, _⟩ := (mem_bitLoop _ _ _).mp hy
  have hj64 : j < 64 := BitVec.lt_of_getLsbD hj
  unfold BITS_PER_BITMAPWORD
  omega

theorem mem_bits (page : PagetableEntry) (nwords start k : Nat) :
    k ∈ page.bits nwords start ↔ ∃ x, x < nwords * 64 ∧ k = start + x ∧ page.bit x = true := by
  rw [PagetableEntry.bits, mem_wordBits]
  simp only [bit_eq]

theorem bits_pairwise (page : PagetableEntry) (nwords start : Nat) : (page.bits nwords start).Pairwise (· < ·) :=
  wordBits_pairwise page.words nwords start

/-! ## 2. The table of a bitmap -/

/-- A page is lossy: the bit for it is set in its chunk. -/
def LossyAt (f : Nat → Option PagetableEntry) (p : Nat) : Prop :=
  ∃ c, f (p - p % PAGES_PER_CHUNK) = some c ∧ c.ischunk = true ∧ c.bit (p % PAGES_PER_CHUNK) = true

/-- A page has an entry of its own. -/
def ExactAt (f : Nat → Option PagetableEntry) (p : Nat) (e : PagetableEntry) : Prop := f p = some e ∧ e.ischunk = false

/-- **A table of pages and chunks.** -/
structure Table (f : Nat → Option PagetableEntry) : Prop where
  key : ∀ {k e}, f k = some e → e.blockno = k
  header : ∀ {k e}, f k = some e → e.ischunk = true → k % PAGES_PER_CHUNK = 0
  offsets : ∀ {k e}, f k = some e → e.ischunk = false → ∀ x, TBM_MAX_TUPLES_PER_PAGE ≤ x → e.bit x = false
  apart : ∀ {p e}, LossyAt f p → f p = some e → e.ischunk = true
  finite : {k | (f k).isSome = true}.Finite

variable {f : Nat → Option PagetableEntry} {k p : Nat} {e c : PagetableEntry} {v : Option PagetableEntry}

/-- The pages of a chunk. -/
theorem lossyAt_chunk (h : Table f) (hk : f k = some c) (hc : c.ischunk = true) {x : Nat} (hx : x < PAGES_PER_CHUNK) :
    LossyAt f (k + x) ↔ c.bit x = true := by
  have h0 := h.header hk hc
  have hmod : (k + x) % PAGES_PER_CHUNK = x := by
    unfold PAGES_PER_CHUNK at *
    omega
  unfold LossyAt
  rw [hmod, Nat.add_sub_cancel, hk]
  constructor
  · rintro ⟨c', hc', _, hb⟩
    cases hc'
    exact hb
  · exact fun hb => ⟨c, rfl, hc, hb⟩

theorem mod_chunk_lt (p : Nat) : p % PAGES_PER_CHUNK < PAGES_PER_CHUNK := Nat.mod_lt p (by decide)

theorem header_add (p : Nat) : p - p % PAGES_PER_CHUNK + p % PAGES_PER_CHUNK = p := Nat.sub_add_cancel (Nat.mod_le _ _)

theorem header_mod (p : Nat) : (p - p % PAGES_PER_CHUNK) % PAGES_PER_CHUNK = 0 := by
  unfold PAGES_PER_CHUNK
  omega

/-- **One entry changed.** A new exact entry may not be one of a lossy page, nor a chunk cover a page that has an
    entry of its own. -/
theorem Table.update (h : Table f) (hkey : ∀ e, v = some e → e.blockno = k)
    (hheader : ∀ e, v = some e → e.ischunk = true → k % PAGES_PER_CHUNK = 0)
    (hoffsets : ∀ e, v = some e → e.ischunk = false → ∀ x, TBM_MAX_TUPLES_PER_PAGE ≤ x → e.bit x = false)
    (hexact : ∀ e, v = some e → e.ischunk = false → ¬LossyAt f k)
    (hchunk : ∀ c, v = some c → c.ischunk = true → ∀ x < PAGES_PER_CHUNK, c.bit x = true → x ≠ 0 →
      ∀ e, f (k + x) = some e → e.ischunk = true) : Table (Function.update f k v) where
  key {k' e} he := by
    by_cases hk : k' = k
    · subst hk
      rw [Function.update_self] at he
      exact hkey e he
    · rw [Function.update_of_ne hk] at he
      exact h.key he
  header {k' e} he hc := by
    by_cases hk : k' = k
    · subst hk
      rw [Function.update_self] at he
      exact hheader e he hc
    · rw [Function.update_of_ne hk] at he
      exact h.header he hc
  offsets {k' e} he hc := by
    by_cases hk : k' = k
    · subst hk
      rw [Function.update_self] at he
      exact hoffsets e he hc
    · rw [Function.update_of_ne hk] at he
      exact h.offsets he hc
  apart {q e} hl he := by
    obtain ⟨c, hc, hcc, hb⟩ := hl
    by_cases hq : q = k
    · subst hq
      rw [Function.update_self] at he
      by_contra hce
      rw [Bool.not_eq_true] at hce
      by_cases hq0 : q - q % PAGES_PER_CHUNK = q
      · -- the page would be its own chunk
        rw [hq0, Function.update_self, he] at hc
        cases hc
        rw [hcc] at hce
        cases hce
      · rw [Function.update_of_ne hq0] at hc
        exact hexact e he hce ⟨c, hc, hcc, hb⟩
    · rw [Function.update_of_ne hq] at he
      by_cases hq0 : q - q % PAGES_PER_CHUNK = k
      · rw [hq0, Function.update_self] at hc
        have hadd : k + q % PAGES_PER_CHUNK = q := hq0 ▸ header_add q
        refine hchunk c hc hcc (q % PAGES_PER_CHUNK) (mod_chunk_lt q) hb (fun h0 => ?_) e (hadd.symm ▸ he)
        rw [h0, Nat.add_zero] at hadd
        exact hq hadd.symm
      · rw [Function.update_of_ne hq0] at hc
        exact h.apart ⟨c, hc, hcc, hb⟩ he
  finite := by
    refine (h.finite.union (Set.finite_singleton k)).subset fun k' hk' => ?_
    by_cases hk : k' = k
    · exact Or.inr hk
    · rw [Set.mem_ofPred_eq, Function.update_of_ne hk] at hk'
      exact Or.inl hk'

theorem Table.exact_not_lossy (h : Table f) (he : ExactAt f p e) : ¬LossyAt f p := fun hl => by
  have := h.apart hl he.1
  rw [he.2] at this
  cases this

/-- The number of entries of one kind. -/
noncomputable def count (kind : PagetableEntry → Bool) (f : Nat → Option PagetableEntry) : Nat :=
  {k | (f k).any kind = true}.ncard

theorem Table.count_finite (h : Table f) (kind : PagetableEntry → Bool) : {k | (f k).any kind = true}.Finite := by
  refine h.finite.subset fun k hk => ?_
  rw [Set.mem_ofPred_eq] at hk ⊢
  exact Option.isSome_of_any hk

/-- **The counters when one entry changes.** -/
theorem Table.count_update (h : Table f) (kind : PagetableEntry → Bool) (k : Nat) (v : Option PagetableEntry) :
    count kind (Function.update f k v) + (if (f k).any kind = true then 1 else 0) =
      count kind f + (if v.any kind = true then 1 else 0) := by
  have hfin := h.count_finite kind
  have hrest : {k' | (Function.update f k v k').any kind = true} \ {k} = {k' | (f k').any kind = true} \ {k} := by
    ext k'
    simp only [Set.mem_sdiff, Set.mem_ofPred_eq, Set.mem_singleton_iff]
    refine and_congr_left fun hk => ?_
    rw [Function.update_of_ne hk]
  have hcard : ∀ g : Nat → Option PagetableEntry, {k' | (g k').any kind = true}.Finite →
      count kind g = ({k' | (g k').any kind = true} \ {k}).ncard + if (g k).any kind = true then 1 else 0 := by
    intro g hg
    by_cases hk : (g k).any kind = true
    · rw [if_pos hk]
      exact (Set.ncard_sdiff_singleton_add_one (s := {k' | (g k').any kind = true}) hk hg).symm
    · have hself : {k' | (g k').any kind = true} \ {k} = {k' | (g k').any kind = true} :=
        Set.sdiff_singleton_eq_self hk
      rw [if_neg hk, hself, count, Nat.add_zero]
  have hfin' : {k' | (Function.update f k v k').any kind = true}.Finite := by
    refine (hfin.union (Set.finite_singleton k)).subset fun k' hk' => ?_
    by_cases hk : k' = k
    · exact Or.inr hk
    · rw [Set.mem_ofPred_eq, Function.update_of_ne hk] at hk'
      exact Or.inl hk'
  rw [hcard f hfin, hcard _ hfin', hrest, Function.update_self]
  omega

/-! ## 3. Well-formed bitmaps -/

variable {H : Type} {T : PageTable H} {tbm : TIDBitmap H}

/-- The entry of a block number, whatever the status. -/
def TIDBitmap.find (T : PageTable H) (tbm : TIDBitmap H) : Nat → Option PagetableEntry := tbm.store.find T

/-- A table with its counters. -/
structure Counted (f : Nat → Option PagetableEntry) (n np nc : Nat) : Prop where
  table : Table f
  npages : np = count (fun page => !page.ischunk) f
  nchunks : nc = count (fun page => page.ischunk) f
  nentries : n = np + nc

/-- **A well-formed bitmap**: its table and its counters, and chunks are in a hash table only. -/
structure Wf (T : PageTable H) (tbm : TIDBitmap H) : Prop
    extends Counted (tbm.find T) tbm.nentries tbm.npages tbm.nchunks where
  hash : tbm.nchunks ≠ 0 → ∃ h, tbm.store = .TBM_HASH h

theorem lookup_create_pagetable (s : Store H) : T.lookup (tbm_create_pagetable T s) = s.find T := by
  funext k
  cases s with
  | TBM_EMPTY => exact T.lookup_create k
  | TBM_ONE_PAGE e =>
      rw [tbm_create_pagetable, T.lookup_write, T.lookup_create, Store.find]
      by_cases hk : k = e.blockno
      · rw [if_pos hk, if_pos hk.symm]
      · rw [if_neg hk, if_neg (Ne.symm hk)]
  | TBM_HASH h => rfl

theorem lookup_write_eq (h : H) (e : PagetableEntry) :
    T.lookup (T.write h e) = Function.update (T.lookup h) e.blockno (some e) := by
  funext k
  rw [T.lookup_write, Function.update_apply]

theorem lookup_delete_eq (h : H) (k : Nat) : T.lookup (T.delete h k) = Function.update (T.lookup h) k none := by
  funext k'
  rw [T.lookup_delete, Function.update_apply]

/-- A write through a pointer changes the entry it points to. -/
theorem Store.find_write {s : Store H} {e : PagetableEntry} (h : (s.find T e.blockno).isSome = true) :
    (s.write T e).find T = Function.update (s.find T) e.blockno (some e) := by
  cases s with
  | TBM_EMPTY => cases h
  | TBM_ONE_PAGE e1 =>
      have h1 : e1.blockno = e.blockno := by
        by_contra hne
        rw [Store.find, if_neg hne] at h
        cases h
      funext k
      rw [Store.write, Store.find, Function.update_apply, Store.find, h1]
      · by_cases hk : k = e.blockno
        · rw [if_pos hk.symm, if_pos hk]
        · rw [if_neg (Ne.symm hk), if_neg hk, if_neg (Ne.symm hk)]
      · exact nofun
  | TBM_HASH hh => exact lookup_write_eq hh e

theorem Table.one_le_count (h : Table f) (kind : PagetableEntry → Bool) (hk : f k = some e) (he : kind e = true) :
    1 ≤ count kind f :=
  (Set.ncard_pos (h.count_finite kind)).mpr ⟨k, by rw [Set.mem_ofPred_eq, hk]; exact he⟩

/-- The counters when one entry changes. -/
theorem Counted.update {n np nc n' np' nc' : Nat} (h : Counted f n np nc) (ht : Table (Function.update f k v))
    (hnp : np' + (if (f k).any (fun page => !page.ischunk) then 1 else 0) =
      np + if v.any (fun page => !page.ischunk) then 1 else 0)
    (hnc : nc' + (if (f k).any (fun page => page.ischunk) then 1 else 0) =
      nc + if v.any (fun page => page.ischunk) then 1 else 0)
    (hn : n' = np' + nc') : Counted (Function.update f k v) n' np' nc' where
  table := ht
  npages := by
    have := h.table.count_update (fun page => !page.ischunk) k v
    rw [← h.npages] at this
    omega
  nchunks := by
    have := h.table.count_update (fun page => page.ischunk) k v
    rw [← h.nchunks] at this
    omega
  nentries := hn

theorem Wf.chunk_hash (h : Wf T tbm) (hk : tbm.find T k = some e) (he : e.ischunk = true) :
    tbm.nchunks ≠ 0 ∧ ∃ h, tbm.store = .TBM_HASH h := by
  have h1 := h.table.one_le_count (fun page => page.ischunk) hk he
  rw [← h.nchunks] at h1
  exact ⟨Nat.ne_of_gt h1, h.hash (Nat.ne_of_gt h1)⟩

/-- A bitmap that counts no entries has none. -/
theorem Wf.no_entries (h : Wf T tbm) (h0 : tbm.nentries = 0) (k : Nat) : tbm.find T k = none := by
  have hn := h.nentries
  cases hf : tbm.find T k with
  | none => rfl
  | some e =>
      exfalso
      cases hc : e.ischunk with
      | false =>
          have := h.table.one_le_count (fun page => !page.ischunk) hf (by rw [hc]; rfl)
          rw [← h.npages] at this
          omega
      | true =>
          have := (h.chunk_hash hf hc).1
          omega

/-- **`tbm_page_is_lossy`.** -/
theorem Wf.page_is_lossy (h : Wf T tbm) (p : Nat) : tbm_page_is_lossy T tbm p = true ↔ LossyAt (tbm.find T) p := by
  unfold tbm_page_is_lossy
  by_cases h0 : tbm.nchunks = 0
  · rw [if_pos h0]
    refine ⟨nofun, fun ⟨c, hc, hcc, _⟩ => absurd h0 (h.chunk_hash hc hcc).1⟩
  · rw [if_neg h0]
    obtain ⟨hh, hs⟩ := h.hash h0
    have hf : tbm.find T = T.lookup hh := by rw [TIDBitmap.find, hs]; rfl
    rw [hs, hf]
    unfold LossyAt
    simp only
    rcases T.lookup hh (p - p % PAGES_PER_CHUNK) with _ | page
    · exact ⟨nofun, fun ⟨_, hc, _⟩ => nomatch hc⟩
    · simp only [Bool.and_eq_true, Option.some.injEq, exists_eq_left']

/-- **`tbm_find_pageentry`.** -/
theorem Wf.find_pageentry (h : Wf T tbm) (p : Nat) :
    tbm_find_pageentry T tbm p = (tbm.find T p).filter fun page => !page.ischunk := by
  unfold tbm_find_pageentry
  by_cases h0 : tbm.nentries = 0
  · rw [if_pos h0]
    rw [h.no_entries h0]
    rfl
  · rw [if_neg h0]
    have hchunk := fun e he => h.chunk_hash (k := p) (e := e) he
    unfold TIDBitmap.find at hchunk ⊢
    cases hs : tbm.store with
    | TBM_EMPTY => rfl
    | TBM_ONE_PAGE e1 =>
        rw [hs] at hchunk
        show Store.find T (Store.TBM_ONE_PAGE e1) p = (Store.find T (Store.TBM_ONE_PAGE e1) p).filter _
        cases hf : Store.find T (Store.TBM_ONE_PAGE e1) p with
        | none => rfl
        | some e =>
            have hc : e.ischunk = false := by
              by_contra hc
              obtain ⟨_, hh, hbad⟩ := hchunk e hf (Bool.eq_true_of_not_eq_false hc)
              cases hbad
            rw [Option.filter_some, hc]
            rfl
    | TBM_HASH hh =>
        simp only [Store.find]
        rcases T.lookup hh p with _ | page
        · rfl
        · rw [Option.filter_some]
          cases hc : page.ischunk <;> simp [hc]

theorem Wf.find_pageentry_some (h : Wf T tbm) {p : Nat} {e : PagetableEntry} :
    tbm_find_pageentry T tbm p = some e ↔ ExactAt (tbm.find T) p e := by
  rw [h.find_pageentry, Option.filter_eq_some_iff, Bool.not_eq_true']
  rfl

/-! ## 4. Making a bitmap coarser -/

/-- **What a bitmap stands for**: every TID of `lo` is lossy or found, and what is exact and not to be rechecked
    lies in `hi`. -/
structure Bounds (f : Nat → Option PagetableEntry) (lo hi : Set ItemPointer) : Prop where
  cover : ∀ t ∈ lo, LossyAt f t.blkno ∨ ∃ e, ExactAt f t.blkno e ∧ 1 ≤ t.offno ∧ e.bit (t.offno - 1) = true
  exact : ∀ p e, ExactAt f p e → e.recheck = false → ∀ x, e.bit x = true → ⟨p, x + 1⟩ ∈ hi

/-- Pages have been lost to chunks, and nothing else. -/
structure Coarser (f f' : Nat → Option PagetableEntry) : Prop where
  lossy : ∀ {p}, LossyAt f p → LossyAt f' p
  kept : ∀ {p e}, ExactAt f p e → ExactAt f' p e ∨ LossyAt f' p
  only : ∀ {p e}, ExactAt f' p e → ExactAt f p e

variable {f' f'' : Nat → Option PagetableEntry} {lo lo' hi hi' : Set ItemPointer}

theorem Coarser.refl (f : Nat → Option PagetableEntry) : Coarser f f := ⟨fun h => h, Or.inl, fun h => h⟩

theorem Coarser.trans (h : Coarser f f') (h' : Coarser f' f'') : Coarser f f'' where
  lossy hp := h'.lossy (h.lossy hp)
  kept he := (h.kept he).elim h'.kept fun hl => Or.inr (h'.lossy hl)
  only he := h.only (h'.only he)

theorem Bounds.coarser (h : Bounds f lo hi) (hc : Coarser f f') : Bounds f' lo hi where
  cover t ht := by
    rcases h.cover t ht with hl | ⟨e, he, hoff, hb⟩
    · exact Or.inl (hc.lossy hl)
    · exact (hc.kept he).elim (fun he' => Or.inr ⟨e, he', hoff, hb⟩) Or.inl
  exact p e he := h.exact p e (hc.only he)

theorem Bounds.mono (h : Bounds f lo hi) (hlo : lo' ⊆ lo) (hhi : hi ⊆ hi') : Bounds f lo' hi' where
  cover t ht := h.cover t (hlo ht)
  exact p e he hr x hx := hhi (h.exact p e he hr x hx)

/-- Deleting an entry that is no chunk header. -/
theorem Table.delete (h : Table f) (k : Nat) : Table (Function.update f k none) :=
  h.update nofun nofun nofun nofun nofun

theorem lossyAt_update {hdr : Nat} (hc : c.ischunk = true) {q : Nat} :
    LossyAt (Function.update f hdr (some c)) q ↔
      if q - q % PAGES_PER_CHUNK = hdr then c.bit (q % PAGES_PER_CHUNK) = true else LossyAt f q := by
  unfold LossyAt
  by_cases hq : q - q % PAGES_PER_CHUNK = hdr
  · rw [if_pos hq, hq, Function.update_self]
    exact ⟨fun ⟨c', h1, _, h3⟩ => by cases h1; exact h3, fun h3 => ⟨c, rfl, hc, h3⟩⟩
  · rw [if_neg hq, Function.update_of_ne hq]

/-- The bits of a chunk that takes the place of an entry: those of a chunk stay, an exact page becomes lossy. -/
def oldBit (old : Option PagetableEntry) (x : Nat) : Prop :=
  ∃ e, old = some e ∧ if e.ischunk = true then e.bit x = true else x = 0

/-- **A bit is set in a chunk**, after the page has lost its own entry. -/
theorem Table.set_chunk (h : Table f) (p : Nat) (hp : p % PAGES_PER_CHUNK ≠ 0 → f p = none)
    (hcb : c.blockno = p - p % PAGES_PER_CHUNK) (hcc : c.ischunk = true)
    (hbits : ∀ x, c.bit x = true ↔ x = p % PAGES_PER_CHUNK ∨ oldBit (f (p - p % PAGES_PER_CHUNK)) x) :
    Table (Function.update f (p - p % PAGES_PER_CHUNK) (some c)) ∧
      Coarser f (Function.update f (p - p % PAGES_PER_CHUNK) (some c)) ∧
      LossyAt (Function.update f (p - p % PAGES_PER_CHUNK) (some c)) p := by
  have hadd := header_add p
  have hmod := header_mod p
  generalize p - p % PAGES_PER_CHUNK = hdr at *
  refine ⟨h.update ?_ ?_ ?_ ?_ ?_, ⟨fun {q} hq => ?_, fun {q e} he => ?_, fun {q e} he => ?_⟩, ?_⟩
  · rintro e ⟨⟩
    exact hcb
  · exact fun _ _ _ => hmod
  · rintro e ⟨⟩ he
    rw [hcc] at he
    cases he
  · rintro e ⟨⟩ he
    rw [hcc] at he
    cases he
  · rintro c' ⟨⟩ _ x hx hb hx0 e he
    rcases (hbits x).mp hb with rfl | ⟨e', he', hbit⟩
    · rw [hadd, hp hx0] at he
      cases he
    · by_cases hc' : e'.ischunk = true
      · rw [if_pos hc'] at hbit
        exact h.apart ((lossyAt_chunk h he' hc' hx).mpr hbit) he
      · rw [if_neg hc'] at hbit
        exact absurd hbit hx0
  · rw [lossyAt_update hcc]
    split
    · rename_i hqh
      obtain ⟨c', hc', hcc', hb⟩ := hq
      rw [hqh] at hc'
      exact (hbits _).mpr (Or.inr ⟨c', hc', by rw [if_pos hcc']; exact hb⟩)
    · exact hq
  · by_cases hq : q = hdr
    · subst hq
      refine Or.inr ((lossyAt_update hcc).mpr ?_)
      rw [if_pos (by omega), hmod]
      exact (hbits 0).mpr (Or.inr ⟨e, he.1, by rw [if_neg (by rw [he.2]; exact Bool.false_ne_true)]⟩)
    · exact Or.inl ⟨(Function.update_of_ne hq _ _).trans he.1, he.2⟩
  · by_cases hq : q = hdr
    · obtain ⟨h1, h2⟩ := he
      rw [hq, Function.update_self] at h1
      cases h1
      rw [hcc] at h2
      cases h2
    · exact ⟨(Function.update_of_ne hq _ _).symm.trans he.1, he.2⟩
  · rw [lossyAt_update hcc, if_pos (by omega)]
    exact (hbits _).mpr (Or.inl rfl)

/-- A page loses its own entry. -/
theorem Counted.delete_exact {n np nc : Nat} (h : Counted f n np nc) (he : ExactAt f p e) :
    Counted (Function.update f p none) (n - 1) (np - 1) nc := by
  have h1 := h.table.one_le_count (fun page => !page.ischunk) he.1 (by rw [he.2]; rfl)
  rw [← h.npages] at h1
  have hn := h.nentries
  refine h.update (h.table.delete p) ?_ ?_ (by omega)
  · rw [he.1]
    simp only [Option.any_some, he.2, Option.any_none]
    simp
    omega
  · rw [he.1]
    simp [he.2]

/-- A chunk with the bit of the page is written, and the counters follow. -/
theorem write_chunk_spec {h : H} {n np nc : Nat} (hc : Counted (T.lookup h) n np nc)
    (hp : p % PAGES_PER_CHUNK ≠ 0 → T.lookup h p = none) (hcb : c.blockno = p - p % PAGES_PER_CHUNK)
    (hcc : c.ischunk = true)
    (hbits : ∀ x, c.bit x = true ↔ x = p % PAGES_PER_CHUNK ∨ oldBit (T.lookup h (p - p % PAGES_PER_CHUNK)) x)
    (hs : tbm.store = .TBM_HASH (T.write h c))
    (hnp : tbm.npages + (if (T.lookup h (p - p % PAGES_PER_CHUNK)).any (fun page => !page.ischunk) then 1 else 0) = np)
    (hnc : tbm.nchunks + (if (T.lookup h (p - p % PAGES_PER_CHUNK)).any (fun page => page.ischunk) then 1 else 0) = nc + 1)
    (hn : tbm.nentries = tbm.npages + tbm.nchunks) :
    Wf T tbm ∧ Coarser (T.lookup h) (tbm.find T) ∧ LossyAt (tbm.find T) p := by
  have hf : tbm.find T = Function.update (T.lookup h) (p - p % PAGES_PER_CHUNK) (some c) := by
    rw [TIDBitmap.find, hs, ← hcb]
    exact lookup_write_eq h c
  obtain ⟨k1, k2, k3⟩ := hc.table.set_chunk p hp hcb hcc hbits
  rw [hf]
  refine ⟨⟨?_, fun _ => ⟨_, hs⟩⟩, k2, k3⟩
  rw [hf]
  exact hc.update k1 (by rw [hnp, Option.any_some, hcc]; rfl) (by rw [hnc, Option.any_some, hcc]; rfl) hn

/-- The chunk header gets the bit. -/
theorem insertChunkentry_spec (tbm : TIDBitmap H) {h : H} (hc : Counted (T.lookup h) tbm.nentries tbm.npages tbm.nchunks)
    (hp : p % PAGES_PER_CHUNK ≠ 0 → T.lookup h p = none) :
    Wf T (insertChunkentry T tbm h (p - p % PAGES_PER_CHUNK) (p % PAGES_PER_CHUNK)) ∧
      Coarser (T.lookup h) ((insertChunkentry T tbm h (p - p % PAGES_PER_CHUNK) (p % PAGES_PER_CHUNK)).find T) ∧
      LossyAt ((insertChunkentry T tbm h (p - p % PAGES_PER_CHUNK) (p % PAGES_PER_CHUNK)).find T) p := by
  have hzero : ∀ x, ({ PagetableEntry.zero (p - p % PAGES_PER_CHUNK) with ischunk := true } : PagetableEntry).bit x =
      false := fun x => by rw [bit_eq]; exact getLsbD_zero' _
  have hn := hc.nentries
  unfold insertChunkentry
  rcases hl : T.lookup h (p - p % PAGES_PER_CHUNK) with _ | page
  · refine write_chunk_spec hc hp (c := { PagetableEntry.zero (p - p % PAGES_PER_CHUNK) with ischunk := true }.setBit
      (p % PAGES_PER_CHUNK)) rfl rfl (fun x => ?_) rfl (by rw [hl]; rfl) (by rw [hl]; rfl) ?_
    · rw [bit_setBit, hzero, Bool.false_or, decide_eq_true_eq, hl]
      exact ⟨Or.inl, fun hx => hx.elim id fun ⟨_, he, _⟩ => nomatch he⟩
    · show tbm.nentries + 1 = tbm.npages + (tbm.nchunks + 1)
      omega
  · have hkey : page.blockno = p - p % PAGES_PER_CHUNK := hc.table.key hl
    cases hch : page.ischunk with
    | true =>
        simp only [hch, if_true]
        refine write_chunk_spec hc hp (c := page.setBit (p % PAGES_PER_CHUNK)) hkey hch (fun x => ?_) rfl
          (by rw [hl, Option.any_some, hch]; rfl) (by rw [hl, Option.any_some, hch]; rfl) hn
        rw [bit_setBit, Bool.or_eq_true, decide_eq_true_eq, hl, or_comm]
        refine or_congr_right ⟨fun hb => ⟨page, rfl, by rw [if_pos hch]; exact hb⟩, fun ⟨e, he, hb⟩ => ?_⟩
        cases he
        rwa [if_pos hch] at hb
    | false =>
        have hpos := hc.table.one_le_count (fun page => !page.ischunk) hl (by rw [hch]; rfl)
        rw [← hc.npages] at hpos
        simp only [hch, Bool.false_eq_true, if_false]
        refine write_chunk_spec hc hp (c := ({ PagetableEntry.zero (p - p % PAGES_PER_CHUNK) with
          ischunk := true }.setBit 0).setBit (p % PAGES_PER_CHUNK)) rfl rfl (fun x => ?_) rfl ?_ ?_ ?_
        · rw [bit_setBit, bit_setBit, hzero, Bool.false_or, Bool.or_eq_true, decide_eq_true_eq, decide_eq_true_eq, hl,
            or_comm]
          refine or_congr_right ⟨fun hb => ⟨page, rfl, by rw [hch, if_neg Bool.false_ne_true]; exact hb⟩,
            fun ⟨e, he, hb⟩ => ?_⟩
          cases he
          rwa [hch, if_neg Bool.false_ne_true] at hb
        · rw [hl, Option.any_some, hch]
          exact Nat.sub_add_cancel hpos
        · rw [hl, Option.any_some, hch]
          rfl
        · show tbm.nentries = tbm.npages - 1 + (tbm.nchunks + 1)
          omega

/-- **`tbm_mark_page_lossy`**: the page is lossy, and the bitmap coarser. -/
theorem Wf.mark_page_lossy (h : Wf T tbm) (p : Nat) : Wf T (tbm_mark_page_lossy T tbm p) ∧
    Coarser (tbm.find T) ((tbm_mark_page_lossy T tbm p).find T) ∧
    LossyAt ((tbm_mark_page_lossy T tbm p).find T) p := by
  have hlook : T.lookup (tbm_create_pagetable T tbm.store) = tbm.find T := lookup_create_pagetable tbm.store
  unfold tbm_mark_page_lossy
  simp only
  split
  · rename_i hgone
    obtain ⟨e, he⟩ := Option.isSome_iff_exists.mp hgone.2
    rw [hlook] at he
    have hex : ExactAt (tbm.find T) p e :=
      ⟨he, Bool.eq_false_of_not_eq_true fun hc => hgone.1 (h.table.header he hc)⟩
    have hdel : T.lookup (T.delete (tbm_create_pagetable T tbm.store) p) = Function.update (tbm.find T) p none := by
      rw [lookup_delete_eq, hlook]
    have hcounted : Counted (T.lookup (T.delete (tbm_create_pagetable T tbm.store) p)) (tbm.nentries - 1)
        (tbm.npages - 1) tbm.nchunks := hdel ▸ h.delete_exact hex
    obtain ⟨k1, k2, k3⟩ := insertChunkentry_spec (p := p)
      { tbm with nentries := tbm.nentries - 1, npages := tbm.npages - 1 } hcounted
      fun _ => by rw [hdel, Function.update_self]
    rw [hdel] at k2
    refine ⟨k1, ⟨fun {q} hq => k2.lossy ?_, fun {q e'} he' => ?_, fun {q e'} he' => ?_⟩, k3⟩
    · -- the entry of the page was no chunk
      obtain ⟨c, hc1, hc2, hc3⟩ := hq
      refine ⟨c, ?_, hc2, hc3⟩
      rw [Function.update_of_ne]
      · exact hc1
      · intro heq
        rw [heq, he] at hc1
        cases hc1
        rw [hex.2] at hc2
        cases hc2
    · by_cases hq : q = p
      · exact Or.inr (hq ▸ k3)
      · exact k2.kept ⟨(Function.update_of_ne hq _ _).trans he'.1, he'.2⟩
    · obtain ⟨j1, j2⟩ := k2.only he'
      by_cases hq : q = p
      · rw [hq, Function.update_self] at j1
        cases j1
      · exact ⟨(Function.update_of_ne hq _ _).symm.trans j1, j2⟩
  · rename_i hgone
    obtain ⟨k1, k2, k3⟩ := insertChunkentry_spec (p := p) tbm (h := tbm_create_pagetable T tbm.store) (hlook ▸ h.toCounted)
      fun hm => Option.not_isSome_iff_eq_none.mp fun hs => hgone ⟨hm, hs⟩
    rw [hlook] at k2
    exact ⟨k1, k2, k3⟩

/-- **`tbm_lossify`**, whatever its scan meets. -/
theorem Wf.lossifyLoop (l : List (Nat × Nat)) : ∀ {tbm : TIDBitmap H}, Wf T tbm →
    Wf T (Tbm.lossifyLoop T l tbm) ∧ Coarser (tbm.find T) ((Tbm.lossifyLoop T l tbm).find T) := by
  induction l with
  | nil => exact fun h => ⟨h, Coarser.refl _⟩
  | cons x l ih =>
      intro tbm h
      rw [Tbm.lossifyLoop]
      rcases tbm.store.find T x.1 with _ | page
      · exact ih h
      · simp only
        split
        · exact ih h
        · obtain ⟨k1, k2, _⟩ := h.mark_page_lossy page.blockno
          split
          · exact ⟨⟨k1.toCounted, k1.hash⟩, k2⟩
          · obtain ⟨j1, j2⟩ := ih k1
            exact ⟨j1, k2.trans j2⟩

theorem Wf.lossify (h : Wf T tbm) : Wf T (tbm_lossify T tbm) ∧ Coarser (tbm.find T) ((tbm_lossify T tbm).find T) := by
  obtain ⟨k1, k2⟩ := h.lossifyLoop (T.scan_at (tbm_create_pagetable T tbm.store) tbm.lossify_start)
  unfold tbm_lossify
  simp only
  split
  · exact ⟨⟨k1.toCounted, k1.hash⟩, k2⟩
  · exact ⟨k1, k2⟩

theorem Wf.lossifyIfFull (h : Wf T tbm) :
    Wf T (Tbm.lossifyIfFull T tbm) ∧ Coarser (tbm.find T) ((Tbm.lossifyIfFull T tbm).find T) := by
  unfold Tbm.lossifyIfFull
  split
  · exact h.lossify
  · exact ⟨h, Coarser.refl _⟩

/-- **`tbm_add_page`**: the whole page is in the bitmap. -/
theorem Wf.add_page (h : Wf T tbm) (hb : Bounds (tbm.find T) lo hi) (pageno : Nat) :
    Wf T (tbm_add_page T tbm pageno) ∧
      Bounds ((tbm_add_page T tbm pageno).find T) (lo ∪ {t | t.blkno = pageno}) hi := by
  obtain ⟨k1, k2, k3⟩ := h.mark_page_lossy pageno
  obtain ⟨j1, j2⟩ := k1.lossifyIfFull
  refine ⟨j1, ⟨fun t ht => ?_, (hb.coarser (k2.trans j2)).exact⟩⟩
  rcases ht with ht | ht
  · exact (hb.coarser (k2.trans j2)).cover t ht
  · exact Or.inl (j2.lossy (ht ▸ k3))

/-! ## 5. Adding tuples, and unions -/

/-- **`tbm_get_pageentry`** for a page that is not lossy: there is an entry, and nothing else changes. -/
theorem Wf.get_pageentry (h : Wf T tbm) {p : Nat} (hl : ¬LossyAt (tbm.find T) p) (hb : Bounds (tbm.find T) lo hi) :
    Wf T (tbm_get_pageentry T tbm p) ∧ Bounds ((tbm_get_pageentry T tbm p).find T) lo hi ∧
      ∃ e, (tbm_get_pageentry T tbm p).find T p = some e := by
  -- a new entry is empty
  have hnew : tbm.find T p = none → ∀ tbm' : TIDBitmap H,
      tbm'.find T = Function.update (tbm.find T) p (some (.zero p)) → tbm'.nentries = tbm.nentries + 1 →
      tbm'.npages = tbm.npages + 1 → tbm'.nchunks = tbm.nchunks →
      (tbm'.nchunks ≠ 0 → ∃ h, tbm'.store = .TBM_HASH h) →
      Wf T tbm' ∧ Bounds (tbm'.find T) lo hi ∧ ∃ e, tbm'.find T p = some e := by
    intro hnone tbm' hf hn hnp hnc hhash
    have hn0 := h.nentries
    have ht : Table (Function.update (tbm.find T) p (some (.zero p))) := by
      refine h.table.update ?_ ?_ ?_ ?_ ?_
      · rintro e ⟨⟩
        rfl
      · rintro e ⟨⟩ hc
        cases hc
      · rintro e ⟨⟩ _ x _
        exact bit_zero p x
      · exact fun _ _ _ => hl
      · rintro e ⟨⟩ hc
        cases hc
    have hcount : Counted (Function.update (tbm.find T) p _) tbm'.nentries tbm'.npages tbm'.nchunks :=
      h.toCounted.update ht (by rw [hnone, hnp]; rfl) (by rw [hnone, hnc]; rfl) (by omega)
    rw [hf]
    refine ⟨⟨hf ▸ hcount, hhash⟩, ⟨fun t htlo => ?_, fun q e he hr x hx => ?_⟩, ⟨_, Function.update_self ..⟩⟩
    · rcases hb.cover t htlo with ⟨c, hc1, hc2, hc3⟩ | ⟨e, he, hoff⟩
      · refine Or.inl ⟨c, ?_, hc2, hc3⟩
        rw [Function.update_of_ne]
        · exact hc1
        · intro heq
          rw [heq, hnone] at hc1
          cases hc1
      · refine Or.inr ⟨e, ⟨?_, he.2⟩, hoff⟩
        rw [Function.update_of_ne]
        · exact he.1
        · intro heq
          rw [heq] at he
          exact nomatch hnone.symm.trans he.1
    · by_cases hq : q = p
      · obtain ⟨h1, _⟩ := he
        rw [hq, Function.update_self] at h1
        cases h1
        rw [bit_zero] at hx
        cases hx
      · exact hb.exact q e ⟨(Function.update_of_ne hq _ _).symm.trans he.1, he.2⟩ hr x hx
  have hinsert : ∀ hh : H, T.lookup hh = tbm.find T → Wf T (insertPageentry T tbm hh p) ∧
      Bounds ((insertPageentry T tbm hh p).find T) lo hi ∧ ∃ e, (insertPageentry T tbm hh p).find T p = some e := by
    intro hh hf
    unfold insertPageentry
    rcases hlook : T.lookup hh p with _ | e
    · refine hnew (hf ▸ hlook) _ ?_ rfl rfl rfl fun _ => ⟨_, rfl⟩
      exact (lookup_write_eq hh _).trans (by rw [hf]; rfl)
    · have hfind : TIDBitmap.find T { tbm with store := .TBM_HASH hh } = tbm.find T := hf
      refine ⟨⟨?_, fun _ => ⟨_, rfl⟩⟩, ?_, ⟨e, hlook⟩⟩
      · rw [hfind]
        exact h.toCounted
      · simp only [hfind]
        exact hb
  unfold tbm_get_pageentry
  rcases hs : tbm.store with _ | e1 | hh
  · have hnone : tbm.find T p = none := by rw [TIDBitmap.find, hs]; rfl
    refine hnew hnone _ ?_ rfl rfl rfl fun hc => ?_
    · funext k
      rw [TIDBitmap.find, TIDBitmap.find, hs, Function.update_apply]
      by_cases hk : k = p
      · rw [if_pos hk]
        exact if_pos hk.symm
      · rw [if_neg hk]
        exact if_neg (Ne.symm hk)
    · obtain ⟨_, hbad⟩ := h.hash hc
      rw [hs] at hbad
      cases hbad
  · simp only
    split
    · rename_i hk
      refine ⟨h, hb, ⟨e1, ?_⟩⟩
      rw [TIDBitmap.find, hs]
      exact if_pos hk
    · exact hinsert _ (by rw [lookup_create_pagetable, TIDBitmap.find, hs])
  · exact hinsert hh (by rw [TIDBitmap.find, hs]; rfl)

/-- **A write to the entry of a page**: a chunk gets the bit of its first page, an exact page new offsets. -/
theorem Wf.write_page (h : Wf T tbm) (hb : Bounds (tbm.find T) lo hi) {e : PagetableEntry}
    (he : tbm.find T p = some e) (e' : PagetableEntry) (hkey : e'.blockno = p) (hkind : e'.ischunk = e.ischunk)
    (hchunk : e.ischunk = true → ∀ x, e'.bit x = true ↔ x = 0 ∨ e.bit x = true)
    (hexact : e.ischunk = false → (∀ x, e.bit x = true → e'.bit x = true) ∧
      (∀ x, TBM_MAX_TUPLES_PER_PAGE ≤ x → e'.bit x = false) ∧
      (e'.recheck = false → e.recheck = false ∧ ∀ x, e'.bit x = true → e.bit x = true ∨ ⟨p, x + 1⟩ ∈ hi))
    {new : Set ItemPointer}
    (hnew : ∀ t ∈ new, t.blkno = p ∧ (e.ischunk = false → 1 ≤ t.offno ∧ e'.bit (t.offno - 1) = true)) :
    Wf T { tbm with store := tbm.store.write T e' } ∧
      Bounds (TIDBitmap.find T { tbm with store := tbm.store.write T e' }) (lo ∪ new) hi ∧
      TIDBitmap.find T { tbm with store := tbm.store.write T e' } p = some e' := by
  have hf : TIDBitmap.find T { tbm with store := tbm.store.write T e' } = Function.update (tbm.find T) p (some e') := by
    have := Store.find_write (T := T) (s := tbm.store) (e := e') (by
      rw [hkey]
      exact Option.isSome_iff_exists.mpr ⟨e, he⟩)
    rw [hkey] at this
    exact this
  -- the chunk of the page is the entry itself
  have hset : e.ischunk = true → Table (Function.update (tbm.find T) p (some e')) ∧
      Coarser (tbm.find T) (Function.update (tbm.find T) p (some e')) ∧
      LossyAt (Function.update (tbm.find T) p (some e')) p := by
    intro hc
    have hp0 := h.table.header he hc
    have := h.table.set_chunk (c := e') p (fun hne => absurd hp0 hne) (by rw [hp0]; exact hkey) (hkind.trans hc)
      (by
        intro x
        rw [hp0, hchunk hc, Nat.sub_zero]
        refine or_congr_right ⟨fun hx => ⟨e, he, by rw [if_pos hc]; exact hx⟩, fun ⟨e2, he2, hx⟩ => ?_⟩
        rw [he] at he2
        cases he2
        rwa [if_pos hc] at hx)
    rwa [hp0, Nat.sub_zero] at this
  have hhash : tbm.nchunks ≠ 0 → ∃ hh, tbm.store.write T e' = .TBM_HASH hh := by
    intro hc
    obtain ⟨hh, hs⟩ := h.hash hc
    exact ⟨_, by rw [hs]; rfl⟩
  have hcount : Table (Function.update (tbm.find T) p (some e')) →
      Counted (Function.update (tbm.find T) p (some e')) tbm.nentries tbm.npages tbm.nchunks := fun ht =>
    h.toCounted.update ht (by rw [he, Option.any_some, Option.any_some, hkind])
      (by rw [he, Option.any_some, Option.any_some, hkind]) h.nentries
  refine ⟨⟨?_, hhash⟩, ?_, by rw [hf, Function.update_self]⟩
  all_goals rw [hf]
  · refine hcount ?_
    cases hc : e.ischunk with
    | true => exact (hset hc).1
    | false =>
        refine h.table.update ?_ ?_ ?_ ?_ ?_
        · rintro _ ⟨⟩
          exact hkey
        · rintro _ ⟨⟩ hc'
          rw [hkind, hc] at hc'
          cases hc'
        · rintro _ ⟨⟩ _
          exact (hexact hc).2.1
        · exact fun _ _ _ => h.table.exact_not_lossy ⟨he, hc⟩
        · rintro _ ⟨⟩ hc'
          rw [hkind, hc] at hc'
          cases hc'
  · cases hc : e.ischunk with
    | true =>
        obtain ⟨_, hco, hl⟩ := hset hc
        refine ⟨fun t ht => ?_, (hb.coarser hco).exact⟩
        rcases ht with ht | ht
        · exact (hb.coarser hco).cover t ht
        · exact Or.inl ((hnew t ht).1 ▸ hl)
    | false =>
        obtain ⟨hsub, _, hr⟩ := hexact hc
        refine ⟨fun t ht => ?_, fun q e2 he2 hr2 x hx => ?_⟩
        · rcases ht with ht | ht
          · rcases hb.cover t ht with ⟨c, hc1, hc2, hc3⟩ | ⟨e2, he2, hoff, hbit⟩
            · refine Or.inl ⟨c, ?_, hc2, hc3⟩
              rw [Function.update_of_ne]
              · exact hc1
              · intro heq
                rw [heq, he] at hc1
                cases hc1
                rw [hc] at hc2
                cases hc2
            · by_cases hq : t.blkno = p
              · obtain ⟨k1, _⟩ := he2
                rw [hq, he] at k1
                cases k1
                exact Or.inr ⟨e', ⟨by rw [hq, Function.update_self], hkind.trans hc⟩, hoff, hsub _ hbit⟩
              · exact Or.inr ⟨e2, ⟨(Function.update_of_ne hq _ _).trans he2.1, he2.2⟩, hoff, hbit⟩
          · obtain ⟨k1, k2⟩ := hnew t ht
            exact Or.inr ⟨e', ⟨by rw [k1, Function.update_self], hkind.trans hc⟩, k2 hc⟩
        · by_cases hq : q = p
          · obtain ⟨k1, _⟩ := he2
            rw [hq, Function.update_self] at k1
            cases k1
            obtain ⟨j1, j2⟩ := hr hr2
            rw [hq]
            exact (j2 x hx).elim (hb.exact p e ⟨he, hc⟩ j1 x) id
          · exact hb.exact q e2 ⟨(Function.update_of_ne hq _ _).symm.trans he2.1, he2.2⟩ hr2 x hx

/-- **The invariant of `tbm_add_tuples`**: what is remembered of the current block is true. -/
structure AddInv (T : PageTable H) (lo hi : Set ItemPointer) (s : AddState H) : Prop where
  wf : Wf T s.tbm
  bounds : Bounds (s.tbm.find T) lo hi
  null : s.currblk ≠ InvalidBlockNumber → s.page = none → LossyAt (s.tbm.find T) s.currblk
  page : s.currblk ≠ InvalidBlockNumber → ∀ k, s.page = some k → k = s.currblk ∧ ∃ e, s.tbm.find T k = some e

/-- **One tuple is added.** -/
theorem addTuple_spec {recheck : Bool} {s : AddState H} {tid : ItemPointer} (h : AddInv T lo hi s)
    (hblk : tid.blkno ≠ InvalidBlockNumber) (hoff : 1 ≤ tid.offno) (hoff' : tid.offno ≤ TBM_MAX_TUPLES_PER_PAGE)
    (hhi : tid ∈ hi) : ∃ s', addTuple T recheck s tid = .ok s' ∧ AddInv T (lo ∪ {tid}) hi s' := by
  unfold addTuple
  rw [if_neg (by omega)]
  -- the target page is looked up, or is the current one
  obtain ⟨s1, hs1, hinv, hcurr⟩ : ∃ s1 : AddState H,
      (if tid.blkno ≠ s.currblk then
        if tbm_page_is_lossy T s.tbm tid.blkno then (⟨s.tbm, tid.blkno, none⟩ : AddState H)
        else ⟨tbm_get_pageentry T s.tbm tid.blkno, tid.blkno, some tid.blkno⟩
      else s) = s1 ∧ AddInv T lo hi s1 ∧ s1.currblk = tid.blkno := by
    by_cases hcur : tid.blkno ≠ s.currblk
    · rw [if_pos hcur]
      by_cases hl : tbm_page_is_lossy T s.tbm tid.blkno = true
      · rw [if_pos hl]
        exact ⟨_, rfl, ⟨h.wf, h.bounds, fun _ _ => (h.wf.page_is_lossy _).mp hl, fun _ _ hk => by cases hk⟩, rfl⟩
      · rw [if_neg hl]
        obtain ⟨k1, k2, k3⟩ := h.wf.get_pageentry (fun hlo => hl ((h.wf.page_is_lossy _).mpr hlo)) h.bounds
        exact ⟨_, rfl, ⟨k1, k2, fun _ hk => (by cases hk), fun _ k hk => by cases hk; exact ⟨rfl, k3⟩⟩, rfl⟩
    · rw [if_neg hcur]
      exact ⟨s, rfl, h, (not_not.mp hcur).symm⟩
  simp only [hs1]
  have hne : s1.currblk ≠ InvalidBlockNumber := hcurr ▸ hblk
  rcases hpage : s1.page with _ | k
  · -- the whole page is already marked
    refine ⟨s1, rfl, hinv.wf, ⟨fun t ht => ?_, hinv.bounds.exact⟩, hinv.null, hinv.page⟩
    rcases ht with ht | ht
    · exact hinv.bounds.cover t ht
    · rw [Set.mem_singleton_iff.mp ht]
      exact Or.inl (hcurr ▸ hinv.null hne hpage)
  · obtain ⟨hk, e, he⟩ := hinv.page hne k hpage
    have hfind : s1.tbm.store.find T k = some e := he
    rw [hk, hcurr] at he
    have hkey := hinv.wf.table.key he
    rw [Option.bind_some, hfind]
    have hbits : ∀ x, (if e.ischunk then e.setBit 0 else e.setBit (tid.offno - 1)).bit x = true ↔
        x = (if e.ischunk then 0 else tid.offno - 1) ∨ e.bit x = true := by
      intro x
      cases e.ischunk <;> simp [bit_setBit, or_comm]
    have hset : e.setBit (if e.ischunk then 0 else tid.offno - 1) =
        if e.ischunk then e.setBit 0 else e.setBit (tid.offno - 1) := by
      cases e.ischunk <;> rfl
    obtain ⟨k1, k2, k3⟩ := hinv.wf.write_page hinv.bounds he
      { e.setBit (if e.ischunk then 0 else tid.offno - 1) with recheck := e.recheck || recheck } hkey rfl
      (fun hc x => by
        show (e.setBit (if e.ischunk then 0 else tid.offno - 1)).bit x = true ↔ _
        rw [hset, hbits, if_pos hc])
      (fun hc => by
        have hb : ∀ x, (e.setBit (if e.ischunk then 0 else tid.offno - 1)).bit x = true ↔
            x = tid.offno - 1 ∨ e.bit x = true := by
          intro x
          rw [hset, hbits, if_neg (by rw [hc]; exact Bool.false_ne_true)]
        refine ⟨fun x hx => (hb x).mpr (Or.inr hx), fun x hx => ?_, fun hr => ?_⟩
        · refine Bool.eq_false_of_not_eq_true fun ht => ?_
          rcases (hb x).mp ht with rfl | ht
          · omega
          · rw [hinv.wf.table.offsets he hc x hx] at ht
            cases ht
        · refine ⟨(Bool.or_eq_false_iff.mp hr).1, fun x hx => ((hb x).mp hx).symm.imp_right ?_⟩
          rintro rfl
          rwa [Nat.sub_add_cancel hoff])
      (fun t ht => by
        rw [Set.mem_singleton_iff.mp ht]
        refine ⟨rfl, fun hc => ⟨hoff, ?_⟩⟩
        show (e.setBit (if e.ischunk then 0 else tid.offno - 1)).bit _ = true
        rw [hset, hbits, if_neg (by rw [hc]; exact Bool.false_ne_true)]
        exact Or.inl rfl)
    simp only
    split
    · obtain ⟨j1, j2⟩ := k1.lossify
      exact ⟨_, rfl, j1, k2.coarser j2, fun hbad => absurd rfl hbad, fun hbad => absurd rfl hbad⟩
    · refine ⟨_, rfl, k1, k2, fun _ hnull => (by cases hnull), fun _ k' hk' => ?_⟩
      cases hk'
      exact ⟨hk, _, by rw [hk, hcurr]; exact k3⟩

/-- **`tbm_add_tuples`**: the tuples are in the bitmap. -/
theorem Wf.add_tuples (h : Wf T tbm) (hb : Bounds (tbm.find T) lo hi) {tids : List ItemPointer} (recheck : Bool)
    (hvalid : ∀ t ∈ tids, t.blkno ≠ InvalidBlockNumber ∧ 1 ≤ t.offno ∧ t.offno ≤ TBM_MAX_TUPLES_PER_PAGE) :
    ∃ tbm', tbm_add_tuples T tbm tids recheck = .ok tbm' ∧ Wf T tbm' ∧
      Bounds (tbm'.find T) (lo ∪ {t | t ∈ tids}) (hi ∪ {t | t ∈ tids}) := by
  have hrun : ∀ (l : List ItemPointer) {lo : Set ItemPointer} {s : AddState H}, (∀ t ∈ l, t ∈ tids) →
      AddInv T lo (hi ∪ {t | t ∈ tids}) s →
      ∃ s', addTuples T recheck l s = .ok s' ∧ AddInv T (lo ∪ {t | t ∈ l}) (hi ∪ {t | t ∈ tids}) s' := by
    intro l
    induction l with
    | nil =>
        intro lo s _ hs
        exact ⟨s, rfl, hs.wf, hs.bounds.mono (fun t ht => ht.elim id fun hm => absurd hm List.not_mem_nil)
          (fun _ hm => hm), hs.null, hs.page⟩
    | cons t l ih =>
        intro lo s hl hs
        obtain ⟨v1, v2, v3⟩ := hvalid t (hl t List.mem_cons_self)
        obtain ⟨s1, k1, k2⟩ := addTuple_spec hs v1 v2 v3 (Or.inr (hl t List.mem_cons_self))
        obtain ⟨s2, j1, j2⟩ := ih (fun u hu => hl u (List.mem_cons_of_mem _ hu)) k2
        refine ⟨s2, by rw [addTuples, k1]; exact j1, j2.wf, j2.bounds.mono (fun u hu => ?_) (fun _ hm => hm), j2.null,
          j2.page⟩
        rcases hu with hu | hu
        · exact Or.inl (Or.inl hu)
        · rcases List.mem_cons.mp hu with rfl | hu
          · exact Or.inl (Or.inr rfl)
          · exact Or.inr hu
  obtain ⟨s, h1, h2⟩ := hrun tids (fun _ ht => ht) (s := ⟨tbm, InvalidBlockNumber, none⟩)
    ⟨h, hb.mono (fun _ ht => ht) Set.subset_union_left, fun hbad => absurd rfl hbad, fun hbad => absurd rfl hbad⟩
  exact ⟨s.tbm, by rw [tbm_add_tuples, h1]; rfl, h2.wf, h2.bounds⟩

/-- The entries of a bitmap. -/
theorem mem_entries {e : PagetableEntry} : e ∈ tbm.entries T ↔ ∃ k, tbm.find T k = some e := by
  unfold TIDBitmap.entries TIDBitmap.find
  rcases tbm.store with _ | e1 | hh
  · exact ⟨fun hm => absurd hm List.not_mem_nil, fun ⟨_, hk⟩ => nomatch hk⟩
  · refine ⟨fun hm => ⟨e1.blockno, ?_⟩, fun ⟨k, hk⟩ => ?_⟩
    · rw [List.mem_singleton.mp hm]
      exact if_pos rfl
    · rw [Store.find] at hk
      split at hk
      · cases hk
        exact List.mem_singleton.mpr rfl
      · cases hk
  · simp only [List.mem_filterMap, Store.find]
    refine exists_congr fun k => and_iff_right_of_imp fun hk => ?_
    rw [T.mem_scan, hk]
    rfl

/-- The TIDs an entry speaks of. -/
def PagetableEntry.rows (e : PagetableEntry) : Set ItemPointer :=
  {t | if e.ischunk = true then ∃ x < PAGES_PER_CHUNK, e.bit x = true ∧ t.blkno = e.blockno + x
    else t.blkno = e.blockno ∧ 1 ≤ t.offno ∧ e.bit (t.offno - 1) = true}

theorem Bounds.rows (h : Wf T tbm) (hb : Bounds (tbm.find T) lo hi) {t : ItemPointer} (ht : t ∈ lo) :
    ∃ e ∈ tbm.entries T, t ∈ e.rows := by
  rcases hb.cover t ht with ⟨c, hc, hcc, hbit⟩ | ⟨e, he, hoff⟩
  · refine ⟨c, mem_entries.mpr ⟨_, hc⟩, ?_⟩
    rw [PagetableEntry.rows, Set.mem_ofPred_eq, if_pos hcc]
    exact ⟨_, mod_chunk_lt _, hbit, by rw [h.table.key hc, header_add]⟩
  · refine ⟨e, mem_entries.mpr ⟨_, he.1⟩, ?_⟩
    rw [PagetableEntry.rows, Set.mem_ofPred_eq, if_neg (by rw [he.2]; exact Bool.false_ne_true)]
    exact ⟨(h.table.key he.1).symm, hoff⟩

/-- Several pages marked lossy. -/
theorem Wf.mark_pages (l : List Nat) : ∀ {tbm : TIDBitmap H}, Wf T tbm →
    Wf T (l.foldl (tbm_mark_page_lossy T) tbm) ∧ Coarser (tbm.find T) ((l.foldl (tbm_mark_page_lossy T) tbm).find T) ∧
    ∀ p ∈ l, LossyAt ((l.foldl (tbm_mark_page_lossy T) tbm).find T) p := by
  induction l with
  | nil => exact fun h => ⟨h, Coarser.refl _, fun p hp => absurd hp List.not_mem_nil⟩
  | cons q l ih =>
      intro tbm h
      obtain ⟨k1, k2, k3⟩ := h.mark_page_lossy q
      obtain ⟨j1, j2, j3⟩ := ih k1
      refine ⟨j1, k2.trans j2, fun p hp => ?_⟩
      rcases List.mem_cons.mp hp with rfl | hp
      · exact j2.lossy k3
      · exact j3 p hp

theorem bit_or (apage bpage : PagetableEntry) (recheck : Bool) {x : Nat} (hx : x < WORDS_PER_PAGE * 64) :
    PagetableEntry.bit { apage with
      words := fun wordnum =>
        if wordnum < WORDS_PER_PAGE then apage.words wordnum ||| bpage.words wordnum else apage.words wordnum
      recheck := recheck } x = (apage.bit x || bpage.bit x) := by
  have hw : WORDNUM x < WORDS_PER_PAGE := by
    unfold WORDNUM BITS_PER_BITMAPWORD
    omega
  rw [bit_eq, bit_eq, bit_eq]
  simp only
  rw [if_pos hw, BitVec.getLsbD_or]

/-- **`tbm_union_page`**: one entry of `b` is merged into `a`. -/
theorem Wf.union_page (h : Wf T tbm) (hb : Bounds (tbm.find T) lo hi) {b : PagetableEntry}
    (hexact : b.ischunk = false → b.recheck = false → ∀ x, b.bit x = true → ⟨b.blockno, x + 1⟩ ∈ hi)
    (hoffsets : b.ischunk = false → ∀ x, TBM_MAX_TUPLES_PER_PAGE ≤ x → b.bit x = false) :
    Wf T (tbm_union_page T tbm b) ∧ Bounds ((tbm_union_page T tbm b).find T) (lo ∪ b.rows) hi := by
  unfold tbm_union_page
  cases hbc : b.ischunk with
  | true =>
      rw [if_pos rfl]
      obtain ⟨k1, k2, k3⟩ := h.mark_pages (b.bits WORDS_PER_CHUNK b.blockno)
      obtain ⟨j1, j2⟩ := k1.lossifyIfFull
      refine ⟨j1, fun t ht => ?_, (hb.coarser (k2.trans j2)).exact⟩
      rcases ht with ht | ht
      · exact (hb.coarser (k2.trans j2)).cover t ht
      · rw [PagetableEntry.rows, Set.mem_ofPred_eq, if_pos hbc] at ht
        obtain ⟨x, hx, hbit, htb⟩ := ht
        exact Or.inl (j2.lossy (k3 _ ((mem_bits _ _ _ _).mpr ⟨x, hx, htb, hbit⟩)))
  | false =>
      rw [if_neg Bool.false_ne_true]
      have hrows : ∀ t ∈ b.rows, t.blkno = b.blockno ∧ 1 ≤ t.offno ∧ b.bit (t.offno - 1) = true := by
        intro t ht
        rwa [PagetableEntry.rows, Set.mem_ofPred_eq, if_neg (by rw [hbc]; exact Bool.false_ne_true)] at ht
      by_cases hl : tbm_page_is_lossy T tbm b.blockno = true
      · rw [if_pos hl]
        refine ⟨h, fun t ht => ?_, hb.exact⟩
        rcases ht with ht | ht
        · exact hb.cover t ht
        · exact Or.inl ((hrows t ht).1 ▸ (h.page_is_lossy _).mp hl)
      · rw [if_neg hl]
        obtain ⟨k1, k2, e, he⟩ := h.get_pageentry (fun hlo => hl ((h.page_is_lossy _).mpr hlo)) hb
        have hfind : (tbm_get_pageentry T tbm b.blockno).store.find T b.blockno = some e := he
        have hkey := k1.table.key he
        simp only [hfind]
        by_cases hec : e.ischunk = true
        · rw [if_pos hec]
          obtain ⟨j1, j2, _⟩ := k1.write_page k2 he (e.setBit 0) hkey rfl
            (fun _ x => by rw [bit_setBit, Bool.or_eq_true, decide_eq_true_eq, or_comm])
            (fun hc => by rw [hec] at hc; cases hc)
            (fun t ht => ⟨(hrows t ht).1, fun hc => by rw [hec] at hc; cases hc⟩)
          obtain ⟨i1, i2⟩ := j1.lossifyIfFull
          exact ⟨i1, j2.coarser i2⟩
        · rw [if_neg hec]
          rw [Bool.not_eq_true] at hec
          have hlast : TBM_MAX_TUPLES_PER_PAGE ≤ WORDS_PER_PAGE * 64 := by decide
          have hrange : ∀ x, e.bit x = true ∨ b.bit x = true → x < WORDS_PER_PAGE * 64 := by
            intro x hx
            by_contra hge
            rcases hx with hx | hx
            · rw [k1.table.offsets he hec x (by omega)] at hx
              cases hx
            · rw [hoffsets hbc x (by omega)] at hx
              cases hx
          obtain ⟨j1, j2, _⟩ := k1.write_page k2 he { e with
              words := fun wordnum =>
                if wordnum < WORDS_PER_PAGE then e.words wordnum ||| b.words wordnum else e.words wordnum
              recheck := e.recheck || b.recheck } hkey rfl
            (fun hc => by rw [hec] at hc; cases hc)
            (fun _ => by
              refine ⟨fun x hx => ?_, fun x hx => ?_, fun hr => ⟨(Bool.or_eq_false_iff.mp hr).1, fun x hx => ?_⟩⟩
              · rw [bit_or _ _ _ (hrange x (Or.inl hx)), hx, Bool.true_or]
              · by_cases hlt : x < WORDS_PER_PAGE * 64
                · rw [bit_or _ _ _ hlt, k1.table.offsets he hec x hx, hoffsets hbc x hx]
                  rfl
                · have hw : ¬WORDNUM x < WORDS_PER_PAGE := by
                    unfold WORDNUM BITS_PER_BITMAPWORD
                    omega
                  rw [bit_eq]
                  simp only
                  rw [if_neg hw, ← bit_eq]
                  exact k1.table.offsets he hec x hx
              · by_cases hlt : x < WORDS_PER_PAGE * 64
                · rw [bit_or _ _ _ hlt, Bool.or_eq_true] at hx
                  exact hx.imp_right fun hx => hexact hbc (Bool.or_eq_false_iff.mp hr).2 x hx
                · have hw : ¬WORDNUM x < WORDS_PER_PAGE := by
                    unfold WORDNUM BITS_PER_BITMAPWORD
                    omega
                  rw [bit_eq] at hx
                  simp only at hx
                  rw [if_neg hw, ← bit_eq] at hx
                  exact Or.inl hx)
            (fun t ht => by
              obtain ⟨r1, r2, r3⟩ := hrows t ht
              exact ⟨r1, fun _ => ⟨r2, by rw [bit_or _ _ _ (hrange _ (Or.inr r3)), r3, Bool.or_true]⟩⟩)
          obtain ⟨i1, i2⟩ := j1.lossifyIfFull
          exact ⟨i1, j2.coarser i2⟩

/-- **`tbm_union`**. -/
theorem Wf.union {a b : TIDBitmap H} (ha : Wf T a) (hba : Bounds (a.find T) lo hi) (hb : Wf T b)
    (hbb : Bounds (b.find T) lo' hi') :
    Wf T (tbm_union T a b) ∧ Bounds ((tbm_union T a b).find T) (lo ∪ lo') (hi ∪ hi') := by
  have hrun : ∀ (l : List PagetableEntry) {lo : Set ItemPointer} {a : TIDBitmap H}, (∀ e ∈ l, e ∈ b.entries T) →
      Wf T a → Bounds (a.find T) lo (hi ∪ hi') → Wf T (l.foldl (tbm_union_page T) a) ∧
        Bounds ((l.foldl (tbm_union_page T) a).find T) (lo ∪ {t | ∃ e ∈ l, t ∈ e.rows}) (hi ∪ hi') := by
    intro l
    induction l with
    | nil =>
        intro lo a _ hw hbd
        exact ⟨hw, hbd.mono (fun t ht => ht.elim id fun ⟨_, he, _⟩ => absurd he List.not_mem_nil) fun _ ht => ht⟩
    | cons e l ih =>
        intro lo a hl hw hbd
        obtain ⟨k, hk⟩ := mem_entries.mp (hl e List.mem_cons_self)
        have hkey := hb.table.key hk
        obtain ⟨k1, k2⟩ := hw.union_page hbd (b := e)
          (fun hc hr x hx => Or.inr (hbb.exact _ e ⟨by rw [hkey]; exact hk, hc⟩ hr x hx)) (fun hc => hb.table.offsets hk hc)
        obtain ⟨j1, j2⟩ := ih (fun e' he' => hl e' (List.mem_cons_of_mem _ he')) k1 k2
        refine ⟨j1, j2.mono (fun t ht => ?_) fun _ ht => ht⟩
        rcases ht with ht | ⟨e', he', ht⟩
        · exact Or.inl (Or.inl ht)
        · rcases List.mem_cons.mp he' with rfl | he'
          · exact Or.inl (Or.inr ht)
          · exact Or.inr ⟨e', he', ht⟩
  have hba' : Bounds (a.find T) lo (hi ∪ hi') := hba.mono (fun _ ht => ht) Set.subset_union_left
  unfold tbm_union
  by_cases h0 : b.nentries = 0
  · rw [if_pos h0]
    refine ⟨ha, hba'.mono (fun t ht => ?_) fun _ ht => ht⟩
    rcases ht with ht | ht
    · exact ht
    · obtain ⟨e, he, _⟩ := hbb.rows hb ht
      obtain ⟨k, hk⟩ := mem_entries.mp he
      exact nomatch (hb.no_entries h0 k).symm.trans hk
  · rw [if_neg h0]
    obtain ⟨k1, k2⟩ := hrun (b.entries T) (fun _ he => he) ha hba'
    refine ⟨k1, k2.mono (fun t ht => ht.imp_right fun ht => ?_) fun _ ht => ht⟩
    exact hbb.rows hb ht

/-! ## 6. Intersections -/

/-- A page is in a bitmap, one way or the other. -/
def InBitmap (f : Nat → Option PagetableEntry) (p : Nat) : Prop := LossyAt f p ∨ ∃ e, ExactAt f p e

/-- The bits cleared in one word. -/
theorem foldl_clear (keep : Nat → Bool) (l : List Nat) (hl : ∀ j ∈ l, j < 64) : ∀ (w : BitVec 64) (i : Nat), i < 64 →
    (l.foldl (fun neww j => if !keep j then neww &&& ~~~(1#64 <<< j) else neww) w).getLsbD i =
      (w.getLsbD i && !(decide (i ∈ l) && !keep i)) := by
  induction l with
  | nil => intro w i _; simp
  | cons j l ih =>
      intro w i hi
      have hj := hl j List.mem_cons_self
      rw [List.foldl_cons, ih (fun x hx => hl x (List.mem_cons_of_mem _ hx)) _ i hi]
      have hword : (if (!keep j) = true then w &&& ~~~(1#64 <<< j) else w).getLsbD i =
          (w.getLsbD i && !(decide (i = j) && !keep j)) := by
        cases hk : keep j
        · rw [Bool.not_false, if_pos rfl, BitVec.getLsbD_and, BitVec.getLsbD_not, getLsbD_one_shift hj]
          simp [hi]
        · simp
      rw [hword]
      by_cases hij : i = j
      · subst hij
        simp
        cases w.getLsbD i <;> cases keep i <;> simp
      · simp [hij]

/-- What `tbm_intersect_page` leaves of an entry. -/
def intersectResult (T : PageTable H) (b : TIDBitmap H) (apage : PagetableEntry) : Option PagetableEntry :=
  if (tbm_intersect_page T apage b).1 = true then none else some (tbm_intersect_page T apage b).2

/-- Words that are all zero have no bit. -/
theorem bit_of_words_zero (page : PagetableEntry) (nwords : Nat) {x : Nat}
    (h : ((List.range nwords).all fun wordnum => page.words wordnum == 0) = true) (hx : x < nwords * 64) :
    page.bit x = false := by
  have hw : WORDNUM x < nwords := by
    unfold WORDNUM BITS_PER_BITMAPWORD
    omega
  have := List.all_eq_true.mp h _ (List.mem_range.mpr hw)
  rw [bit_eq, eq_of_beq this]
  exact getLsbD_zero' _

theorem Wf.inBitmap (h : Wf T tbm) (p : Nat) :
    (!tbm_page_is_lossy T tbm p && (tbm_find_pageentry T tbm p).isNone) = true ↔ ¬InBitmap (tbm.find T) p := by
  rw [Bool.and_eq_true, Bool.not_eq_true', Option.isNone_iff_eq_none, InBitmap, not_or, ← h.page_is_lossy,
    Bool.not_eq_true]
  refine and_congr_right fun _ => ?_
  constructor
  · rintro hn ⟨e, he⟩
    rw [h.find_pageentry_some.mpr he] at hn
    cases hn
  · intro hne
    by_contra hs
    obtain ⟨e, he⟩ := Option.ne_none_iff_exists'.mp hs
    exact hne ⟨e, h.find_pageentry_some.mp he⟩

/-- **What becomes of a chunk**: it keeps the pages that are in `b`. -/
theorem intersect_chunk {b : TIDBitmap H} (hb : Wf T b) {c : PagetableEntry} (hc : c.ischunk = true) :
    (∀ c', intersectResult T b c = some c' → c'.blockno = c.blockno ∧ c'.ischunk = true ∧
      ∀ x < PAGES_PER_CHUNK, c'.bit x = true ↔ c.bit x = true ∧ InBitmap (b.find T) (c.blockno + x)) ∧
    (intersectResult T b c = none → ∀ x < PAGES_PER_CHUNK, c.bit x = true → ¬InBitmap (b.find T) (c.blockno + x)) := by
  have hbit : ∀ x < PAGES_PER_CHUNK, (tbm_intersect_page T c b).2.bit x = true ↔
      c.bit x = true ∧ InBitmap (b.find T) (c.blockno + x) := by
    intro x hx
    have hw : WORDNUM x < WORDS_PER_CHUNK := by
      unfold WORDNUM BITS_PER_BITMAPWORD WORDS_PER_CHUNK PAGES_PER_CHUNK BITS_PER_BITMAPWORD at *
      omega
    have hsplit : c.blockno + WORDNUM x * BITS_PER_BITMAPWORD + BITNUM x = c.blockno + x := by
      unfold WORDNUM BITNUM BITS_PER_BITMAPWORD
      omega
    unfold tbm_intersect_page
    rw [if_pos hc, bit_eq]
    simp only
    rw [if_pos hw]
    have hclear := foldl_clear (fun j => !(!tbm_page_is_lossy T b (c.blockno + WORDNUM x * BITS_PER_BITMAPWORD + j) &&
      (tbm_find_pageentry T b (c.blockno + WORDNUM x * BITS_PER_BITMAPWORD + j)).isNone))
      (bitLoop (c.words (WORDNUM x)) 0) (fun j hj => by
        obtain ⟨j', rfl, hj'⟩ := (mem_bitLoop _ _ _).mp hj
        rw [Nat.zero_add]
        exact BitVec.lt_of_getLsbD hj') (c.words (WORDNUM x)) (BITNUM x) (bitnum_lt x)
    simp only [Bool.not_not] at hclear
    rw [hclear, ← bit_eq, hsplit, Bool.and_eq_true]
    refine and_congr_right fun hbx => ?_
    have hmem : BITNUM x ∈ bitLoop (c.words (WORDNUM x)) 0 :=
      (mem_bitLoop _ _ _).mpr ⟨BITNUM x, (Nat.zero_add _).symm, by rw [← bit_eq]; exact hbx⟩
    rw [decide_eq_true hmem, Bool.true_and, Bool.not_eq_true', ← Bool.not_eq_true, hb.inBitmap, not_not]
  unfold intersectResult
  constructor
  · intro c' hc'
    split at hc'
    · cases hc'
    · cases hc'
      refine ⟨?_, ?_, hbit⟩
      · unfold tbm_intersect_page
        rw [if_pos hc]
      · unfold tbm_intersect_page
        rw [if_pos hc]
        exact hc
  · intro hn x hx hcx hin
    split at hn
    · rename_i hempty
      have hb' := (hbit x hx).mpr ⟨hcx, hin⟩
      have hz : (tbm_intersect_page T c b).2.bit x = false := by
        refine bit_of_words_zero _ WORDS_PER_CHUNK ?_ hx
        unfold tbm_intersect_page at hempty ⊢
        rw [if_pos hc] at hempty ⊢
        exact hempty
      rw [hz] at hb'
      cases hb'
    · cases hn

/-- **What becomes of an exact page.** -/
theorem intersect_exact {b : TIDBitmap H} (hb : Wf T b) {e : PagetableEntry} (he : e.ischunk = false)
    (hoff : ∀ x, TBM_MAX_TUPLES_PER_PAGE ≤ x → e.bit x = false) :
    (∀ e', intersectResult T b e = some e' → e'.blockno = e.blockno ∧ e'.ischunk = false ∧
      (∀ x, e'.bit x = true → e.bit x = true) ∧ (e'.recheck = false → e.recheck = false ∧
        ∃ eb, ExactAt (b.find T) e.blockno eb ∧ eb.recheck = false ∧ ∀ x, e'.bit x = true → eb.bit x = true)) ∧
    (∀ x, e.bit x = true → (LossyAt (b.find T) e.blockno ∨ ∃ eb, ExactAt (b.find T) e.blockno eb ∧ eb.bit x = true) →
      ∃ e', intersectResult T b e = some e' ∧ e'.bit x = true) := by
  have hne : ¬e.ischunk = true := by rw [he]; exact Bool.false_ne_true
  unfold intersectResult tbm_intersect_page
  rw [if_neg hne]
  by_cases hl : tbm_page_is_lossy T b e.blockno = true
  · rw [if_pos hl]
    refine ⟨fun e' h' => ?_, fun x hx _ => ⟨_, rfl, hx⟩⟩
    cases h'
    exact ⟨rfl, he, fun _ hx => hx, nofun⟩
  · rw [if_neg hl]
    have hnl := fun h => hl ((hb.page_is_lossy e.blockno).mpr h)
    cases hf : tbm_find_pageentry T b e.blockno with
    | none =>
        refine ⟨fun e' h' => (nomatch h'), fun x hx hin => ?_⟩
        rcases hin with hin | ⟨eb, heb, _⟩
        · exact absurd hin hnl
        · rw [hb.find_pageentry_some.mpr heb] at hf
          cases hf
    | some eb =>
        have heb := hb.find_pageentry_some.mp hf
        simp only
        have hlt : ∀ x, e.bit x = true → WORDNUM x < WORDS_PER_PAGE := by
          intro x hx
          by_contra hge
          rw [hoff x] at hx
          · cases hx
          · unfold WORDNUM WORDS_PER_PAGE TBM_MAX_TUPLES_PER_PAGE BITS_PER_BITMAPWORD at *
            omega
        have hand : ∀ x, PagetableEntry.bit { e with
            words := fun wordnum =>
              if wordnum < WORDS_PER_PAGE then e.words wordnum &&& eb.words wordnum else e.words wordnum
            recheck := e.recheck || eb.recheck } x = true ↔ e.bit x = true ∧ eb.bit x = true := by
          intro x
          rw [bit_eq]
          simp only
          split
          · rw [BitVec.getLsbD_and, ← bit_eq, ← bit_eq, Bool.and_eq_true]
          · rename_i hw
            rw [← bit_eq]
            exact ⟨fun hx => absurd (hlt x hx) hw, fun hx => hx.1⟩
        refine ⟨fun e' h' => ?_, fun x hx hin => ?_⟩
        · split at h'
          · cases h'
          · cases h'
            refine ⟨rfl, he, fun x hx => ((hand x).mp hx).1, fun hr => ?_⟩
            obtain ⟨r1, r2⟩ := Bool.or_eq_false_iff.mp hr
            exact ⟨r1, eb, heb, r2, fun x hx => ((hand x).mp hx).2⟩
        · rcases hin with hin | ⟨eb', heb', hx'⟩
          · exact absurd hin hnl
          · have := heb'.1.symm.trans heb.1
            cases this
            have hbit := (hand x).mpr ⟨hx, hx'⟩
            rw [if_neg]
            · exact ⟨_, rfl, hbit⟩
            · intro hempty
              have hw := hlt x hx
              have hz := bit_of_words_zero { e with
                words := fun wordnum => if wordnum < WORDS_PER_PAGE then e.words wordnum &&& eb.words wordnum else e.words wordnum
                recheck := e.recheck || eb.recheck } (x := x) WORDS_PER_PAGE hempty (by
                  unfold WORDNUM BITS_PER_BITMAPWORD at hw
                  omega)
              rw [hz] at hbit
              cases hbit

/-- The entry of a page after its intersection: the table stays a table. -/
theorem Table.intersect {b : TIDBitmap H} (h : Table f) (hb : Wf T b) (hk : f k = some e) :
    Table (Function.update f k (intersectResult T b e)) := by
  have hkey := h.key hk
  cases hc : e.ischunk with
  | true =>
      obtain ⟨h1, _⟩ := intersect_chunk hb hc
      refine h.update (fun e' he' => (h1 e' he').1.trans hkey) (fun _ _ _ => h.header hk hc) ?_ ?_ ?_
      · intro e' he' hc'
        rw [(h1 e' he').2.1] at hc'
        cases hc'
      · intro e' he' hc'
        rw [(h1 e' he').2.1] at hc'
        cases hc'
      · intro c' hc' _ x hx hbit _ e2 he2
        exact h.apart ((lossyAt_chunk h hk hc hx).mpr (((h1 c' hc').2.2 x hx).mp hbit).1) he2
  | false =>
      obtain ⟨h1, _⟩ := intersect_exact hb hc (h.offsets hk hc)
      refine h.update (fun e' he' => (h1 e' he').1.trans hkey) ?_ ?_ ?_ ?_
      · intro e' he' hc'
        rw [(h1 e' he').2.1] at hc'
        cases hc'
      · intro e' he' _ x hx
        refine Bool.eq_false_of_not_eq_true fun ht => ?_
        have := (h1 e' he').2.2.1 x ht
        rw [h.offsets hk hc x hx] at this
        cases this
      · exact fun _ _ _ => h.exact_not_lossy ⟨hk, hc⟩
      · intro c' hc' hcc
        rw [(h1 c' hc').2.1] at hcc
        cases hcc

theorem intersectResult_kind {b : TIDBitmap H} {e' : PagetableEntry} (he' : intersectResult T b e = some e') :
    e'.ischunk = e.ischunk ∧ e'.blockno = e.blockno := by
  unfold intersectResult at he'
  split at he'
  · cases he'
  · cases he'
    unfold tbm_intersect_page
    split
    · exact ⟨rfl, rfl⟩
    · split
      · exact ⟨rfl, rfl⟩
      · split <;> exact ⟨rfl, rfl⟩

/-- The counters after an entry has been intersected. -/
theorem Counted.intersect {b : TIDBitmap H} {n np nc : Nat} (h : Counted f n np nc) (hb : Wf T b) (hk : f k = some e) :
    if (intersectResult T b e).isSome = true then
      Counted (Function.update f k (intersectResult T b e)) n np nc
    else Counted (Function.update f k none) (n - 1) (if e.ischunk then np else np - 1)
      (if e.ischunk then nc - 1 else nc) := by
  have ht := h.table.intersect hb hk
  have hn := h.nentries
  rcases hr : intersectResult T b e with _ | e'
  · rw [if_neg (by exact Bool.false_ne_true)]
    rw [hr] at ht
    cases hc : e.ischunk with
    | true =>
        have := h.table.one_le_count (fun page => page.ischunk) hk hc
        rw [← h.nchunks] at this
        rw [if_pos rfl, if_pos rfl]
        refine h.update ht ?_ ?_ (by omega)
        · rw [hk, Option.any_some, hc]
          rfl
        · rw [hk, Option.any_some, hc]
          exact Nat.sub_add_cancel this
    | false =>
        have := h.table.one_le_count (fun page => !page.ischunk) hk (by rw [hc]; rfl)
        rw [← h.npages] at this
        rw [if_neg Bool.false_ne_true, if_neg Bool.false_ne_true]
        refine h.update ht ?_ ?_ (by omega)
        · rw [hk, Option.any_some, hc]
          exact Nat.sub_add_cancel this
        · rw [hk, Option.any_some, hc]
          rfl
  · rw [if_pos Option.isSome_some]
    rw [hr] at ht
    have hkind := (intersectResult_kind hr).1
    exact h.update ht (by rw [hk, Option.any_some, Option.any_some, hkind])
      (by rw [hk, Option.any_some, Option.any_some, hkind]) hn

/-- **One entry of the scan of `tbm_intersect`.** -/
theorem intersectEntry_spec {a b : TIDBitmap H} (ha : Wf T a) (hb : Wf T b) {hh : H} (hs : a.store = .TBM_HASH hh)
    (k : Nat) : Wf T (intersectEntry T b a k) ∧ (∃ hh', (intersectEntry T b a k).store = .TBM_HASH hh') ∧
      (intersectEntry T b a k).find T =
        Function.update (a.find T) k ((a.find T k).bind (intersectResult T b)) := by
  have hf : a.find T = T.lookup hh := by rw [TIDBitmap.find, hs]; rfl
  unfold intersectEntry
  rw [hs]
  simp only
  rcases hk : T.lookup hh k with _ | e
  · refine ⟨ha, ⟨hh, hs⟩, ?_⟩
    rw [hf, hk]
    exact (Function.update_eq_self_iff.mpr hk.symm).symm
  · have hk' : a.find T k = some e := by rw [hf, hk]
    have hkey := ha.table.key hk'
    have hcount := ha.toCounted.intersect hb hk'
    rw [hk', Option.bind_some]
    simp only
    by_cases hempty : (tbm_intersect_page T e b).1 = true
    · have hr : intersectResult T b e = none := if_pos hempty
      rw [if_pos hempty]
      have hfind : T.lookup (T.delete hh k) = Function.update (a.find T) k (intersectResult T b e) := by
        rw [lookup_delete_eq, hf, hr]
      rw [hr, if_neg (by exact Bool.false_ne_true)] at hcount
      refine ⟨⟨?_, fun _ => ⟨_, rfl⟩⟩, ⟨_, rfl⟩, hfind⟩
      show Counted (T.lookup (T.delete hh k)) _ _ _
      rw [hfind, hr]
      exact hcount
    · have hr : intersectResult T b e = some (tbm_intersect_page T e b).2 := if_neg hempty
      rw [if_neg hempty]
      have hfind : T.lookup (T.write hh (tbm_intersect_page T e b).2) =
          Function.update (a.find T) k (intersectResult T b e) := by
        rw [lookup_write_eq, hf, hr, (intersectResult_kind hr).2, hkey]
      rw [hr, if_pos Option.isSome_some, ← hr] at hcount
      refine ⟨⟨?_, fun _ => ⟨_, rfl⟩⟩, ⟨_, rfl⟩, hfind⟩
      show Counted (T.lookup (T.write hh (tbm_intersect_page T e b).2)) _ _ _
      rw [hfind]
      exact hcount

/-- The whole scan. -/
theorem intersect_run {b : TIDBitmap H} (hb : Wf T b) (l : List Nat) (hl : l.Nodup) : ∀ {a : TIDBitmap H} {hh : H},
    Wf T a → a.store = .TBM_HASH hh → Wf T (l.foldl (intersectEntry T b) a) ∧
      ∀ k, (l.foldl (intersectEntry T b) a).find T k =
        if k ∈ l then (a.find T k).bind (intersectResult T b) else a.find T k := by
  induction l with
  | nil => exact fun ha _ => ⟨ha, fun k => (if_neg List.not_mem_nil).symm⟩
  | cons x l ih =>
      intro a hh ha hs
      obtain ⟨hx, hl'⟩ := List.nodup_cons.mp hl
      obtain ⟨k1, ⟨hh', k2⟩, k3⟩ := intersectEntry_spec ha hb hs x
      obtain ⟨j1, j2⟩ := ih hl' k1 k2
      refine ⟨j1, fun k => ?_⟩
      rw [List.foldl_cons, j2 k, k3]
      by_cases hkx : k = x
      · subst hkx
        rw [if_neg hx, Function.update_self, if_pos List.mem_cons_self]
      · rw [Function.update_of_ne hkx]
        simp only [List.mem_cons, hkx, false_or]

/-- The meaning of an intersection, entry by entry. -/
theorem Bounds.intersect {b : TIDBitmap H} (ht : Table f) (hba : Bounds f lo hi) (hb : Wf T b)
    (hbb : Bounds (b.find T) lo' hi') (hf' : ∀ k, f' k = (f k).bind (intersectResult T b)) :
    Bounds f' (lo ∩ lo') (hi ∩ hi') where
  cover t := by
    rintro ⟨hta, htb⟩
    have hin : LossyAt (b.find T) t.blkno ∨
        ∃ eb, ExactAt (b.find T) t.blkno eb ∧ eb.bit (t.offno - 1) = true :=
      (hbb.cover t htb).imp_right fun ⟨eb, heb, _, hbit⟩ => ⟨eb, heb, hbit⟩
    rcases hba.cover t hta with ⟨c, hc, hcc, hbit⟩ | ⟨e, he, hoff, hbit⟩
    · refine Or.inl ?_
      have hkey := ht.key hc
      obtain ⟨h1, h2⟩ := intersect_chunk hb hcc
      have hinb : InBitmap (b.find T) (c.blockno + t.blkno % PAGES_PER_CHUNK) := by
        rw [hkey, header_add]
        exact hin.imp_right fun ⟨eb, heb, _⟩ => ⟨eb, heb⟩
      rcases hr : intersectResult T b c with _ | c'
      · exact absurd hinb (h2 hr _ (mod_chunk_lt _) hbit)
      · obtain ⟨_, k2, k3⟩ := h1 c' hr
        exact ⟨c', by rw [hf', hc]; exact hr, k2, (k3 _ (mod_chunk_lt _)).mpr ⟨hbit, hinb⟩⟩
    · refine Or.inr ?_
      have hkey := ht.key he.1
      obtain ⟨h1, h2⟩ := intersect_exact hb he.2 (ht.offsets he.1 he.2)
      obtain ⟨e', hr, hbit'⟩ := h2 _ hbit (by rw [hkey]; exact hin)
      exact ⟨e', ⟨by rw [hf', he.1]; exact hr, (h1 e' hr).2.1⟩, hoff, hbit'⟩
  exact p e' he' hr x hx := by
    obtain ⟨h1, hkind⟩ := he'
    rw [hf'] at h1
    obtain ⟨e, he, hres⟩ := Option.bind_eq_some_iff.mp h1
    have hc : e.ischunk = false := (intersectResult_kind hres).1.symm.trans hkind
    have hkey := ht.key he
    obtain ⟨_, _, k3, k4⟩ := (intersect_exact hb hc (ht.offsets he hc)).1 e' hres
    obtain ⟨r1, eb, heb, r2, r3⟩ := k4 hr
    rw [hkey] at heb
    exact ⟨hba.exact p e ⟨he, hc⟩ r1 x (k3 x hx), hbb.exact p eb heb r2 x (r3 x hx)⟩

/-- **`tbm_intersect`**. -/
theorem Wf.intersect {a b : TIDBitmap H} (ha : Wf T a) (hba : Bounds (a.find T) lo hi) (hb : Wf T b)
    (hbb : Bounds (b.find T) lo' hi') :
    Wf T (tbm_intersect T a b) ∧ Bounds ((tbm_intersect T a b).find T) (lo ∩ lo') (hi ∩ hi') := by
  unfold tbm_intersect
  by_cases h0 : a.nentries = 0
  · rw [if_pos h0]
    refine ⟨ha, hba.intersect ha.table hb hbb fun k => ?_⟩
    rw [ha.no_entries h0]
    rfl
  · rw [if_neg h0]
    rcases hs : a.store with _ | e1 | hh
    · simp only
      refine ⟨ha, hba.intersect ha.table hb hbb fun k => ?_⟩
      rw [TIDBitmap.find, hs]
      rfl
    · have hfind : ∀ k, a.find T k = if e1.blockno = k then some e1 else none := by
        intro k
        rw [TIDBitmap.find, hs]
        rfl
      have hk : a.find T e1.blockno = some e1 := by rw [hfind, if_pos rfl]
      have hc : e1.ischunk = false := by
        by_contra hc
        obtain ⟨_, hh, hbad⟩ := ha.chunk_hash hk (Bool.eq_true_of_not_eq_false hc)
        rw [hs] at hbad
        cases hbad
      have hnc : a.nchunks = 0 := by
        by_contra hne
        obtain ⟨hh, hbad⟩ := ha.hash hne
        rw [hs] at hbad
        cases hbad
      have hcount := ha.toCounted.intersect hb hk
      have hother : ∀ k, k ≠ e1.blockno → a.find T k = none := fun k hne => by rw [hfind, if_neg (Ne.symm hne)]
      simp only
      by_cases hempty : (tbm_intersect_page T e1 b).1 = true
      · have hr : intersectResult T b e1 = none := if_pos hempty
        rw [if_pos hempty]
        rw [hr, if_neg (by exact Bool.false_ne_true), hc, if_neg Bool.false_ne_true, if_neg Bool.false_ne_true] at hcount
        have hf' : (TIDBitmap.find T { a with store := .TBM_EMPTY, npages := a.npages - 1, nentries := a.nentries - 1 }) =
            Function.update (a.find T) e1.blockno none := by
          funext k
          rw [Function.update_apply]
          split
          · rfl
          · rename_i hne
            rw [hother k hne]
            rfl
        refine ⟨⟨hf' ▸ hcount, fun hne => absurd hnc hne⟩, ?_⟩
        refine hba.intersect ha.table hb hbb fun k => ?_
        rw [hf', Function.update_apply]
        split
        · rename_i heq
          rw [heq, hk]
          exact hr.symm
        · rename_i hne
          rw [hother k hne]
          rfl
      · have hr : intersectResult T b e1 = some (tbm_intersect_page T e1 b).2 := if_neg hempty
        rw [if_neg hempty]
        rw [hr, if_pos Option.isSome_some, ← hr] at hcount
        have hf' : (TIDBitmap.find T { a with store := .TBM_ONE_PAGE (tbm_intersect_page T e1 b).2 }) =
            Function.update (a.find T) e1.blockno (intersectResult T b e1) := by
          funext k
          rw [Function.update_apply, TIDBitmap.find, Store.find, (intersectResult_kind hr).2]
          by_cases heq : k = e1.blockno
          · rw [if_pos heq.symm, if_pos heq, hr]
          · rw [if_neg (Ne.symm heq), if_neg heq, hother k heq]
        refine ⟨⟨hf' ▸ hcount, fun hne => absurd hnc hne⟩, ?_⟩
        refine hba.intersect ha.table hb hbb fun k => ?_
        rw [hf', Function.update_apply]
        split
        · rename_i heq
          rw [heq, hk]
          rfl
        · rename_i hne
          rw [hother k hne]
          rfl
    · simp only
      obtain ⟨k1, k2⟩ := intersect_run hb (T.scan hh) (T.scan_nodup hh) ha hs
      refine ⟨k1, hba.intersect ha.table hb hbb fun k => ?_⟩
      rw [k2 k]
      split
      · rfl
      · rename_i hnot
        have hnone : a.find T k = none := by
          rw [TIDBitmap.find, hs]
          exact Option.not_isSome_iff_eq_none.mp fun hsome => hnot ((T.mem_scan hh k).mpr hsome)
        rw [hnone]
        rfl

end Pgvec.Tbm
