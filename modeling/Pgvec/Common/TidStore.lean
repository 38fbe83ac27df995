/-
  File:      Pgvec/Common/TidStore.lean
  Subject:   THE STORE OF DEAD TIDS (`src/backend/access/common/tidstore.c`): an entry for each block, in a
             radix tree.

  The radix tree (`src/include/lib/radixtree.h`) is a parameter, `RadixTree`: what is set is found. It copies
  the header and the first `nwords` words of an entry, so no more is asked of what is found. The words of the
  buffer on the stack are not cleared, and are whatever they were. Shared and local trees, memory contexts
  and the DSA area are left out.

  * `TidStoreSetBlockOffsets` -- with the words it writes, also when it raises an error;
  * `Represents` -- the entry stands for the offsets, in its header or as a bitmap;
  * `wordLoop_spec` -- the loop over the words: an offset is checked before a word at or behind it is written;
  * `inv_run` -- what is found after any sequence of calls; **`tid_store`** -- the results together.
-/
import Pgvec.Nodes.TidBitmapFacts
import Pgvec.Storage.Bufpage

namespace Pgvec.TidStore

open Pgvec.Hnsw (ItemPointer)
open Pgvec.Storage.Bufpage (MaxOffsetNumber OffsetNumberIsValid)
open Pgvec.Tbm (BITS_PER_BITMAPWORD WORDNUM BITNUM bitLoop)

/-! ## 1. Entries -/

/-- `WORDS_PER_PAGE`. -/
def WORDS_PER_PAGE (n : Nat) : Nat := n / BITS_PER_BITMAPWORD + 1

/-- `NUM_FULL_OFFSETS`: what is left of the eight bytes of the header. -/
def NUM_FULL_OFFSETS : Nat := (8 - 1 - 1) / 2

/-- `PG_INT8_MAX`. -/
def PG_INT8_MAX : Nat := 127

def MAX_OFFSET_IN_BITMAP : Nat := min (BITS_PER_BITMAPWORD * PG_INT8_MAX - 1) MaxOffsetNumber

/-- **`BlocktableEntry`**; the flags of the header belong to the radix tree. -/
structure BlocktableEntry where
  nwords : Nat
  full_offsets : Nat → Nat
  words : Nat → BitVec 64

/-- What the radix tree keeps of an entry: the header, and `nwords` words. -/
def BlocktableEntry.Same (e e' : BlocktableEntry) : Prop :=
  e'.nwords = e.nwords ∧ (∀ i, i < NUM_FULL_OFFSETS → e'.full_offsets i = e.full_offsets i) ∧
    ∀ i, i < e.nwords → e'.words i = e.words i

/-- The radix tree. -/
structure RadixTree (H : Type) where
  create : H
  set : H → Nat → BlocktableEntry → H
  find : H → Nat → Option BlocktableEntry
  find_create : ∀ k, find create k = none
  find_set_self : ∀ h k e, ∃ e', find (set h k e) k = some e' ∧ e.Same e'
  find_set_of_ne : ∀ h k e k', k' ≠ k → find (set h k e) k' = find h k'

variable {H : Type}

/-! ## 2. The functions -/

/-- The check of an offset, in both branches. -/
def InRange (off : Nat) : Prop := ¬ (off = 0 ∨ MAX_OFFSET_IN_BITMAP < off)

instance : DecidablePred InRange := fun _ => inferInstanceAs (Decidable (¬ _))

def outOfRange (off : Nat) : String := "tuple offset out of range: " ++ toString off

/-- The loop over a few offsets, which go into the header. -/
def headerLoop (page : BlocktableEntry) (i : Nat) : List Nat → Except String BlocktableEntry
  | [] => .ok page
  | off :: offsets =>
      if off = 0 ∨ MAX_OFFSET_IN_BITMAP < off then .error (outOfRange off)
      else headerLoop { page with full_offsets := Function.update page.full_offsets i off } (i + 1) offsets

/-- The inner loop over the offsets below `next_word_threshold`: the word, and the offsets that are left. -/
def fillWord (next_word_threshold : Nat) (word : BitVec 64) :
    List Nat → Except String (BitVec 64 × List Nat)
  | [] => .ok (word, [])
  | off :: offsets =>
      if off = 0 ∨ MAX_OFFSET_IN_BITMAP < off then .error (outOfRange off)
      else if next_word_threshold ≤ off then .ok (word, off :: offsets)
      else fillWord next_word_threshold (word ||| 1#64 <<< BITNUM off) offsets

/-- The loop over the words up to the one of the offset `last`: the entry, the words that were written, and
    the end value of `wordnum` or an error. -/
def wordLoop (last wordnum next_word_threshold : Nat) (offsets : List Nat) (page : BlocktableEntry)
    (written : List Nat) : BlocktableEntry × List Nat × Except String Nat :=
  if wordnum ≤ WORDNUM last then
    match fillWord next_word_threshold 0 offsets with
    | .error e => (page, written, .error e)
    | .ok (word, offsets) =>
        wordLoop last (wordnum + 1) (next_word_threshold + BITS_PER_BITMAPWORD) offsets
          { page with words := Function.update page.words wordnum word } (written ++ [wordnum])
  else (page, written, .ok wordnum)
termination_by WORDNUM last + 1 - wordnum

/-- **`TidStoreSetBlockOffsets`**: the store, the words of the buffer that were written, and perhaps an error.
    `data` is what the words of the buffer hold before the call. -/
def TidStoreSetBlockOffsets (T : RadixTree H) (ts : H) (data : Nat → BitVec 64) (blkno : Nat)
    (offsets : List Nat) : H × List Nat × Except String Unit :=
  let page : BlocktableEntry := ⟨0, fun _ => 0, data⟩
  if offsets.length ≤ NUM_FULL_OFFSETS then
    match headerLoop page 0 offsets with
    | .error e => (ts, [], .error e)
    | .ok page => (T.set ts blkno { page with nwords := 0 }, [], .ok ())
  else
    let r := wordLoop (offsets.getLastD 0) 0 BITS_PER_BITMAPWORD offsets page []
    match r.2.2 with
    | .error e => (ts, r.2.1, .error e)
    | .ok wordnum => (T.set ts blkno { r.1 with nwords := wordnum }, r.2.1, .ok ())

/-- The part of `TidStoreIsMember` that reads the entry. -/
def BlocktableEntry.isMember (page : BlocktableEntry) (off : Nat) : Bool :=
  if page.nwords = 0 then (List.range NUM_FULL_OFFSETS).any fun i => page.full_offsets i == off
  else if page.nwords ≤ WORDNUM off then false
  else page.words (WORDNUM off) &&& (1#64 <<< BITNUM off) != 0

/-- **`TidStoreIsMember`.** -/
def TidStoreIsMember (T : RadixTree H) (ts : H) (tid : ItemPointer) : Bool :=
  match T.find ts tid.blkno with
  | none => false
  | some page => page.isMember tid.offno

/-- An offset is put into the buffer if there is room, and counted. -/
def emit (max_offsets : Int) (r : List Nat × Nat) (off : Nat) : List Nat × Nat :=
  (if (r.2 : Int) < max_offsets then r.1 ++ [off] else r.1, r.2 + 1)

/-- **`TidStoreGetBlockOffsets`**: what is filled in, and the number that is returned. -/
def TidStoreGetBlockOffsets (page : BlocktableEntry) (max_offsets : Int) : List Nat × Nat :=
  if page.nwords = 0 then
    (List.range NUM_FULL_OFFSETS).foldl (fun r i =>
      if page.full_offsets i ≠ 0 then emit max_offsets r (page.full_offsets i) else r) ([], 0)
  else
    (List.range page.nwords).foldl (fun r wordnum =>
      (bitLoop (page.words wordnum) (wordnum * BITS_PER_BITMAPWORD)).foldl
        (fun r off => emit max_offsets r (off % 2 ^ 16)) r) ([], 0)

theorem maxOffset_eq : MAX_OFFSET_IN_BITMAP = 2048 := rfl

/-! ## 3. What an entry stands for -/

/-- **The entry stands for the offsets.** -/
inductive Represents (e : BlocktableEntry) (offsets : List Nat) : Prop where
  | header (nwords : e.nwords = 0) (few : offsets.length ≤ NUM_FULL_OFFSETS)
      (full : ∀ i, i < NUM_FULL_OFFSETS → e.full_offsets i = offsets.getD i 0)
  | bitmap (nwords : 0 < e.nwords) (below : ∀ off ∈ offsets, off < e.nwords * 64)
      (bits : ∀ x, x < e.nwords * 64 → ((e.words (WORDNUM x)).getLsbD (BITNUM x) = true ↔ x ∈ offsets))

theorem wordnum_lt {x n : Nat} (h : x < n * 64) : WORDNUM x < n := by
  unfold WORDNUM BITS_PER_BITMAPWORD
  omega

/-- What the radix tree keeps is enough. -/
theorem Represents.same {e e' : BlocktableEntry} {offsets : List Nat} (h : Represents e offsets)
    (hs : e.Same e') : Represents e' offsets := by
  obtain ⟨hn, hf, hw⟩ := hs
  cases h with
  | header nwords few full =>
      exact .header (hn.trans nwords) few fun i hi => (hf i hi).trans (full i hi)
  | bitmap nwords below bits =>
      refine .bitmap (by rw [hn]; exact nwords) (by rw [hn]; exact below) fun x hx => ?_
      rw [hn] at hx
      rw [hw _ (wordnum_lt hx)]
      exact bits x hx

/-- **Membership.** -/
theorem Represents.isMember {e : BlocktableEntry} {offsets : List Nat} (h : Represents e offsets) {off : Nat}
    (hoff : 0 < off) : e.isMember off = true ↔ off ∈ offsets := by
  unfold BlocktableEntry.isMember
  cases h with
  | header nwords few full =>
      rw [if_pos nwords, List.any_eq_true]
      constructor
      · intro ⟨i, hi, he⟩
        rw [full i (List.mem_range.mp hi), beq_iff_eq] at he
        -- an unused place of the header holds zero
        have hlt : i < offsets.length := by
          by_contra hge
          rw [List.getD_eq_default _ _ (Nat.le_of_not_lt hge)] at he
          omega
        rw [List.getD_eq_getElem _ _ hlt] at he
        rw [← he]
        exact List.getElem_mem hlt
      · intro hm
        obtain ⟨i, hi, he⟩ := List.mem_iff_getElem.mp hm
        have hlt : i < NUM_FULL_OFFSETS := lt_of_lt_of_le hi few
        refine ⟨i, List.mem_range.mpr hlt, ?_⟩
        rw [full i hlt, List.getD_eq_getElem _ _ hi, he, beq_self_eq_true]
  | bitmap nwords below bits =>
      rw [if_neg (Nat.pos_iff_ne_zero.mp nwords)]
      by_cases hx : off < e.nwords * 64
      · rw [if_neg (Nat.not_le.mpr (wordnum_lt hx)), bne_iff_ne,
          Tbm.and_shift_ne_zero _ (Tbm.bitnum_lt off), bits off hx]
      · rw [if_pos (by unfold WORDNUM BITS_PER_BITMAPWORD; omega)]
        exact iff_of_false Bool.false_ne_true fun hm => hx (below off hm)

/-- What the loops of `TidStoreGetBlockOffsets` fill in. -/
theorem foldl_emit (max_offsets : Int) (l done : List Nat) :
    l.foldl (emit max_offsets) (done.take max_offsets.toNat, done.length) =
      ((done ++ l).take max_offsets.toNat, (done ++ l).length) := by
  induction l generalizing done with
  | nil => rw [List.append_nil, List.foldl_nil]
  | cons off l ih =>
      have hstep : emit max_offsets (done.take max_offsets.toNat, done.length) off =
          ((done ++ [off]).take max_offsets.toNat, (done ++ [off]).length) := by
        unfold emit
        rw [List.length_append, List.length_singleton]
        split
        · rename_i hlt
          simp only at hlt
          rw [List.take_of_length_le (by omega), List.take_of_length_le]
          rw [List.length_append, List.length_singleton]
          omega
        · rename_i hge
          simp only at hge
          rw [List.take_append_of_le_length (by omega)]
      rw [List.foldl_cons, hstep, ih, List.append_assoc, List.singleton_append]

theorem foldl_emit_nil (max_offsets : Int) (l : List Nat) :
    l.foldl (emit max_offsets) ([], 0) = (l.take max_offsets.toNat, l.length) := by
  have h := foldl_emit max_offsets l []
  rwa [List.take_nil, List.length_nil, List.nil_append] at h

/-- **The offsets are read back in order.** -/
theorem Represents.getBlockOffsets {e : BlocktableEntry} {offsets : List Nat} (h : Represents e offsets)
    (hsorted : offsets.Pairwise (· < ·)) (hrange : ∀ off ∈ offsets, InRange off) (max_offsets : Int) :
    TidStoreGetBlockOffsets e max_offsets = (offsets.take max_offsets.toNat, offsets.length) := by
  rw [← foldl_emit_nil]
  unfold TidStoreGetBlockOffsets
  cases h with
  | header nwords few full =>
      have hne : ∀ off ∈ offsets, off ≠ 0 := fun off hm e => hrange off hm (Or.inl e)
      rw [if_pos nwords]
      have h0 := full 0 (by decide)
      have h1 := full 1 (by decide)
      have h2 := full 2 (by decide)
      show [0, 1, 2].foldl _ _ = _
      simp only [List.foldl_cons, List.foldl_nil, h0, h1, h2]
      match offsets, few with
      | [], _ => rfl
      | [a], _ =>
          have ha := hne a (by simp)
          simp [ha]
      | [a, b], _ =>
          have ha := hne a (by simp)
          have hb := hne b (by simp)
          simp [ha, hb]
      | [a, b, c], _ =>
          have ha := hne a (by simp)
          have hb := hne b (by simp)
          have hc := hne c (by simp)
          simp [ha, hb, hc]
  | bitmap nwords below bits =>
      rw [if_neg (Nat.pos_iff_ne_zero.mp nwords), ← List.foldl_flatMap]
      -- the bits of the words, in order, are the offsets
      have hbits : (List.range e.nwords).flatMap (fun wordnum =>
          bitLoop (e.words wordnum) (wordnum * BITS_PER_BITMAPWORD)) = offsets := by
        have hmem := Tbm.mem_wordBits e.words e.nwords 0
        have hlt := Tbm.wordBits_pairwise e.words e.nwords 0
        simp only [Nat.zero_add] at hmem hlt
        refine List.Perm.eq_of_pairwise (fun a b _ _ h1 h2 => absurd h1 (Nat.lt_asymm h2)) hlt hsorted ?_
        refine (List.perm_ext_iff_of_nodup hlt.nodup hsorted.nodup).mpr fun x => ?_
        rw [hmem]
        constructor
        · intro ⟨y, hy, hxy, hb⟩
          rw [hxy]
          exact (bits y hy).mp hb
        · exact fun hm => ⟨x, below x hm, rfl, (bits x (below x hm)).mpr hm⟩
      rw [hbits]
      refine List.foldl_ext _ _ _ fun r off hm => ?_
      have h := hrange off hm
      unfold InRange at h
      rw [maxOffset_eq] at h
      rw [Nat.mod_eq_of_lt (by omega)]

/-! ## 4. The loops -/

/-- The loop over a few offsets. -/
theorem headerLoop_spec (offsets : List Nat) (page : BlocktableEntry) (i : Nat) :
    (∃ off ∈ offsets, ¬ InRange off ∧ headerLoop page i offsets = .error (outOfRange off)) ∨
      ((∀ off ∈ offsets, InRange off) ∧ ∃ page', headerLoop page i offsets = .ok page' ∧
        (∀ k, k < i → page'.full_offsets k = page.full_offsets k) ∧
        ∀ k, page'.full_offsets (i + k) = offsets.getD k (page.full_offsets (i + k))) := by
  induction offsets generalizing page i with
  | nil => exact Or.inr ⟨fun _ h => absurd h List.not_mem_nil, page, rfl, fun _ _ => rfl, fun _ => rfl⟩
  | cons off offsets ih =>
      rw [headerLoop]
      split
      · rename_i hbad
        exact Or.inl ⟨off, List.mem_cons_self, not_not.mpr hbad, rfl⟩
      · rename_i hgood
        rcases ih { page with full_offsets := Function.update page.full_offsets i off } (i + 1) with
          ⟨bad, hm, hbad, he⟩ | ⟨hall, page', he, hlow, hhigh⟩
        · exact Or.inl ⟨bad, List.mem_cons_of_mem _ hm, hbad, he⟩
        · refine Or.inr ⟨fun x hx => ?_, page', he, fun k hk => ?_, fun k => ?_⟩
          · rcases List.mem_cons.mp hx with rfl | hx
            · exact hgood
            · exact hall x hx
          · rw [hlow k (by omega)]
            exact Function.update_of_ne (by omega) _ _
          · cases k with
            | zero =>
                rw [Nat.add_zero, hlow i (Nat.lt_succ_self i)]
                exact Function.update_self _ _ _
            | succ k =>
                have h := hhigh k
                rw [show i + 1 + k = i + (k + 1) by omega] at h
                rw [h, List.getD_cons_succ]
                exact congrArg _ (Function.update_of_ne (by omega) _ _)

/-- The inner loop: it takes the offsets below the threshold, all of them in range, and stops at one that is
    not below it, or raises an error. -/
theorem fillWord_spec (next_word_threshold : Nat) (offsets : List Nat) (word : BitVec 64) :
    (∃ off ∈ offsets, ¬ InRange off ∧
      fillWord next_word_threshold word offsets = .error (outOfRange off)) ∨
    ∃ word' taken rest, fillWord next_word_threshold word offsets = .ok (word', rest) ∧
      offsets = taken ++ rest ∧ (∀ off ∈ taken, InRange off ∧ off < next_word_threshold) ∧
      (∀ off ∈ rest.head?, next_word_threshold ≤ off) ∧
      ∀ b, b < 64 → (word'.getLsbD b = true ↔ word.getLsbD b = true ∨ ∃ off ∈ taken, BITNUM off = b) := by
  induction offsets generalizing word with
  | nil =>
      refine Or.inr ⟨word, [], [], rfl, rfl, fun _ h => absurd h List.not_mem_nil, fun _ h => ?_, fun b _ => ?_⟩
      · cases h
      · simp
  | cons off offsets ih =>
      rw [fillWord]
      split
      · rename_i hbad
        exact Or.inl ⟨off, List.mem_cons_self, not_not.mpr hbad, rfl⟩
      · rename_i hgood
        split
        · rename_i hge
          refine Or.inr ⟨word, [], off :: offsets, rfl, rfl, fun _ h => absurd h List.not_mem_nil,
            fun x hx => ?_, fun b _ => ?_⟩
          · cases hx
            exact hge
          · simp
        · rename_i hlt
          rcases ih (word ||| 1#64 <<< BITNUM off) with
            ⟨bad, hm, hbad, he⟩ | ⟨word', taken, rest, he, hsplit, htaken, hrest, hbits⟩
          · exact Or.inl ⟨bad, List.mem_cons_of_mem _ hm, hbad, he⟩
          · refine Or.inr ⟨word', off :: taken, rest, he, by rw [hsplit]; rfl, fun x hx => ?_, hrest,
              fun b hb => ?_⟩
            · rcases List.mem_cons.mp hx with rfl | hx
              · exact ⟨hgood, Nat.lt_of_not_le hlt⟩
              · exact htaken x hx
            · rw [hbits b hb, BitVec.getLsbD_or, Tbm.getLsbD_one_shift (Tbm.bitnum_lt off), Bool.or_eq_true,
                decide_eq_true_eq, or_assoc]
              refine or_congr_right ?_
              simp only [List.mem_cons, exists_eq_or_imp]
              exact or_congr_left eq_comm

/-- **The invariant of the loop over the words**: the offsets below the next word are in range and in the
    bitmap, the other ones are left. -/
structure Filled (offsets rest : List Nat) (wordnum : Nat) (page : BlocktableEntry) : Prop where
  split : ∃ done, offsets = done ++ rest ∧ ∀ off ∈ done, InRange off ∧ off < wordnum * 64
  left : ∀ off ∈ rest, wordnum * 64 ≤ off
  bits : ∀ x, x < wordnum * 64 → ((page.words (WORDNUM x)).getLsbD (BITNUM x) = true ↔ x ∈ offsets)

/-- One word. -/
theorem Filled.next {offsets rest : List Nat} {wordnum : Nat} {page : BlocktableEntry}
    (h : Filled offsets rest wordnum page) (hsorted : offsets.Pairwise (· < ·)) :
    (∃ off ∈ offsets, ¬ InRange off ∧ fillWord ((wordnum + 1) * 64) 0 rest = .error (outOfRange off)) ∨
    ∃ word rest', fillWord ((wordnum + 1) * 64) 0 rest = .ok (word, rest') ∧
      (∀ off ∈ rest.head?, InRange off) ∧
      Filled offsets rest' (wordnum + 1) { page with words := Function.update page.words wordnum word } := by
  obtain ⟨⟨done, rfl, hdone⟩, hleft, hbits⟩ := h
  rcases fillWord_spec ((wordnum + 1) * 64) rest 0 with
    ⟨off, hm, hbad, he⟩ | ⟨word, taken, rest', he, rfl, htaken, hhead, hword⟩
  · exact Or.inl ⟨off, List.mem_append_right _ hm, hbad, he⟩
  · -- what is left is sorted, so all of it is past the threshold
    have hrest : ∀ off ∈ rest', (wordnum + 1) * 64 ≤ off := by
      intro off hm
      have hs := (List.pairwise_append.mp (List.pairwise_append.mp hsorted).2.1).2.1
      cases rest' with
      | nil => exact absurd hm List.not_mem_nil
      | cons first rest' =>
          have hfirst := hhead first rfl
          rcases List.mem_cons.mp hm with rfl | hm
          · exact hfirst
          · exact hfirst.trans ((List.pairwise_cons.mp hs).1 off hm).le
    refine Or.inr ⟨word, rest', he, fun off hm => ?_, ⟨done ++ taken, ?_, fun off hm => ?_⟩, hrest,
      fun x hx => ?_⟩
    · cases taken with
      | nil =>
          -- an offset that was looked at has been checked
          cases rest' with
          | nil => cases hm
          | cons first rest' =>
              cases hm
              by_contra hbad
              rw [List.nil_append, fillWord, if_pos (not_not.mp hbad)] at he
              cases he
      | cons first taken =>
          cases hm
          exact (htaken _ List.mem_cons_self).1
    · rw [List.append_assoc]
    · rcases List.mem_append.mp hm with hm | hm
      · exact ⟨(hdone off hm).1, by have := (hdone off hm).2; omega⟩
      · exact htaken off hm
    · simp only
      by_cases hw : WORDNUM x = wordnum
      · rw [hw, Function.update_self, hword _ (Tbm.bitnum_lt x)]
        constructor
        · intro hor
          rcases hor with hz | ⟨off, hm, hb⟩
          · rw [Tbm.getLsbD_zero'] at hz
            cases hz
          · have hge := hleft off (List.mem_append_left _ hm)
            have hlt := (htaken off hm).2
            have hsame : WORDNUM off = WORDNUM x := by
              rw [hw]
              unfold WORDNUM BITS_PER_BITMAPWORD
              omega
            rw [← Tbm.word_split hsame hb]
            exact List.mem_append_right _ (List.mem_append_left _ hm)
        · intro hm
          have hge : wordnum * 64 ≤ x := by
            rw [← hw]
            unfold WORDNUM BITS_PER_BITMAPWORD
            omega
          rcases List.mem_append.mp hm with hm | hm
          · exact absurd (hdone x hm).2 (by omega)
          · rcases List.mem_append.mp hm with hm | hm
            · exact Or.inr ⟨x, hm, rfl⟩
            · exact absurd (hrest x hm) (by omega)
      · rw [Function.update_of_ne hw]
        refine hbits x ?_
        unfold WORDNUM BITS_PER_BITMAPWORD at hw
        omega

/-- **The loop over the words** writes no word past the buffer, and raises an error exactly when an offset is
    out of range. -/
theorem wordLoop_spec {offsets : List Nat} (hsorted : offsets.Pairwise (· < ·)) {last : Nat}
    (hmem : last ∈ offsets) (hlast : ∀ off ∈ offsets, off ≤ last) (wordnum : Nat) (rest : List Nat)
    (page : BlocktableEntry) (written : List Nat) (h : Filled offsets rest wordnum page)
    (hle : wordnum ≤ WORDNUM last + 1) (hw : ∀ w ∈ written, w < WORDS_PER_PAGE MAX_OFFSET_IN_BITMAP) :
    let r := wordLoop last wordnum ((wordnum + 1) * 64) rest page written
    (∀ w ∈ r.2.1, w < WORDS_PER_PAGE MAX_OFFSET_IN_BITMAP) ∧
      ((∃ off ∈ offsets, ¬ InRange off ∧ r.2.2 = .error (outOfRange off)) ∨
        ((∀ off ∈ offsets, InRange off) ∧ r.2.2 = .ok (WORDNUM last + 1) ∧
          Filled offsets [] (WORDNUM last + 1) r.1)) := by
  induction hd : WORDNUM last + 1 - wordnum generalizing wordnum rest page written with
  | zero =>
      have e : wordnum = WORDNUM last + 1 := by omega
      rw [wordLoop, if_neg (by omega)]
      -- no offset is behind the last one
      have hnil : rest = [] := by
        refine List.eq_nil_iff_forall_not_mem.mpr fun off hm => ?_
        have hge := h.left off hm
        obtain ⟨done, hs, -⟩ := h.split
        have hoff := hlast off (by rw [hs]; exact List.mem_append_right _ hm)
        rw [e] at hge
        unfold WORDNUM BITS_PER_BITMAPWORD at hge
        omega
      subst hnil
      obtain ⟨done, hs, hdone⟩ := h.split
      rw [List.append_nil] at hs
      rw [← hs] at hdone
      refine ⟨hw, Or.inr ⟨fun off hm => (hdone off hm).1, ?_, ?_⟩⟩
      · rw [e]
      · rw [← e]
        exact h
  | succ n ih =>
      rw [wordLoop, if_pos (by omega)]
      rcases h.next hsorted with ⟨off, hm, hbad, he⟩ | ⟨word, rest', he, hhead, hnext⟩
      · rw [he]
        exact ⟨hw, Or.inl ⟨off, hm, hbad, rfl⟩⟩
      · rw [he]
        have hthreshold : (wordnum + 1) * 64 + BITS_PER_BITMAPWORD = (wordnum + 1 + 1) * 64 := by
          unfold BITS_PER_BITMAPWORD
          omega
        simp only [hthreshold]
        refine ih (wordnum + 1) rest' _ (written ++ [wordnum]) hnext (by omega) (fun w hmw => ?_) (by omega)
        rcases List.mem_append.mp hmw with hmw | hmw
        · exact hw w hmw
        · rw [List.mem_singleton.mp hmw]
          -- the word is written after an offset at or behind it has been checked
          have hin : ∃ off, InRange off ∧ wordnum * 64 ≤ off := by
            cases rest with
            | nil =>
                obtain ⟨done, hs, hdone⟩ := h.split
                rw [List.append_nil] at hs
                have hlt := (hdone last (by rw [← hs]; exact hmem)).2
                unfold WORDNUM BITS_PER_BITMAPWORD at hd
                omega
            | cons first rest => exact ⟨first, hhead first rfl, h.left first List.mem_cons_self⟩
          obtain ⟨off, hoff, hge⟩ := hin
          unfold InRange at hoff
          rw [maxOffset_eq] at hoff ⊢
          unfold WORDS_PER_PAGE BITS_PER_BITMAPWORD
          omega

/-! ## 5. Calls -/

/-- **One call**: no word past the buffer is written; if an offset is out of range the store stays as it is
    and the error names one of them, and if not the block has an entry for the offsets. -/
theorem set_spec (T : RadixTree H) (ts : H) (data : Nat → BitVec 64) (blkno : Nat) {offsets : List Nat}
    (hne : offsets ≠ []) (hsorted : offsets.Pairwise (· < ·)) :
    let r := TidStoreSetBlockOffsets T ts data blkno offsets
    (∀ w ∈ r.2.1, w < WORDS_PER_PAGE MAX_OFFSET_IN_BITMAP) ∧
      ((r.1 = ts ∧ ∃ off ∈ offsets, ¬ InRange off ∧ r.2.2 = .error (outOfRange off)) ∨
        ((∀ off ∈ offsets, InRange off) ∧ r.2.2 = .ok () ∧
          ∃ e, r.1 = T.set ts blkno e ∧ Represents e offsets)) := by
  unfold TidStoreSetBlockOffsets
  simp only
  split
  · rename_i hfew
    rcases headerLoop_spec offsets ⟨0, fun _ => 0, data⟩ 0 with
      ⟨off, hm, hbad, he⟩ | ⟨hall, page, he, -, hfull⟩
    · rw [he]
      exact ⟨fun _ h => absurd h List.not_mem_nil, Or.inl ⟨rfl, off, hm, hbad, rfl⟩⟩
    · rw [he]
      refine ⟨fun _ h => absurd h List.not_mem_nil, Or.inr ⟨hall, rfl, _, rfl, .header rfl hfew ?_⟩⟩
      intro i _
      have h := hfull i
      rwa [Nat.zero_add] at h
  · have hlast : offsets.getLastD 0 = offsets.getLast hne := by
      rw [List.getLastD_eq_getLast?, List.getLast?_eq_some_getLast hne, Option.getD_some]
    have hmem : offsets.getLastD 0 ∈ offsets := by
      rw [hlast]
      exact List.getLast_mem hne
    have hmax : ∀ off ∈ offsets, off ≤ offsets.getLastD 0 := by
      intro off hm
      rw [hlast]
      exact (hsorted.imp fun h => Nat.le_of_lt h).rel_getLast hm
    have hstart : Filled offsets offsets 0 ⟨0, fun _ => 0, data⟩ :=
      ⟨⟨[], rfl, fun _ h => absurd h List.not_mem_nil⟩, fun _ _ => by omega, fun x hx => by omega⟩
    obtain ⟨hwritten, hres⟩ := wordLoop_spec hsorted hmem hmax 0 offsets ⟨0, fun _ => 0, data⟩ [] hstart
      (Nat.zero_le _) (fun _ h => absurd h List.not_mem_nil)
    have hthreshold : (0 + 1) * 64 = BITS_PER_BITMAPWORD := rfl
    rw [hthreshold] at hwritten hres
    rcases hres with ⟨off, hm, hbad, he⟩ | ⟨hall, he, hfilled⟩
    · rw [he]
      exact ⟨hwritten, Or.inl ⟨rfl, off, hm, hbad, rfl⟩⟩
    · rw [he]
      obtain ⟨done, hs, hdone⟩ := hfilled.split
      rw [List.append_nil] at hs
      rw [← hs] at hdone
      exact ⟨hwritten, Or.inr ⟨hall, rfl, _, rfl, .bitmap (Nat.succ_pos _) (fun off hm => (hdone off hm).2)
        hfilled.bits⟩⟩

/-- A call of `TidStoreSetBlockOffsets`, with what the buffer holds before it. -/
structure Call where
  blkno : Nat
  offsets : List Nat
  data : Nat → BitVec 64

/-- What the function asks of its callers. -/
def Call.Ok (c : Call) : Prop := c.offsets ≠ [] ∧ c.offsets.Pairwise (· < ·)

def Call.apply (T : RadixTree H) (ts : H) (c : Call) : H :=
  (TidStoreSetBlockOffsets T ts c.data c.blkno c.offsets).1

/-- The store after the calls, the first one first. -/
def run (T : RadixTree H) (calls : List Call) : H := calls.foldl (Call.apply T) T.create

/-- The array set for a block, after one more call; a call that raises an error sets nothing. -/
def Call.set (blkno : Nat) (offsets : Option (List Nat)) (c : Call) : Option (List Nat) :=
  if c.blkno = blkno ∧ ∀ off ∈ c.offsets, InRange off then some c.offsets else offsets

/-- The array last set for a block. -/
def lastSet (calls : List Call) (blkno : Nat) : Option (List Nat) := calls.foldl (Call.set blkno) none

/-- **What the store holds**: an entry for each block that has been set. -/
def Holds (T : RadixTree H) (ts : H) (sets : Nat → Option (List Nat)) : Prop :=
  ∀ blkno, (sets blkno = none ∧ T.find ts blkno = none) ∨
    ∃ offsets page, sets blkno = some offsets ∧ T.find ts blkno = some page ∧ Represents page offsets ∧
      offsets.Pairwise (· < ·) ∧ ∀ off ∈ offsets, InRange off

/-- One call keeps it. -/
theorem Holds.call {T : RadixTree H} {ts : H} {sets : Nat → Option (List Nat)} (h : Holds T ts sets)
    {c : Call} (hc : c.Ok) : Holds T (c.apply T ts) fun blkno => c.set blkno (sets blkno) := by
  intro blkno
  obtain ⟨-, hres⟩ := set_spec T ts c.data c.blkno hc.1 hc.2
  unfold Call.apply Call.set
  simp only
  rcases hres with ⟨e, off, hm, hbad, -⟩ | ⟨hall, -, page, e, hrep⟩
  · have hnone : ¬ (c.blkno = blkno ∧ ∀ off ∈ c.offsets, InRange off) := fun hall => hbad (hall.2 off hm)
    rw [e, if_neg hnone]
    exact h blkno
  · rw [e]
    by_cases hb : c.blkno = blkno
    · subst hb
      obtain ⟨page', hfind, hsame⟩ := T.find_set_self ts c.blkno page
      rw [if_pos ⟨rfl, hall⟩]
      exact Or.inr ⟨c.offsets, page', rfl, hfind, hrep.same hsame, hc.2, hall⟩
    · have hother : ¬ (c.blkno = blkno ∧ ∀ off ∈ c.offsets, InRange off) := fun hboth => hb hboth.1
      rw [if_neg hother, T.find_set_of_ne _ _ _ _ fun e => hb e.symm]
      exact h blkno

theorem inv_run (T : RadixTree H) (calls : List Call) (hcalls : ∀ c ∈ calls, c.Ok) :
    Holds T (run T calls) (lastSet calls) := by
  induction calls using List.reverseRecOn with
  | nil => exact fun blkno => Or.inl ⟨rfl, T.find_create blkno⟩
  | append_singleton calls c ih =>
      have h := (ih fun c' hc' => hcalls c' (List.mem_append_left _ hc')).call
        (hcalls c (List.mem_append_right _ (List.mem_singleton.mpr rfl)))
      unfold run lastSet at h ⊢
      simp only [List.foldl_append, List.foldl_cons, List.foldl_nil]
      exact h

/-- **The store of dead TIDs**, after any calls: what the next call does, which TIDs are members, and what
    is read back. -/
theorem tid_store (T : RadixTree H) (calls : List Call) (hcalls : ∀ c ∈ calls, c.Ok) :
    (∀ c : Call, c.Ok →
      (∀ w ∈ (TidStoreSetBlockOffsets T (run T calls) c.data c.blkno c.offsets).2.1,
        w < WORDS_PER_PAGE MAX_OFFSET_IN_BITMAP) ∧
      (((∀ off ∈ c.offsets, InRange off) ∧
          (TidStoreSetBlockOffsets T (run T calls) c.data c.blkno c.offsets).2.2 = .ok ()) ∨
        c.apply T (run T calls) = run T calls ∧ ∃ off ∈ c.offsets, ¬ InRange off ∧
          (TidStoreSetBlockOffsets T (run T calls) c.data c.blkno c.offsets).2.2 =
            .error (outOfRange off))) ∧
    (∀ tid : ItemPointer, OffsetNumberIsValid tid.offno →
      (TidStoreIsMember T (run T calls) tid = true ↔
        ∃ offsets, lastSet calls tid.blkno = some offsets ∧ tid.offno ∈ offsets)) ∧
    ∀ blkno, (lastSet calls blkno = none ∧ T.find (run T calls) blkno = none) ∨
      ∃ offsets page, lastSet calls blkno = some offsets ∧ T.find (run T calls) blkno = some page ∧
        ∀ max_offsets : Int,
          TidStoreGetBlockOffsets page max_offsets = (offsets.take max_offsets.toNat, offsets.length) := by
  have hinv := inv_run T calls hcalls
  refine ⟨fun c hc => ?_, fun tid htid => ?_, fun blkno => ?_⟩
  · obtain ⟨hwritten, hres⟩ := set_spec T (run T calls) c.data c.blkno hc.1 hc.2
    exact ⟨hwritten, hres.elim (fun h => Or.inr h) fun h => Or.inl ⟨h.1, h.2.1⟩⟩
  · unfold TidStoreIsMember
    rcases hinv tid.blkno with ⟨hnone, hfind⟩ | ⟨offsets, page, hset, hfind, hrep, -⟩
    · rw [hfind, hnone]
      exact iff_of_false Bool.false_ne_true fun ⟨_, h, _⟩ => by cases h
    · rw [hfind, hset]
      simp only
      rw [hrep.isMember (Nat.pos_of_ne_zero htid.1)]
      exact ⟨fun hm => ⟨offsets, rfl, hm⟩, fun ⟨_, h, hm⟩ => by cases h; exact hm⟩
  · rcases hinv blkno with hnone | ⟨offsets, page, hset, hfind, hrep, hsorted, hrange⟩
    · exact Or.inl hnone
    · exact Or.inr ⟨offsets, page, hset, hfind, fun max_offsets => hrep.getBlockOffsets hsorted hrange max_offsets⟩

/-- A radix tree as a function. -/
def functionTree : RadixTree (Nat → Option BlocktableEntry) where
  create := fun _ => none
  set := fun h k e => Function.update h k (some e)
  find := fun h k => h k
  find_create := fun _ => rfl
  find_set_self := fun h k e => ⟨e, Function.update_self k _ h, rfl, fun _ _ => rfl, fun _ _ => rfl⟩
  find_set_of_ne := fun h _ _ _ hk => Function.update_of_ne hk _ h

/-- Block 7 is set as a bitmap, then the call for block 7 with an offset out of range fails, and block 8 is
    set in the header. -/
def threeCalls : List Call :=
  [⟨7, [1, 2, 64, 2048], fun _ => 0⟩, ⟨7, [1, 2, 3, 4000], fun _ => 0⟩, ⟨8, [5], fun _ => 0⟩]

theorem tid_store_three_calls : TidStoreIsMember functionTree (run functionTree threeCalls) ⟨7, 2048⟩ = true ∧
    TidStoreIsMember functionTree (run functionTree threeCalls) ⟨8, 1⟩ = false := by
  have h := (tid_store functionTree threeCalls (by
    intro c hc
    simp only [threeCalls, List.mem_cons, List.not_mem_nil, or_false] at hc
    rcases hc with rfl | rfl | rfl <;> exact ⟨by simp, by decide⟩)).2.1
  refine ⟨(h ⟨7, 2048⟩ (by decide)).mpr ⟨[1, 2, 64, 2048], by decide, by decide⟩, ?_⟩
  rw [Bool.eq_false_iff]
  intro hm
  obtain ⟨offsets, hset, hoff⟩ := (h ⟨8, 1⟩ (by decide)).mp hm
  have e : lastSet threeCalls 8 = some [5] := by decide
  rw [e] at hset
  cases hset
  cases hoff with
  | tail _ hoff => cases hoff

end Pgvec.TidStore
