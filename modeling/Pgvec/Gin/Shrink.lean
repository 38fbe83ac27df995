/-
  File:      Pgvec/Gin/Shrink.lean
  Subject:   REMOVING ITEMS NEVER MAKES A COMPRESSED POSTING LIST LARGER, as the comment at the head of
             `ginpostinglist.c` says.

  Removing an item replaces two differences by their sum.

  * `length_encode_add` -- the sum of two integers takes no more bytes than the two;
  * `length_deltaBytes_sublist` -- nor do the differences of a subsequence take more than those of the list;
  * **`compress_sublist`** -- so what is left of an array that was encoded completely is encoded completely
    in the same space, as long as `nbytes` can count the bytes;
  * `compress_sublist_wraps` -- which it cannot in a segment of 65544 bytes and more.
-/
import Pgvec.Gin.PostingList

namespace Pgvec.Gin

open Pgvec.Hnsw (ItemPointer)

/-! ## 1. One integer -/

/-- An integer that takes `k` bytes has at most `7 * k` bits. -/
theorem lt_of_length_encode (val : Nat) : val < 2 ^ (7 * (encode_varbyte val).length) := by
  induction val using Nat.strong_induction_on with
  | _ val ih =>
      by_cases hs : val ≤ 0x7F
      · rw [encode_varbyte_small hs, List.length_singleton]
        omega
      · rw [encode_varbyte_large (by omega), List.length_cons]
        have h := ih (val / 128) (by omega)
        have hpow : 2 ^ (7 * ((encode_varbyte (val / 128)).length + 1)) =
            2 ^ (7 * (encode_varbyte (val / 128)).length) * 128 := by
          rw [Nat.mul_add, Nat.pow_add]
        rw [hpow]
        omega

/-- **A sum takes no more bytes than its summands.** -/
theorem length_encode_add (a b : Nat) :
    (encode_varbyte (a + b)).length ≤ (encode_varbyte a).length + (encode_varbyte b).length := by
  have ha := lt_of_length_encode a
  have hb := lt_of_length_encode b
  have hapos := List.length_pos_of_ne_nil (encode_varbyte_ne_nil a)
  have hbpos := List.length_pos_of_ne_nil (encode_varbyte_ne_nil b)
  obtain ⟨i, hi⟩ : ∃ i, (encode_varbyte a).length = i + 1 := ⟨_, (Nat.sub_add_cancel hapos).symm⟩
  obtain ⟨j, hj⟩ : ∃ j, (encode_varbyte b).length = j + 1 := ⟨_, (Nat.sub_add_cancel hbpos).symm⟩
  rw [hi] at ha ⊢
  rw [hj] at hb ⊢
  -- each summand is at most half of what the longer one has room for with one byte more
  have h1 : 2 ^ (7 * (i + 1)) ≤ 2 ^ (7 * (i + j + 1)) := Nat.pow_le_pow_right Nat.two_pos (by omega)
  have h2 : 2 ^ (7 * (j + 1)) ≤ 2 ^ (7 * (i + j + 1)) := Nat.pow_le_pow_right Nat.two_pos (by omega)
  have h3 : 2 ^ (7 * (i + j + 1 + 1)) = 2 ^ (7 * (i + j + 1)) * 128 := by rw [Nat.mul_add, Nat.pow_add]
  have hsum : a + b < 2 ^ (7 * (i + j + 1 + 1)) := by omega
  have hlen := length_encode_varbyte (i + j + 1) hsum
  omega

/-! ## 2. The differences of a subsequence -/

theorem Follows.cons_lt {prev : Nat} {ip x : ItemPointer} {ipd : List ItemPointer}
    (h : Follows prev (ip :: ipd)) (hx : x ∈ ipd) : itemptr_to_uint64 ip < itemptr_to_uint64 x := by
  induction ipd generalizing prev ip with
  | nil => exact absurd hx List.not_mem_nil
  | cons y ipd ih =>
      obtain ⟨-, -, h'⟩ := h
      rcases List.mem_cons.mp hx with rfl | hx
      · exact h'.2.1
      · exact Nat.lt_trans h'.2.1 (ih h' hx)

/-- An item is left out: the difference over it is the sum of two. -/
theorem length_deltaBytes_skip {prev mid : Nat} (hmid : prev ≤ mid) {ipd : List ItemPointer}
    (hle : ∀ x ∈ ipd.head?, mid ≤ itemptr_to_uint64 x) :
    (deltaBytes prev ipd).length ≤ (encode_varbyte (mid - prev)).length + (deltaBytes mid ipd).length := by
  cases ipd with
  | nil => exact Nat.zero_le _
  | cons x ipd =>
      have hx := hle x rfl
      have hsum : itemptr_to_uint64 x - prev = (mid - prev) + (itemptr_to_uint64 x - mid) := by omega
      have hlen := length_encode_add (mid - prev) (itemptr_to_uint64 x - mid)
      simp only [deltaBytes, List.length_append]
      rw [hsum]
      omega

/-- **The differences of a subsequence** take no more bytes. -/
theorem length_deltaBytes_sublist {sub ipd : List ItemPointer} (hsub : sub.Sublist ipd) {prev : Nat}
    (h : Follows prev ipd) : (deltaBytes prev sub).length ≤ (deltaBytes prev ipd).length := by
  induction hsub generalizing prev with
  | slnil => exact Nat.le_refl _
  | cons ip hsub ih =>
      rename_i sub ipd
      have hskip : (deltaBytes prev sub).length ≤
          (encode_varbyte (itemptr_to_uint64 ip - prev)).length +
            (deltaBytes (itemptr_to_uint64 ip) sub).length := by
        refine length_deltaBytes_skip h.2.1.le fun x hx => ?_
        exact (h.cons_lt (hsub.subset (List.mem_of_mem_head? hx))).le
      have hrest := ih h.2.2
      simp only [deltaBytes, List.length_append]
      omega
  | cons_cons ip hsub ih =>
      have hrest := ih h.2.2
      simp only [deltaBytes, List.length_append]
      omega

/-- The first item may be left out too. -/
theorem length_deltaBytes_first {first first' : ItemPointer} {rest rest' : List ItemPointer}
    (hsub : (first' :: rest').Sublist (first :: rest)) (h : Follows (itemptr_to_uint64 first) rest) :
    (deltaBytes (itemptr_to_uint64 first') rest').length ≤
      (deltaBytes (itemptr_to_uint64 first) rest).length := by
  cases hsub with
  | cons_cons _ hsub => exact length_deltaBytes_sublist hsub h
  | cons _ hsub =>
      have hall := length_deltaBytes_sublist hsub h
      simp only [deltaBytes, List.length_append] at hall
      omega

/-! ## 3. The encoder -/

/-- What it means that an array is encoded completely. -/
theorem compress_complete {maxsize : Nat} {first : ItemPointer} {rest : List ItemPointer}
    (h : Follows (itemptr_to_uint64 first) rest) :
    (∃ seg, ginCompressPostingList (first :: rest) maxsize = some (seg, (first :: rest).length)) ↔
      (deltaBytes (itemptr_to_uint64 first) rest).length ≤ SHORTALIGN_DOWN maxsize - offsetofBytes := by
  obtain ⟨k, hk, hrun, hfit, hstop⟩ := compressLoop_spec (SHORTALIGN_DOWN maxsize - offsetofBytes) rest
    [] 1 h (Nat.zero_le _)
  rw [List.nil_append] at hrun hfit
  unfold ginCompressPostingList
  simp only [hrun, List.length_cons]
  constructor
  · intro ⟨seg, hseg⟩
    simp only [Option.some.injEq, Prod.mk.injEq] at hseg
    have e : k = rest.length := by omega
    rwa [e, List.take_length] at hfit
  · intro hle
    have e : k = rest.length := by
      by_contra hne
      have hlt : k < rest.length := by omega
      have hover := hstop hlt
      rw [List.nil_append] at hover
      have hpart := length_deltaBytes_sublist (List.take_sublist (k + 1) rest) h
      omega
    exact ⟨_, by rw [e, Nat.add_comm]⟩

/-- The segment of an array that is encoded completely. -/
theorem compress_eq {maxsize : Nat} {first : ItemPointer} {rest : List ItemPointer}
    (h : Follows (itemptr_to_uint64 first) rest) {seg : GinPostingList}
    (hseg : ginCompressPostingList (first :: rest) maxsize = some (seg, (first :: rest).length)) :
    seg = finishPostingList first (deltaBytes (itemptr_to_uint64 first) rest) := by
  obtain ⟨k, hk, hrun, -, -⟩ := compressLoop_spec (SHORTALIGN_DOWN maxsize - offsetofBytes) rest
    [] 1 h (Nat.zero_le _)
  unfold ginCompressPostingList at hseg
  simp only [hrun, List.nil_append, List.length_cons, Option.some.injEq, Prod.mk.injEq] at hseg
  obtain ⟨rfl, htotal⟩ := hseg
  have e : k = rest.length := by omega
  rw [e, List.take_length]

/-- **Removing items never makes the list larger**: what is left of an array that was encoded completely
    within `maxsize` is encoded completely within `maxsize`, in no more space. From 65544 on `nbytes` may
    wrap. -/
theorem compress_sublist {ipd sub : List ItemPointer} (hpacks : ∀ p ∈ ipd, Packs p)
    (hsorted : ipd.Pairwise Before) {maxsize : Nat} (hmax : maxsize < 65544) {seg : GinPostingList}
    (hseg : ginCompressPostingList ipd maxsize = some (seg, ipd.length)) (hsub : sub.Sublist ipd)
    (hne : sub ≠ []) :
    ∃ seg', ginCompressPostingList sub maxsize = some (seg', sub.length) ∧
      SizeOfGinPostingList seg' ≤ SizeOfGinPostingList seg := by
  obtain ⟨first', rest', rfl⟩ := List.exists_cons_of_ne_nil hne
  obtain ⟨first, rest, rfl⟩ : ∃ first rest, ipd = first :: rest :=
    List.exists_cons_of_ne_nil fun e => List.cons_ne_nil _ _ (List.sublist_nil.mp (e ▸ hsub))
  have hf := follows_of_pairwise hpacks hsorted
  have hf' := follows_of_pairwise (fun p hp => hpacks p (hsub.subset hp)) (hsorted.sublist hsub)
  have hlen := length_deltaBytes_first hsub hf
  have hfit := (compress_complete hf).mp ⟨seg, hseg⟩
  obtain ⟨seg', hseg'⟩ := (compress_complete hf').mpr (hlen.trans hfit)
  refine ⟨seg', hseg', ?_⟩
  have hcount : (deltaBytes (itemptr_to_uint64 first) rest).length < 65536 := by
    unfold SHORTALIGN_DOWN offsetofBytes at hfit
    omega
  rw [compress_eq hf hseg, compress_eq hf' hseg', finish_size _ hcount,
    finish_size _ (Nat.lt_of_le_of_lt hlen hcount)]
  unfold SHORTALIGN
  omega

/-- Three items, and what is left without the one in the middle. -/
theorem compress_sublist_three : ∃ seg', ginCompressPostingList [⟨0, 1⟩, ⟨9, 4⟩] 16 = some (seg', 2) ∧
    SizeOfGinPostingList seg' ≤ 12 := by
  have hthree : (ginCompressPostingList [⟨0, 1⟩, ⟨0, 3⟩, ⟨9, 4⟩] 16).map
      (fun r => (SizeOfGinPostingList r.1, r.2)) = some (12, 3) := by
    simp [ginCompressPostingList, compressLoop, itemptr_to_uint64, encode_varbyte, SHORTALIGN_DOWN,
      offsetofBytes, MaxBytesPerInteger, MaxHeapTuplesPerPageBits, finishPostingList, SizeOfGinPostingList,
      SHORTALIGN]
  obtain ⟨⟨seg, n⟩, hseg, hsize⟩ := Option.map_eq_some_iff.mp hthree
  obtain ⟨hsize, rfl⟩ := Prod.mk.inj hsize
  have hpacks : ∀ p ∈ [⟨0, 1⟩, ⟨0, 3⟩, ⟨9, 4⟩], Packs p := by
    intro p hp
    simp only [List.mem_cons, List.not_mem_nil, or_false] at hp
    rcases hp with rfl | rfl | rfl <;> exact ⟨by decide, by decide, by decide⟩
  have hsub : [⟨0, 1⟩, ⟨9, 4⟩].Sublist ([⟨0, 1⟩, ⟨0, 3⟩, ⟨9, 4⟩] : List ItemPointer) := by decide
  obtain ⟨seg', h1, h2⟩ := compress_sublist hpacks (by simp [Before]) (by decide) hseg hsub (by decide)
  exact ⟨seg', h1, h2.trans (Nat.le_of_eq hsize)⟩

/-! ## 4. A count of bytes that wraps -/

/-- `n` items from block `b * 131072` on, so far apart that each takes five bytes. -/
def spaced (b n : Nat) : List ItemPointer := (List.range' b n).map fun i => ⟨i * 131072, 1⟩

theorem packs_spaced {i : Nat} (h : i < 32768) : Packs ⟨i * 131072, 1⟩ := by
  have hoff : 1 < 2 ^ MaxHeapTuplesPerPageBits := by decide
  refine ⟨?_, rfl, hoff⟩
  simp only
  omega

theorem spaced_uint64 {i : Nat} (h : i < 32768) :
    itemptr_to_uint64 ⟨i * 131072, 1⟩ = i * 268435456 + 1 := by
  rw [itemptr_to_uint64_eq (packs_spaced h)]
  simp only
  omega

theorem pairwise_spaced (n : Nat) : ∀ b, (spaced b n).Pairwise Before := by
  intro b
  unfold spaced
  rw [List.pairwise_map]
  refine (List.pairwise_lt_range' (s := b) (n := n)).imp fun {i j} hij => Or.inl ?_
  simp only
  omega

/-- Five bytes for each item but the first. -/
theorem length_spaced (n : Nat) : ∀ b, b + n < 32768 →
    (deltaBytes (itemptr_to_uint64 ⟨b * 131072, 1⟩) (spaced (b + 1) n)).length = 5 * n := by
  induction n with
  | zero => exact fun _ _ => rfl
  | succ n ih =>
      intro b hb
      have hdelta : itemptr_to_uint64 ⟨(b + 1) * 131072, 1⟩ - itemptr_to_uint64 ⟨b * 131072, 1⟩ =
          268435456 := by
        rw [spaced_uint64 (by omega), spaced_uint64 (by omega)]
        omega
      have hfive : (encode_varbyte 268435456).length = 5 := by simp [encode_varbyte]
      have hrest := ih (b + 1) (by omega)
      rw [show spaced (b + 1) (n + 1) = ⟨(b + 1) * 131072, 1⟩ :: spaced (b + 1 + 1) n from rfl, deltaBytes,
        List.length_append, hdelta, hfive, hrest]
      omega

/-- The size of the segment for spaced items, with the count as `nbytes` has it. -/
theorem compress_spaced (n : Nat) (hn : n < 32768) (maxsize : Nat)
    (hmax : 5 * n ≤ SHORTALIGN_DOWN maxsize - offsetofBytes) :
    ∃ seg, ginCompressPostingList (spaced 0 (n + 1)) maxsize = some (seg, n + 1) ∧
      SizeOfGinPostingList seg = offsetofBytes + SHORTALIGN (5 * n % 65536) := by
  have hcons : spaced 0 (n + 1) = ⟨0 * 131072, 1⟩ :: spaced (0 + 1) n := rfl
  have hlen := length_spaced n 0 (by omega)
  have hpacks : ∀ p ∈ spaced 0 (n + 1), Packs p := by
    intro p hp
    obtain ⟨i, hi, rfl⟩ := List.mem_map.mp hp
    have := List.mem_range'_1.mp hi
    exact packs_spaced (by omega)
  have hcount : (⟨0 * 131072, 1⟩ :: spaced (0 + 1) n : List ItemPointer).length = n + 1 := by
    simp [spaced]
  have hsorted := pairwise_spaced (n + 1) 0
  rw [hcons] at hpacks hsorted ⊢
  have hf := follows_of_pairwise hpacks hsorted
  obtain ⟨seg, hseg⟩ := (compress_complete hf).mpr (by rw [hlen]; exact hmax)
  have hsize : SizeOfGinPostingList seg = offsetofBytes + SHORTALIGN (5 * n % 65536) := by
    rw [compress_eq hf hseg]
    show offsetofBytes + SHORTALIGN (UInt16.ofNat _).toNat = _
    rw [hlen, UInt16.toNat_ofNat']
  rw [hcount] at hseg
  exact ⟨seg, hseg, hsize⟩

/-- **Within 65548 bytes the count wraps**: 13109 items take 65540 bytes, of which `nbytes` has kept 4; the
    first 13108 of them take 65535, which it has room for. -/
theorem compress_sublist_wraps :
    (∀ p ∈ spaced 0 13109, Packs p) ∧ (spaced 0 13109).Pairwise Before ∧
    (spaced 0 13108).Sublist (spaced 0 13109) ∧ ∃ seg seg',
      ginCompressPostingList (spaced 0 13109) 65548 = some (seg, 13109) ∧
      ginCompressPostingList (spaced 0 13108) 65548 = some (seg', 13108) ∧
      SizeOfGinPostingList seg = 12 ∧ SizeOfGinPostingList seg' = 65544 := by
  refine ⟨fun p hp => ?_, pairwise_spaced _ _, ?_, ?_⟩
  · obtain ⟨i, hi, rfl⟩ := List.mem_map.mp hp
    have := List.mem_range'_1.mp hi
    exact packs_spaced (by omega)
  · exact ((List.range'_sublist_right).mpr (by decide)).map _
  · obtain ⟨seg, h1, h2⟩ := compress_spaced 13108 (by decide) 65548 (by decide)
    obtain ⟨seg', h1', h2'⟩ := compress_spaced 13107 (by decide) 65548 (by decide)
    exact ⟨seg, seg', h1, h1', h2, h2'⟩

end Pgvec.Gin
