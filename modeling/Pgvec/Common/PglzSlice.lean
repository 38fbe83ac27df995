/-
  File:      Pgvec/Common/PglzSlice.lean
  Subject:   DECOMPRESSING THE FIRST BYTES OF A VALUE (`src/common/pg_lzcompress.c`).

  A caller that wants the first `k` bytes of a compressed value fetches the first
  `pglz_maximum_compressed_size(k, n)` of its `n` bytes. The decoder never needs more: `decompressLoop_spec` goes
  through with `needed k 0` bytes, and `needed_le` compares this with the bound.

  * `maximum_size_enough` -- the bytes fetched are all there are, or as many as are needed;
  * **`slice_of_compressed`**.
-/
import Pgvec.Common.PglzRoundTrip

namespace Pgvec.Pglz

/-- `pglz_maximum_compressed_size`, in 64 bits throughout: one control bit a byte, rounded up; two bytes more for
    a tag at the end; and never more than there is. -/
def pglz_maximum_compressed_size (rawsize total_compressed_size : Nat) : Nat :=
  let compressed_size := (rawsize * 9 + 7) / 8
  let compressed_size := compressed_size + 2
  min compressed_size total_compressed_size

theorem needed_le (k : Nat) : needed k 0 ≤ (k * 9 + 7) / 8 + 2 := by
  unfold needed
  split <;> omega

theorem maximum_size_enough (k : Nat) (buf : List UInt8) :
    min (needed k 0) buf.length ≤ (buf.take (pglz_maximum_compressed_size k buf.length)).length := by
  have := needed_le k
  rw [List.length_take]
  unfold pglz_maximum_compressed_size
  simp only
  omega

/-- **A slice of a compressed value.** Whatever the source, the strategy and the contents of the history arrays:
    from the first `pglz_maximum_compressed_size` bytes of the `n` that `pglz_compress` returns, `pglz_decompress`
    gives exactly the first `k` bytes of the source. -/
theorem slice_of_compressed (source : List UInt8) (strategy : Option PGLZ_Strategy) (hist : History) :
    ∃ c, pglz_compress hist source strategy = some c ∧ ∀ n, c.result = some n → c.buf.length = n ∧
      ∀ k, k ≤ source.length →
        pglz_decompress (c.buf.take (pglz_maximum_compressed_size k n)) k false = some (some (source.take k)) := by
  obtain ⟨r, buf, hrun, -, hres⟩ := compress_groups source strategy
  obtain ⟨c, hc, he⟩ := Option.map_eq_some_iff.mp (hrun hist)
  obtain ⟨rfl, rfl⟩ := Prod.mk.inj he
  refine ⟨c, hc, fun n hn => ?_⟩
  obtain ⟨-, rfl, groups, hbuf, hg, hp⟩ := hres n hn
  refine ⟨rfl, fun k hk => ?_⟩
  have henough := maximum_size_enough k c.buf
  have hpre := List.take_prefix (pglz_maximum_compressed_size k c.buf.length) c.buf
  generalize c.buf.take (pglz_maximum_compressed_size k c.buf.length) = fetched at henough hpre ⊢
  rw [hbuf] at henough hpre
  obtain ⟨sp, hloop, -⟩ := decompressLoop_spec hk hg (show fetched.drop 0 <+: _ from hpre)
    (show min (needed (k - 0) 0) _ ≤ fetched.length - 0 from henough) (Nat.zero_le k) hp
    (show fetched.length - 0 < fetched.length + 1 from Nat.lt_succ_self _)
  rw [List.take_zero] at hloop
  unfold pglz_decompress
  rw [hloop]
  simp

end Pgvec.Pglz
