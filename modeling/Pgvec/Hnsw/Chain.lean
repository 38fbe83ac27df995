/-
  File:      Pgvec/Hnsw/Chain.lean
  Subject:   THE PAGES OF AN INDEX AS A CHAIN, and the room on them.

  * `Index.Chained` -- the blocks follow each other by number, the last one has no successor, and all
    pages have the same item area; kept by every change inside a page and by a page appended at the end;
  * `addItem_isSome` -- an item goes to the end of a page that has room;
  * `free_initPage`, `freeSpace_addItem`, `neighborSize_le` -- the sizes behind the placement of tuples.
-/
import Pgvec.Hnsw.Lookup

namespace Pgvec.Hnsw

open Storage Storage.Page

variable {V : Type}

/-- Where the item area of an index page ends. -/
def itemAreaEnd : Nat := BLCKSZ - MAXALIGN sizeofHnswPageOpaqueData

/-- **The pages are a chain**: each block is linked to the next one, the last to none. -/
structure Index.Chained (idx : Index V) : Prop where
  pos : 1 ≤ idx.pages.length
  next : ∀ {b p}, idx.page? b = some p →
    p.nextblkno = if b < idx.pages.length then some (b + 1) else none
  special : ∀ {b p}, idx.page? b = some p → p.page.pd_special = itemAreaEnd

namespace Index.Chained

variable {idx idx' : Index V}

theorem same (h : idx.Chained) (hs : Same idx idx') : idx'.Chained where
  pos := by rw [hs.length]; exact h.pos
  next {b p} hp := by
    have hn := hs.next b
    rw [hp] at hn
    obtain ⟨q, hq, hqp⟩ := Option.map_eq_some_iff.mp hn.symm
    rw [hs.length]
    exact hqp.symm.trans (h.next hq)
  special {b p} hp := by
    have hn := hs.special b
    rw [hp] at hn
    obtain ⟨q, hq, hqp⟩ := Option.map_eq_some_iff.mp hn.symm
    exact hqp.symm.trans (h.special hq)

/-- A change of the metapage does not touch the pages. -/
theorem metap (h : idx.Chained) (metap : HnswMetaPage) : ({ idx with metap := metap } : Index V).Chained :=
  ⟨h.pos, fun hp => h.next hp, fun hp => h.special hp⟩

/-- The last block is there. -/
theorem last (h : idx.Chained) : ∃ p, idx.page? idx.pages.length = some p :=
  Index.page?_isSome h.pos (Nat.le_refl _)

/-- **A page appended after the last one.** -/
theorem append (h : idx.Chained) : (HnswInsertAppendPage idx idx.pages.length).1.Chained := by
  obtain ⟨p, hp⟩ := h.last
  have hlen := append_length idx idx.pages.length
  refine ⟨by omega, fun {b q} hq => ?_, fun {b q} hq => ?_⟩
  · rw [page?_append hp] at hq
    rw [hlen]
    split at hq
    · rename_i e
      cases hq
      rw [if_pos (by omega), e]
    · split at hq
      · rename_i e
        cases hq
        rw [if_neg (by omega)]
        rfl
      · rename_i e1 e2
        have hb := Index.page?_pos hq
        rw [h.next hq, if_pos (by omega), if_pos (by omega)]
  · rw [page?_append hp] at hq
    split at hq
    · cases hq
      exact h.special (p := p) hp
    · split at hq
      · cases hq
        rfl
      · exact h.special hq

end Index.Chained

/-! ## 1. Room -/

/-- The room on a fresh page. -/
theorem free_initPage : (HnswInitPage : HnswPage V).page.PageGetFreeSpace = HNSW_MAX_SIZE := by
  unfold PageGetFreeSpace pd_upper pd_lower HnswInitPage PageInit usedSpace
  rfl

/-- No page has more room than a fresh one. -/
theorem free_le {p : Page (HnswItem V)} (h : p.pd_special = itemAreaEnd) :
    p.PageGetExactFreeSpace ≤ HNSW_MAX_SIZE + sizeofItemIdData := by
  unfold PageGetExactFreeSpace pd_upper pd_lower
  rw [h]
  have : itemAreaEnd - SizeOfPageHeaderData = HNSW_MAX_SIZE + sizeofItemIdData := by decide
  omega

variable {idx : Index V} {b size : Nat} {p : HnswPage V}

/-- **An item goes to the end of a page with room**, which has so much less afterwards. -/
theorem addItem_isSome (it : HnswItem V) (hp : idx.page? b = some p) (hs : 0 < size)
    (h : MAXALIGN size ≤ p.page.PageGetFreeSpace) :
    ∃ idx' q, idx.addItem b it size = some (idx', p.page.PageGetMaxOffsetNumber + 1) ∧
      idx'.page? b = some q ∧ q.page.PageGetMaxOffsetNumber = p.page.PageGetMaxOffsetNumber + 1 ∧
      q.page.PageGetExactFreeSpace + sizeofItemIdData + MAXALIGN size = p.page.PageGetExactFreeSpace := by
  obtain ⟨⟨q, off⟩, hq⟩ := Option.isSome_iff_exists.mp ((pageAddItem_isSome (x := it) hs).mpr h)
  obtain ⟨hi, _, hoff⟩ := pageAddItem_eq hq
  refine ⟨idx.setPage b { p with page := q }, { p with page := q }, ?_, ?_, ?_, exactFree_add hq⟩
  · unfold Index.addItem
    rw [hp]
    simp only [hq, hoff]
    rfl
  · rw [Index.page?_setPage hp, if_pos rfl]
  · show q.items.length = p.page.items.length + 1
    rw [hi]
    simp

/-! ## 2. Sizes of tuples -/

theorem elementSize_aligned (size : Nat) :
    MAXALIGN (HNSW_ELEMENT_TUPLE_SIZE size) = HNSW_ELEMENT_TUPLE_SIZE size := maxalign_maxalign _

theorem neighborSize_aligned (level m : Nat) :
    MAXALIGN (HNSW_NEIGHBOR_TUPLE_SIZE level m) = HNSW_NEIGHBOR_TUPLE_SIZE level m := maxalign_maxalign _

theorem elementSize_pos (size : Nat) : 0 < HNSW_ELEMENT_TUPLE_SIZE size := by
  have := le_maxalign (offsetofData + size)
  unfold HNSW_ELEMENT_TUPLE_SIZE offsetofData at *
  omega

theorem neighborSize_pos (level m : Nat) : 0 < HNSW_NEIGHBOR_TUPLE_SIZE level m := by
  have := le_maxalign (offsetofIndextids + (level + 2) * m * sizeofItemPointerData)
  unfold HNSW_NEIGHBOR_TUPLE_SIZE offsetofIndextids at *
  omega

/-- **A neighbor tuple of any level that is drawn fits on a fresh page.** -/
theorem neighborSize_le {level m : Nat} (h2 : 2 ≤ m) (h100 : m ≤ 100) (hl : level ≤ HnswGetMaxLevel m) :
    HNSW_NEIGHBOR_TUPLE_SIZE level m ≤ HNSW_MAX_SIZE := by
  have hmax : HnswGetMaxLevel m ≤ 1358 / m - 2 := Nat.min_le_left _ _
  have hq : 13 ≤ 1358 / m := (Nat.le_div_iff_mul_le (by omega)).mpr (by omega)
  have hslots : (level + 2) * m ≤ 1358 :=
    (Nat.le_div_iff_mul_le (by omega)).mp (show level + 2 ≤ 1358 / m by omega)
  have hmaxsize : HNSW_MAX_SIZE = 8156 := by decide
  rw [hmaxsize]
  unfold HNSW_NEIGHBOR_TUPLE_SIZE MAXALIGN offsetofIndextids sizeofItemPointerData
  omega

end Pgvec.Hnsw
