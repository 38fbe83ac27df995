/-
  File:      Pgvec/Storage/BulkDelete.lean
  Subject:   BULK DELETE EQUALS RETAIL DELETE: `PageIndexMultiDelete` leaves the contents, `pd_lower` and
             `pd_upper` that `PageIndexTupleDelete` leaves, one offset number after the other from the
             highest down.

  * `matched` -- how the loop walks through `itemnos`; `matched_of_sublist`, `sublist_of_matched` -- it gets
    to the end exactly when `itemnos` is strictly increasing and names line pointers that exist;
  * `keptItems`, `deleteLoop_spec` -- what the loop collects;
  * `deleteEach_layout`, `erase_eq_filter` -- the retail side;
  * **`multi_delete_eq_retail`**.
-/
import Pgvec.Storage.Defragment
import Pgvec.Storage.ItemStore

namespace Pgvec.Storage.Bufpage

open Blocks

/-! ## 1. Walking through `itemnos` -/

/-- The offset numbers that are kept, and `nextitm` at the end, from `nextitm = j` on. -/
def matched (itemnos : List Nat) : List Nat → Nat → List Nat × Nat
  | [], j => ([], j)
  | o :: os, j =>
      if itemnos[j]? = some o then matched itemnos os (j + 1)
      else (o :: (matched itemnos os j).1, (matched itemnos os j).2)

variable {itemnos : List Nat}

/-- **What is left of `itemnos` stands in order among the offset numbers**: the loop gets to its end and keeps
    the others. -/
theorem matched_of_sublist : ∀ (os : List Nat) (j : Nat), j ≤ itemnos.length → os.Nodup →
    (itemnos.drop j).Sublist os →
    matched itemnos os j = (os.filter fun o => o ∉ itemnos.drop j, itemnos.length)
  | [], j, hj, _, hs => by
      have hlen : (itemnos.drop j).length = 0 := by rw [List.sublist_nil.mp hs, List.length_nil]
      rw [List.length_drop] at hlen
      have he : j = itemnos.length := by omega
      rw [he]
      rfl
  | o :: os, j, hj, hn, hs => by
      rw [List.nodup_cons] at hn
      unfold matched
      by_cases hm : itemnos[j]? = some o
      · obtain ⟨hlt, hget⟩ := List.getElem?_eq_some_iff.mp hm
        have hdrop : itemnos.drop j = o :: itemnos.drop (j + 1) := by
          rw [List.drop_eq_getElem_cons hlt, hget]
        rw [hdrop] at hs ⊢
        rw [if_pos hm, matched_of_sublist os (j + 1) hlt hn.2 (List.cons_sublist_cons.mp hs)]
        congr 1
        rw [List.filter_cons_of_neg (by simp)]
        refine List.filter_congr fun o' ho' => decide_eq_decide.mpr (not_congr ?_)
        have hne : o' ≠ o := fun he => hn.1 (he ▸ ho')
        simp only [List.mem_cons, hne, false_or]
      · -- the offset number is not the next one, so it is none of them
        have hs' : (itemnos.drop j).Sublist os := by
          cases hd : itemnos.drop j with
          | nil => exact List.nil_sublist _
          | cons x rest =>
              rw [hd] at hs
              rcases List.sublist_cons_iff.mp hs with h | ⟨r, he, _⟩
              · exact h
              · have hx : x = o := (List.cons.inj he).1
                have hget : itemnos[j]? = some x := by
                  rw [← List.head?_drop, hd]
                  rfl
                exact absurd (hx ▸ hget) hm
        have hno : o ∉ itemnos.drop j := fun ho => hn.1 (hs'.subset ho)
        rw [if_neg hm, matched_of_sublist os j hj hn.2 hs', List.filter_cons_of_pos (by simpa using hno)]

/-- **The loop gets to the end** of `itemnos` only through offset numbers in order. -/
theorem sublist_of_matched : ∀ (os : List Nat) (j : Nat), (matched itemnos os j).2 = itemnos.length →
    (itemnos.drop j).Sublist os
  | [], j, h => by
      have he : j = itemnos.length := h
      rw [he, List.drop_length]
  | o :: os, j, h => by
      unfold matched at h
      split at h
      · rename_i hm
        obtain ⟨hlt, hget⟩ := List.getElem?_eq_some_iff.mp hm
        rw [List.drop_eq_getElem_cons hlt, hget]
        exact (sublist_of_matched os (j + 1) h).cons_cons o
      · exact (sublist_of_matched os j h).cons o

/-- In order among the line pointers: strictly increasing, and they exist. -/
theorem sublist_range_iff {n : Nat} : itemnos.Sublist (List.range' 1 n) ↔
    itemnos.Pairwise (· < ·) ∧ ∀ o ∈ itemnos, 1 ≤ o ∧ o ≤ n := by
  have hsorted : (List.range' 1 n).Pairwise (· < ·) := List.pairwise_lt_range'
  constructor
  · intro h
    refine ⟨hsorted.sublist h, fun o ho => ?_⟩
    obtain ⟨h1, h2⟩ := List.mem_range'_1.mp (h.subset ho)
    exact ⟨h1, by omega⟩
  · intro ⟨hp, hin⟩
    refine List.sublist_of_subperm_of_pairwise (List.subperm_of_subset hp.nodup fun o ho => ?_) hp hsorted
    obtain ⟨h1, h2⟩ := hin o ho
    exact List.mem_range'_1.mpr ⟨h1, by omega⟩

/-! ## 2. The loop over the line pointers -/

/-- The items of the kept offset numbers, which get the indices from `i` on. -/
def keptItems (page : Page) : Nat → List Nat → List itemIdCompactData
  | _, [] => []
  | i, o :: os =>
      ⟨i, (PageGetItemId page o).lp_off, MAXALIGN (PageGetItemId page o).lp_len⟩ :: keptItems page (i + 1) os

/-- **What the loop makes of its variables.** -/
structure Collected (page : Page) (itemnos os : List Nat) (s s' : DeleteScan) : Prop where
  itemidbase : s'.itemidbase =
    s.itemidbase ++ keptItems page s.newitemids.length (matched itemnos os s.nextitm).1
  newitemids : s'.newitemids = s.newitemids ++ (matched itemnos os s.nextitm).1.map (PageGetItemId page)
  totallen : s'.totallen =
    s.totallen + total (blocks (keptItems page s.newitemids.length (matched itemnos os s.nextitm).1))
  nextitm : s'.nextitm = (matched itemnos os s.nextitm).2
  presorted : s'.presorted = true → s.presorted = true ∧
    Falling s.last_offset (keptItems page s.newitemids.length (matched itemnos os s.nextitm).1)

variable {page : Page}

/-- **The loop**, when every line pointer makes sense. -/
theorem deleteLoop_spec (itemnos : List Nat) : ∀ (os : List Nat) (s : DeleteScan),
    (∀ o ∈ os, ¬ CorruptedLinePointer page (PageGetItemId page o).lp_off (PageGetItemId page o).lp_len) →
    ∃ s', deleteLoop page itemnos os s = .ok s' ∧ Collected page itemnos os s s'
  | [], s, _ =>
      ⟨s, rfl, (List.append_nil _).symm, (List.append_nil _).symm, rfl, rfl, fun h => ⟨h, trivial⟩⟩
  | o :: os, s, hok => by
      have hrest := fun o' ho' => hok o' (List.mem_cons_of_mem o ho')
      unfold deleteLoop
      simp only
      rw [if_neg (hok o List.mem_cons_self)]
      by_cases hm : itemnos[s.nextitm]? = some o
      · have hmatched : matched itemnos (o :: os) s.nextitm = matched itemnos os (s.nextitm + 1) := if_pos hm
        rw [if_pos hm]
        obtain ⟨s', hr, hc⟩ := deleteLoop_spec itemnos os { s with nextitm := s.nextitm + 1 } hrest
        obtain ⟨g1, g2, g3, g4, g5⟩ := hc
        refine ⟨s', hr, ?_, ?_, ?_, ?_, ?_⟩ <;> rw [hmatched] <;> assumption
      · have hmatched : matched itemnos (o :: os) s.nextitm =
            (o :: (matched itemnos os s.nextitm).1, (matched itemnos os s.nextitm).2) := if_neg hm
        rw [if_neg hm]
        obtain ⟨s', hr, hc⟩ := deleteLoop_spec itemnos os
          { s with
            itemidbase := s.itemidbase ++
              [⟨s.newitemids.length, (PageGetItemId page o).lp_off, MAXALIGN (PageGetItemId page o).lp_len⟩]
            newitemids := s.newitemids ++ [PageGetItemId page o]
            totallen := s.totallen + MAXALIGN (PageGetItemId page o).lp_len
            last_offset := if s.last_offset > (PageGetItemId page o).lp_off then
              (PageGetItemId page o).lp_off else s.last_offset
            presorted := if s.last_offset > (PageGetItemId page o).lp_off then s.presorted else false } hrest
        obtain ⟨g1, g2, g3, g4, g5⟩ := hc
        simp only [List.length_append, List.length_singleton] at g1 g2 g3 g4 g5
        refine ⟨s', hr, ?_, ?_, ?_, ?_, fun hp => ?_⟩
        · rw [hmatched, g1, List.append_assoc]
          rfl
        · rw [hmatched, g2, List.append_assoc]
          rfl
        · rw [hmatched, g3, Nat.add_assoc]
          rfl
        · rw [hmatched, g4]
        · obtain ⟨hp1, hp2⟩ := g5 hp
          rw [hmatched]
          split at hp1
          · rename_i hgt
            rw [if_pos hgt] at hp2
            exact ⟨hp1, hgt, hp2⟩
          · cases hp1

/-! ## 3. The bulk side -/

theorem keptItems_map {β : Type} (page : Page) (f : Nat → β) : ∀ (os : List Nat) (i : Nat),
    (keptItems page i os).map (fun item => f item.offsetindex) = (List.range' i os.length).map f
  | [], _ => rfl
  | o :: os, i => by
      unfold keptItems
      rw [List.map_cons, keptItems_map page f os (i + 1), List.length_cons, List.range'_succ, List.map_cons]

theorem blocks_keptItems (page : Page) : ∀ (os : List Nat) (i : Nat),
    blocks (keptItems page i os) = (os.map (PageGetItemId page)).map (·.block)
  | [], _ => rfl
  | o :: os, i => by
      unfold keptItems
      rw [blocks_cons, blocks_keptItems page os (i + 1)]
      rfl

/-- The page with the line pointers that are kept. -/
def keptPage (page : Page) (kept : List Nat) : Page :=
  { page with
    pd_linp := store page.pd_linp 0 (kept.map (PageGetItemId page))
    pd_lower := SizeOfPageHeaderData + kept.length * sizeofItemIdData }

/-- An item that is kept: its line pointer is the old one. -/
theorem keptItems_linp (page : Page) (linp : Nat → ItemIdData) : ∀ (os done : List Nat) (item : itemIdCompactData),
    item ∈ keptItems page done.length os → ∃ o ∈ os,
      store linp 0 ((done ++ os).map (PageGetItemId page)) item.offsetindex = PageGetItemId page o ∧
      item.itemoff = (PageGetItemId page o).lp_off ∧ item.alignedlen = MAXALIGN (PageGetItemId page o).lp_len
  | [], _, _, h => absurd h List.not_mem_nil
  | o :: os, done, item, h => by
      unfold keptItems at h
      rcases List.mem_cons.mp h with rfl | h
      · refine ⟨o, List.mem_cons_self, ?_, rfl, rfl⟩
        have hlt : done.length < ((done ++ o :: os).map (PageGetItemId page)).length := by
          rw [List.length_map, List.length_append, List.length_cons]
          omega
        rw [store_zero hlt, List.getElem_map, List.getElem_append_right (Nat.le_refl _)]
        simp only [Nat.sub_self, List.getElem_cons_zero]
      · have hlen : done.length + 1 = (done ++ [o]).length := by rw [List.length_append, List.length_singleton]
        rw [hlen] at h
        obtain ⟨o', ho', h1, h2, h3⟩ := keptItems_linp page linp os (done ++ [o]) item h
        rw [List.append_assoc] at h1
        exact ⟨o', List.mem_cons_of_mem _ ho', h1, h2, h3⟩

section Bulk

variable {kept : List Nat}

theorem kept_sublist (hk : kept.Sublist (List.range' 1 (PageGetMaxOffsetNumber page))) :
    (kept.map (PageGetItemId page)).Sublist (itemIds page) := by
  rw [itemIds_eq]
  exact hk.map _

theorem kept_compactable (h : Layout page) (hk : kept.Sublist (List.range' 1 (PageGetMaxOffsetNumber page))) :
    Compactable (keptPage page kept) (keptItems page 0 kept) where
  upper_le := h.upper_le
  apart := by
    rw [blocks_keptItems, List.pairwise_map]
    exact h.tiled.apart.sublist (kept_sublist hk)
  within := by
    rw [blocks_keptItems]
    intro b hb
    obtain ⟨x, hx, rfl⟩ := List.mem_map.mp hb
    exact h.tiled.within x ((kept_sublist hk).subset hx)
  offset := by
    intro item hi
    obtain ⟨o, _, h1, h2, _⟩ := keptItems_linp page page.pd_linp kept [] item hi
    simp only [keptPage]
    rw [List.nil_append] at h1
    rw [h1, h2]

theorem kept_measured (h : Layout page) (hk : kept.Sublist (List.range' 1 (PageGetMaxOffsetNumber page))) :
    Measured (keptPage page kept).pd_linp (keptItems page 0 kept) := by
  intro item hi
  obtain ⟨o, ho, h1, _, h3⟩ := keptItems_linp page page.pd_linp kept [] item hi
  rw [List.nil_append] at h1
  simp only [keptPage]
  rw [h1]
  exact ⟨h3, h.tiled.len _ ((kept_sublist hk).subset (List.mem_map_of_mem ho))⟩

theorem kept_nodup (page : Page) (kept : List Nat) : ((keptItems page 0 kept).map (·.offsetindex)).Nodup := by
  rw [keptItems_map page (fun i => i), List.map_id']
  exact List.nodup_range'

/-- The page once the gaps between the kept items are closed. -/
theorem Compacted.kept_layout {q : Page} (h : Layout page)
    (hk : kept.Sublist (List.range' 1 (PageGetMaxOffsetNumber page)))
    (hc : Compacted (keptPage page kept) q (keptItems page 0 kept)) :
    Layout q ∧ contents q = kept.map (PageGetItem page) ∧ q.pd_special = page.pd_special := by
  have hcomp := kept_compactable h hk
  have hmeas := kept_measured h hk
  have hnodup := kept_nodup page kept
  have htotal := hcomp.total_le
  have hs : (keptPage page kept).pd_special = page.pd_special := rfl
  have hu : (keptPage page kept).pd_upper = page.pd_upper := rfl
  have hb : (keptPage page kept).bytes = page.bytes := rfl
  have hlow : q.pd_lower = SizeOfPageHeaderData + kept.length * sizeofItemIdData := hc.lower
  have hupper := hc.upper
  rw [hs] at hupper htotal
  rw [hu] at htotal
  have hmax : PageGetMaxOffsetNumber q = kept.length := maxOffset_of_lower (by rw [hlow, Nat.mul_comm])
  have hids : itemIds q = (keptItems page 0 kept).map fun item => q.pd_linp item.offsetindex := by
    rw [keptItems_map, itemIds, hmax, List.range_eq_range']
  have hcount := hk.length_le
  rw [List.length_range'] at hcount
  have hplow := h.lower
  have hple := h.lower_le
  have hpup := h.upper_le
  have hspecial : q.pd_special = page.pd_special := hc.special
  refine ⟨⟨?_, ?_, ?_, ?_, ?_, ?_⟩, ?_, hspecial⟩
  · rw [hmax, hlow, Nat.mul_comm]
  · rw [hlow, hupper]
    unfold SizeOfPageHeaderData sizeofItemIdData at *
    omega
  · rw [hupper, hspecial]
    exact Nat.sub_le _ _
  · rw [hspecial]
    exact h.special_le
  · rw [hspecial]
    exact h.special
  · rw [hids]
    exact hc.tiled hcomp hmeas hnodup (mod_of_aligned h.special)
  · rw [contents_eq, hids, List.map_map]
    have hread := hc.read hcomp hmeas hnodup
    have hold : (keptItems page 0 kept).map (fun item => (keptPage page kept).pd_linp item.offsetindex) =
        kept.map (PageGetItemId page) := by
      rw [keptItems_map]
      refine List.ext_getElem (by simp only [List.length_map, List.length_range']) fun i h1 h2 => ?_
      simp only [List.getElem_map, List.getElem_range', Nat.zero_add, Nat.one_mul, keptPage]
      rw [store_zero h2, List.getElem_map]
    calc (keptItems page 0 kept).map (Bufpage.read q.bytes ∘ fun item => q.pd_linp item.offsetindex)
        = (keptItems page 0 kept).map fun item =>
            Bufpage.read page.bytes ((keptPage page kept).pd_linp item.offsetindex) :=
          List.map_congr_left hread
      _ = ((keptItems page 0 kept).map fun item => (keptPage page kept).pd_linp item.offsetindex).map
            (Bufpage.read page.bytes) := by
          rw [List.map_map]
          rfl
      _ = kept.map (PageGetItem page) := by
          rw [hold, List.map_map]
          rfl

/-- **`PageIndexMultiDelete`** of more than two items that are there, in order. -/
theorem PageIndexMultiDelete_layout (scratch : Nat → UInt8) (h : Layout page) (hlen : 2 < itemnos.length)
    (hs : itemnos.Sublist (List.range' 1 (PageGetMaxOffsetNumber page))) :
    ∃ q, PageIndexMultiDelete scratch page itemnos = (.ok (), q) ∧ Layout q ∧
      contents q = ((List.range' 1 (PageGetMaxOffsetNumber page)).filter fun o => o ∉ itemnos).map
        (PageGetItem page) ∧ q.pd_special = page.pd_special := by
  obtain ⟨kept, hkept⟩ : ∃ kept, (List.range' 1 (PageGetMaxOffsetNumber page)).filter (fun o => o ∉ itemnos) = kept :=
    ⟨_, rfl⟩
  rw [hkept]
  have hsub : kept.Sublist (List.range' 1 (PageGetMaxOffsetNumber page)) := hkept ▸ List.filter_sublist
  have hmatched : matched itemnos (List.range' 1 (PageGetMaxOffsetNumber page)) 0 = (kept, itemnos.length) := by
    rw [matched_of_sublist _ 0 (Nat.zero_le _) List.nodup_range' (by rw [List.drop_zero]; exact hs),
      List.drop_zero, hkept]
  obtain ⟨s, hr, hc⟩ := deleteLoop_spec itemnos (List.range' 1 (PageGetMaxOffsetNumber page))
    ⟨[], [], 0, 0, page.pd_special, true⟩ h.linePointers
  obtain ⟨g1, g2, g3, g4, g5⟩ := hc
  simp only [hmatched, List.nil_append, List.length_nil, Nat.zero_add] at g1 g2 g3 g4 g5
  have hcomp := kept_compactable h hsub
  have htotal : total (blocks (keptItems page 0 kept)) ≤ page.pd_special - page.pd_upper := hcomp.total_le
  have hle := h.lower_le
  have hroom : ¬ total (blocks (keptItems page 0 kept)) > page.pd_special - page.pd_lower := by omega
  have hbulk : ∃ q, PageIndexMultiDelete scratch page itemnos = (.ok (), q) ∧
      Compacted (keptPage page kept) q (keptItems page 0 kept) := by
    unfold PageIndexMultiDelete
    rw [if_neg (Nat.not_le.mpr hlen), if_neg h.header, FirstOffsetNumber, hr]
    simp only [g1, g2, g3, g4, ne_eq, not_true_eq_false, if_false, List.length_map]
    rw [if_neg hroom]
    split
    · rename_i hpos
      refine ⟨_, rfl, compactify_tuples_spec scratch hcomp (fun hp => (falling_pairwise (g5 hp).2).1) ?_⟩
      intro hempty
      have hzero := congrArg List.length hempty
      rw [← List.length_map (f := (·.offsetindex)), keptItems_map page (fun i => i)] at hzero
      simp only [List.length_map, List.length_range', List.length_nil] at hzero
      omega
    · -- every item is deleted
      rename_i hpos
      have hnil : kept = [] := List.eq_nil_of_length_eq_zero (Nat.eq_zero_of_not_pos hpos)
      refine ⟨_, rfl, ?_⟩
      rw [hnil]
      exact ⟨rfl, rfl, rfl, rfl, trivial, fun _ _ => rfl, rfl⟩
  obtain ⟨q, hq, hcq⟩ := hbulk
  obtain ⟨h1, h2, h3⟩ := hcq.kept_layout h hsub
  exact ⟨q, hq, h1, h2, h3⟩

/-- **`PageIndexMultiDelete`** raises its error for the other arrays of more than two entries. -/
theorem PageIndexMultiDelete_error (scratch : Nat → UInt8) (h : Layout page) (hlen : 2 < itemnos.length)
    (hs : ¬ itemnos.Sublist (List.range' 1 (PageGetMaxOffsetNumber page))) :
    PageIndexMultiDelete scratch page itemnos = (.error ⟨.ERROR, "incorrect index offsets supplied"⟩, page) := by
  obtain ⟨s, hr, hc⟩ := deleteLoop_spec itemnos (List.range' 1 (PageGetMaxOffsetNumber page))
    ⟨[], [], 0, 0, page.pd_special, true⟩ h.linePointers
  have hnext : s.nextitm ≠ itemnos.length := by
    rw [hc.nextitm]
    intro he
    have hsub := sublist_of_matched _ _ he
    rw [List.drop_zero] at hsub
    exact hs hsub
  unfold PageIndexMultiDelete
  rw [if_neg (Nat.not_le.mpr hlen), if_neg h.header, FirstOffsetNumber, hr]
  simp only
  rw [if_pos hnext]

end Bulk

/-! ## 4. The retail side -/

/-- **One item after the other**, from the highest down. -/
theorem deleteEach_layout : ∀ (offnums : List Nat) {page : Page}, Layout page →
    offnums.Pairwise (fun o o' => o' < o) → (∀ o ∈ offnums, 1 ≤ o ∧ o ≤ PageGetMaxOffsetNumber page) →
    ∃ r, deleteEach offnums page = (.ok (), r) ∧ Layout r ∧
      contents r = offnums.foldl (fun items o => items.eraseIdx (o - 1)) (contents page) ∧
      r.pd_special = page.pd_special
  | [], page, h, _, _ => ⟨page, rfl, h, rfl, rfl⟩
  | o :: offnums, page, h, hp, hin => by
      rw [List.pairwise_cons] at hp
      obtain ⟨h1, hn⟩ := hin o List.mem_cons_self
      obtain ⟨q, hq, hlq, hc, hs, _⟩ := PageIndexTupleDelete_layout h (Nat.pos_iff_ne_zero.mp h1) hn
      have hmax : PageGetMaxOffsetNumber q = PageGetMaxOffsetNumber page - 1 := by
        rw [← length_contents, hc, List.length_eraseIdx_of_lt (by rw [length_contents]; omega), length_contents]
      obtain ⟨r, hr, hlr, hcr, hsr⟩ := deleteEach_layout offnums hlq hp.2 fun o' ho' => by
        have hlt := hp.1 o' ho'
        exact ⟨(hin o' (List.mem_cons_of_mem _ ho')).1, by omega⟩
      refine ⟨r, ?_, hlr, ?_, hsr.trans hs⟩
      · unfold deleteEach
        rw [hq]
        exact hr
      · rw [hcr, hc]
        rfl

/-- Deleting positions from the highest down leaves the others. -/
theorem erase_eq_filter (n : Nat) : ∀ (l : List Nat), l.Pairwise (· < ·) → (∀ o ∈ l, 1 ≤ o ∧ o ≤ n) →
    l.foldr (fun o items => items.eraseIdx (o - 1)) (List.range' 1 n) =
      (List.range' 1 n).filter fun o => o ∉ l
  | [], _, _ => (List.filter_eq_self.mpr fun _ _ => decide_eq_true List.not_mem_nil).symm
  | o :: l, hp, hin => by
      rw [List.pairwise_cons] at hp
      obtain ⟨h1, hn⟩ := hin o List.mem_cons_self
      rw [List.foldr_cons, erase_eq_filter n l hp.2 fun o' ho' => hin o' (List.mem_cons_of_mem _ ho')]
      -- the offset numbers up to `o` are all still there
      obtain ⟨k, rfl⟩ := Nat.exists_eq_add_of_le h1
      obtain ⟨m, rfl⟩ := Nat.exists_eq_add_of_le hn
      have hsplit : List.range' 1 (1 + k + m) = List.range' 1 k ++ (1 + k) :: List.range' (1 + k + 1) m := by
        rw [← List.range'_succ, show 1 + k + m = k + (m + 1) by omega, List.range'_append_1]
      have hbefore : ∀ l' : List Nat, (∀ o' ∈ l', 1 + k ≤ o') →
          (List.range' 1 k).filter (fun o' => o' ∉ l') = List.range' 1 k := by
        intro l' hl'
        refine List.filter_eq_self.mpr fun o' ho' => decide_eq_true fun hmem => ?_
        have := hl' o' hmem
        have := (List.mem_range'_1.mp ho').2
        omega
      have hno : 1 + k ∉ l := fun hmem => Nat.lt_irrefl _ (hp.1 _ hmem)
      have hafter : (List.range' (1 + k + 1) m).filter (fun o' => o' ∉ l) =
          (List.range' (1 + k + 1) m).filter fun o' => o' ∉ (1 + k) :: l := by
        refine List.filter_congr fun o' ho' => decide_eq_decide.mpr (not_congr ?_)
        have hne : o' ≠ 1 + k := by
          have := (List.mem_range'_1.mp ho').1
          omega
        simp only [List.mem_cons, hne, false_or]
      rw [hsplit, List.filter_append, List.filter_append, hbefore l fun o' ho' => (hp.1 o' ho').le,
        hbefore ((1 + k) :: l) (List.forall_mem_cons.mpr ⟨Nat.le_refl _, fun o' ho' => (hp.1 o' ho').le⟩),
        List.filter_cons_of_pos (by simpa using hno), List.filter_cons_of_neg (by simp), hafter,
        List.eraseIdx_append_of_length_le (by rw [List.length_range']; omega)]
      rw [List.length_range', Nat.add_sub_cancel_left, Nat.sub_self, List.eraseIdx_cons_zero]

theorem erase_map {α β : Type} (f : α → β) (l : List Nat) (xs : List α) :
    l.foldr (fun o items => items.eraseIdx (o - 1)) (xs.map f) =
      (l.foldr (fun o items => items.eraseIdx (o - 1)) xs).map f := by
  induction l with
  | nil => rfl
  | cons o l ih => rw [List.foldr_cons, ih, List.eraseIdx_map, List.foldr_cons]

/-- **The retail deletes** leave the items that are not named. -/
theorem retail_layout (h : Layout page) (hp : itemnos.Pairwise (· < ·))
    (hin : ∀ o ∈ itemnos, 1 ≤ o ∧ o ≤ PageGetMaxOffsetNumber page) :
    ∃ r, deleteEach itemnos.reverse page = (.ok (), r) ∧ Layout r ∧
      contents r = ((List.range' 1 (PageGetMaxOffsetNumber page)).filter fun o => o ∉ itemnos).map
        (PageGetItem page) ∧ r.pd_special = page.pd_special := by
  obtain ⟨r, hr, hl, hc, hs⟩ := deleteEach_layout itemnos.reverse h (List.pairwise_reverse.mpr hp)
    fun o ho => hin o (List.mem_reverse.mp ho)
  refine ⟨r, hr, hl, ?_, hs⟩
  rw [hc, List.foldl_reverse, contents, FirstOffsetNumber, erase_map, erase_eq_filter _ _ hp hin]

/-! ## 5. Bulk and retail -/

/-- **The layout is determined** by the contents and `pd_special`. -/
theorem Layout.determined {q r : Page} (hq : Layout q) (hr : Layout r) (hc : contents q = contents r)
    (hs : q.pd_special = r.pd_special) : q.pd_lower = r.pd_lower ∧ q.pd_upper = r.pd_upper := by
  have hu := hq.upper
  have hu' := hr.upper
  have hl : PageGetMaxOffsetNumber q = PageGetMaxOffsetNumber r := by
    rw [← length_contents q, hc, length_contents]
  rw [hc] at hu
  exact ⟨by rw [hq.lower, hr.lower, hl], by omega⟩

/-- An index page: its layout is right and it has not too many items. -/
structure IndexPage (page : Page) : Prop where
  layout : Layout page
  few : PageGetMaxOffsetNumber page ≤ MaxIndexTuplesPerPage

/-- **Bulk delete equals retail delete**: strictly increasing offset numbers of items that exist are deleted
    with the same outcome; any other array of more than two entries is refused, the page unchanged. -/
theorem multi_delete_eq_retail (scratch : Nat → UInt8) (h : IndexPage page) :
    (itemnos.Pairwise (· < ·) → (∀ o ∈ itemnos, 1 ≤ o ∧ o ≤ PageGetMaxOffsetNumber page) →
      ∃ q r, PageIndexMultiDelete scratch page itemnos = (.ok (), q) ∧
        deleteEach itemnos.reverse page = (.ok (), r) ∧
        contents q = contents r ∧ q.pd_lower = r.pd_lower ∧ q.pd_upper = r.pd_upper) ∧
    (2 < itemnos.length → ¬ (itemnos.Pairwise (· < ·) ∧ ∀ o ∈ itemnos, 1 ≤ o ∧ o ≤ PageGetMaxOffsetNumber page) →
      PageIndexMultiDelete scratch page itemnos =
        (.error ⟨.ERROR, "incorrect index offsets supplied"⟩, page)) := by
  refine ⟨fun hp hin => ?_, fun hlen hno => ?_⟩
  · obtain ⟨r, hr, hlr, hcr, hsr⟩ := retail_layout h.layout hp hin
    by_cases hlen : itemnos.length ≤ 2
    · -- the bulk delete is the retail delete
      refine ⟨r, r, ?_, hr, rfl, rfl, rfl⟩
      unfold PageIndexMultiDelete
      rw [if_pos hlen, hr]
    · obtain ⟨q, hq, hlq, hcq, hsq⟩ := PageIndexMultiDelete_layout scratch h.layout (Nat.not_le.mp hlen)
        (sublist_range_iff.mpr ⟨hp, hin⟩)
      have hc : contents q = contents r := hcq.trans hcr.symm
      obtain ⟨h1, h2⟩ := hlq.determined hlr hc (hsq.trans hsr.symm)
      exact ⟨q, r, hq, hr, hc, h1, h2⟩
  · exact PageIndexMultiDelete_error scratch h.layout hlen fun hs => hno (sublist_range_iff.mp hs)

/-- Four items, not in the order in which they lie on the page. -/
def fourItems : Page := run (PageInit BLCKSZ 0) [.add [1] 0, .add [2, 2] 1, .add [3] 2, .add [4, 4, 4] 0]

theorem indexPage_four : IndexPage fourItems where
  layout := by
    have hok : ∀ c ∈ [Call.add [1] 0, .add [2, 2] 1, .add [3] 2, .add [4, 4, 4] 0], c.Ok := by
      intro c hc
      fin_cases hc <;> exact ⟨by decide, by decide⟩
    have h : Layout (PageInit BLCKSZ 0) := (layout_init (by decide)).1
    exact (run_usable _ ⟨h, rfl, rfl⟩ hok).1.layout
  few := by decide

theorem multi_delete_eq_retail_four : ∃ q r, PageIndexMultiDelete (fun _ => 0) fourItems [1, 3, 4] = (.ok (), q) ∧
    deleteEach [4, 3, 1] fourItems = (.ok (), r) ∧ contents q = contents r ∧ q.pd_lower = r.pd_lower ∧
    q.pd_upper = r.pd_upper :=
  (multi_delete_eq_retail (fun _ => 0) indexPage_four).1 (by decide) (by decide)

end Pgvec.Storage.Bufpage
