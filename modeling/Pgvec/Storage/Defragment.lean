/-
  File:      Pgvec/Storage/Defragment.lean
  Subject:   `PageRepairFragmentation` LOSES NOTHING: used line pointers keep their numbers, states, lengths
             and items, the items are packed, and trailing unused line pointers go.

  * `storedItems`, `cleaned`, `lastUsed` -- what the loop over the line pointers collects, cleans and ends
    on; `Scanned`, `repairLoop_spec` -- the loop;
  * `HeapPage` -- the pages it is for; `Repaired` -- what it makes of one;
  * **`page_repair_fragmentation`**.
-/
import Pgvec.Storage.Compactify

namespace Pgvec.Storage.Bufpage

open Blocks

/-- The line pointer is used and has storage. -/
abbrev Stored (itemId : ItemIdData) : Prop := ItemIdIsUsed itemId ∧ ItemIdHasStorage itemId

/-! ## 1. The loop over the line pointers -/

/-- The items that are collected. -/
def storedItems (linp : Nat → ItemIdData) (is : List Nat) : List itemIdCompactData :=
  (is.filter fun i => Stored (linp (i - 1))).map fun i =>
    ⟨i - 1, (linp (i - 1)).lp_off, MAXALIGN (linp (i - 1)).lp_len⟩

/-- The line pointers once the unused ones are cleaned. -/
def cleaned (is : List Nat) (linp : Nat → ItemIdData) : Nat → ItemIdData := fun j =>
  if j ∈ is.map (· - 1) ∧ ¬ ItemIdIsUsed (linp j) then unusedItemId else linp j

/-- How many are unused. -/
def unusedCount (linp : Nat → ItemIdData) (is : List Nat) : Nat :=
  (is.filter fun i => ¬ ItemIdIsUsed (linp (i - 1))).length

/-- The last one that is used. -/
def lastUsed (linp : Nat → ItemIdData) (is : List Nat) (d : Nat) : Nat :=
  is.foldl (fun d i => if ItemIdIsUsed (linp (i - 1)) then i else d) d

/-- The items come in descending order below an offset. -/
def Falling : Nat → List itemIdCompactData → Prop
  | _, [] => True
  | last, item :: items => item.itemoff < last ∧ Falling item.itemoff items

/-- **What the loop makes of its variables.** -/
structure Scanned (s : RepairScan) (is : List Nat) (s' : RepairScan) : Prop where
  page : s'.page = { s.page with pd_linp := cleaned is s.page.pd_linp }
  itemidbase : s'.itemidbase = s.itemidbase ++ storedItems s.page.pd_linp is
  nunused : s'.nunused = s.nunused + unusedCount s.page.pd_linp is
  totallen : s'.totallen = s.totallen + total (blocks (storedItems s.page.pd_linp is))
  presorted : s'.presorted = true → s.presorted = true ∧ Falling s.last_offset (storedItems s.page.pd_linp is)
  finalusedlp : s'.finalusedlp = lastUsed s.page.pd_linp is s.finalusedlp

variable {linp : Nat → ItemIdData} {i : Nat} {is : List Nat}

section Clean

variable (hi : ¬ ItemIdIsUsed (linp (i - 1)))

include hi

/-- Cleaning an unused line pointer leaves it unused. -/
theorem used_clean (j : Nat) :
    ItemIdIsUsed (Function.update linp (i - 1) unusedItemId j) ↔ ItemIdIsUsed (linp j) := by
  rw [Function.update_apply]
  split
  · rename_i he
    rw [he]
    exact ⟨fun h => absurd rfl h, fun h => absurd h hi⟩
  · rfl

theorem clean_of_used {j : Nat} (hj : ItemIdIsUsed (linp j)) :
    Function.update linp (i - 1) unusedItemId j = linp j := by
  refine Function.update_of_ne (fun he => ?_) _ _
  rw [he] at hj
  exact hi hj

theorem storedItems_clean : storedItems (Function.update linp (i - 1) unusedItemId) is = storedItems linp is := by
  have hstored : ∀ j, Stored (Function.update linp (i - 1) unusedItemId j) ↔ Stored (linp j) := by
    intro j
    by_cases hj : ItemIdIsUsed (linp j)
    · rw [clean_of_used hi hj]
    · exact ⟨fun h => absurd ((used_clean hi j).mp h.1) hj, fun h => absurd h.1 hj⟩
  unfold storedItems
  simp only [hstored]
  refine List.map_congr_left fun o ho => ?_
  have hs : Stored (linp (o - 1)) := of_decide_eq_true (List.mem_filter.mp ho).2
  rw [clean_of_used hi hs.1]

theorem unusedCount_clean : unusedCount (Function.update linp (i - 1) unusedItemId) is = unusedCount linp is := by
  unfold unusedCount
  simp only [used_clean hi]

theorem lastUsed_clean (d : Nat) :
    lastUsed (Function.update linp (i - 1) unusedItemId) is d = lastUsed linp is d := by
  unfold lastUsed
  simp only [used_clean hi]

theorem cleaned_clean : cleaned is (Function.update linp (i - 1) unusedItemId) = cleaned (i :: is) linp := by
  funext j
  unfold cleaned
  simp only [used_clean hi, List.map_cons, List.mem_cons]
  by_cases hj : j = i - 1
  · rw [hj, Function.update_self, ite_self, if_pos ⟨Or.inl rfl, hi⟩]
  · rw [Function.update_of_ne hj]
    simp only [hj, false_or]

end Clean

theorem cleaned_cons_used (hi : ItemIdIsUsed (linp (i - 1))) : cleaned (i :: is) linp = cleaned is linp := by
  funext j
  unfold cleaned
  simp only [List.map_cons, List.mem_cons]
  by_cases hj : j = i - 1
  · rw [hj, if_neg fun h => h.2 hi, if_neg fun h => h.2 hi]
  · simp only [hj, false_or]

theorem unusedCount_cons_used (hi : ItemIdIsUsed (linp (i - 1))) :
    unusedCount linp (i :: is) = unusedCount linp is := by
  unfold unusedCount
  rw [List.filter_cons_of_neg (by simpa using hi)]

theorem lastUsed_cons_used (hi : ItemIdIsUsed (linp (i - 1))) (d : Nat) :
    lastUsed linp (i :: is) d = lastUsed linp is i := by
  unfold lastUsed
  rw [List.foldl_cons, if_pos hi]

theorem storedItems_cons (hi : Stored (linp (i - 1))) : storedItems linp (i :: is) =
    ⟨i - 1, (linp (i - 1)).lp_off, MAXALIGN (linp (i - 1)).lp_len⟩ :: storedItems linp is := by
  unfold storedItems
  rw [List.filter_cons, if_pos (decide_eq_true hi)]
  rfl

theorem storedItems_cons_not (hi : ¬ Stored (linp (i - 1))) : storedItems linp (i :: is) = storedItems linp is := by
  unfold storedItems
  rw [List.filter_cons, if_neg (by simpa using hi)]

variable {s s' : RepairScan}

/-- An item is collected. -/
theorem Scanned.item (hi : Stored (s.page.pd_linp (i - 1)))
    (h : Scanned { s with
      itemidbase := s.itemidbase ++ [⟨i - 1, (PageGetItemId s.page i).lp_off, MAXALIGN (PageGetItemId s.page i).lp_len⟩]
      last_offset := if s.last_offset > (PageGetItemId s.page i).lp_off then (PageGetItemId s.page i).lp_off
        else s.last_offset
      presorted := if s.last_offset > (PageGetItemId s.page i).lp_off then s.presorted else false
      totallen := s.totallen + MAXALIGN (PageGetItemId s.page i).lp_len
      finalusedlp := i } is s') : Scanned s (i :: is) s' := by
  obtain ⟨g1, g2, g3, g4, g5, g6⟩ := h
  refine ⟨?_, ?_, ?_, ?_, fun hp => ?_, ?_⟩
  · rw [cleaned_cons_used hi.1]
    exact g1
  · rw [storedItems_cons hi, g2, List.append_assoc]
    rfl
  · rw [unusedCount_cons_used hi.1]
    exact g3
  · rw [storedItems_cons hi, g4, blocks_cons, total_cons, Nat.add_assoc]
    rfl
  · obtain ⟨hp1, hp2⟩ := g5 hp
    simp only at hp1 hp2
    rw [storedItems_cons hi]
    split at hp1
    · rename_i hgt
      rw [if_pos hgt] at hp2
      exact ⟨hp1, hgt, hp2⟩
    · cases hp1
  · rw [lastUsed_cons_used hi.1]
    exact g6

/-- A used line pointer without storage is noted. -/
theorem Scanned.bare (hu : ItemIdIsUsed (s.page.pd_linp (i - 1))) (hs : ¬ ItemIdHasStorage (s.page.pd_linp (i - 1)))
    (h : Scanned { s with finalusedlp := i } is s') : Scanned s (i :: is) s' := by
  obtain ⟨g1, g2, g3, g4, g5, g6⟩ := h
  have hcons : storedItems s.page.pd_linp (i :: is) = storedItems s.page.pd_linp is :=
    storedItems_cons_not fun hst => hs hst.2
  refine ⟨?_, hcons ▸ g2, ?_, hcons ▸ g4, hcons ▸ g5, ?_⟩
  · rw [cleaned_cons_used hu]
    exact g1
  · rw [unusedCount_cons_used hu]
    exact g3
  · rw [lastUsed_cons_used hu]
    exact g6

/-- An unused line pointer is cleaned and counted. -/
theorem Scanned.unused (hu : ¬ ItemIdIsUsed (s.page.pd_linp (i - 1)))
    (h : Scanned { s with page := PageSetItemId s.page i unusedItemId, nunused := s.nunused + 1 } is s') :
    Scanned s (i :: is) s' := by
  have hcons : storedItems s.page.pd_linp (i :: is) = storedItems s.page.pd_linp is :=
    storedItems_cons_not fun hst => hu hst.1
  have hcount : unusedCount s.page.pd_linp (i :: is) = 1 + unusedCount s.page.pd_linp is := by
    unfold unusedCount
    rw [List.filter_cons_of_pos (by simpa using hu), List.length_cons, Nat.add_comm]
  have hlast : ∀ d, lastUsed s.page.pd_linp (i :: is) d = lastUsed s.page.pd_linp is d := by
    intro d
    unfold lastUsed
    rw [List.foldl_cons, if_neg hu]
  have hlinp : (PageSetItemId s.page i unusedItemId).pd_linp =
      Function.update s.page.pd_linp (i - 1) unusedItemId := rfl
  obtain ⟨g1, g2, g3, g4, g5, g6⟩ := h
  simp only [hlinp, storedItems_clean hu, unusedCount_clean hu, lastUsed_clean hu, cleaned_clean hu]
    at g1 g2 g3 g4 g5 g6
  refine ⟨?_, hcons ▸ g2, ?_, hcons ▸ g4, hcons ▸ g5, ?_⟩
  · rw [g1]
    rfl
  · rw [hcount, g3, Nat.add_assoc]
  · rw [hlast]
    exact g6

/-- **The loop**, when every item it collects starts in the item area. -/
theorem repairLoop_spec (pd_upper pd_special : Nat) : ∀ (is : List Nat) (s : RepairScan),
    (∀ item ∈ storedItems s.page.pd_linp is, pd_upper ≤ item.itemoff ∧ item.itemoff < pd_special) →
    ∃ s', repairLoop pd_upper pd_special is s = (.ok (), s') ∧ Scanned s is s'
  | [], s, _ => ⟨s, rfl, by rfl, (List.append_nil _).symm, rfl, rfl, fun h => ⟨h, trivial⟩, rfl⟩
  | i :: is, s, hok => by
      unfold repairLoop
      simp only
      by_cases hu : ItemIdIsUsed (PageGetItemId s.page i)
      · rw [if_pos hu]
        by_cases hs : ItemIdHasStorage (PageGetItemId s.page i)
        · have hi : Stored (s.page.pd_linp (i - 1)) := ⟨hu, hs⟩
          rw [storedItems_cons hi] at hok
          obtain ⟨h1, h2⟩ : pd_upper ≤ (PageGetItemId s.page i).lp_off ∧
              (PageGetItemId s.page i).lp_off < pd_special := hok _ List.mem_cons_self
          rw [if_pos hs, if_neg (by omega)]
          obtain ⟨s', hr, hsc⟩ := repairLoop_spec pd_upper pd_special is
            { s with
              itemidbase := s.itemidbase ++
                [⟨i - 1, (PageGetItemId s.page i).lp_off, MAXALIGN (PageGetItemId s.page i).lp_len⟩]
              last_offset := if s.last_offset > (PageGetItemId s.page i).lp_off then
                (PageGetItemId s.page i).lp_off else s.last_offset
              presorted := if s.last_offset > (PageGetItemId s.page i).lp_off then s.presorted else false
              totallen := s.totallen + MAXALIGN (PageGetItemId s.page i).lp_len
              finalusedlp := i }
            fun item hm => hok item (List.mem_cons_of_mem _ hm)
          exact ⟨s', hr, hsc.item hi⟩
        · rw [storedItems_cons_not fun hst => hs hst.2] at hok
          rw [if_neg hs]
          obtain ⟨s', hr, hsc⟩ := repairLoop_spec pd_upper pd_special is { s with finalusedlp := i } hok
          exact ⟨s', hr, hsc.bare hu hs⟩
      · have hlinp : (PageSetItemId s.page i unusedItemId).pd_linp =
            Function.update s.page.pd_linp (i - 1) unusedItemId := rfl
        have hu' : ¬ ItemIdIsUsed (s.page.pd_linp (i - 1)) := hu
        rw [storedItems_cons_not fun hst => hu hst.1] at hok
        rw [if_neg hu]
        obtain ⟨s', hr, hsc⟩ := repairLoop_spec pd_upper pd_special is
          { s with page := PageSetItemId s.page i unusedItemId, nunused := s.nunused + 1 }
          (by simp only [hlinp, storedItems_clean hu']; exact hok)
        exact ⟨s', hr, hsc.unused hu⟩

/-! ## 2. What the loop ends on -/

theorem falling_pairwise : ∀ {items : List itemIdCompactData} {last : Nat}, Falling last items →
    (blocks items).Pairwise (fun b c => c.start < b.start) ∧ ∀ b ∈ blocks items, b.start < last
  | [], _, _ => ⟨List.Pairwise.nil, fun _ hb => absurd hb List.not_mem_nil⟩
  | item :: items, last, h => by
      obtain ⟨h1, h2⟩ := falling_pairwise h.2
      have h0 : item.block.start < last := h.1
      refine ⟨List.pairwise_cons.mpr ⟨h2, h1⟩, fun b hb => ?_⟩
      rcases List.mem_cons.mp hb with rfl | hb
      · exact h0
      · exact (h2 b hb).trans h.1

/-- The last used line pointer of the first `n`. -/
theorem lastUsed_spec (linp : Nat → ItemIdData) : ∀ n, lastUsed linp (List.range' 1 n) 0 ≤ n ∧
    (lastUsed linp (List.range' 1 n) 0 ≠ 0 → ItemIdIsUsed (linp (lastUsed linp (List.range' 1 n) 0 - 1))) ∧
    ∀ o, lastUsed linp (List.range' 1 n) 0 < o → o ≤ n → ¬ ItemIdIsUsed (linp (o - 1))
  | 0 => ⟨Nat.le_refl _, fun h => absurd rfl h, fun o h1 h2 => absurd h1 (Nat.not_lt.mpr h2)⟩
  | n + 1 => by
      obtain ⟨h1, h2, h3⟩ := lastUsed_spec linp n
      have hsnoc : lastUsed linp (List.range' 1 (n + 1)) 0 =
          if ItemIdIsUsed (linp (1 + n - 1)) then 1 + n else lastUsed linp (List.range' 1 n) 0 := by
        unfold lastUsed
        rw [List.range'_1_concat, List.foldl_append, List.foldl_cons, List.foldl_nil]
      rw [hsnoc]
      split
      · rename_i hu
        exact ⟨by omega, fun _ => hu, fun o h4 h5 => by omega⟩
      · rename_i hu
        refine ⟨by omega, h2, fun o h4 h5 => ?_⟩
        by_cases ho : o = 1 + n
        · rw [ho]
          exact hu
        · exact h3 o h4 (by omega)

/-- Trailing line pointers that are all unused: the others are counted beside them. -/
theorem unusedCount_split {linp : Nat → ItemIdData} {n m : Nat} (hm : m ≤ n)
    (ht : ∀ o, m < o → o ≤ n → ¬ ItemIdIsUsed (linp (o - 1))) :
    unusedCount linp (List.range' 1 n) = unusedCount linp (List.range' 1 m) + (n - m) := by
  obtain ⟨k, rfl⟩ := Nat.exists_eq_add_of_le hm
  unfold unusedCount
  rw [← List.range'_append_1, List.filter_append, List.length_append, Nat.add_sub_cancel_left]
  congr 1
  rw [List.filter_eq_self.mpr, List.length_range']
  intro o ho
  obtain ⟨h1, h2⟩ := List.mem_range'_1.mp ho
  exact decide_eq_true (ht o (by omega) (by omega))

/-- They hold no items. -/
theorem storedItems_split {linp : Nat → ItemIdData} {n m : Nat} (hm : m ≤ n)
    (ht : ∀ o, m < o → o ≤ n → ¬ ItemIdIsUsed (linp (o - 1))) :
    (List.range' 1 n).filter (fun i => Stored (linp (i - 1))) =
      (List.range' 1 m).filter fun i => Stored (linp (i - 1)) := by
  obtain ⟨k, rfl⟩ := Nat.exists_eq_add_of_le hm
  have hnil : (List.range' (1 + m) k).filter (fun i => Stored (linp (i - 1))) = [] := by
    refine List.filter_eq_nil_iff.mpr fun o ho => ?_
    obtain ⟨h1, h2⟩ := List.mem_range'_1.mp ho
    simp only [decide_eq_true_eq]
    exact fun h => ht o (by omega) (by omega) h.1
  rw [← List.range'_append_1, List.filter_append, hnil, List.append_nil]

theorem unusedCount_pos {linp : Nat → ItemIdData} {m : Nat} :
    0 < unusedCount linp (List.range' 1 m) ↔ ∃ o, 1 ≤ o ∧ o ≤ m ∧ ¬ ItemIdIsUsed (linp (o - 1)) := by
  unfold unusedCount
  rw [List.length_pos_iff_exists_mem]
  constructor
  · intro ⟨o, ho⟩
    obtain ⟨h1, h2⟩ := List.mem_filter.mp ho
    obtain ⟨h3, h4⟩ := List.mem_range'_1.mp h1
    exact ⟨o, h3, by omega, of_decide_eq_true h2⟩
  · intro ⟨o, h1, h2, h3⟩
    exact ⟨o, List.mem_filter.mpr ⟨List.mem_range'_1.mpr ⟨h1, by omega⟩, decide_eq_true h3⟩⟩

/-! ## 3. The pages and what is made of them -/

/-- The used line pointers with storage. -/
def storedIds (page : Page) : List ItemIdData := (itemIds page).filter fun x => Stored x

/-- **A heap page**: the header makes sense, there are not too many line pointers, and the items with
    storage start at aligned offsets and lie, their padding included, in the item area without overlap. -/
structure HeapPage (page : Page) : Prop where
  header : ¬ CorruptedHeader page
  lower : page.pd_lower = SizeOfPageHeaderData + sizeofItemIdData * PageGetMaxOffsetNumber page
  few : PageGetMaxOffsetNumber page ≤ MaxHeapTuplesPerPage
  aligned : ∀ x ∈ storedIds page, x.lp_off = MAXALIGN x.lp_off
  within : ∀ x ∈ storedIds page, Within page.pd_upper page.pd_special x.block
  apart : (storedIds page).Pairwise fun x y => Apart x.block y.block

/-- **The repaired page**: trailing unused line pointers go, and only these; used line pointers keep their
    states, lengths and items, and those without storage stay as they are; the items are packed up to
    `pd_special`; the hint is right, and no other flag changes. -/
structure Repaired (page q : Page) : Prop where
  lower : q.pd_lower = SizeOfPageHeaderData + sizeofItemIdData * PageGetMaxOffsetNumber q
  le : PageGetMaxOffsetNumber q ≤ PageGetMaxOffsetNumber page
  trailing : ∀ o, PageGetMaxOffsetNumber q < o → o ≤ PageGetMaxOffsetNumber page →
    ¬ ItemIdIsUsed (PageGetItemId page o)
  last : PageGetMaxOffsetNumber q ≠ 0 → ItemIdIsUsed (PageGetItemId q (PageGetMaxOffsetNumber q))
  used : ∀ o, 1 ≤ o → o ≤ PageGetMaxOffsetNumber page → ItemIdIsUsed (PageGetItemId page o) →
    o ≤ PageGetMaxOffsetNumber q ∧ (PageGetItemId q o).lp_flags = (PageGetItemId page o).lp_flags ∧
      (PageGetItemId q o).lp_len = (PageGetItemId page o).lp_len ∧ PageGetItem q o = PageGetItem page o
  bare : ∀ o, 1 ≤ o → o ≤ PageGetMaxOffsetNumber page → ItemIdIsUsed (PageGetItemId page o) →
    ¬ ItemIdHasStorage (PageGetItemId page o) → PageGetItemId q o = PageGetItemId page o
  unused : ∀ o, 1 ≤ o → o ≤ PageGetMaxOffsetNumber q → ¬ ItemIdIsUsed (PageGetItemId page o) →
    PageGetItemId q o = unusedItemId
  lower_le : q.pd_lower ≤ q.pd_upper
  upper_le : q.pd_upper ≤ q.pd_special
  special : q.pd_special = page.pd_special
  tiled : Tiled q.pd_upper q.pd_special (storedIds q)
  frame : ∀ a, a < page.pd_upper ∨ page.pd_special ≤ a → q.bytes a = page.bytes a
  hint : PageHasFreeLinePointers q ↔
    ∃ o, 1 ≤ o ∧ o ≤ PageGetMaxOffsetNumber q ∧ ¬ ItemIdIsUsed (PageGetItemId q o)
  flags : q.pd_flags &&& ~~~PD_HAS_FREE_LINES = page.pd_flags &&& ~~~PD_HAS_FREE_LINES

variable {page : Page}

/-- The items collected are the line pointers with storage. -/
theorem storedIds_eq (page : Page) : storedIds page =
    ((List.range' 1 (PageGetMaxOffsetNumber page)).filter fun i => Stored (page.pd_linp (i - 1))).map
      (PageGetItemId page) := by
  unfold storedIds
  rw [itemIds_eq, List.filter_map]
  rfl

theorem blocks_storedItems (page : Page) :
    blocks (storedItems page.pd_linp (List.range' 1 (PageGetMaxOffsetNumber page))) =
      (storedIds page).map (·.block) := by
  rw [storedIds_eq]
  unfold blocks storedItems
  rw [List.map_map, List.map_map]
  rfl

/-! ## 4. The hint -/

theorem hasFree_set (page : Page) : PageHasFreeLinePointers (PageSetHasFreeLinePointers page) := by
  intro h
  have h0 := congrArg (fun f : BitVec 16 => f.getLsbD 0) h
  simp [PageSetHasFreeLinePointers, PD_HAS_FREE_LINES] at h0

theorem hasFree_clear (page : Page) : ¬ PageHasFreeLinePointers (PageClearHasFreeLinePointers page) := by
  intro h
  refine h ?_
  simp only [PageClearHasFreeLinePointers]
  rw [BitVec.and_assoc]
  have h0 : ~~~PD_HAS_FREE_LINES &&& PD_HAS_FREE_LINES = 0 := by decide
  rw [h0]
  exact BitVec.and_zero

theorem otherFlags_set (page : Page) : (PageSetHasFreeLinePointers page).pd_flags &&& ~~~PD_HAS_FREE_LINES =
    page.pd_flags &&& ~~~PD_HAS_FREE_LINES := by
  simp only [PageSetHasFreeLinePointers]
  refine BitVec.eq_of_getLsbD_eq fun i hi => ?_
  simp only [BitVec.getLsbD_and, BitVec.getLsbD_or, BitVec.getLsbD_not]
  cases page.pd_flags.getLsbD i <;> cases PD_HAS_FREE_LINES.getLsbD i <;> simp

theorem otherFlags_clear (page : Page) : (PageClearHasFreeLinePointers page).pd_flags &&& ~~~PD_HAS_FREE_LINES =
    page.pd_flags &&& ~~~PD_HAS_FREE_LINES := by
  simp only [PageClearHasFreeLinePointers]
  rw [BitVec.and_assoc, BitVec.and_self]

/-- **The end of `PageRepairFragmentation`.** -/
theorem finishRepair_spec (page : Page) (nline nunused finalusedlp : Nat) :
    (finishRepair page nline nunused finalusedlp).pd_linp = page.pd_linp ∧
    (finishRepair page nline nunused finalusedlp).bytes = page.bytes ∧
    (finishRepair page nline nunused finalusedlp).pd_upper = page.pd_upper ∧
    (finishRepair page nline nunused finalusedlp).pd_special = page.pd_special ∧
    (finishRepair page nline nunused finalusedlp).pd_lower =
      page.pd_lower - sizeofItemIdData * (nline - finalusedlp) ∧
    (PageHasFreeLinePointers (finishRepair page nline nunused finalusedlp) ↔
      0 < nunused - (nline - finalusedlp)) ∧
    (finishRepair page nline nunused finalusedlp).pd_flags &&& ~~~PD_HAS_FREE_LINES =
      page.pd_flags &&& ~~~PD_HAS_FREE_LINES := by
  unfold finishRepair
  simp only
  split
  · rename_i h
    exact ⟨rfl, rfl, rfl, rfl, rfl, ⟨fun _ => h, fun _ => hasFree_set _⟩, otherFlags_set _⟩
  · rename_i h
    exact ⟨rfl, rfl, rfl, rfl, rfl, ⟨fun hf => absurd hf (hasFree_clear _), fun hp => absurd hp h⟩,
      otherFlags_clear _⟩

/-! ## 5. `PageRepairFragmentation` -/

/-- The page with its unused line pointers cleaned. -/
def scannedPage (page : Page) : Page :=
  { page with pd_linp := cleaned (List.range' 1 (PageGetMaxOffsetNumber page)) page.pd_linp }

/-- The items of the page. -/
def collected (page : Page) : List itemIdCompactData :=
  storedItems page.pd_linp (List.range' 1 (PageGetMaxOffsetNumber page))

/-- Used line pointers are not cleaned. -/
theorem scanned_used {o : Nat} (hu : ItemIdIsUsed (PageGetItemId page o)) :
    (scannedPage page).pd_linp (o - 1) = PageGetItemId page o := if_neg fun h => h.2 hu

/-- The others are. -/
theorem scanned_unused {o : Nat} (h1 : 1 ≤ o) (hn : o ≤ PageGetMaxOffsetNumber page)
    (hu : ¬ ItemIdIsUsed (PageGetItemId page o)) : (scannedPage page).pd_linp (o - 1) = unusedItemId :=
  if_pos ⟨List.mem_map_of_mem (List.mem_range'_1.mpr ⟨h1, by omega⟩), hu⟩

theorem cleaned_isUsed {linp : Nat → ItemIdData} {is : List Nat} {j : Nat} :
    ItemIdIsUsed (cleaned is linp j) ↔ ItemIdIsUsed (linp j) := by
  unfold cleaned
  split
  · rename_i h
    exact ⟨fun hu => absurd rfl hu, fun hu => absurd hu h.2⟩
  · rfl

/-- An item that is collected. -/
theorem mem_collected {item : itemIdCompactData} : item ∈ collected page ↔
    ∃ o, 1 ≤ o ∧ o ≤ PageGetMaxOffsetNumber page ∧ Stored (PageGetItemId page o) ∧
      item = ⟨o - 1, (PageGetItemId page o).lp_off, MAXALIGN (PageGetItemId page o).lp_len⟩ := by
  unfold collected storedItems
  rw [List.mem_map]
  constructor
  · intro ⟨o, ho, he⟩
    obtain ⟨h1, h2⟩ := List.mem_filter.mp ho
    obtain ⟨h3, h4⟩ := List.mem_range'_1.mp h1
    exact ⟨o, h3, by omega, of_decide_eq_true h2, he.symm⟩
  · intro ⟨o, h1, h2, h3, he⟩
    exact ⟨o, List.mem_filter.mpr ⟨List.mem_range'_1.mpr ⟨h1, by omega⟩, decide_eq_true h3⟩, he.symm⟩

/-- No line pointer is collected twice. -/
theorem collected_nodup (page : Page) : ((collected page).map (·.offsetindex)).Nodup := by
  unfold collected storedItems
  rw [List.map_map]
  refine List.Nodup.map_on (fun o ho o' ho' he => ?_) (List.Nodup.filter _ List.nodup_range')
  have h1 := (List.mem_range'_1.mp (List.mem_filter.mp ho).1).1
  have h2 := (List.mem_range'_1.mp (List.mem_filter.mp ho').1).1
  have he : o - 1 = o' - 1 := he
  omega

theorem HeapPage.compactable (h : HeapPage page) : Compactable (scannedPage page) (collected page) where
  upper_le := by
    have hh := h.header
    unfold CorruptedHeader CorruptedPagePointers at hh
    simp only [scannedPage]
    omega
  apart := by
    unfold collected
    rw [blocks_storedItems]
    exact List.pairwise_map.mpr h.apart
  within := by
    unfold collected
    rw [blocks_storedItems]
    intro b hb
    obtain ⟨x, hx, rfl⟩ := List.mem_map.mp hb
    exact h.within x hx
  offset := by
    intro item hi
    obtain ⟨o, _, _, hs, rfl⟩ := mem_collected.mp hi
    simp only [scanned_used hs.1]

theorem collected_measured (page : Page) : Measured (scannedPage page).pd_linp (collected page) := by
  intro item hi
  obtain ⟨o, _, _, hs, rfl⟩ := mem_collected.mp hi
  simp only [scanned_used hs.1]
  exact ⟨trivial, Nat.pos_of_ne_zero hs.2⟩

/-- **What `PageRepairFragmentation` leaves**, up to its last part. -/
theorem HeapPage.repair_eq (h : HeapPage page) (scratch : Nat → UInt8) :
    ∃ p, Compacted (scannedPage page) p (collected page) ∧
      PageRepairFragmentation scratch page = (.ok (), finishRepair p (PageGetMaxOffsetNumber page)
        (unusedCount page.pd_linp (List.range' 1 (PageGetMaxOffsetNumber page)))
        (lastUsed page.pd_linp (List.range' 1 (PageGetMaxOffsetNumber page)) 0)) := by
  have hcomp := h.compactable
  have htotal := hcomp.total_le
  have hin : ∀ item ∈ collected page, page.pd_upper ≤ item.itemoff ∧ item.itemoff < page.pd_special := by
    intro item hi
    obtain ⟨h1, h2⟩ := hcomp.within item.block (List.mem_map_of_mem hi)
    obtain ⟨o, _, _, hs, rfl⟩ := mem_collected.mp hi
    have hpos := Nat.pos_of_ne_zero hs.2
    have hle := le_maxalign (PageGetItemId page o).lp_len
    simp only [itemIdCompactData.block, scannedPage] at h1 h2
    exact ⟨h1, by simp only; omega⟩
  obtain ⟨s, hr, hsc⟩ := repairLoop_spec page.pd_upper page.pd_special
    (List.range' 1 (PageGetMaxOffsetNumber page)) ⟨page, [], 0, 0, page.pd_special, true, InvalidOffsetNumber⟩ hin
  obtain ⟨g1, g2, g3, g4, g5, g6⟩ := hsc
  have hpage : s.page = scannedPage page := g1
  have hbase : s.itemidbase = collected page := g2.trans (List.nil_append _)
  have hunused : s.nunused = unusedCount page.pd_linp (List.range' 1 (PageGetMaxOffsetNumber page)) :=
    g3.trans (Nat.zero_add _)
  have hlen : s.totallen = total (blocks (collected page)) := g4.trans (Nat.zero_add _)
  have hfinal : s.finalusedlp = lastUsed page.pd_linp (List.range' 1 (PageGetMaxOffsetNumber page)) 0 := g6
  have hfall : s.presorted = true → Falling page.pd_special (collected page) := fun hp => (g5 hp).2
  unfold PageRepairFragmentation
  simp only
  rw [if_neg h.header, FirstOffsetNumber, hr]
  simp only [hpage, hbase, hunused, hlen, hfinal]
  by_cases hnil : (collected page).length = 0
  · -- nothing is left on the page
    rw [if_pos hnil]
    have hempty : collected page = [] := List.eq_nil_of_length_eq_zero hnil
    refine ⟨{ scannedPage page with pd_upper := page.pd_special }, ?_, rfl⟩
    rw [hempty]
    exact ⟨rfl, rfl, rfl, rfl, trivial, fun _ _ => rfl, rfl⟩
  · have hh := h.header
    unfold CorruptedHeader CorruptedPagePointers at hh
    have hroom : ¬ total (blocks (collected page)) > page.pd_special - page.pd_lower := by
      simp only [scannedPage] at htotal
      omega
    rw [if_neg hnil, if_neg hroom]
    refine ⟨_, compactify_tuples_spec scratch hcomp (fun hp => (falling_pairwise (hfall hp)).1) ?_, rfl⟩
    intro hempty
    rw [hempty] at hnil
    exact hnil rfl

section Outcome

variable {p q : Page} {scratch : Nat → UInt8}

/-- A line pointer afterwards: its state and its length are those of the cleaned one. -/
theorem Compacted.keeps (hc : Compacted (scannedPage page) p (collected page)) (j : Nat) :
    (p.pd_linp j).lp_flags = ((scannedPage page).pd_linp j).lp_flags ∧
      (p.pd_linp j).lp_len = ((scannedPage page).pd_linp j).lp_len := by
  rw [hc.linp]
  exact setOffsets_keeps _ _ _ _

/-- A line pointer without an item is as it was cleaned. -/
theorem Compacted.not_stored (hc : Compacted (scannedPage page) p (collected page)) {o : Nat} (h1 : 1 ≤ o)
    (hs : ¬ Stored (PageGetItemId page o)) : p.pd_linp (o - 1) = (scannedPage page).pd_linp (o - 1) := by
  rw [hc.linp]
  refine setOffsets_other _ _ _ _ fun hm => ?_
  obtain ⟨item, hi, he⟩ := List.mem_map.mp hm
  obtain ⟨o', h1', _, hs', rfl⟩ := mem_collected.mp hi
  have he : o' - 1 = o - 1 := he
  obtain rfl : o' = o := by omega
  exact hs hs'

/-- A used line pointer keeps its state, its length and its item. -/
theorem Compacted.used (hc : Compacted (scannedPage page) p (collected page)) (h : HeapPage page) {o : Nat}
    (h1 : 1 ≤ o) (hn : o ≤ PageGetMaxOffsetNumber page) (hu : ItemIdIsUsed (PageGetItemId page o)) :
    (p.pd_linp (o - 1)).lp_flags = (PageGetItemId page o).lp_flags ∧
      (p.pd_linp (o - 1)).lp_len = (PageGetItemId page o).lp_len ∧
      Bufpage.read p.bytes (p.pd_linp (o - 1)) = PageGetItem page o := by
  obtain ⟨hf, hl⟩ := hc.keeps (o - 1)
  rw [scanned_used hu] at hf hl
  refine ⟨hf, hl, ?_⟩
  by_cases hs : ItemIdHasStorage (PageGetItemId page o)
  · have hmem : (⟨o - 1, (PageGetItemId page o).lp_off, MAXALIGN (PageGetItemId page o).lp_len⟩ :
        itemIdCompactData) ∈ collected page := mem_collected.mpr ⟨o, h1, hn, ⟨hu, hs⟩, rfl⟩
    have hr := hc.read h.compactable (collected_measured page) (collected_nodup page) _ hmem
    simp only [scanned_used hu] at hr
    exact hr
  · -- nothing to read
    have hzero : (PageGetItemId page o).lp_len = 0 := not_not.mp hs
    unfold Bufpage.read PageGetItem
    rw [hl, hzero]
    rfl

/-- The line pointers with storage afterwards. -/
theorem Compacted.stored (hc : Compacted (scannedPage page) p (collected page)) (h : HeapPage page) {o : Nat}
    (h1 : 1 ≤ o) (hn : o ≤ PageGetMaxOffsetNumber page) :
    Stored (p.pd_linp (o - 1)) ↔ Stored (page.pd_linp (o - 1)) := by
  by_cases hu : ItemIdIsUsed (PageGetItemId page o)
  · obtain ⟨hf, hl, _⟩ := hc.used h h1 hn hu
    unfold Stored ItemIdIsUsed ItemIdHasStorage
    rw [hf, hl]
    rfl
  · have he := hc.not_stored h1 fun hs => hu hs.1
    rw [scanned_unused h1 hn hu] at he
    rw [he]
    exact ⟨fun hs => absurd rfl hs.1, fun hs => absurd hs.1 hu⟩

/-- How the repaired page `q` follows from the compacted page `p`. -/
structure Trimmed (page p q : Page) : Prop where
  linp : q.pd_linp = p.pd_linp
  bytes : q.bytes = p.bytes
  upper : q.pd_upper = p.pd_upper
  special : q.pd_special = p.pd_special
  lower : q.pd_lower = SizeOfPageHeaderData + sizeofItemIdData * PageGetMaxOffsetNumber q
  le : PageGetMaxOffsetNumber q ≤ PageGetMaxOffsetNumber page
  trailing : ∀ o, PageGetMaxOffsetNumber q < o → o ≤ PageGetMaxOffsetNumber page →
    ¬ ItemIdIsUsed (PageGetItemId page o)
  last : PageGetMaxOffsetNumber q ≠ 0 → ItemIdIsUsed (PageGetItemId page (PageGetMaxOffsetNumber q))
  hint : PageHasFreeLinePointers q ↔
    0 < unusedCount page.pd_linp (List.range' 1 (PageGetMaxOffsetNumber page)) -
      (PageGetMaxOffsetNumber page - PageGetMaxOffsetNumber q)
  flags : q.pd_flags &&& ~~~PD_HAS_FREE_LINES = p.pd_flags &&& ~~~PD_HAS_FREE_LINES

/-- `PageRepairFragmentation` compacts the page and cuts its line pointers. -/
theorem HeapPage.trimmed (h : HeapPage page) (scratch : Nat → UInt8) :
    ∃ p q, Compacted (scannedPage page) p (collected page) ∧ Trimmed page p q ∧
      PageRepairFragmentation scratch page = (.ok (), q) := by
  obtain ⟨p, hc, heq⟩ := h.repair_eq scratch
  obtain ⟨m, hm⟩ : ∃ m, lastUsed page.pd_linp (List.range' 1 (PageGetMaxOffsetNumber page)) 0 = m := ⟨_, rfl⟩
  obtain ⟨hle, hlast, htrail⟩ := lastUsed_spec page.pd_linp (PageGetMaxOffsetNumber page)
  rw [hm] at heq hle hlast htrail
  have hfin := finishRepair_spec p (PageGetMaxOffsetNumber page)
    (unusedCount page.pd_linp (List.range' 1 (PageGetMaxOffsetNumber page))) m
  obtain ⟨q, hq⟩ : ∃ q, finishRepair p (PageGetMaxOffsetNumber page)
      (unusedCount page.pd_linp (List.range' 1 (PageGetMaxOffsetNumber page))) m = q := ⟨_, rfl⟩
  rw [hq] at hfin heq
  obtain ⟨hlinp, hbytes, hupper, hspecial, hlower, hhint, hflags⟩ := hfin
  have hplow : p.pd_lower = page.pd_lower := hc.lower
  have hlower : q.pd_lower = SizeOfPageHeaderData + sizeofItemIdData * m := by
    rw [hlower, hplow, h.lower]
    unfold SizeOfPageHeaderData sizeofItemIdData
    omega
  obtain rfl : PageGetMaxOffsetNumber q = m := maxOffset_of_lower hlower
  exact ⟨p, q, hc, ⟨hlinp, hbytes, hupper, hspecial, hlower, hle, htrail, hlast, hhint, hflags⟩, heq⟩

theorem Trimmed.itemId (ht : Trimmed page p q) (o : Nat) : PageGetItemId q o = p.pd_linp (o - 1) := by
  unfold PageGetItemId
  rw [ht.linp]

/-- A used line pointer is not cut, and keeps its state, its length and its item. -/
theorem Trimmed.used (ht : Trimmed page p q) (hc : Compacted (scannedPage page) p (collected page))
    (h : HeapPage page) {o : Nat} (h1 : 1 ≤ o) (hn : o ≤ PageGetMaxOffsetNumber page)
    (hu : ItemIdIsUsed (PageGetItemId page o)) :
    o ≤ PageGetMaxOffsetNumber q ∧ (PageGetItemId q o).lp_flags = (PageGetItemId page o).lp_flags ∧
      (PageGetItemId q o).lp_len = (PageGetItemId page o).lp_len ∧ PageGetItem q o = PageGetItem page o := by
  obtain ⟨hf, hl, hr⟩ := hc.used h h1 hn hu
  rw [ht.itemId]
  refine ⟨?_, hf, hl, ?_⟩
  · by_contra hgt
    exact ht.trailing o (Nat.not_le.mp hgt) hn hu
  · unfold PageGetItem
    rw [ht.itemId, ht.bytes]
    exact hr

/-- The line pointers with storage are those of the items collected. -/
theorem Trimmed.storedIds (ht : Trimmed page p q) (hc : Compacted (scannedPage page) p (collected page))
    (h : HeapPage page) : storedIds q = (collected page).map fun item => p.pd_linp item.offsetindex := by
  have hfilter : (List.range' 1 (PageGetMaxOffsetNumber q)).filter (fun i => Stored (q.pd_linp (i - 1))) =
      (List.range' 1 (PageGetMaxOffsetNumber q)).filter fun i => Stored (page.pd_linp (i - 1)) := by
    refine List.filter_congr fun o ho => ?_
    obtain ⟨h1, h2⟩ := List.mem_range'_1.mp ho
    have hle := ht.le
    rw [ht.linp]
    exact decide_eq_decide.mpr (hc.stored h h1 (by omega))
  rw [storedIds_eq, hfilter, ← storedItems_split ht.le ht.trailing]
  unfold collected storedItems
  rw [List.map_map]
  exact List.map_congr_left fun o _ => ht.itemId o

/-- The hint says whether a line pointer is unused. -/
theorem Trimmed.hint_iff (ht : Trimmed page p q) (hc : Compacted (scannedPage page) p (collected page)) :
    PageHasFreeLinePointers q ↔
      ∃ o, 1 ≤ o ∧ o ≤ PageGetMaxOffsetNumber q ∧ ¬ ItemIdIsUsed (PageGetItemId q o) := by
  rw [ht.hint, unusedCount_split ht.le ht.trailing, Nat.add_sub_cancel, unusedCount_pos]
  refine exists_congr fun o => and_congr_right fun h1 => and_congr_right fun hn => not_congr ?_
  rw [ht.itemId]
  unfold ItemIdIsUsed
  rw [(hc.keeps (o - 1)).1]
  exact cleaned_isUsed.symm

/-- **Defragmentation loses nothing.** -/
theorem page_repair_fragmentation (scratch : Nat → UInt8) (h : HeapPage page) :
    ∃ q, PageRepairFragmentation scratch page = (.ok (), q) ∧ Repaired page q := by
  obtain ⟨p, q, hc, ht, heq⟩ := h.trimmed scratch
  have hh := h.header
  unfold CorruptedHeader CorruptedPagePointers at hh
  have hlower : q.pd_lower ≤ page.pd_lower := by
    rw [ht.lower, h.lower]
    exact Nat.add_le_add_left (Nat.mul_le_mul_left _ ht.le) _
  have htotal : total (blocks (collected page)) ≤ page.pd_special - page.pd_upper := h.compactable.total_le
  have hupper : q.pd_upper = page.pd_special - total (blocks (collected page)) := ht.upper.trans hc.upper
  have hspecial : q.pd_special = page.pd_special := ht.special.trans hc.special
  refine ⟨q, heq, ?_⟩
  constructor
  case lower => exact ht.lower
  case le => exact ht.le
  case trailing => exact ht.trailing
  case last =>
    intro h0
    have hu := ht.last h0
    obtain ⟨_, hf, _⟩ := ht.used hc h (Nat.pos_of_ne_zero h0) ht.le hu
    unfold ItemIdIsUsed
    rw [hf]
    exact hu
  case used => exact fun o => ht.used hc h
  case bare =>
    intro o h1 hn hu hs
    rw [ht.itemId, hc.not_stored h1 fun hst => hs hst.2, scanned_used hu]
  case unused =>
    intro o h1 hn hu
    rw [ht.itemId, hc.not_stored h1 fun hst => hu hst.1, scanned_unused h1 (hn.trans ht.le) hu]
  case lower_le => omega
  case upper_le => omega
  case special => exact hspecial
  case tiled =>
    rw [ht.storedIds hc h, ht.upper, ht.special]
    refine hc.tiled h.compactable (collected_measured page) (collected_nodup page) ?_
    exact mod_of_aligned (not_not.mp fun hne => hh (Or.inr hne))
  case frame =>
    intro a ha
    rw [ht.bytes]
    exact hc.frame a (ha.imp (fun hlt => lt_of_lt_of_le hlt (by simp only [scannedPage]; omega)) id)
  case hint => exact ht.hint_iff hc
  case flags =>
    rw [ht.flags, hc.flags]
    rfl

end Outcome

/-- A page with gaps, an unused line pointer between used ones and one at the end. -/
def gapPage : Page where
  pd_flags := 0
  pd_lower := 40
  pd_upper := 8160
  pd_special := 8192
  pd_linp := fun i => match i with
    | 0 => ⟨8168, .LP_NORMAL, 5⟩
    | 2 => ⟨8176, .LP_NORMAL, 8⟩
    | _ => unusedItemId
  bytes := fun a => UInt8.ofNat a

theorem page_repair_fragmentation_gap :
    ∃ q, PageRepairFragmentation (fun _ => 0) gapPage = (.ok (), q) ∧ Repaired gapPage q :=
  page_repair_fragmentation (fun _ => 0)
    ⟨by decide, by decide, by decide, by decide, by decide, by decide⟩

end Pgvec.Storage.Bufpage
