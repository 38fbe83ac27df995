/-
  File:      Pgvec/Storage/Compactify.lean
  Subject:   `compactify_tuples` CLOSES THE GAPS: each of its three ways puts every item of the array where
             it belongs, the first one directly below `pd_special`.

  * `setOffsets` -- the line pointers afterwards; `compactifyLoop_eq` -- the loop that collects adjacent
    items moves every item, whether by `memmove` or out of the scratch buffer;
  * `InPlace`, `skipInPlace_spec` -- the items skipped at the end of the page;
  * `Compactable`, `Compacted` -- what the callers pass and what they get;
    **`compactify_tuples_spec`**;
  * `placedIds` -- the line pointers of the items afterwards; **`Compacted.tiled`**, **`Compacted.read`** --
    they tile the area up to `pd_special` and read what they read before.
-/
import Pgvec.Storage.ItemLayout

namespace Pgvec.Storage.Bufpage

open Blocks

/-- Where an item lies. -/
def itemIdCompactData.block (item : itemIdCompactData) : Block := ⟨item.itemoff, item.alignedlen⟩

/-- Where the items lie. -/
def blocks (items : List itemIdCompactData) : List Block := items.map (·.block)

@[simp] theorem blocks_nil : blocks [] = [] := rfl

@[simp] theorem blocks_cons (item : itemIdCompactData) (items : List itemIdCompactData) :
    blocks (item :: items) = item.block :: blocks items := rfl

@[simp] theorem blocks_append (xs ys : List itemIdCompactData) : blocks (xs ++ ys) = blocks xs ++ blocks ys :=
  List.map_append

/-- The line pointers after the items were put one below the other. -/
def setOffsets : Nat → List itemIdCompactData → (Nat → ItemIdData) → Nat → ItemIdData
  | _, [], linp => linp
  | top, item :: items, linp =>
      setOffsets (top - item.alignedlen) items (Function.update linp item.offsetindex
        { linp item.offsetindex with lp_off := top - item.alignedlen })

/-! ## 1. The loop -/

section Loop

/-- The moves of the loop are allowed: `R` between where an item goes and where it is. -/
def Allowed (R : Nat → Nat → Prop) : Nat → List Block → Prop
  | _, [] => True
  | top, b :: bs => b.len ≤ top ∧ R (top - b.len) b.start ∧ Allowed R (top - b.len) bs

theorem allowed_of_total : ∀ {bs : List Block} {top : Nat}, total bs ≤ top → Allowed (fun _ _ => True) top bs
  | [], _, _ => trivial
  | b :: bs, top, h => by
      rw [total_cons] at h
      exact ⟨by omega, trivial, allowed_of_total (by omega)⟩

theorem allowed_of_descending : ∀ {bs : List Block} {top : Nat}, Descending top bs →
    Allowed (fun u h => h ≤ u) top bs
  | [], _, _ => trivial
  | b :: bs, top, h => by
      have h1 := h.1
      have hle : b.start ≤ top - b.len := by omega
      exact ⟨by omega, hle, allowed_of_descending (h.2.mono hle)⟩

variable {cp : Nat → Nat → Nat → (Nat → UInt8) → Nat → UInt8} {R : Nat → Nat → Prop}

/-- **One round** moves one item, once the items collected are moved too. -/
theorem movePending_step
    (hadd : ∀ u h l n m, R u h → cp u h (l + n) m = cp u h l (cp (u + l) (h + l) n m))
    {s : Compactify} {item : itemIdCompactData} (htail : s.copy_head ≤ s.copy_tail)
    (hlen : item.alignedlen ≤ s.upper) (hR : R (s.upper - item.alignedlen) item.itemoff) :
    (movePending cp (compactifyStep cp s item)).bytes =
      cp (s.upper - item.alignedlen) item.itemoff item.alignedlen (movePending cp s).bytes := by
  unfold compactifyStep movePending
  by_cases hgap : s.copy_head ≠ item.itemoff + item.alignedlen
  · simp only [if_pos hgap]
    rw [Nat.add_sub_cancel_left]
  · -- no gap: the item joins those collected
    simp only [if_neg hgap]
    have hhead : s.copy_head = item.itemoff + item.alignedlen := not_not.mp hgap
    have hcount : s.copy_tail - item.itemoff = item.alignedlen + (s.copy_tail - s.copy_head) := by omega
    rw [hcount, hadd _ _ _ _ _ hR, hhead, Nat.sub_add_cancel hlen]

/-- **The loop** packs the items. -/
theorem loop_eq
    (hadd : ∀ u h l n m, R u h → cp u h (l + n) m = cp u h l (cp (u + l) (h + l) n m)) :
    ∀ (items : List itemIdCompactData) (s : Compactify), s.copy_head ≤ s.copy_tail →
      Allowed R s.upper (blocks items) →
      let s' := items.foldl (compactifyStep cp) s
      movePending cp s' =
        { s.page with
          bytes := pack cp s.upper (blocks items) (movePending cp s).bytes
          pd_linp := setOffsets s.upper items s.page.pd_linp } ∧
      s'.upper = s.upper - total (blocks items)
  | [], s, _, _ => ⟨rfl, rfl⟩
  | item :: items, s, htail, hall => by
      obtain ⟨hlen, hR, hall⟩ := hall
      have hbytes := movePending_step hadd htail hlen hR
      have hupper : (compactifyStep cp s item).upper = s.upper - item.alignedlen := by
        unfold compactifyStep
        simp only
        split <;> rfl
      have hnext : (compactifyStep cp s item).copy_head ≤ (compactifyStep cp s item).copy_tail := by
        unfold compactifyStep
        simp only
        split
        · exact Nat.le_add_right _ _
        · omega
      have hpage : (compactifyStep cp s item).page = { s.page with
          bytes := (compactifyStep cp s item).page.bytes
          pd_linp := Function.update s.page.pd_linp item.offsetindex
            { s.page.pd_linp item.offsetindex with lp_off := s.upper - item.alignedlen } } := by
        unfold compactifyStep movePending
        simp only
        split <;> rfl
      obtain ⟨h1, h2⟩ := loop_eq hadd items (compactifyStep cp s item) hnext (by rw [hupper]; exact hall)
      simp only [List.foldl_cons, blocks_cons, total_cons]
      refine ⟨?_, ?_⟩
      · rw [h1, hbytes, hupper, hpage]
        rfl
      · rw [h2, hupper, Nat.sub_sub]
        rfl

/-- **The loop and what follows it**, from any start without collected items. -/
theorem compactifyLoop_eq (hzero : ∀ u h m, cp u h 0 m = m)
    (hadd : ∀ u h l n m, R u h → cp u h (l + n) m = cp u h l (cp (u + l) (h + l) n m))
    (itemidptr : itemIdCompactData) {items : List itemIdCompactData} {upper : Nat} (page : Page)
    (hall : Allowed R upper (blocks items)) :
    compactifyLoop cp itemidptr items upper page =
      { page with
        bytes := pack cp upper (blocks items) page.bytes
        pd_linp := setOffsets upper items page.pd_linp
        pd_upper := upper - total (blocks items) } := by
  obtain ⟨h1, h2⟩ := loop_eq hadd items ⟨page, upper, itemidptr.itemoff + itemidptr.alignedlen,
    itemidptr.itemoff + itemidptr.alignedlen⟩ (Nat.le_refl _) hall
  unfold compactifyLoop
  simp only [h1, h2]
  congr 2
  simp only [movePending, Nat.sub_self, hzero]

end Loop

/-! ## 2. The items in place -/

/-- The items are where packing would put them. -/
def InPlace : Nat → List itemIdCompactData → Prop
  | _, [] => True
  | top, item :: items => top = item.itemoff + item.alignedlen ∧ InPlace (top - item.alignedlen) items

/-- **The skipped items** are in place, and nothing is lost. -/
theorem skipInPlace_spec : ∀ (rest : List itemIdCompactData) (item : itemIdCompactData) (upper : Nat),
    ∃ done, item :: rest = done ++ (skipInPlace upper item rest).2.2 ∧ InPlace upper done ∧
      (skipInPlace upper item rest).1 = upper - total (blocks done)
  | [], item, upper => by
      unfold skipInPlace
      split
      · exact ⟨[], rfl, trivial, rfl⟩
      · rename_i h
        exact ⟨[item], rfl, ⟨not_not.mp h, trivial⟩, rfl⟩
  | next :: rest, item, upper => by
      unfold skipInPlace
      split
      · exact ⟨[], rfl, trivial, rfl⟩
      · rename_i h
        obtain ⟨done, h1, h2, h3⟩ := skipInPlace_spec rest next (upper - item.alignedlen)
        refine ⟨item :: done, congrArg (item :: ·) h1, ⟨not_not.mp h, h2⟩, h3.trans ?_⟩
        rw [blocks_cons, total_cons, Nat.sub_sub]
        rfl

theorem InPlace.total_le : ∀ {done : List itemIdCompactData} {top : Nat}, InPlace top done →
    total (blocks done) ≤ top
  | [], _, _ => Nat.zero_le _
  | item :: done, top, h => by
      have h1 := h.1
      have h2 := InPlace.total_le h.2
      rw [blocks_cons, total_cons]
      simp only [itemIdCompactData.block]
      omega

/-- The items in place leave no gap. -/
theorem InPlace.covers : ∀ {done : List itemIdCompactData} {top : Nat}, InPlace top done →
    ∀ a, top - total (blocks done) ≤ a → a < top → ∃ b ∈ blocks done, b.Has a
  | [], _, _, a, h1, h2 => absurd h1 (Nat.not_le.mpr h2)
  | item :: done, top, h, a, h1, h2 => by
      rw [blocks_cons, total_cons, ← Nat.sub_sub] at h1
      have htop := h.1
      by_cases ha : top - item.alignedlen ≤ a
      · refine ⟨item.block, List.mem_cons_self, ?_⟩
        simp only [Block.Has, itemIdCompactData.block]
        omega
      · obtain ⟨b, hb, hh⟩ := InPlace.covers h.2 a h1 (Nat.not_le.mp ha)
        exact ⟨b, List.mem_cons_of_mem _ hb, hh⟩

/-- What follows items in place is below them. -/
theorem InPlace.descending : ∀ {done todo : List itemIdCompactData} {top : Nat}, InPlace top done →
    Descending top (blocks (done ++ todo)) → Descending (top - total (blocks done)) (blocks todo)
  | [], _, _, _, hd => hd
  | item :: done, todo, top, h, hd => by
      have hnext : top - item.alignedlen = item.itemoff := by
        have := h.1
        omega
      rw [blocks_cons, total_cons, ← Nat.sub_sub]
      have hrest : Descending item.itemoff (blocks (done ++ todo)) := hd.2
      rw [← hnext] at hrest
      exact InPlace.descending h.2 hrest

/-- Items in place stay where they are, when nothing is written over them. -/
theorem InPlace.packed {m m' : Nat → UInt8} : ∀ {done todo : List itemIdCompactData} {top : Nat},
    InPlace top done → (∀ a, top - total (blocks done) ≤ a → m' a = m a) →
    Packed m m' (top - total (blocks done)) (blocks todo) → Packed m m' top (blocks (done ++ todo))
  | [], _, _, _, _, hp => hp
  | item :: done, todo, top, h, hm, hp => by
      rw [blocks_cons, total_cons, ← Nat.sub_sub] at hm hp
      have htop := h.1
      refine ⟨fun x hx => ?_, InPlace.packed h.2 hm hp⟩
      simp only [itemIdCompactData.block] at hx ⊢
      rw [show top - item.alignedlen = item.itemoff by omega]
      have hle : top - item.alignedlen - total (blocks done) ≤ item.itemoff + x := by omega
      exact hm _ hle

/-- Their line pointers stay what they are. -/
theorem InPlace.setOffsets {linp : Nat → ItemIdData} : ∀ {done todo : List itemIdCompactData} {top : Nat},
    InPlace top done → (∀ item ∈ done, (linp item.offsetindex).lp_off = item.itemoff) →
    Bufpage.setOffsets top (done ++ todo) linp = Bufpage.setOffsets (top - total (blocks done)) todo linp
  | [], _, _, _, _ => rfl
  | item :: done, todo, top, h, hl => by
      have htop := h.1
      have hsame : Function.update linp item.offsetindex
          { linp item.offsetindex with lp_off := top - item.alignedlen } = linp := by
        have hoff : top - item.alignedlen = (linp item.offsetindex).lp_off := by
          rw [hl item List.mem_cons_self]
          omega
        rw [hoff]
        exact Function.update_eq_self _ _
      rw [blocks_cons, total_cons, ← Nat.sub_sub, List.cons_append, Bufpage.setOffsets, hsame]
      exact InPlace.setOffsets h.2 fun it hit => hl it (List.mem_cons_of_mem _ hit)

/-! ## 3. The three ways -/

/-- **What the callers pass**: items that do not overlap in the item area, each at the offset its line
    pointer says. -/
structure Compactable (page : Page) (items : List itemIdCompactData) : Prop where
  upper_le : page.pd_upper ≤ page.pd_special
  apart : (blocks items).Pairwise Apart
  within : ∀ b ∈ blocks items, Within page.pd_upper page.pd_special b
  offset : ∀ item ∈ items, (page.pd_linp item.offsetindex).lp_off = item.itemoff

/-- **What they get**: the items one below the other from `pd_special` down to `pd_upper`. -/
structure Compacted (page q : Page) (items : List itemIdCompactData) : Prop where
  flags : q.pd_flags = page.pd_flags
  lower : q.pd_lower = page.pd_lower
  special : q.pd_special = page.pd_special
  upper : q.pd_upper = page.pd_special - total (blocks items)
  packed : Packed page.bytes q.bytes page.pd_special (blocks items)
  frame : ∀ a, a < page.pd_special - total (blocks items) ∨ page.pd_special ≤ a → q.bytes a = page.bytes a
  linp : q.pd_linp = setOffsets page.pd_special items page.pd_linp

variable {page : Page} {items done todo : List itemIdCompactData}

theorem Compactable.total_le (h : Compactable page items) :
    total (blocks items) ≤ page.pd_special - page.pd_upper := Blocks.total_le h.apart h.within

/-- The items in place are skipped, and packing the others does the work. -/
theorem compacted_of_skip {bytes : Nat → UInt8} (h : Compactable page (done ++ todo))
    (hdone : InPlace page.pd_special done)
    (hpacked : Packed page.bytes bytes (page.pd_special - total (blocks done)) (blocks todo))
    (hframe : ∀ a, a < page.pd_special - total (blocks done) - total (blocks todo) ∨
      page.pd_special - total (blocks done) ≤ a → bytes a = page.bytes a) :
    Compacted page { page with
      bytes := bytes
      pd_linp := setOffsets (page.pd_special - total (blocks done)) todo page.pd_linp
      pd_upper := page.pd_special - total (blocks done) - total (blocks todo) } (done ++ todo) := by
  have htotal : page.pd_special - total (blocks done) - total (blocks todo) =
      page.pd_special - total (blocks (done ++ todo)) := by
    rw [blocks_append, Nat.sub_sub]
    simp only [total, List.map_append, List.sum_append]
  refine ⟨rfl, rfl, rfl, htotal, hdone.packed (fun a ha => hframe a (Or.inr ha)) hpacked, fun a ha => ?_, ?_⟩
  · rw [← htotal] at ha
    exact hframe a (ha.imp id fun hs => by omega)
  · exact (hdone.setOffsets fun item hi => h.offset item (List.mem_append_left _ hi)).symm

/-- **Presorted**: in place. -/
theorem compacted_presorted (h : Compactable page (done ++ todo)) (itemidptr : itemIdCompactData)
    (hdone : InPlace page.pd_special done)
    (hsorted : (blocks (done ++ todo)).Pairwise fun b c => c.start < b.start) :
    Compacted page (compactifyLoop move itemidptr todo (page.pd_special - total (blocks done)) page)
      (done ++ todo) := by
  have hdesc : Descending (page.pd_special - total (blocks done)) (blocks todo) :=
    hdone.descending (descending_of_sorted h.apart hsorted fun b hb => (h.within b hb).2)
  obtain ⟨h1, h2⟩ := pack_move (blocks todo) (page.pd_special - total (blocks done)) page.bytes hdesc
  rw [compactifyLoop_eq (fun _ _ _ => move_zero) (fun u h l n m hu => move_add hu) itemidptr page
    (allowed_of_descending hdesc)]
  exact compacted_of_skip h hdone h1 h2

/-- **Out of the scratch buffer**, when it holds the items. -/
theorem compacted_scratch {scratch : Nat → UInt8} (h : Compactable page (done ++ todo))
    (itemidptr : itemIdCompactData) (hdone : InPlace page.pd_special done)
    (hs : ∀ b ∈ blocks todo, ∀ x < b.len, scratch (b.start + x) = page.bytes (b.start + x)) :
    Compacted page (compactifyLoop (copy scratch) itemidptr todo (page.pd_special - total (blocks done)) page)
      (done ++ todo) := by
  have hle := h.total_le
  have htotal : total (blocks todo) ≤ page.pd_special - total (blocks done) := by
    rw [blocks_append] at hle
    simp only [total, List.map_append, List.sum_append] at hle ⊢
    omega
  obtain ⟨h1, h2⟩ := pack_copy (blocks todo) (page.pd_special - total (blocks done)) page.bytes htotal
  rw [compactifyLoop_eq (fun _ _ _ => copy_zero) (fun u h l n m _ => copy_add) itemidptr page
    (allowed_of_total htotal)]
  exact compacted_of_skip h hdone (h1.congr fun b hb x hx => (hs b hb x hx).symm) h2

/-- Tuple by tuple, the scratch buffer holds the items. -/
theorem scratch_each (bytes : Nat → UInt8) : ∀ (items : List itemIdCompactData) (scratch : Nat → UInt8) (a : Nat),
    scratch a = bytes a ∨ (∃ b ∈ blocks items, b.Has a) →
      items.foldl (fun s item => copy bytes item.itemoff item.itemoff item.alignedlen s) scratch a = bytes a
  | [], _, a, h => by
      rcases h with h | ⟨b, hb, _⟩
      · exact h
      · exact absurd hb List.not_mem_nil
  | item :: items, scratch, a, h => by
      rw [List.foldl_cons]
      refine scratch_each bytes items _ a ?_
      by_cases ha : item.block.Has a
      · refine Or.inl ?_
        obtain ⟨x, rfl⟩ := Nat.exists_eq_add_of_le ha.1
        have hx := ha.2
        exact copy_in (by simp only [itemIdCompactData.block] at hx ⊢; omega)
      · rcases h with h | ⟨b, hb, hh⟩
        · refine Or.inl ?_
          have hout : a < item.itemoff ∨ item.itemoff + item.alignedlen ≤ a := by
            simp only [Block.Has, itemIdCompactData.block] at ha
            omega
          rw [copy_out hout]
          exact h
        · rcases List.mem_cons.mp hb with rfl | hb
          · exact absurd hh ha
          · exact Or.inr ⟨b, hb, hh⟩

/-- The items that are not in place lie below those that are. -/
theorem Compactable.below_done (h : Compactable page (done ++ todo)) (hdone : InPlace page.pd_special done)
    {b : Block} (hb : b ∈ blocks todo) {x : Nat} (hx : x < b.len) :
    b.start + x < page.pd_special - total (blocks done) := by
  by_contra hge
  have hw := (h.within b (by rw [blocks_append]; exact List.mem_append_right _ hb)).2
  obtain ⟨c, hc, h1, h2⟩ := hdone.covers (b.start + x) (Nat.not_lt.mp hge) (by omega)
  have hap := h.apart
  rw [blocks_append, List.pairwise_append] at hap
  rcases hap.2.2 c hc b hb with hd | hd <;> omega

/-- **`compactify_tuples`** closes the gaps. -/
theorem compactify_tuples_spec (scratch : Nat → UInt8) (h : Compactable page items) {presorted : Bool}
    (hsorted : presorted = true → (blocks items).Pairwise fun b c => c.start < b.start) (hne : items ≠ []) :
    Compacted page (compactify_tuples scratch items page presorted) items := by
  cases items with
  | nil => exact absurd rfl hne
  | cons item rest =>
      obtain ⟨done, hsplit, hdone, hupper⟩ := skipInPlace_spec rest item page.pd_special
      unfold compactify_tuples
      simp only [hupper]
      generalize (skipInPlace page.pd_special item rest).2.2 = todo at hsplit ⊢
      split
      · rename_i hp
        have hs := hsorted hp
        rw [hsplit] at h hs ⊢
        exact compacted_presorted h _ hdone hs
      · split
        · have hall : Compactable page ([] ++ (item :: rest)) := h
          refine compacted_scratch hall item trivial fun b hb x hx => ?_
          exact scratch_each page.bytes (item :: rest) scratch _
            (Or.inr ⟨b, hb, Nat.le_add_right _ _, Nat.add_lt_add_left hx _⟩)
        · rw [hsplit] at h ⊢
          refine compacted_scratch h _ hdone fun b hb x hx => ?_
          have hlow : page.pd_upper ≤ b.start :=
            (h.within b (by rw [blocks_append]; exact List.mem_append_right _ hb)).1
          have hhigh := h.below_done hdone hb hx
          obtain ⟨y, hy⟩ := Nat.exists_eq_add_of_le (show page.pd_upper ≤ b.start + x by omega)
          rw [hy]
          exact copy_in (by omega)

/-! ## 4. What the line pointers read -/

/-- The line pointers of the items, one below the other. -/
def placedIds : Nat → List itemIdCompactData → (Nat → ItemIdData) → List ItemIdData
  | _, [], _ => []
  | top, item :: items, linp =>
      { linp item.offsetindex with lp_off := top - item.alignedlen } ::
        placedIds (top - item.alignedlen) items linp

/-- Only offsets change. -/
theorem setOffsets_keeps : ∀ (items : List itemIdCompactData) (top : Nat) (linp : Nat → ItemIdData) (i : Nat),
    (setOffsets top items linp i).lp_flags = (linp i).lp_flags ∧
      (setOffsets top items linp i).lp_len = (linp i).lp_len
  | [], _, _, _ => ⟨rfl, rfl⟩
  | item :: items, top, linp, i => by
      obtain ⟨h1, h2⟩ := setOffsets_keeps items (top - item.alignedlen)
        (Function.update linp item.offsetindex { linp item.offsetindex with lp_off := top - item.alignedlen }) i
      rw [Function.update_apply] at h1 h2
      unfold setOffsets
      rw [h1, h2]
      split
      · rename_i he
        rw [he]
        exact ⟨rfl, rfl⟩
      · exact ⟨rfl, rfl⟩

/-- Only the line pointers of the items change. -/
theorem setOffsets_other : ∀ (items : List itemIdCompactData) (top : Nat) (linp : Nat → ItemIdData) (i : Nat),
    i ∉ items.map (·.offsetindex) → setOffsets top items linp i = linp i
  | [], _, _, _, _ => rfl
  | item :: items, top, linp, i, h => by
      rw [List.map_cons, List.mem_cons, not_or] at h
      unfold setOffsets
      rw [setOffsets_other items _ _ i h.2, Function.update_of_ne h.1]

/-- The line pointers of the items. -/
theorem setOffsets_items : ∀ (items : List itemIdCompactData) (top : Nat) (linp : Nat → ItemIdData),
    (items.map (·.offsetindex)).Nodup →
    items.map (fun item => setOffsets top items linp item.offsetindex) = placedIds top items linp
  | [], _, _, _ => rfl
  | item :: items, top, linp, h => by
      rw [List.map_cons, List.nodup_cons] at h
      have hne : ∀ it ∈ items, it.offsetindex ≠ item.offsetindex := fun it hit he =>
        h.1 (he ▸ List.mem_map_of_mem hit)
      rw [List.map_cons]
      unfold setOffsets placedIds
      rw [setOffsets_other items _ _ _ h.1, Function.update_self, setOffsets_items items _ _ h.2]
      congr 1
      -- the first item's line pointer is none of the others'
      generalize hnew : ({ linp item.offsetindex with lp_off := top - item.alignedlen } : ItemIdData) = new
      have hcongr : ∀ (its : List itemIdCompactData) (t : Nat), (∀ it ∈ its, it.offsetindex ≠ item.offsetindex) →
          placedIds t its (Function.update linp item.offsetindex new) = placedIds t its linp := by
        intro its
        induction its with
        | nil => exact fun _ _ => rfl
        | cons it its ih =>
            intro t hall
            unfold placedIds
            rw [Function.update_of_ne (hall it List.mem_cons_self),
              ih _ fun it' hit => hall it' (List.mem_cons_of_mem _ hit)]
      exact hcongr items _ hne

/-- Another item above the others. -/
theorem Tiled.cons_above {lo mid hi : Nat} {ids : List ItemIdData} (h : Tiled lo mid ids) {z : ItemIdData}
    (hle : lo ≤ mid) (hlen : 0 < z.lp_len) (hoff : z.lp_off = mid) (hal : mid % 8 = 0)
    (hend : mid + MAXALIGN z.lp_len = hi) : Tiled lo hi (z :: ids) where
  len := List.forall_mem_cons.mpr ⟨hlen, h.len⟩
  aligned := List.forall_mem_cons.mpr ⟨maxalign_of_eq (by omega), h.aligned⟩
  within := by
    refine List.forall_mem_cons.mpr ⟨?_, fun y hy => ?_⟩
    · simp only [Within, ItemIdData.block]
      omega
    · obtain ⟨h1, h2⟩ := h.within y hy
      exact ⟨h1, by omega⟩
  apart := by
    refine List.pairwise_cons.mpr ⟨fun y hy => Or.inr ?_, h.apart⟩
    have hy2 := (h.within y hy).2
    simp only [ItemIdData.block] at hy2 ⊢
    omega
  covered := by
    intro a h1 h2
    by_cases ha : a < mid
    · obtain ⟨y, hy, hh⟩ := h.covered a h1 ha
      exact ⟨y, List.mem_cons_of_mem _ hy, hh⟩
    · refine ⟨z, List.mem_cons_self, ?_⟩
      simp only [Block.Has, ItemIdData.block]
      omega

/-- The items carry the lengths of their line pointers, which are not empty. -/
def Measured (linp : Nat → ItemIdData) (items : List itemIdCompactData) : Prop :=
  ∀ item ∈ items, item.alignedlen = MAXALIGN (linp item.offsetindex).lp_len ∧ 0 < (linp item.offsetindex).lp_len

theorem placedIds_tiled {linp : Nat → ItemIdData} : ∀ {items : List itemIdCompactData} {top : Nat},
    Measured linp items → top % 8 = 0 → total (blocks items) ≤ top →
    Tiled (top - total (blocks items)) top (placedIds top items linp)
  | [], top, _, _, _ =>
      ⟨fun _ hx => absurd hx List.not_mem_nil, fun _ hx => absurd hx List.not_mem_nil,
        fun _ hx => absurd hx List.not_mem_nil, List.Pairwise.nil,
        fun a h1 h2 => absurd h1 (Nat.not_le.mpr h2)⟩
  | item :: items, top, hm, h8, ht => by
      obtain ⟨hlen, hpos⟩ := hm item List.mem_cons_self
      have hal := maxalign_mod (linp item.offsetindex).lp_len
      rw [blocks_cons, total_cons] at ht ⊢
      rw [← Nat.sub_sub]
      have hb : item.block.len = item.alignedlen := rfl
      rw [hb] at ht ⊢
      have ih : Tiled (top - item.alignedlen - total (blocks items)) (top - item.alignedlen)
          (placedIds (top - item.alignedlen) items linp) :=
        placedIds_tiled (fun it hit => hm it (List.mem_cons_of_mem _ hit)) (by omega) (by omega)
      unfold placedIds
      exact ih.cons_above (Nat.sub_le _ _) hpos rfl (by omega) (by simp only; omega)

theorem placedIds_read {linp : Nat → ItemIdData} {m m' : Nat → UInt8} :
    ∀ {items : List itemIdCompactData} {top : Nat}, Measured linp items →
    (∀ item ∈ items, (linp item.offsetindex).lp_off = item.itemoff) → Packed m m' top (blocks items) →
    (placedIds top items linp).map (Bufpage.read m') = items.map fun item => Bufpage.read m (linp item.offsetindex)
  | [], _, _, _, _ => rfl
  | item :: items, top, hm, ho, hp => by
      obtain ⟨hlen, _⟩ := hm item List.mem_cons_self
      have hoff := ho item List.mem_cons_self
      have hle := le_maxalign (linp item.offsetindex).lp_len
      have ih : (placedIds (top - item.alignedlen) items linp).map (Bufpage.read m') =
          items.map fun item => Bufpage.read m (linp item.offsetindex) :=
        placedIds_read (fun it hit => hm it (List.mem_cons_of_mem _ hit))
          (fun it hit => ho it (List.mem_cons_of_mem _ hit)) hp.2
      unfold placedIds
      rw [List.map_cons, List.map_cons, ih]
      congr 1
      refine slice_congr fun x hx => ?_
      have hx : x < (linp item.offsetindex).lp_len := hx
      rw [hoff]
      exact hp.1 x (by simp only [itemIdCompactData.block]; omega)

variable {q : Page}

/-- **The items tile** the area from `pd_upper` up to `pd_special`. -/
theorem Compacted.tiled (hc : Compacted page q items) (h : Compactable page items) (hm : Measured page.pd_linp items)
    (hn : (items.map (·.offsetindex)).Nodup) (hs : page.pd_special % 8 = 0) :
    Tiled q.pd_upper q.pd_special (items.map fun item => q.pd_linp item.offsetindex) := by
  have hle := h.total_le
  rw [hc.upper, hc.special, hc.linp, setOffsets_items items _ _ hn]
  exact placedIds_tiled hm hs (by omega)

/-- **The items read the same.** -/
theorem Compacted.read (hc : Compacted page q items) (h : Compactable page items)
    (hm : Measured page.pd_linp items) (hn : (items.map (·.offsetindex)).Nodup) :
    ∀ item ∈ items, Bufpage.read q.bytes (q.pd_linp item.offsetindex) =
      Bufpage.read page.bytes (page.pd_linp item.offsetindex) := by
  have hr := placedIds_read hm h.offset hc.packed
  rw [← setOffsets_items items _ _ hn, ← hc.linp, List.map_map] at hr
  exact List.map_inj_left.mp hr

end Pgvec.Storage.Bufpage
