/-
  File:      Pgvec/Hnsw/Placement.lean
  Subject:   WHERE `AddElementOnDisk` PUTS AN ELEMENT.

  * `Placed` -- a new node stands where there was none, or where there was a deleted one whose neighbor
    tuple it takes over; `Extended` -- the same nodes, on more pages;
  * **`addElement_spec`** -- every state a round of the page loop makes durable is one of the two, and its
    answer says which one it left;
  * **`addElement_placed`** -- a round on a page never fails when the element tuple fits on an empty page.
-/
import Pgvec.Hnsw.Nodes

namespace Pgvec.Hnsw

open Storage Storage.Page

variable {V : Type}

/-- A page of the index. -/
def Index.HasPage (idx : Index V) (b : Nat) : Prop := 1 ≤ b ∧ b ≤ idx.pages.length

theorem Index.hasPage_iff {idx : Index V} {b : Nat} : idx.HasPage b ↔ ∃ p, idx.page? b = some p :=
  ⟨fun h => Index.page?_isSome h.1 h.2, fun ⟨_, hp⟩ => Index.page?_pos hp⟩

/-- The same nodes, on at most two pages more. -/
structure Extended (idx idx' : Index V) : Prop where
  node : ∀ u, idx'.node? u = idx.node? u
  metap : idx'.metap = idx.metap
  sound : idx'.Sound
  grown : idx.pages.length ≤ idx'.pages.length
  pages : idx'.pages.length ≤ idx.pages.length + 2

/-- The node a new element becomes. -/
def NewElement.node (e : NewElement V) (version : Nat) (ntid : ItemPointer) : Node V :=
  ⟨e.etup version ntid, e.ntup version, e.ntupSize⟩

/-- **A new node at `tid`**, where there was none or a deleted one. -/
structure Placed (idx idx' : Index V) (e : NewElement V) (tid ntid : ItemPointer) (version : Nat) :
    Prop where
  node : ∀ u, idx'.node? u = if u = tid then some (e.node version ntid) else idx.node? u
  old : idx.node? tid = none ∧ version = e.version ∨
    ∃ x, idx.node? tid = some x ∧ x.elem.deleted = true ∧ version = x.elem.version ∧
      ntid = x.elem.neighbortid
  metap : idx'.metap = idx.metap
  sound : idx'.Sound
  grown : idx.pages.length ≤ idx'.pages.length
  pages : idx'.pages.length ≤ idx.pages.length + 2
  ntid : idx'.HasPage ntid.blkno

section Place

variable {idx idx' : Index V} {e : NewElement V} {tid ntid : ItemPointer}

/-- Two tuples written at once. -/
theorem placed_nodes (h : idx.Paired) (tid ntid : ItemPointer) (et : HnswElementTuple V)
    (n : HnswNeighborTuple) {elen len : Nat}
    (hnt : et.neighbortid = ntid) (hne : tid ≠ ntid)
    (hs : ∀ u, idx'.slot? u = if u = ntid then some ⟨.neighbor n, len⟩
      else if u = tid then some ⟨.element et, elen⟩ else idx.slot? u)
    (hown : ∀ u f, idx.elem? u = some f → f.neighbortid = ntid → u = tid)
    (helem : idx.elem? ntid = none) (hneigh : idx.neighSlot? tid = none) :
    (∀ u, idx'.node? u = if u = tid then some ⟨et, n, len⟩ else idx.node? u) ∧ idx'.Paired := by
  have h1 : ∀ u, idx'.elem? u = if u = tid then some et else idx.elem? u := by
    intro u
    by_cases hu : u = ntid
    · subst hu
      rw [if_neg (Ne.symm hne), helem]
      unfold Index.elem?
      rw [Index.item?_eq_slot?, hs, if_pos rfl]
      rfl
    · by_cases hu' : u = tid
      · rw [if_pos hu']
        exact Index.elem?_eq_slot?.mpr ⟨elen, by rw [hs, if_neg hu, if_pos hu']⟩
      · rw [if_neg hu']
        exact Index.elem?_congr (by rw [Index.item?_eq_slot?, Index.item?_eq_slot?, hs, if_neg hu,
          if_neg hu'])
  have h2 : ∀ u, idx'.neighSlot? u = if u = ntid then some (n, len) else idx.neighSlot? u := by
    intro u
    by_cases hu : u = ntid
    · rw [if_pos hu]
      exact Index.neighSlot?_eq_some.mpr (by rw [hs, if_pos hu])
    · rw [if_neg hu]
      by_cases hu' : u = tid
      · rw [hu', hneigh]
        unfold Index.neighSlot?
        rw [hs, if_neg hne, if_pos rfl]
      · unfold Index.neighSlot?
        rw [hs, if_neg hu, if_neg hu']
  refine ⟨fun u => ?_, fun {u f} hu => ?_, fun {a b f g} ha hb hab => ?_⟩
  · unfold Index.node?
    rw [h1]
    by_cases hu : u = tid
    · simp only [if_pos hu, hnt, h2, if_true, Option.map_some]
    · simp only [if_neg hu]
      cases hf : idx.elem? u with
      | none => rfl
      | some f =>
          simp only
          rw [h2, if_neg fun e => hu (hown u f hf e)]
  · rw [h1] at hu
    split at hu
    · cases hu
      exact ⟨_, by rw [hnt, h2, if_pos rfl]⟩
    · rename_i hne'
      rw [h2, if_neg fun e => hne' (hown u f hu e)]
      exact h.ntup hu
  · rw [h1] at ha hb
    split at ha
    · cases ha
      split at hb
      · rename_i h' h''
        rw [h', h'']
      · rename_i hat hbt
        exact absurd (hown b g hb (by rw [← hab, hnt])) hbt
    · rename_i hat
      split at hb
      · cases hb
        exact absurd (hown a f ha (by rw [hab, hnt])) hat
      · exact h.owner ha hb hab

/-- Placing the two tuples at the end of pages: where they went was free. -/
theorem placeElement_slots {b nb : Nat}
    (hp : placeElement idx e b nb = some (idx', tid, ntid)) :
    Same idx idx' ∧ tid ≠ ntid ∧ idx.slot? tid = none ∧ idx.slot? ntid = none ∧ ntid.blkno = nb ∧
      (∃ p, idx.page? nb = some p) ∧
      ∀ u, idx'.slot? u = if u = ntid then some ⟨.neighbor (e.ntup e.version), e.ntupSize⟩
        else if u = tid then some ⟨.element (e.etup e.version ntid), e.etupSize⟩ else idx.slot? u := by
  unfold placeElement at hp
  split at hp
  · cases hp
  · rename_i p hpb
    simp only at hp
    generalize (if nb = b then p.page.PageGetMaxOffsetNumber + 1 + 1 else 1) = no at hp
    split at hp
    · cases hp
    · rename_i idx1 o1 h1
      split at hp
      · cases hp
      · rename_i ho1
        split at hp
        · cases hp
        · rename_i idx2 o2 h2
          split at hp
          · cases hp
          · rename_i ho2
            cases hp
            have ho1' : o1 = p.page.PageGetMaxOffsetNumber + 1 := not_not.mp ho1
            have ho2' := not_not.mp ho2
            rw [← ho1']
            have hfree := Index.slot?_addItem_free h2
            have hs1 := Index.slot?_addItem h1
            have hne : (⟨b, o1⟩ : ItemPointer) ≠ ⟨nb, o2⟩ := by
              intro he
              rw [← he, hs1, if_pos rfl] at hfree
              cases hfree
            have hsame := Index.same_addItem h1
            obtain ⟨p1, _, hp1, _, _⟩ := Index.addItem_eq h2
            rw [hs1, if_neg (Ne.symm hne)] at hfree
            rw [ho2']  at h2 hne hfree
            refine ⟨hsame.trans (Index.same_addItem h2), hne, Index.slot?_addItem_free h1, hfree, rfl,
              ?_, fun u => ?_⟩
            · have hlen := Index.page?_pos hp1
              rw [hsame.length] at hlen
              exact Index.page?_isSome hlen.1 hlen.2
            · rw [Index.slot?_addItem h2, hs1]

/-- A slot that is not in use belongs to no node. -/
theorem free_slot {t : ItemPointer} (h : idx.slot? t = none) :
    idx.elem? t = none ∧ idx.neighSlot? t = none := by
  refine ⟨?_, by unfold Index.neighSlot?; rw [h]⟩
  cases he : idx.elem? t with
  | none => rfl
  | some e =>
      obtain ⟨len, hl⟩ := Index.elem?_eq_slot?.mp he
      rw [h] at hl
      cases hl

theorem placeElement_placed (h : idx.Sound) {b nb : Nat}
    (hp : placeElement idx e b nb = some (idx', tid, ntid)) :
    Placed idx idx' e tid ntid e.version ∧ Same idx idx' := by
  obtain ⟨hsame, hne, hf1, hf2, hnb, hpage, hs⟩ := placeElement_slots hp
  obtain ⟨he1, hn1⟩ := free_slot hf1
  obtain ⟨he2, hn2⟩ := free_slot hf2
  obtain ⟨hnode, hpair⟩ := placed_nodes h.paired tid ntid (e.etup e.version ntid)
    (e.ntup e.version) rfl hne hs (fun u f hu hf => by
      obtain ⟨n, hn⟩ := h.paired.ntup hu
      rw [hf, hn2] at hn
      cases hn) he2 hn1
  refine ⟨⟨hnode, Or.inl ⟨?_, rfl⟩, hsame.metap, ⟨hpair, h.chained.same hsame⟩,
    Nat.le_of_eq hsame.length.symm, by rw [hsame.length]; omega, ?_⟩, hsame⟩
  · unfold Index.node?
    rw [he1]
  · unfold Index.HasPage
    rw [hnb, hsame.length]
    exact Index.hasPage_iff.mpr hpage

/-- Overwriting the two tuples of a deleted element. -/
theorem replaceElement_slots {b : Nat} {slot : FreeSlot}
    (hp : replaceElement idx e b slot = some (idx', tid, ntid)) :
    Same idx idx' ∧ tid = ⟨b, slot.offno⟩ ∧ ntid = slot.neighbortid ∧ idx'.HasPage ntid.blkno ∧
      ∀ u, idx'.slot? u = if u = ntid then some ⟨.neighbor (e.ntup slot.version), e.ntupSize⟩
        else if u = tid then some ⟨.element (e.etup slot.version ntid), e.etupSize⟩ else idx.slot? u := by
  unfold replaceElement at hp
  simp only at hp
  split at hp
  · rename_i idx1 h1
    split at hp
    · rename_i idx2 h2
      cases hp
      have hsame := (Index.same_overwriteItem h1).trans (Index.same_overwriteItem h2)
      refine ⟨hsame, rfl, rfl, ?_, fun u => by
        rw [Index.slot?_overwriteItem h2, Index.slot?_overwriteItem h1]⟩
      obtain ⟨p, _, hp, _, _⟩ := Index.overwriteItem_eq h2
      have := Index.page?_pos hp
      rw [(Index.same_overwriteItem h1).length] at this
      unfold Index.HasPage
      rw [hsame.length]
      exact this
    · cases hp
  · cases hp

/-- The two tuples where a deleted element stood. -/
theorem replaceElement_placed (h : idx.Sound) {b : Nat} {slot : FreeSlot} {x : Node V}
    (hx : idx.node? ⟨b, slot.offno⟩ = some x) (hd : x.elem.deleted = true)
    (hv : slot.version = x.elem.version) (hn : slot.neighbortid = x.elem.neighbortid)
    (hp : replaceElement idx e b slot = some (idx', tid, ntid)) :
    Placed idx idx' e tid ntid slot.version := by
  obtain ⟨hsame, rfl, rfl, hpage, hs⟩ := replaceElement_slots hp
  obtain ⟨⟨elen, hel⟩, hnl⟩ := node_slot hx
  have hne : (⟨b, slot.offno⟩ : ItemPointer) ≠ slot.neighbortid := by
    rw [hn]
    exact elem_ne_ntid hx (Index.node?_elem hx)
  have hneigh : idx.neighSlot? ⟨b, slot.offno⟩ = none := by
    unfold Index.neighSlot?
    rw [hel]
  have helem : idx.elem? slot.neighbortid = none := by
    unfold Index.elem?
    rw [Index.item?_eq_slot?, hn, hnl]
    rfl
  obtain ⟨hnode, hpair⟩ := placed_nodes h.paired ⟨b, slot.offno⟩ slot.neighbortid
    (e.etup slot.version slot.neighbortid) (e.ntup slot.version) rfl hne hs
    (fun u f hu hf => h.paired.owner hu (Index.node?_elem hx) (by rw [hf, hn])) helem hneigh
  exact ⟨hnode, Or.inr ⟨x, hx, hd, hv, hn⟩, hsame.metap, ⟨hpair, h.chained.same hsame⟩,
    Nat.le_of_eq hsame.length.symm, by rw [hsame.length]; omega, hpage⟩

/-- What `HnswFreeOffset` finds is a deleted element of the page. -/
theorem freeOffset_spec {b : Nat} {p : HnswPage V} {es ns : Nat} {slot : FreeSlot} :
    ∀ (os : List Nat) (nip nip' : Option Nat),
      HnswFreeOffset idx b p es ns os nip = (some slot, nip') →
      (∃ et, p.page.PageGetItem slot.offno = some (.element et) ∧ et.deleted = true ∧
        freeSpaceSuffices idx b p slot.offno et es ns = true ∧ slot.version = et.version ∧
        slot.neighbortid = et.neighbortid)
  | [], nip, nip', h => by cases h
  | o :: os, nip, nip', h => by
      unfold HnswFreeOffset at h
      split at h
      · rename_i et het
        split at h
        · rename_i hd
          simp only at h
          split at h
          · rename_i hf
            cases h
            exact ⟨et, het, hd, hf, rfl, rfl⟩
          · exact freeOffset_spec os _ _ h
        · exact freeOffset_spec os _ _ h
      · exact freeOffset_spec os _ _ h

/-- The insert page noted is the page at hand or the one noted before. -/
theorem freeOffset_insertPage (idx : Index V) (b : Nat) (p : HnswPage V) (es ns : Nat) :
    ∀ (os : List Nat) (nip : Option Nat),
      (HnswFreeOffset idx b p es ns os nip).2 = nip ∨
        (HnswFreeOffset idx b p es ns os nip).2 = some b
  | [], nip => Or.inl rfl
  | o :: os, nip => by
      unfold HnswFreeOffset
      split
      · split
        · have hset : (if nip.isNone = true then some b else nip) = nip ∨
              (if nip.isNone = true then some b else nip) = some b := by
            split
            · exact Or.inr rfl
            · exact Or.inl rfl
          simp only
          generalize (if nip.isNone = true then some b else nip) = nip' at hset
          split
          · exact hset
          · rcases freeOffset_insertPage idx b p es ns os nip' with h | h
            · rw [h]
              exact hset
            · exact Or.inr h
        · exact freeOffset_insertPage idx b p es ns os nip
      · exact freeOffset_insertPage idx b p es ns os nip

end Place

/-! ## 1. One round of the page loop -/

/-- **What a round can do**: go on to the next page, place the element (after pages were added), or fail
    (after pages were added). The insert page noted is the one noted before, the page at hand, or the page
    of the neighbor tuple. -/
inductive AddOutcome (idx : Index V) (e : NewElement V) (b : Nat) (nip : Option Nat) :
    Sect V AddResult → Prop where
  | next (nip' : Option Nat) (hb : idx.HasPage (b + 1)) (hn : nip' = nip ∨ nip' = some b) :
      AddOutcome idx e b nip ⟨[], .next (b + 1) nip'⟩
  | placed (before : List (Index V)) (idx' : Index V) (tid ntid : ItemPointer) (version : Nat)
      (nip' : Option Nat) (hb : ∀ c ∈ before, Extended idx c)
      (hp : Placed idx idx' e tid ntid version)
      (hn : nip' = nip ∨ nip' = some b ∨ nip' = some ntid.blkno) (hs : nip'.isSome = true) :
      AddOutcome idx e b nip ⟨before ++ [idx'], .placed tid ntid nip'⟩
  | failed (before : List (Index V)) (msg : String) (hb : ∀ c ∈ before, Extended idx c) :
      AddOutcome idx e b nip ⟨before, .failed msg⟩

section Round

variable {idx : Index V} {e : NewElement V} {b : Nat} {nip : Option Nat}

theorem Extended.refl (h : idx.Sound) : Extended idx idx :=
  ⟨fun _ => rfl, rfl, h, Nat.le_refl _, Nat.le_add_right _ _⟩

/-- A page appended after the last one. -/
theorem append_extended (h : idx.Sound) (hb : b = idx.pages.length) :
    Extended idx (HnswInsertAppendPage idx b).1 := by
  subst hb
  obtain ⟨p, hp⟩ := h.chained.last
  have hlen := append_length idx idx.pages.length
  exact ⟨Index.node?_congr (slot?_append hp), append_metap _ _,
    ⟨h.paired.congr (slot?_append hp), h.chained.append⟩, by omega, by omega⟩

/-- Placing after pages were added. -/
theorem Placed.after {idx1 idx' : Index V} {tid ntid : ItemPointer} {version : Nat}
    (h : Extended idx idx1) (hp : Placed idx1 idx' e tid ntid version)
    (hlen : idx'.pages.length ≤ idx.pages.length + 2) : Placed idx idx' e tid ntid version where
  node u := by
    rw [hp.node]
    split
    · rfl
    · exact h.node u
  old := by
    rw [← h.node tid]
    exact hp.old
  metap := hp.metap.trans h.metap
  sound := hp.sound
  grown := h.grown.trans hp.grown
  pages := hlen
  ntid := hp.ntid

theorem finishAdd_outcome {before : List (Index V)} {nip' : Option Nat}
    {placed : Option (Index V × ItemPointer × ItemPointer)} (hb : ∀ c ∈ before, Extended idx c)
    (hn : nip' = nip ∨ nip' = some b)
    (hp : ∀ idx' tid ntid, placed = some (idx', tid, ntid) →
      ∃ version, Placed idx idx' e tid ntid version) :
    AddOutcome idx e b nip (finishAdd before nip' placed) := by
  unfold finishAdd
  split
  · exact .failed before _ hb
  · rename_i idx' tid ntid
    obtain ⟨version, h⟩ := hp idx' tid ntid rfl
    refine .placed before idx' tid ntid version _ hb h ?_ ?_
    · split
      · exact hn.imp id Or.inl
      · exact Or.inr (Or.inr rfl)
    · split
      · assumption
      · rfl

/-- **One round of the page loop of `AddElementOnDisk`.** -/
theorem addElement_spec (h : idx.Sound) (e : NewElement V) (b : Nat) (nip : Option Nat) :
    AddOutcome idx e b nip (addElement idx e b nip) := by
  unfold addElement
  split
  · exact .failed [] _ fun c hc => absurd hc List.not_mem_nil
  · rename_i page hpage
    simp only
    have hset : (if nip.isNone = true ∧ e.minCombinedSize ≤ page.page.PageGetFreeSpace then some b
        else nip) = nip ∨ (if nip.isNone = true ∧ e.minCombinedSize ≤ page.page.PageGetFreeSpace
        then some b else nip) = some b := by
      split
      · exact Or.inr rfl
      · exact Or.inl rfl
    generalize (if nip.isNone = true ∧ e.minCombinedSize ≤ page.page.PageGetFreeSpace then some b
      else nip) = nip1 at hset
    have hnil : ∀ c ∈ ([] : List (Index V)), Extended idx c := fun c hc => absurd hc List.not_mem_nil
    split
    · exact finishAdd_outcome hnil hset fun idx' tid ntid hp =>
        ⟨_, (placeElement_placed h hp).1⟩
    · have hfo := freeOffset_insertPage idx b page e.etupSize e.ntupSize page.offsets nip1
      split
      · rename_i slot nip2 hslot
        rw [hslot] at hfo
        have hset2 : nip2 = nip ∨ nip2 = some b := by
          rcases hfo with hfo | hfo
          · rcases hset with hset | hset
            · exact Or.inl (hfo.trans hset)
            · exact Or.inr (hfo.trans hset)
          · exact Or.inr hfo
        obtain ⟨et, het, hd, _, hv, hnt⟩ := freeOffset_spec page.offsets nip1 nip2 hslot
        obtain ⟨x, hx, rfl⟩ := (h.paired.mem_elements hpage).mp (mem_elements.mpr het)
        exact finishAdd_outcome hnil hset2 fun idx' tid ntid hp =>
          ⟨_, replaceElement_placed h hx hd hv hnt hp⟩
      · rename_i nip2 hslot
        rw [hslot] at hfo
        have hset2 : nip2 = nip ∨ nip2 = some b := by
          rcases hfo with hfo | hfo
          · rcases hset with hset | hset
            · exact Or.inl (hfo.trans hset)
            · exact Or.inr (hfo.trans hset)
          · exact Or.inr hfo
        have hpos := Index.page?_pos hpage
        -- a page without a successor is the last one
        have hlast : page.nextblkno = none → b = idx.pages.length := by
          intro hn
          have := h.chained.next hpage
          rw [hn] at this
          split at this
          · cases this
          · omega
        split
        · rename_i hroom
          have hb := hlast (Option.isNone_iff_eq_none.mp hroom.2.2)
          have hext := append_extended h hb
          refine finishAdd_outcome hnil hset2 fun idx' tid ntid hp => ?_
          obtain ⟨hpl, hsame⟩ := placeElement_placed hext.sound hp
          exact ⟨_, hpl.after hext (by rw [hsame.length]; exact hext.pages)⟩
        · split
          · rename_i nextblkno hnext
            have hn := h.chained.next hpage
            rw [hnext] at hn
            split at hn
            · rename_i hlt
              cases hn
              exact .next nip2 ⟨by omega, hlt⟩ hset2
            · cases hn
          · rename_i hnext
            have hb := hlast hnext
            have hext := append_extended h hb
            have hlen := append_length idx b
            have hone : ∀ c ∈ [(HnswInsertAppendPage idx b).1], Extended idx c := fun c hc => by
              rw [List.mem_singleton.mp hc]
              exact hext
            split
            · exact .failed _ _ hone
            · split
              · refine finishAdd_outcome hone hset2 fun idx' tid ntid hp => ?_
                rw [append_blkno] at hp
                have hext2 := append_extended (b := idx.pages.length + 1) hext.sound hlen.symm
                have hlen2 := append_length (HnswInsertAppendPage idx b).1 (idx.pages.length + 1)
                obtain ⟨hpl, hsame⟩ := placeElement_placed hext2.sound hp
                have hle : idx'.pages.length ≤ idx.pages.length + 2 := by
                  rw [hsame.length, hlen2, hlen]
                refine ⟨_, (hpl.after hext2 ?_).after hext hle⟩
                rw [hlen]
                omega
              · refine finishAdd_outcome hone hset2 fun idx' tid ntid hp => ?_
                obtain ⟨hpl, hsame⟩ := placeElement_placed hext.sound hp
                exact ⟨_, hpl.after hext (by rw [hsame.length]; exact hext.pages)⟩

/-! ## 2. There is always room -/

/-- The element fits on an empty page, and its neighbor tuple too. -/
structure NewElement.Fits (e : NewElement V) : Prop where
  etup : e.etupSize ≤ HNSW_MAX_SIZE
  ntup : e.ntupSize ≤ HNSW_MAX_SIZE

theorem NewElement.etupSize_aligned (e : NewElement V) : MAXALIGN e.etupSize = e.etupSize :=
  elementSize_aligned _

theorem NewElement.ntupSize_aligned (e : NewElement V) : MAXALIGN e.ntupSize = e.ntupSize :=
  neighborSize_aligned _ _

theorem NewElement.etupSize_pos (e : NewElement V) : 0 < e.etupSize := elementSize_pos _

theorem NewElement.ntupSize_pos (e : NewElement V) : 0 < e.ntupSize := neighborSize_pos _ _

/-- Both tuples on one page. -/
theorem placeElement_same {p : HnswPage V} (hp : idx.page? b = some p)
    (h : e.combinedSize ≤ p.page.PageGetFreeSpace) : ∃ r, placeElement idx e b b = some r := by
  have hfree := freeSpace_eq p.page
  have hc : e.combinedSize = e.etupSize + e.ntupSize + sizeofItemIdData := rfl
  have h1 : MAXALIGN e.etupSize ≤ p.page.PageGetFreeSpace := by
    rw [e.etupSize_aligned]
    omega
  obtain ⟨idx1, q, ha, hq, hqm, hqf⟩ := addItem_isSome
    (.element (e.etup e.version ⟨b, p.page.PageGetMaxOffsetNumber + 1 + 1⟩)) hp e.etupSize_pos h1
  have h2 : MAXALIGN e.ntupSize ≤ q.page.PageGetFreeSpace := by
    rw [freeSpace_eq, e.ntupSize_aligned]
    rw [e.etupSize_aligned] at hqf
    unfold sizeofItemIdData at *
    omega
  obtain ⟨idx2, q2, ha2, _, _, _⟩ := addItem_isSome (.neighbor (e.ntup e.version)) hq
    e.ntupSize_pos h2
  unfold placeElement
  rw [hp]
  simp only [if_true, ha, ha2, hqm, ne_eq, not_true_eq_false, if_false]
  exact ⟨_, rfl⟩

/-- The element tuple on one page, the neighbor tuple on a fresh one. -/
theorem placeElement_fresh {p q : HnswPage V} {nb : Nat} (hp : idx.page? b = some p)
    (hq : idx.page? nb = some q) (hne : nb ≠ b) (hq0 : q.page.PageGetMaxOffsetNumber = 0)
    (hqf : e.ntupSize ≤ q.page.PageGetFreeSpace) (h : e.etupSize ≤ p.page.PageGetFreeSpace) :
    ∃ r, placeElement idx e b nb = some r := by
  have h1 : MAXALIGN e.etupSize ≤ p.page.PageGetFreeSpace := by
    rw [e.etupSize_aligned]
    exact h
  obtain ⟨idx1, p1, ha, hp1, _, _⟩ := addItem_isSome (.element (e.etup e.version ⟨nb, 1⟩)) hp
    e.etupSize_pos h1
  have hq1 : idx1.page? nb = some q := by
    obtain ⟨a, c, hac, _, rfl⟩ := Index.addItem_eq ha
    rw [Index.page?_setPage hac, if_neg hne]
    exact hq
  obtain ⟨idx2, q2, ha2, _, _, _⟩ := addItem_isSome (.neighbor (e.ntup e.version)) hq1
    e.ntupSize_pos (by rw [e.ntupSize_aligned]; exact hqf)
  unfold placeElement
  rw [hp]
  rw [hq0] at ha2
  simp only [if_neg hne, ha, ha2, ne_eq, not_true_eq_false, if_false]
  exact ⟨_, rfl⟩

/-- The space test of `HnswFreeOffset` is enough for both overwrites. -/
theorem replaceElement_isSome {p : HnswPage V} (hp : idx.page? b = some p)
    {slot : FreeSlot} {x : Node V} (hx : idx.node? ⟨b, slot.offno⟩ = some x)
    (hn : slot.neighbortid = x.elem.neighbortid)
    (hf : freeSpaceSuffices idx b p slot.offno x.elem e.etupSize e.ntupSize = true) :
    ∃ r, replaceElement idx e b slot = some r := by
  obtain ⟨⟨elen, hel⟩, hnl⟩ := node_slot hx
  have hl : ∀ (q : HnswPage V) (o : Nat) (y : PageItem (HnswItem V)), q.page.slot? o = some y →
      q.page.ItemIdGetLength o = some y.lp_len := by
    intro q o y hy
    cases o with
    | zero => cases hy
    | succ o =>
        simp only [Page.ItemIdGetLength, Page.slot?] at hy ⊢
        rw [hy]
        rfl
  have hpe : p.page.slot? slot.offno = some ⟨.element x.elem, elen⟩ := by
    rw [← Index.slot?_of_page (t := ⟨b, slot.offno⟩) hp]
    exact hel
  obtain ⟨np, hnp⟩ : ∃ np, idx.page? x.elem.neighbortid.blkno = some np := by
    unfold Index.slot? at hnl
    split at hnl
    · cases hnl
    · rename_i np hnp
      exact ⟨np, hnp⟩
  have hpn : np.page.slot? x.elem.neighbortid.offno = some ⟨.neighbor x.neigh, x.len⟩ := by
    rw [← Index.slot?_of_page hnp]
    exact hnl
  have h1 := le_maxalign elen
  have h2 := le_maxalign x.len
  unfold freeSpaceSuffices at hf
  simp only [hl p _ _ hpe] at hf
  have hne : x.elem.neighbortid ≠ ⟨b, slot.offno⟩ := Ne.symm (elem_ne_ntid hx (Index.node?_elem hx))
  by_cases hsame : x.elem.neighbortid.blkno = b
  · have hpp : np = p := by
      rw [hsame, hp] at hnp
      exact (Option.some.inj hnp).symm
    subst hpp
    simp only [hsame, if_true, hl _ _ _ hpn, Bool.and_eq_true, decide_eq_true_eq] at hf
    obtain ⟨hf1, hf2⟩ := hf
    rw [if_pos hf1] at hf2
    obtain ⟨idx1, hw1⟩ := Index.overwriteItem_isSome
      (.element (e.etup slot.version slot.neighbortid)) e.etupSize (t := ⟨b, slot.offno⟩) hp hel (by
        rw [e.etupSize_aligned]
        simp only
        omega)
    obtain ⟨p0, q, hp0, hq, hidx1⟩ := Index.overwriteItem_eq hw1
    have hpeq : p0 = np := by
      rw [hp] at hp0
      exact (Option.some.inj hp0).symm
    subst hpeq
    have hq1 : idx1.page? x.elem.neighbortid.blkno = some { p0 with page := q } := by
      rw [hidx1, Index.page?_setPage hp0, if_pos hsame]
    have hs1 : idx1.slot? x.elem.neighbortid = some ⟨.neighbor x.neigh, x.len⟩ := by
      rw [Index.slot?_overwriteItem hw1, if_neg hne]
      exact hnl
    have hfree : q.PageGetExactFreeSpace + e.etupSize = p0.page.PageGetExactFreeSpace +
        MAXALIGN elen := by
      cases ho : slot.offno with
      | zero =>
          rw [ho] at hpe
          cases hpe
      | succ n =>
          simp only [ho] at hq
          rw [ho] at hpe
          have := exactFree_overwrite hq hpe
          rw [e.etupSize_aligned] at this
          exact this
    obtain ⟨idx2, hw2⟩ := Index.overwriteItem_isSome
      (.neighbor (e.ntup slot.version)) e.ntupSize hq1 hs1 (by
        rw [e.ntupSize_aligned]
        simp only
        omega)
    unfold replaceElement
    rw [hn] at hw1 ⊢
    simp only [hw1, hw2]
    exact ⟨_, rfl⟩
  · simp only [if_neg hsame, hnp, hl _ _ _ hpn, Bool.and_eq_true, decide_eq_true_eq] at hf
    obtain ⟨hf1, hf2⟩ := hf
    obtain ⟨idx1, hw1⟩ := Index.overwriteItem_isSome
      (.element (e.etup slot.version slot.neighbortid)) e.etupSize (t := ⟨b, slot.offno⟩) hp hel (by
        rw [e.etupSize_aligned]
        simp only
        omega)
    obtain ⟨p0, q, hp0, _, hidx1⟩ := Index.overwriteItem_eq hw1
    have hq1 : idx1.page? x.elem.neighbortid.blkno = some np := by
      rw [hidx1, Index.page?_setPage hp0, if_neg hsame]
      exact hnp
    have hs1 : idx1.slot? x.elem.neighbortid = some ⟨.neighbor x.neigh, x.len⟩ := by
      rw [Index.slot?_overwriteItem hw1, if_neg hne]
      exact hnl
    obtain ⟨idx2, hw2⟩ := Index.overwriteItem_isSome
      (.neighbor (e.ntup slot.version)) e.ntupSize hq1 hs1 (by
        rw [e.ntupSize_aligned]
        simp only
        omega)
    unfold replaceElement
    rw [hn] at hw1 ⊢
    simp only [hw1, hw2]
    exact ⟨_, rfl⟩

theorem finishAdd_ne_failed {before : List (Index V)} {nip' : Option Nat}
    {placed : Option (Index V × ItemPointer × ItemPointer)} (h : ∃ r, placed = some r) (msg : String) :
    (finishAdd before nip' placed).resp ≠ .failed msg := by
  obtain ⟨r, rfl⟩ := h
  unfold finishAdd
  intro h
  cases h

/-- The page a chain ends with after one was appended. -/
theorem page?_appended (h : idx.Sound) (hb : b = idx.pages.length) :
    (HnswInsertAppendPage idx b).1.page? (idx.pages.length + 1) = some HnswInitPage := by
  subst hb
  obtain ⟨p, hp⟩ := h.chained.last
  rw [page?_append hp, if_neg (by omega), if_pos rfl]

/-- **A round on a page of the index never fails**, for an element that fits on an empty page. -/
theorem addElement_placed (h : idx.Sound) (hfit : e.Fits) (hb : idx.HasPage b) (nip : Option Nat)
    (msg : String) : (addElement idx e b nip).resp ≠ .failed msg := by
  obtain ⟨page, hpage⟩ := Index.hasPage_iff.mp hb
  have hmax : (HnswInitPage : HnswPage V).page.PageGetFreeSpace = HNSW_MAX_SIZE := free_initPage
  have hlast : page.nextblkno = none → b = idx.pages.length := by
    intro hn
    have := h.chained.next hpage
    rw [hn] at this
    split at this
    · cases this
    · have := hb.2
      omega
  unfold addElement
  rw [hpage]
  simp only
  generalize (if nip.isNone = true ∧ e.minCombinedSize ≤ page.page.PageGetFreeSpace then some b
    else nip) = nip1
  split
  · rename_i hroom
    exact finishAdd_ne_failed (placeElement_same hpage hroom) msg
  · split
    · rename_i slot nip2 hslot
      obtain ⟨et, het, _, hf, _, hnt⟩ := freeOffset_spec page.offsets nip1 nip2 hslot
      obtain ⟨x, hx, rfl⟩ := (h.paired.mem_elements hpage).mp (mem_elements.mpr het)
      exact finishAdd_ne_failed (replaceElement_isSome hpage hx hnt hf) msg
    · split
      · rename_i hroom
        have hbl := hlast (Option.isNone_iff_eq_none.mp hroom.2.2)
        refine finishAdd_ne_failed ?_ msg
        rw [append_blkno]
        refine placeElement_fresh (p := { page with nextblkno := some (idx.pages.length + 1) }) ?_
          (page?_appended h hbl) (by omega) rfl (by rw [hmax]; exact hfit.ntup) hroom.2.1
        rw [page?_append hpage, if_pos rfl]
      · split
        · intro hc
          cases hc
        · rename_i hnext
          have hbl := hlast hnext
          have hnew := page?_appended h hbl
          have hlen := append_length idx b
          rw [append_blkno, hnew]
          simp only [hmax]
          split
          · refine finishAdd_ne_failed ?_ msg
            have hs1 := (append_extended h hbl).sound
            rw [append_blkno]
            refine placeElement_fresh (p := ⟨HnswInitPage.page,
                some ((HnswInsertAppendPage idx b).1.pages.length + 1)⟩) ?_
              (page?_appended hs1 hlen.symm) (by omega) rfl (by rw [hmax]; exact hfit.ntup)
              (by simp only [hmax]; exact hfit.etup)
            rw [page?_append hnew, if_pos rfl]
          · rename_i hroom
            refine finishAdd_ne_failed (placeElement_same hnew ?_) msg
            rw [hmax]
            omega

end Round

end Pgvec.Hnsw
