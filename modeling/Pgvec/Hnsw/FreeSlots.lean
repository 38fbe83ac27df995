/-
  File:      Pgvec/Hnsw/FreeSlots.lean
  Subject:   THE SLOTS OF MARKED ELEMENTS CAN BE FOUND AGAIN: `insertPage` never moves past one.

  * `NotBefore`, `Findable` -- the marked elements stand on a page or behind it; `insertPage` is such a page;
  * **`addElement_insertPage`** -- the page noted by `AddElementOnDisk` is one, round by round;
    `valid_addElementLoop_insertPage` -- over its loop;
  * **`markLoop_insertPage`**, `valid_markDeletedLoop` -- so is the first page `MarkDeleted` notes;
  * `Keeps` -- every other operation leaves it so;
  * `findable_insert`, `findable_bulkdelete`, `buildGraph_findable` -- a call, and the build;
  * **`free_slots_findable`** -- after every sequence of calls.
-/
import Pgvec.Hnsw.PageChain

namespace Pgvec.Hnsw

open Conc Storage

variable {V δ : Type}

/-! ## 1. Where marked elements stand -/

/-- No marked element stands before block `b`. -/
def NotBefore (idx : Index V) (b : Nat) : Prop := ∀ t, idx.Deleted t → b ≤ t.blkno

/-- **A walk from the insert page meets every marked element.** -/
structure Findable (idx : Index V) : Prop where
  chained : idx.Chained
  page : ∃ b, idx.metap.insertPage = some b ∧ idx.HasPage b ∧ NotBefore idx b

section Places

variable {idx idx' : Index V} {b : Nat}

theorem Index.Deleted.blkno {t : ItemPointer} (h : idx.Deleted t) : idx.HasPage t.blkno := by
  obtain ⟨e, he, _⟩ := h
  rw [Index.elem?_eq_some] at he
  unfold Index.item? at he
  split at he
  · cases he
  · rename_i p hp
    exact Index.page?_pos hp

/-- A marked element is among the items of its page. -/
theorem Index.Deleted.onPage {t : ItemPointer} (h : idx.Deleted t) {page : HnswPage V}
    (hp : idx.page? t.blkno = some page) : t.offno ∈ page.offsets ∧
      ∃ f, page.page.PageGetItem t.offno = some (.element f) ∧ f.deleted = true := by
  obtain ⟨f, hf, hd⟩ := h
  have hitem : page.page.PageGetItem t.offno = some (.element f) := by
    rw [Index.elem?_eq_some] at hf
    unfold Index.item? at hf
    rw [hp] at hf
    exact hf
  exact ⟨(elements_sublist page).subset (List.mem_map_of_mem (f := Prod.fst) (mem_elements.mpr hitem)),
    f, hitem, hd⟩

theorem NotBefore.kept (h : NotBefore idx b) (hk : Kept idx idx') : NotBefore idx' b :=
  fun t ht => h t (hk.deleted t ht)

theorem Index.HasPage.grown (h : idx.HasPage b) (hk : Kept idx idx') : idx'.HasPage b :=
  ⟨h.1, h.2.trans hk.grown⟩

/-- What marks nothing and leaves the insert page where it is. -/
theorem Findable.kept (h : Findable idx) (hk : Kept idx idx')
    (hip : idx'.metap.insertPage = idx.metap.insertPage) : Findable idx' where
  chained := hk.chained h.chained
  page := by
    obtain ⟨b, hb, hpage, hn⟩ := h.page
    exact ⟨b, hip.trans hb, hpage.grown hk, hn.kept hk⟩

/-- The metapage is written with another insert page, or with none. -/
theorem Findable.metap (h : Findable idx) (ue : UpdateEntry) (ep : Option EntryPoint) (ip : Option Nat)
    (hip : ∀ b, ip = some b → idx.HasPage b ∧ NotBefore idx b) :
    Findable ({ idx with metap := HnswUpdateMetaPageInfo idx.metap ue ep ip } : Index V) where
  chained := h.chained.metap _
  page := by
    cases ip with
    | none => exact h.page
    | some b =>
        obtain ⟨hpage, hn⟩ := hip b rfl
        exact ⟨b, rfl, hpage, hn⟩

theorem findable_of_built (h : Built idx) : Findable idx where
  chained := h.chained
  page := ⟨_, h.insertPage, ⟨h.chained.pos, Nat.le_refl _⟩, fun t ht => absurd ht (h.unmarked t)⟩

end Places

/-! ## 2. The page `AddElementOnDisk` notes -/

section Add

variable {idx : Index V} {e : NewElement V} {b : Nat} {nip : Option Nat}

/-- `HnswFreeOffset` notes the page at the first marked element; when none is noted there is none. -/
theorem freeOffset_marked (b : Nat) (page : HnswPage V) (es ns : Nat) : ∀ (os : List Nat) (nip : Option Nat),
    (nip.isSome = true → (HnswFreeOffset idx b page es ns os nip).2 = nip) ∧
    (nip = none → (HnswFreeOffset idx b page es ns os nip).2 = some b ∨
      (HnswFreeOffset idx b page es ns os nip) = (none, none) ∧
      ∀ o ∈ os, ∀ f, page.page.PageGetItem o = some (.element f) → f.deleted = false)
  | [], nip => by
      refine ⟨fun _ => rfl, fun h => Or.inr ⟨by rw [h]; rfl, fun o ho => absurd ho List.not_mem_nil⟩⟩
  | o :: os, nip => by
      unfold HnswFreeOffset
      split
      · rename_i f hf
        split
        · -- a marked element
          have hrest := freeOffset_marked b page es ns os (some b)
          refine ⟨fun hs => ?_, fun hn => Or.inl ?_⟩
          · obtain ⟨q, rfl⟩ := Option.isSome_iff_exists.mp hs
            simp only [Option.isNone_some, Bool.false_eq_true, if_false]
            split
            · rfl
            · exact (freeOffset_marked b page es ns os (some q)).1 rfl
          · rw [hn]
            simp only [Option.isNone_none, if_true]
            split
            · rfl
            · exact hrest.1 rfl
        · rename_i hd
          obtain ⟨h1, h2⟩ := freeOffset_marked b page es ns os nip
          refine ⟨h1, fun hn => (h2 hn).imp id fun ⟨h3, h4⟩ => ⟨h3, fun o' ho' g hg => ?_⟩⟩
          rcases List.mem_cons.mp ho' with rfl | ho'
          · rw [hf] at hg
            cases hg
            simpa using hd
          · exact h4 o' ho' g hg
      · rename_i hne
        obtain ⟨h1, h2⟩ := freeOffset_marked b page es ns os nip
        refine ⟨h1, fun hn => (h2 hn).imp id fun ⟨h3, h4⟩ => ⟨h3, fun o' ho' g hg => ?_⟩⟩
        rcases List.mem_cons.mp ho' with rfl | ho'
        · exact absurd hg (hne g)
        · exact h4 o' ho' g hg

/-- A page without marked elements is passed. -/
theorem NotBefore.succ {page : HnswPage V} (hp : idx.page? b = some page) (h : NotBefore idx b)
    (hnone : ∀ o ∈ page.offsets, ∀ f, page.page.PageGetItem o = some (.element f) → f.deleted = false) :
    NotBefore idx (b + 1) := by
  intro t ht
  rcases Nat.lt_or_ge b t.blkno with hlt | hge
  · exact hlt
  · have hb : t.blkno = b := Nat.le_antisymm hge (h t ht)
    obtain ⟨hmem, f, hitem, hd⟩ := ht.onPage (hb.symm ▸ hp)
    rw [hnone t.offno hmem f hitem] at hd
    cases hd

theorem neighborSize_mono {m level level' : Nat} (h : level ≤ level') :
    HNSW_NEIGHBOR_TUPLE_SIZE level m ≤ HNSW_NEIGHBOR_TUPLE_SIZE level' m := by
  have hle : (level + 2) * m ≤ (level' + 2) * m := Nat.mul_le_mul_right m (by omega)
  unfold HNSW_NEIGHBOR_TUPLE_SIZE MAXALIGN sizeofItemPointerData
  omega

/-- What is noted before block `b`: nothing yet, or a page with the property. -/
def Noticed (idx : Index V) (b : Nat) (nip : Option Nat) : Prop :=
  NotBefore idx (nip.getD b) ∧ ∀ q, nip = some q → idx.HasPage q

/-- The page noted when the element is placed. -/
def PlacedPage (idx' : Index V) (nip' : Option Nat) : Prop :=
  ∃ q, nip' = some q ∧ idx'.HasPage q ∧ NotBefore idx' q

theorem finishAdd_page {before : List (Index V)} {nip nip' : Option Nat} {tid ntid : ItemPointer}
    {placed : Option (Index V × ItemPointer × ItemPointer)}
    (h : (finishAdd before nip placed).resp = .placed tid ntid nip')
    (hp : ∀ idx' t nt, placed = some (idx', t, nt) → PlacedPage idx' (if nip.isSome then nip else some nt.blkno)) :
    PlacedPage ((finishAdd before nip placed).final idx) nip' := by
  unfold finishAdd at h ⊢
  split at h
  · cases h
  · rename_i idx' t nt
    cases h
    unfold Sect.final
    simp only [List.getLastD_concat]
    exact hp idx' _ _ rfl

/-- The page is noted if nothing was noted before. -/
theorem Noticed.here (h : Noticed idx b nip) (hb : idx.HasPage b) {c : Prop} [Decidable c] :
    Noticed idx b (if nip.isNone = true ∧ c then some b else nip) := by
  split
  · rename_i hnc
    have hnone := Option.isNone_iff_eq_none.mp hnc.1
    subst hnone
    exact ⟨h.1, fun q hq => by cases hq; exact hb⟩
  · exact h

/-- `HnswFreeOffset` found a slot: a page is noted. -/
theorem Noticed.slot {page : HnswPage V} {es ns : Nat} {slot : FreeSlot} {nip' : Option Nat}
    (h : Noticed idx b nip) (hb : idx.HasPage b)
    (hs : HnswFreeOffset idx b page es ns page.offsets nip = (some slot, nip')) :
    Noticed idx b nip' ∧ nip'.isSome = true := by
  obtain ⟨h1, h2⟩ := freeOffset_marked b page es ns page.offsets nip
  rw [hs] at h1 h2
  cases nip with
  | some q =>
      obtain rfl : nip' = some q := h1 rfl
      exact ⟨h, rfl⟩
  | none =>
      rcases h2 rfl with h' | ⟨h', _⟩
      · obtain rfl : nip' = some b := h'
        exact ⟨⟨h.1, fun q hq => by cases hq; exact hb⟩, rfl⟩
      · cases h'

/-- `HnswFreeOffset` found none: when nothing is noted, the page has no marked element. -/
theorem Noticed.passed {page : HnswPage V} (hp : idx.page? b = some page) {es ns : Nat} {nip' : Option Nat}
    (h : Noticed idx b nip) (hs : HnswFreeOffset idx b page es ns page.offsets nip = (none, nip')) :
    Noticed idx (b + 1) nip' := by
  obtain ⟨h1, h2⟩ := freeOffset_marked b page es ns page.offsets nip
  rw [hs] at h1 h2
  cases nip with
  | some q =>
      obtain rfl : nip' = some q := h1 rfl
      exact h
  | none =>
      rcases h2 rfl with h' | ⟨h', hnone⟩
      · obtain rfl : nip' = some b := h'
        exact ⟨h.1, fun q hq => by cases hq; exact Index.hasPage_iff.mpr ⟨page, hp⟩⟩
      · cases h'
        exact ⟨h.1.succ hp hnone, fun q hq => by cases hq⟩

/-- The element is placed and a page was noted. -/
theorem Noticed.placed {idx' : Index V} (h : Noticed idx b nip) (hs : nip.isSome = true) (hk : Kept idx idx')
    (nb : Nat) : PlacedPage idx' (if nip.isSome then nip else some nb) := by
  obtain ⟨q, rfl⟩ := Option.isSome_iff_exists.mp hs
  exact ⟨q, rfl, (h.2 q rfl).grown hk, h.1.kept hk⟩

/-- The element is placed on pages behind the last one: then nothing marked is left before its neighbors. -/
theorem Noticed.placed_behind {i idx' : Index V} {cb nb : Nat} {t nt : ItemPointer} (h : Noticed idx (b + 1) nip)
    (hlast : b = idx.pages.length) (hk : Kept idx i) (hp : placeElement i e cb nb = some (idx', t, nt)) :
    PlacedPage idx' (if nip.isSome then nip else some nt.blkno) := by
  have hk' := hk.trans (placeElement_kept hp)
  cases nip with
  | some q => exact h.placed rfl hk' nt.blkno
  | none =>
      obtain ⟨hsame, _, _, _, hnb, hpg, _⟩ := placeElement_slots hp
      obtain ⟨h1, h2⟩ := Index.hasPage_iff.mpr hpg
      refine ⟨nt.blkno, rfl, ⟨by rw [hnb]; exact h1, by rw [hnb, hsame.length]; exact h2⟩, fun u hu => ?_⟩
      have hd := hk'.deleted u hu
      have h3 := h.1 u hd
      have h4 := hd.blkno.2
      simp only [Option.getD_none] at h3
      omega

/-- Where both tuples fit, an element on level 0 fits. -/
theorem minCombinedSize_le (e : NewElement V) : e.minCombinedSize ≤ e.combinedSize := by
  unfold NewElement.minCombinedSize NewElement.combinedSize NewElement.ntupSize
  have := neighborSize_mono (m := e.m) (Nat.zero_le e.level)
  omega

/-- **One round of `AddElementOnDisk`** on a page of the chain. -/
theorem addElement_insertPage (hc : idx.Chained) (hb : idx.HasPage b) (hn : Noticed idx b nip) :
    (∀ nb nip', (addElement idx e b nip).resp = .next nb nip' → Noticed idx nb nip') ∧
    ∀ tid ntid nip', (addElement idx e b nip).resp = .placed tid ntid nip' →
      PlacedPage ((addElement idx e b nip).final idx) nip' := by
  obtain ⟨page, hpage⟩ := Index.hasPage_iff.mp hb
  -- only a round that ends adds the element
  have hfin : ∀ {before : List (Index V)} {nip2 : Option Nat}
      {placed : Option (Index V × ItemPointer × ItemPointer)},
      (∀ idx' t nt, placed = some (idx', t, nt) →
        PlacedPage idx' (if nip2.isSome then nip2 else some nt.blkno)) →
      (∀ nb nip', (finishAdd before nip2 placed).resp = .next nb nip' → Noticed idx nb nip') ∧
      ∀ tid ntid nip', (finishAdd before nip2 placed).resp = .placed tid ntid nip' →
        PlacedPage ((finishAdd before nip2 placed).final idx) nip' :=
    fun hp => ⟨fun _ _ h => absurd h finishAdd_ne_next, fun _ _ _ h => finishAdd_page h hp⟩
  unfold addElement
  rw [hpage]
  simp only
  have hn1 := hn.here hb (c := e.minCombinedSize ≤ page.page.PageGetFreeSpace)
  split
  · -- room on this page, so also for an element on level 0
    rename_i hroom
    refine hfin fun idx' t nt hp => hn1.placed ?_ (placeElement_kept hp) nt.blkno
    cases nip with
    | some q => rfl
    | none =>
        simp only [Option.isNone_none, true_and, if_pos ((minCombinedSize_le e).trans hroom),
          Option.isSome_some]
  · split
    · rename_i slot nip2 hslot
      obtain ⟨hn2, hs⟩ := hn1.slot hb hslot
      exact hfin fun idx' t nt hp => hn2.placed hs (replaceElement_kept hp) nt.blkno
    · rename_i nip2 hslot
      have hn2 := hn1.passed hpage hslot
      split
      · rename_i hroom
        have hlast := hc.last_of_none hpage (Option.isNone_iff_eq_none.mp hroom.2.2)
        exact hfin fun idx' t nt hp => hn2.placed_behind hlast (append_kept hpage fun _ => hlast) hp
      · split
        · rename_i nextblkno hnext
          refine ⟨fun nb nip' h => ?_, fun _ _ _ h => (by cases h)⟩
          cases h
          rcases hc.next_cases hpage with ⟨hx, _⟩ | ⟨hx, _⟩
          · rw [hnext] at hx
            cases hx
            exact hn2
          · rw [hnext] at hx
            cases hx
        · rename_i hnext
          have hlast := hc.last_of_none hpage hnext
          have hext := append_kept hpage fun _ => hlast
          split
          · exact ⟨fun _ _ h => (by cases h), fun _ _ _ h => (by cases h)⟩
          · rename_i newpage hnew
            split
            · have hext2 := append_kept hnew fun _ => by rw [append_blkno, append_length]
              exact hfin fun idx' t nt hp => hn2.placed_behind hlast (hext.trans hext2) hp
            · exact hfin fun idx' t nt hp => hn2.placed_behind hlast hext hp

end Add

/-! ## 3. The page `MarkDeleted` notes -/

section Mark

/-- Only the element at hand becomes marked. -/
theorem markElement_deleted (zeroDatum : V) (idx : Index V) (t : ItemPointer) (e : HnswElementTuple V)
    {u : ItemPointer} (h : (markElement zeroDatum idx t e).Deleted u) : u = t ∨ idx.Deleted u := by
  have h1 := (modifyItem_kept _ _ _ fun it f _ hf hd => by
    cases it with
    | element e0 =>
        cases hf
        exact ⟨f, rfl, hd⟩
    | neighbor n => cases hf
    | blank => cases hf).deleted u h
  by_cases hu : u = t
  · exact Or.inl hu
  · obtain ⟨f, hf, hd⟩ := h1
    rw [Index.elem?_slot_congr ((Index.slot?_modifyItem _ u).trans (if_neg hu))] at hf
    exact Or.inr ⟨f, hf, hd⟩

/-- **The loop over a page**: only elements of the page become marked; a page noted before stays noted, and
    when none is noted afterwards, nothing was marked on the page, before or now. -/
theorem markLoop_insertPage (zeroDatum : V) (b : Nat) : ∀ (os : List Nat) (idx : Index V) (ip : Option Nat),
    let out := markLoop zeroDatum b os idx ip
    (∀ t, out.1.Deleted t → t.blkno = b ∨ idx.Deleted t) ∧
    (ip.isSome = true → out.2.2 = ip) ∧
    (ip = none → out.2.2 = some b ∨
      out.2.2 = none ∧ out.1 = idx ∧ ∀ o ∈ os, ¬ idx.Deleted ⟨b, o⟩)
  | [], idx, ip => ⟨fun t h => Or.inr h, fun _ => rfl, fun h =>
      Or.inr ⟨h, rfl, fun o ho => absurd ho List.not_mem_nil⟩⟩
  | o :: os, idx, ip => by
      have hnoted : ∀ q, (if (some q : Option Nat).isNone = true then some b else some q) = some q :=
        fun q => rfl
      unfold markLoop
      split
      · rename_i hne
        obtain ⟨h1, h2, h3⟩ := markLoop_insertPage zeroDatum b os idx ip
        refine ⟨h1, h2, fun hn => (h3 hn).imp id fun ⟨h4, h5, h6⟩ => ⟨h4, h5, fun o' ho' hd => ?_⟩⟩
        rcases List.mem_cons.mp ho' with rfl | ho'
        · obtain ⟨f, hf, _⟩ := hd
          rw [hne] at hf
          cases hf
        · exact h6 o' ho' hd
      · rename_i etup hetup
        simp only
        split
        · -- marked before
          obtain ⟨h1, h2, _⟩ := markLoop_insertPage zeroDatum b os idx (if ip.isNone = true then some b else ip)
          refine ⟨h1, fun hs => ?_, fun hn => Or.inl ?_⟩
          · obtain ⟨q, rfl⟩ := Option.isSome_iff_exists.mp hs
            exact h2 rfl
          · subst hn
            exact h2 rfl
        · split
          · rename_i hd _
            obtain ⟨h1, h2, h3⟩ := markLoop_insertPage zeroDatum b os idx ip
            refine ⟨h1, h2, fun hn => (h3 hn).imp id fun ⟨h4, h5, h6⟩ => ⟨h4, h5, fun o' ho' hdel => ?_⟩⟩
            rcases List.mem_cons.mp ho' with rfl | ho'
            · obtain ⟨f, hf, hdf⟩ := hdel
              rw [hetup] at hf
              cases hf
              exact hd hdf
            · exact h6 o' ho' hdel
          · -- marked now
            obtain ⟨h1, h2, _⟩ := markLoop_insertPage zeroDatum b os
              (markElement zeroDatum idx ⟨b, o⟩ etup) (if ip.isNone = true then some b else ip)
            refine ⟨fun t ht => ?_, fun hs => ?_, fun hn => Or.inl ?_⟩
            · rcases h1 t ht with h | h
              · exact Or.inl h
              · rcases markElement_deleted zeroDatum idx ⟨b, o⟩ etup h with rfl | h
                · exact Or.inl rfl
                · exact Or.inr h
            · obtain ⟨q, rfl⟩ := Option.isSome_iff_exists.mp hs
              exact h2 rfl
            · subst hn
              exact h2 rfl

/-- The marked elements before block `b` stand on the page noted or behind it. -/
def Swept (idx : Index V) (b : Nat) (ip : Option Nat) : Prop :=
  (∀ t, idx.Deleted t → t.blkno < b → ∃ q, ip = some q ∧ q ≤ t.blkno) ∧
  ∀ q, ip = some q → idx.HasPage q ∧ q < b

theorem markLoop_final (zeroDatum : V) (b : Nat) : ∀ (os : List Nat) (idx : Index V) (ip : Option Nat),
    (markLoop zeroDatum b os idx ip).2.1.getLastD idx = (markLoop zeroDatum b os idx ip).1
  | [], idx, ip => rfl
  | o :: os, idx, ip => by
      unfold markLoop
      split
      · exact markLoop_final zeroDatum b os idx ip
      · rename_i etup _
        simp only
        split
        · exact markLoop_final zeroDatum b os idx _
        · split
          · exact markLoop_final zeroDatum b os idx ip
          · simp only [List.getLastD_cons]
            exact markLoop_final zeroDatum b os _ _

/-- **One page of `MarkDeleted`.** -/
theorem markDeleted_swept (zeroDatum : V) {idx : Index V} {b : Nat} {ip : Option Nat} {page : HnswPage V}
    (hp : idx.page? b = some page) (h : Swept idx b ip) :
    ∃ r, (markDeleted zeroDatum idx b ip).resp = some r ∧ r.nextblkno = page.nextblkno ∧
      Swept ((markDeleted zeroDatum idx b ip).final idx) (b + 1) r.insertPage := by
  obtain ⟨h1, h2, h3⟩ := markLoop_insertPage zeroDatum b page.offsets idx ip
  have hsame := (markLoop_same zeroDatum b page.offsets idx ip).1
  have hfinal := markLoop_final zeroDatum b page.offsets idx ip
  unfold markDeleted Sect.final
  rw [hp]
  simp only
  rw [hfinal]
  generalize markLoop zeroDatum b page.offsets idx ip = out at h1 h2 h3 hsame
  refine ⟨⟨out.2.2, page.nextblkno⟩, rfl, rfl, fun t ht hlt => ?_, fun q hq => ?_⟩
  · -- an element of this page, or one before it
    cases ip with
    | some q =>
        obtain ⟨hpg, hqb⟩ := h.2 q rfl
        refine ⟨q, h2 rfl, ?_⟩
        rcases h1 t ht with hb | hd
        · omega
        · rcases Nat.lt_or_ge t.blkno b with hlt' | hge
          · obtain ⟨q', hq', hle⟩ := h.1 t hd hlt'
            cases hq'
            exact hle
          · omega
    | none =>
        have hbefore : ∀ u, idx.Deleted u → b ≤ u.blkno := by
          intro u hu
          by_contra hlt'
          obtain ⟨q, hq, _⟩ := h.1 u hu (by omega)
          cases hq
        have hge : b ≤ t.blkno := by
          rcases h1 t ht with hb | hd
          · omega
          · exact hbefore t hd
        rcases h3 rfl with hs | ⟨_, hsame', hnone⟩
        · exact ⟨b, hs, hge⟩
        · -- nothing on the page is marked
          have hb : t.blkno = b := by omega
          rw [hsame'] at ht
          refine absurd ?_ (hnone t.offno (ht.onPage (hb.symm ▸ hp)).1)
          rw [← hb]
          exact ht
  · have hpg : idx.HasPage q ∧ q < b + 1 := by
      cases ip with
      | some q' =>
          obtain ⟨h4, h5⟩ := h.2 q' rfl
          rw [h2 rfl] at hq
          cases hq
          exact ⟨h4, by omega⟩
      | none =>
          rcases h3 rfl with hs | ⟨hs, _⟩
          · rw [hs] at hq
            cases hq
            exact ⟨Index.hasPage_iff.mpr ⟨page, hp⟩, by omega⟩
          · rw [hs] at hq
            cases hq
    exact ⟨⟨hpg.1.1, by rw [hsame.length]; exact hpg.1.2⟩, hpg.2⟩

end Mark

/-! ## 4. The calls -/

/-- An operation after which the marked elements can be found if they could before. -/
def Keeps (o : Op V) : Prop :=
  ∀ t s r, Findable s.index → (hnswMachine V).exec t o s = some r → Findable r.final.index

theorem keeps_page {o : PageOp V} (ho : ¬ o.Marks)
    (hm : ∀ idx, ∀ c ∈ (execPage o idx).commits, c.metap.insertPage = idx.metap.insertPage) :
    Keeps (.page o) := by
  intro t s r hs hx
  refine (exec_keeps hx hs fun p hp c hc => ?_).1
  cases hp
  exact hs.kept (execPage_kept o ho s.index c hc) (hm s.index c hc)

theorem keeps_items {o : PageOp V} (ho : ¬ o.Marks) (hi : o.OnItems) : Keeps (.page o) :=
  keeps_page ho fun idx c hc => by rw [(execPage_same o hi idx c hc).metap]

theorem keeps_addElement (e : NewElement V) (b : Nat) (nip : Option Nat) :
    Keeps (.page (.addElement e b nip)) :=
  keeps_page id fun idx c hc => by rw [addElement_metap idx e b nip c hc]

theorem Repairs.keeps {o : Op V} (h : Repairs o) : Keeps o := by
  intro t s r hs hx
  have hr := (h.step hx).1
  exact hs.kept hr.kept hr.insertPage

/-- What a call run alone may count on: nobody else changes anything. -/
def aloneSpec (I : St V → Prop) (errors : Prop) : Spec (Op V) (St V) where
  inv := I
  rely a b := a = b
  guar _ _ := True
  allow _ _ := True
  safe _ _ := True
  commit _ := True
  errors := errors
  cuts := True

section Alone

variable {t : Nat}

/-- A program of operations that keep the marked elements to be found. -/
theorem valid_keeps {α : Type} {p : HnswProg V α} (h : All Keeps (fun _ => True) p) {s : St V}
    (hs : Findable s.index) : Valid (hnswMachine V) t (aloneSpec (fun s => Findable s.index) True) p
      (fun _ s' => Findable s'.index) s := by
  refine Valid.mono (valid_of_all (P := fun s => Findable s.index) (fun _ _ hi => hi)
    (fun o ho s' hP _ => ⟨trivial, fun r hx => ?_⟩) (fun s' hi => ⟨hi, trivial⟩) trivial trivial h hs)
    fun _ _ hq => hq.2
  have hf := ho t s' r hP hx
  exact ⟨hf, trivial, fun _ _ => trivial, hf⟩

/-- The page loop of `AddElementOnDisk`: the page noted at its end is one to go on from. -/
theorem valid_addElementLoop_page (e : NewElement V) : ∀ (n b : Nat) (nip : Option Nat) {s : St V},
    Findable s.index → s.index.HasPage b → Noticed s.index b nip →
    Valid (hnswMachine V) t (aloneSpec (fun s => Findable s.index) True) (addElementLoop e n b nip)
      (fun r s' => Findable s'.index ∧ PlacedPage s'.index r.2.2) s
  | 0, _, _, _, _, _, _ => trivial
  | n + 1, b, nip, s, hs, hb, hn => by
      obtain ⟨h1, h2⟩ := addElement_insertPage (e := e) hs.chained hb hn
      have hkeep := keeps_addElement e b nip t s _ hs (exec_page t (.addElement e b nip) s)
      unfold addElementLoop
      refine Valid.bind (valid_section fun s1 hr _ _ => ?_)
      obtain rfl : s = s1 := hr
      refine ⟨trivial, hkeep, trivial, fun _ _ => trivial, ?_⟩
      cases hresp : (execPage (.addElement e b nip) s.index).resp with
      | placed tid ntid nip' => exact ⟨hkeep, h2 tid ntid nip' hresp⟩
      | failed msg => exact ⟨trivial, fun s' _ hi => ⟨hi, trivial⟩⟩
      | next nb nip' =>
          obtain ⟨hcommits, p, hp, hnext⟩ := addElement_next (e := e) hresp
          have hafter : ({ s with index := (execPage (.addElement e b nip) s.index).final s.index } : St V) =
              s := by
            unfold Sect.final
            rw [show (execPage (.addElement e b nip) s.index).commits = [] from hcommits]
            rfl
          rw [hafter]
          rcases hs.chained.next_cases hp with ⟨hn', hlt⟩ | ⟨hn', _⟩
          · rw [hnext] at hn'
            cases hn'
            exact valid_addElementLoop_page e n (b + 1) nip' hs ⟨by omega, hlt⟩ (h1 _ nip' hresp)
          · rw [hnext] at hn'
            cases hn'

variable [LinearOrder δ] [DecidableEq V]

/-- **`UpdateGraphOnDisk`.** -/
theorem valid_updateGraph_page (rel : HnswRel V δ) (e : LocalElement V δ) (value : V)
    (heaptid : ItemPointer) (m : Nat) (entryPoint : Option EntryPoint) (budget : Nat) {s : St V}
    (hs : Findable s.index) : Valid (hnswMachine V) t (aloneSpec (fun s => Findable s.index) True)
      (UpdateGraphOnDisk rel e value heaptid m entryPoint budget) (fun _ s' => Findable s'.index) s := by
  have hconnect : ∀ (e : LocalElement V δ), All Keeps (fun _ => True) (do
      HnswUpdateNeighborsOnDisk rel e m false
      if levelAbove e.element.level entryPoint then
        section_ (.updateMetaPage .greater (some e.element.asEntryPoint) none) : HnswProg V Unit) := by
    intro e
    refine All.andThen ((all_updateNeighborsOnDisk rel e m false).mono (fun _ ho => ho.repairs.1.keeps) fun _ h => h)
      fun _ => ?_
    split
    · exact ⟨Repairs.keeps rfl, fun _ => trivial⟩
    · trivial
  unfold UpdateGraphOnDisk
  refine Valid.bind (Valid.mono (valid_keeps (all_findDuplicate value heaptid
    (fun _ => keeps_items id trivial) (e.layer 0)) hs) ?_)
  intro found s1 hs1
  split
  · exact hs1
  · refine Valid.bind (valid_section fun s2 hr _ _ => ?_)
    obtain rfl : s1 = s2 := hr
    refine ⟨trivial, hs1, trivial, fun _ _ => trivial, ?_⟩
    show Valid _ _ _ (AddElementOnDisk rel e m value s1.index.metap.insertPage budget >>= _) _ s1
    refine Valid.bind ?_
    -- the element is placed, and the page noted is one to go on from
    refine Valid.mono (Q := fun r s' => Findable s'.index ∧
      ∀ q, r.2 = some q → s'.index.HasPage q ∧ NotBefore s'.index q) ?_ ?_
    · obtain ⟨b, hb, hpage, hn⟩ := hs1.page
      unfold AddElementOnDisk
      rw [hb]
      refine Valid.bind (Valid.mono (valid_addElementLoop_page _ budget b none hs1 hpage
        ⟨hn, fun q hq => by cases hq⟩) ?_)
      intro ⟨tid, ntid, nip⟩ s3 ⟨hs3, q, hq, hqp, hqn⟩
      refine ⟨hs3, fun q' hq' => ?_⟩
      simp only at hq hq'
      split at hq'
      · rw [hq] at hq'
        cases hq'
        exact ⟨hqp, hqn⟩
      · cases hq'
    · intro ⟨e', nip⟩ s3 ⟨hs3, hq⟩
      simp only at hq ⊢
      split
      · refine Valid.bind (valid_section fun s4 hr _ _ => ?_)
        obtain rfl : s3 = s4 := hr
        have hf := hs3.metap .no none nip hq
        exact ⟨trivial, hf, trivial, fun _ _ => trivial, valid_keeps (hconnect e') hf⟩
      · exact valid_keeps (hconnect e') hs3

omit [DecidableEq V] in
theorem all_keeps {α : Type} {Q : α → Prop} {p : HnswProg V α} (h : All Repairs Q p) :
    All Keeps (fun _ => True) p := h.mono (fun _ ho => ho.keeps) fun _ _ => trivial

/-- **`HnswInsertTupleOnDisk` run alone.** -/
theorem valid_insertTupleOnDisk_page (rel : HnswRel V δ) (value : V) (heaptid : ItemPointer)
    (rnd budget : Nat) {s : St V} (hs : Findable s.index) :
    Valid (hnswMachine V) t (aloneSpec (fun s => Findable s.index) True)
      (HnswInsertTupleOnDisk rel value heaptid rnd budget) (fun _ s' => Findable s'.index) s := by
  -- what is done under the lock
  have hbody : ∀ (m : Nat) (ep : Option EntryPoint) (mode : LockMode) (s : St V), Findable s.index →
      Valid (hnswMachine V) t (aloneSpec (fun s => Findable s.index) True) (do
        let found ← findNeighborsOnDisk rel (HnswInitElement heaptid m rnd value) ep m false budget
        UpdateGraphOnDisk rel found.1 value heaptid m found.2 budget
        UnlockPage .HNSW_UPDATE_LOCK mode) (fun _ s' => Findable s'.index) s := by
    intro m ep mode s hs
    refine Valid.bind (Valid.mono (valid_keeps (all_keeps ((all_findNeighborsOnDisk rel m budget _ ep
      false).mono (fun _ ho => ho.repairs.1) fun _ h => h)) hs) ?_)
    rintro ⟨e, ep'⟩ s1 hs1
    refine Valid.bind (Valid.mono (valid_updateGraph_page rel e value heaptid m ep' budget hs1) ?_)
    intro _ s2 hs2
    exact valid_keeps (all_keeps (all_unlockPage _ _)) hs2
  unfold HnswInsertTupleOnDisk
  refine Valid.bind (Valid.mono (valid_keeps (all_keeps (all_lockPage _ _ _)) hs) ?_)
  intro _ s1 hs1
  refine Valid.bind (Valid.mono (valid_keeps (all_keeps (all_repairs (all_section .getMetaPageInfo trivial))) hs1) ?_)
  intro metap s2 hs2
  simp only
  split
  · refine Valid.bind (Valid.mono (valid_keeps (all_keeps (all_unlockPage _ _)) hs2) fun _ s3 hs3 => ?_)
    refine Valid.bind (Valid.mono (valid_keeps (all_keeps (all_lockPage _ _ _)) hs3) fun _ s4 hs4 => ?_)
    refine Valid.bind (Valid.mono (valid_keeps (all_keeps (all_repairs all_getEntryPoint)) hs4) fun ep s5 hs5 => ?_)
    exact hbody _ ep _ s5 hs5
  · exact hbody _ metap.entry _ s2 hs2

/-- While `MarkDeleted` runs, the chain is there, and an insert page. -/
def WhileMarking (s : St V) : Prop :=
  s.index.Chained ∧ ∃ b, s.index.metap.insertPage = some b ∧ s.index.HasPage b

omit [DecidableEq V] [LinearOrder δ] in
/-- **The page loop of `MarkDeleted`**, which cannot fail. -/
theorem valid_markDeletedLoop_page (zeroDatum : V) : ∀ (n b : Nat) (ip : Option Nat) {s : St V},
    WhileMarking s → s.index.HasPage b → Swept s.index b ip →
    Valid (hnswMachine V) t (aloneSpec WhileMarking False) (markDeletedLoop zeroDatum n (some b) ip)
      (fun ip' s' => WhileMarking s' ∧ Swept s'.index (s'.index.pages.length + 1) ip') s
  | 0, _, _, _, _, _, _ => trivial
  | n + 1, b, ip, s, hs, hb, hsw => by
      obtain ⟨page, hpage⟩ := Index.hasPage_iff.mp hb
      obtain ⟨r, hr, hnext, hsw'⟩ := markDeleted_swept zeroDatum hpage hsw
      have hsame : Same s.index ((execPage (.markDeleted zeroDatum b ip) s.index).final s.index) :=
        Sect.final_of_commits (.refl _) (markDeleted_same zeroDatum s.index b ip)
      have hs' : WhileMarking { s with index := (execPage (.markDeleted zeroDatum b ip) s.index).final s.index } := by
        obtain ⟨hc, q, hq, hqp⟩ := hs
        exact ⟨hc.same hsame, q, by rw [hsame.metap]; exact hq, hqp.1, by rw [hsame.length]; exact hqp.2⟩
      unfold markDeletedLoop
      refine Valid.bind (valid_section fun s1 he _ _ => ?_)
      obtain rfl : s = s1 := he
      refine ⟨trivial, hs', trivial, fun _ _ => trivial, ?_⟩
      rw [show (execPage (.markDeleted zeroDatum b ip) s.index).resp = some r from hr]
      simp only
      rw [hnext]
      rcases hs.1.next_cases hpage with ⟨hn', hlt⟩ | ⟨hn', hlast⟩
      · rw [hn']
        exact valid_markDeletedLoop_page zeroDatum n (b + 1) r.insertPage hs'
          ⟨by omega, by rw [hsame.length]; exact hlt⟩ hsw'
      · rw [hn']
        have hend : Swept ((execPage (.markDeleted zeroDatum b ip) s.index).final s.index)
            (((execPage (.markDeleted zeroDatum b ip) s.index).final s.index).pages.length + 1)
            r.insertPage := by
          rw [hsame.length, ← hlast]
          exact hsw'
        cases n <;> exact ⟨hs', hend⟩

omit [DecidableEq V] [LinearOrder δ] in
theorem Findable.marking {s : St V} (h : Findable s.index) : WhileMarking s := by
  obtain ⟨b, hb, hpage, _⟩ := h.page
  exact ⟨h.chained, b, hb, hpage⟩

omit [DecidableEq V] [LinearOrder δ] in
/-- An operation on the locks or the phase. -/
theorem valid_noPage {o : Op V} (ho : ∀ p, o ≠ .page p) {s : St V} (hs : Findable s.index) :
    Valid (hnswMachine V) t (aloneSpec WhileMarking False) (.op o .ret) (fun _ s' => Findable s'.index) s := by
  intro s' he _ _
  obtain rfl : s = s' := he
  refine ⟨trivial, fun r hx => ?_⟩
  have hfind : Findable r.final.index := (exec_keeps hx hs fun p hp => absurd hp (ho p)).1
  exact ⟨hfind.marking, trivial, fun _ _ => trivial, hfind⟩

omit [DecidableEq V] [LinearOrder δ] in
/-- **`MarkDeleted`** with the end of the vacuum. -/
theorem valid_markDeleted_page (zeroDatum : V) (budget : Nat) (result : IndexBulkDeleteResult) {s : St V}
    (hs : Findable s.index) : Valid (hnswMachine V) t (aloneSpec WhileMarking False) (do
      MarkDeleted zeroDatum budget
      enter .finished
      return result) (fun _ s' => Findable s'.index) s := by
  have hpage : ∀ {s : St V}, Findable s.index → s.index.HasPage 1 := fun hs =>
    ⟨Nat.le_refl 1, hs.chained.pos⟩
  refine Valid.bind ?_
  refine Valid.mono (Q := fun _ s' => Findable s'.index) ?_ fun _ s1 hs1 =>
    Valid.bind (Valid.mono (valid_noPage (fun p hp => by cases hp) hs1) fun _ s2 hs2 => hs2)
  unfold MarkDeleted
  -- the wait for scans: nothing on the pages changes
  refine Valid.bind (Valid.mono (valid_noPage (fun p hp => by cases hp) hs) fun _ s1 hs1 => ?_)
  refine Valid.bind (Valid.mono (valid_noPage (fun p hp => by cases hp) hs1) fun _ s2 hs2 => ?_)
  refine Valid.bind (Valid.mono (valid_noPage (fun p hp => by cases hp) hs2) fun _ s3 hs3 => ?_)
  refine Valid.bind (Valid.mono (valid_markDeletedLoop_page zeroDatum budget 1 none hs3.marking (hpage hs3)
    ⟨fun u hu hlt => ?_, fun q hq => by cases hq⟩) ?_)
  · have := hu.blkno.1
    omega
  · -- the first free page becomes the insert page
    intro ip s4 ⟨hm4, hsw, hpages⟩
    refine valid_section fun s5 he _ _ => ?_
    obtain rfl : s4 = s5 := he
    have hfind : Findable ({ s4.index with
        metap := HnswUpdateMetaPageInfo s4.index.metap .no none ip } : Index V) := by
      refine ⟨hm4.1.metap _, ?_⟩
      have hall : ∀ u, s4.index.Deleted u → ∃ q, ip = some q ∧ q ≤ u.blkno := fun u hu =>
        hsw u hu (Nat.lt_succ_of_le hu.blkno.2)
      cases ip with
      | none =>
          obtain ⟨b, hb, hbp⟩ := hm4.2
          refine ⟨b, hb, hbp, fun u hu => ?_⟩
          obtain ⟨q, hq, _⟩ := hall u hu
          cases hq
      | some q =>
          refine ⟨q, rfl, (hpages q rfl).1, fun u hu => ?_⟩
          obtain ⟨q', hq', hle⟩ := hall u hu
          cases hq'
          exact hle
    exact ⟨trivial, hfind.marking, trivial, fun _ _ => trivial, hfind⟩

omit [DecidableEq V] [LinearOrder δ] in
/-- What an operation of a call keeps when the program goes on or fails after it. -/
theorem leaves_keeps {α β : Type} {p : HnswProg V α} {f : α → HnswProg V β} (h : All Keeps (fun _ => True) p)
    {s s' : St V} (hs : Findable s.index) (hl : leaves (hnswMachine V) t (p >>= f) s = some s')
    (hf : ∀ a s1, Findable s1.index → leaves (hnswMachine V) t (f a) s1 = some s' → Findable s'.index) :
    Findable s'.index := by
  rcases leaves_bind hl with ⟨r, hr, hl'⟩ | ⟨_, hl'⟩
  · refine hf r.1 r.2 ?_ hl'
    exact ((h.alone (I := fun s => Findable s.index) (C := fun _ => True)
      (fun o ho s hs x hx => ⟨ho t s x hs hx, fun _ _ => trivial⟩) hs).1 r hr).2
  · exact h.leaves (M := hnswMachine V) (I := fun s => Findable s.index)
      (fun o ho s hs x hx => ho t s x hs hx) (fun _ h => h) hs hl'

omit [DecidableEq V] in
/-- **A vacuum run alone**, whether it ends or fails. -/
theorem findable_bulkdelete (rel : HnswRel V δ) (stats : Option IndexBulkDeleteResult)
    (callback : ItemPointer → Bool) (budget : Nat) {s s' : St V} (hs : Findable s.index)
    (hl : leaves (hnswMachine V) t (hnswbulkdelete rel stats callback budget) s = some s') :
    Findable s'.index := by
  unfold hnswbulkdelete at hl
  refine leaves_keeps (all_keeps (all_repairs (all_section .getMetaPageInfo trivial))) hs hl fun metap s1 hs1 hl1 => ?_
  refine leaves_keeps (all_keeps (all_repairs (all_enter _))) hs1 hl1 fun _ s2 hs2 hl2 => ?_
  refine leaves_keeps (all_removeHeapTids _ callback budget (Repairs.keeps trivial) fun _ => keeps_items id trivial)
    hs2 hl2 fun vs s3 hs3 hl3 => ?_
  refine leaves_keeps (all_repairGraph rel _ budget (fun _ ho => ho.keeps) (fun _ => keeps_items id trivial) vs)
    hs3 hl3 fun _ s4 hs4 hl4 => ?_
  have h := valid_leaves (S := aloneSpec WhileMarking False) (fun _ => rfl) (fun _ _ => trivial) hs4.marking
    (valid_markDeleted_page rel.support.zeroDatum budget _ hs4) hl4
  exact h.2.elim False.elim fun ⟨_, h⟩ => h

/-- **A call run alone**, whether it ends or fails. -/
theorem DiskCall.findable (rel : HnswRel V δ) (c : DiskCall V) {s s' : St V} (hs : Findable s.index)
    (hl : leaves (hnswMachine V) t (c.prog rel) s = some s') : Findable s'.index := by
  have hinsert : ∀ value heaptid rnd budget,
      leaves (hnswMachine V) t (HnswInsertTupleOnDisk rel value heaptid rnd budget) s = some s' →
      Findable s'.index := fun value heaptid rnd budget hl =>
    (valid_leaves (S := aloneSpec (fun s => Findable s.index) True) (fun _ => rfl) (fun _ _ => trivial) hs
      (valid_insertTupleOnDisk_page rel value heaptid rnd budget hs) hl).1
  cases c with
  | buildInsert value heaptid rnd budget => exact hinsert value heaptid rnd budget hl
  | insert value heaptid rnd budget =>
      simp only [DiskCall.prog, hnswinsert] at hl
      split at hl
      · cases hl
        exact hs
      · exact hinsert _ heaptid rnd budget hl
  | bulkdelete stats callback budget =>
      rcases leaves_bind hl with ⟨r, hr, hl'⟩ | ⟨_, hl'⟩
      · cases hl'
        exact findable_bulkdelete rel stats callback budget hs (leaves_of_run hr)
      · exact findable_bulkdelete rel stats callback budget hs hl'

theorem Serial.findable {s0 s : St V} (h : Serial δ s0 s) (h0 : Findable s0.index) : Findable s.index := by
  induction h with
  | start => exact h0
  | call h rel t c hl ih => exact c.findable rel ih hl

/-! ## 5. From the build on -/

/-- **The index a build leaves.** -/
theorem buildGraph_findable {mem : MemSpace} {rel : HnswRel V δ} {m budget : Nat} {ts : List (BuildTuple V)}
    {idx : Index V} (h : BuildGraph mem rel m budget ts = some idx) : Findable idx :=
  buildGraph_keeps (fun hf => findable_of_built (flushPages_built hf))
    (fun {i} value tup _ hi hr => DiskCall.findable rel (.buildInsert value tup.tid tup.rnd budget)
      (s := i.atRest) hi (leaves_of_run hr)) h

/-- **Free slots are never leaked.** After a build and any calls of inserts and vacuums one after the other,
    every marked element stands on a page that the walk along `nextblkno` from `insertPage` passes. -/
theorem free_slots_findable {mem : MemSpace} {rel : HnswRel V δ} {m budget : Nat}
    {ts : List (BuildTuple V)} {idx : Index V} (hb : BuildGraph mem rel m budget ts = some idx) {s : St V}
    (hs : Serial δ idx.atRest s) :
    ∀ t e, s.index.elem? t = some e → e.deleted = true →
      ∃ b, s.index.metap.insertPage = some b ∧
        t.blkno ∈ s.index.walk s.index.pages.length (some b) := by
  intro t e he hd
  have hf : Findable s.index := hs.findable (buildGraph_findable hb)
  obtain ⟨b, hip, hpage, hn⟩ := hf.page
  have hdel : s.index.Deleted t := ⟨e, he, hd⟩
  refine ⟨b, hip, ?_⟩
  rw [hf.chained.walk_from s.index.pages.length b hpage (by have := hpage.1; omega), List.mem_range'_1]
  have h1 := hn t hdel
  have h2 := hdel.blkno.2
  exact ⟨h1, by omega⟩

/-- Two values are built and vacuumed away: the walk from `insertPage` passes the page they stood on. -/
theorem free_slots_findable_two : ∃ (idx : Index Nat) (s : St Nat),
    Serial Nat idx.atRest s ∧ (s.index.elem? ⟨1, 1⟩).any (·.deleted) = true ∧
    ∃ b, s.index.metap.insertPage = some b ∧ 1 ∈ s.index.walk s.index.pages.length (some b) := by
  let mem : MemSpace := ⟨id, none, fun _ _ h => h, fun _ h => by cases h⟩
  let rel : HnswRel Nat Nat :=
    ⟨⟨fun a b => (a - b) + (b - a), 0, id, fun _ => 8, 0⟩, 64, none, id, fun _ _ _ n => n⟩
  let vacuum : DiskCall Nat := .bulkdelete none (fun _ => true) 20
  let tuples : List (BuildTuple Nat) := [⟨⟨5, 1⟩, some 3, 0, false⟩, ⟨⟨5, 2⟩, some 8, 0, false⟩]
  have hrun : ((BuildGraph mem rel 2 20 tuples).bind fun idx =>
      (leaves (hnswMachine Nat) 0 (vacuum.prog rel) idx.atRest).filter fun s =>
        (s.index.elem? ⟨1, 1⟩).any (·.deleted)).isSome = true := by
    decide +kernel
  obtain ⟨s, hs⟩ := Option.isSome_iff_exists.mp hrun
  obtain ⟨idx, hb, hs⟩ := Option.bind_eq_some_iff.mp hs
  obtain ⟨hs, hd⟩ := Option.filter_eq_some_iff.mp hs
  have hserial : Serial Nat idx.atRest s := .call .start rel 0 vacuum hs
  obtain ⟨e, he, hdel⟩ := Option.any_eq_true _ _ |>.mp hd
  exact ⟨idx, s, hserial, hd, free_slots_findable hb hserial ⟨1, 1⟩ e he hdel⟩

end Alone

end Pgvec.Hnsw
