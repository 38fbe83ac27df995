/-
  File:      Pgvec/Hnsw/Sections.lean
  Subject:   WHAT EVERY SECTION KEEPS, on any index: the page chain, the pages there are, and that nothing
             but `MarkDeleted` marks an element.

  * `Kept` -- a chain stays a chain, no page is lost, no element becomes marked;
  * `placeElement_kept`, `replaceElement_kept`, `append_kept`, the three ways
    `AddElementOnDisk` changes pages; **`addElement_rule`**, `addElement_kept` -- one round of it;
  * **`execPage_kept`**, **`execPage_chained`** -- every section, at each state it makes durable;
  * `execPage_same` -- the sections that change neither the metapage nor the pages there are.
-/
import Pgvec.Hnsw.Placement

namespace Pgvec.Hnsw

open Storage

variable {V : Type} {idx idx' : Index V}

/-- An element tuple with `deleted` set. -/
def Index.Deleted (idx : Index V) (t : ItemPointer) : Prop :=
  ∃ e, idx.elem? t = some e ∧ e.deleted = true

/-- **What a section keeps.** -/
structure Kept (idx idx' : Index V) : Prop where
  chained : idx.Chained → idx'.Chained
  grown : idx.pages.length ≤ idx'.pages.length
  deleted : ∀ t, idx'.Deleted t → idx.Deleted t

namespace Kept

theorem refl (idx : Index V) : Kept idx idx := ⟨id, Nat.le_refl _, fun _ h => h⟩

theorem trans {a b c : Index V} (h : Kept a b) (h' : Kept b c) : Kept a c :=
  ⟨fun hc => h'.chained (h.chained hc), h.grown.trans h'.grown, fun t ht => h.deleted t (h'.deleted t ht)⟩

theorem of_same (h : Same idx idx') (hd : ∀ t, idx'.Deleted t → idx.Deleted t) : Kept idx idx' :=
  ⟨fun hc => hc.same h, Nat.le_of_eq h.length.symm, hd⟩

end Kept

/-! ## 1. Items -/

/-- A slot that holds an element tuple, and one that holds a neighbor tuple. -/
theorem Index.elem?_of_slot {t : ItemPointer} {e : HnswElementTuple V} {len : Nat}
    (h : idx.slot? t = some ⟨.element e, len⟩) : idx.elem? t = some e :=
  Index.elem?_eq_slot?.mpr ⟨len, h⟩

theorem Index.elem?_of_neighSlot {t : ItemPointer} {n : HnswNeighborTuple} {len : Nat}
    (h : idx.slot? t = some ⟨.neighbor n, len⟩) : idx.elem? t = none := by
  unfold Index.elem?
  rw [Index.item?_eq_slot?, h]
  rfl

theorem Index.elem?_slot_congr {t : ItemPointer} (h : idx'.slot? t = idx.slot? t) :
    idx'.elem? t = idx.elem? t :=
  Index.elem?_congr (by rw [Index.item?_eq_slot?, Index.item?_eq_slot?, h])

/-- Changing one item in place: marked elements come from marked elements. -/
theorem modifyItem_kept (idx : Index V) (t : ItemPointer) (f : HnswItem V → HnswItem V)
    (hf : ∀ it e, idx.item? t = some it → f it = .element e → e.deleted = true →
      ∃ e0, it = .element e0 ∧ e0.deleted = true) : Kept idx (idx.modifyItem t f) := by
  refine .of_same (Index.same_modifyItem f) fun u ⟨e, he, hd⟩ => ?_
  by_cases hu : u = t
  · subst hu
    rw [Index.elem?_eq_some, Index.item?_eq_slot?, Index.slot?_modifyItem, if_pos rfl] at he
    obtain ⟨x, hx, hxe⟩ := Option.map_eq_some_iff.mp he
    obtain ⟨y, hy, rfl⟩ := Option.map_eq_some_iff.mp hx
    have hit : idx.item? u = some y.item := by rw [Index.item?_eq_slot?, hy]; rfl
    obtain ⟨e0, h0, hd0⟩ := hf y.item e hit hxe hd
    exact ⟨e0, Index.elem?_eq_some.mpr (hit.trans (congrArg some h0)), hd0⟩
  · rw [Index.elem?_slot_congr ((Index.slot?_modifyItem f u).trans (if_neg hu))] at he
    exact ⟨e, he, hd⟩

/-- An item put in the place of another one is no marked element. -/
theorem overwriteItem_kept {t : ItemPointer} {it : HnswItem V} {size : Nat}
    (h : idx.overwriteItem t it size = .ok (some idx'))
    (hit : ∀ e, it = .element e → e.deleted = false) : Kept idx idx' := by
  refine .of_same (Index.same_overwriteItem h) fun u ⟨e, he, hd⟩ => ?_
  have hs := Index.slot?_overwriteItem h u
  by_cases hu : u = t
  · rw [if_pos hu] at hs
    rw [Index.elem?_eq_some, Index.item?_eq_slot?, hs] at he
    rw [hit e (Option.some.inj he)] at hd
    cases hd
  · rw [Index.elem?_slot_congr (hs.trans (if_neg hu))] at he
    exact ⟨e, he, hd⟩

/-! ## 2. `AddElementOnDisk` -/

section Add

variable {e : NewElement V} {b nb : Nat} {tid ntid : ItemPointer} {slot : FreeSlot}

theorem placeElement_kept (h : placeElement idx e b nb = some (idx', tid, ntid)) : Kept idx idx' := by
  obtain ⟨hsame, hne, _, _, _, _, hs⟩ := placeElement_slots h
  refine .of_same hsame fun u ⟨f, hf, hd⟩ => ?_
  have hu := hs u
  by_cases h1 : u = ntid
  · rw [if_pos h1] at hu
    rw [Index.elem?_of_neighSlot hu] at hf
    cases hf
  · rw [if_neg h1] at hu
    by_cases h2 : u = tid
    · rw [if_pos h2] at hu
      rw [Index.elem?_of_slot hu] at hf
      cases hf
      cases hd
    · rw [Index.elem?_slot_congr (hu.trans (if_neg h2))] at hf
      exact ⟨f, hf, hd⟩

theorem replaceElement_kept (h : replaceElement idx e b slot = some (idx', tid, ntid)) :
    Kept idx idx' := by
  unfold replaceElement at h
  simp only at h
  split at h
  · rename_i idx1 h1
    split at h
    · rename_i idx2 h2
      cases h
      refine (overwriteItem_kept h1 fun f hf => ?_).trans (overwriteItem_kept h2 fun f hf => by cases hf)
      cases hf
      rfl
    · cases h
  · cases h

/-- A page appended to the last one. -/
theorem append_kept {p : HnswPage V} (hp : idx.page? b = some p)
    (hlast : idx.Chained → b = idx.pages.length) : Kept idx (HnswInsertAppendPage idx b).1 where
  chained hc := by
    rw [hlast hc]
    exact hc.append
  grown := by
    rw [append_length]
    exact Nat.le_succ _
  deleted t := fun ⟨f, hf, hd⟩ => ⟨f, by rw [← Index.elem?_slot_congr (slot?_append hp t)]; exact hf, hd⟩

/-- In a chain only the last page has no successor. -/
theorem Index.Chained.last_of_none (hc : idx.Chained) {p : HnswPage V} (hp : idx.page? b = some p)
    (hn : p.nextblkno = none) : b = idx.pages.length := by
  have hb := Index.page?_pos hp
  have h := hc.next hp
  rw [hn] at h
  split at h
  · cases h
  · omega

theorem finishAdd_rule {P : Index V → Prop} {before : List (Index V)} {nip : Option Nat}
    {placed : Option (Index V × ItemPointer × ItemPointer)} (hb : ∀ c ∈ before, P c)
    (hp : ∀ idx' tid ntid, placed = some (idx', tid, ntid) → P idx') :
    ∀ c ∈ (finishAdd before nip placed).commits, P c := by
  unfold finishAdd
  split
  · exact hb
  · intro c hc
    rcases List.mem_append.mp hc with hc | hc
    · exact hb c hc
    · rw [List.mem_singleton.mp hc]
      exact hp _ _ _ rfl

/-- **What the three changes keep, a round of `AddElementOnDisk` keeps**, on any page. -/
theorem addElement_rule {R : Index V → Index V → Prop} (htrans : ∀ {a b c}, R a b → R b c → R a c)
    (hplace : ∀ {i i' : Index V} {b nb tid ntid}, placeElement i e b nb = some (i', tid, ntid) → R i i')
    (hreplace : ∀ {i i' : Index V} {b slot tid ntid}, (∃ x, i.elem? ⟨b, slot.offno⟩ = some x) →
      replaceElement i e b slot = some (i', tid, ntid) → R i i')
    (happend : ∀ {i : Index V} {b : Nat} {p : HnswPage V}, i.page? b = some p →
      (i.Chained → b = i.pages.length) → R i (HnswInsertAppendPage i b).1)
    (idx : Index V) (b : Nat) (nip : Option Nat) : ∀ c ∈ (addElement idx e b nip).commits, R idx c := by
  have hnil : ∀ c ∈ ([] : List (Index V)), R idx c := fun c hc => absurd hc List.not_mem_nil
  unfold addElement
  split
  · exact hnil
  · rename_i page hpage
    simp only
    split
    · exact finishAdd_rule hnil fun _ _ _ hp => hplace hp
    · split
      · rename_i slot nip' hslot
        obtain ⟨x, hx, _⟩ := freeOffset_spec page.offsets _ nip' hslot
        have hel : idx.elem? ⟨b, slot.offno⟩ = some x := by
          rw [Index.elem?_eq_some]
          unfold Index.item?
          rw [hpage]
          exact hx
        exact finishAdd_rule hnil fun _ _ _ hp => hreplace ⟨x, hel⟩ hp
      · split
        · rename_i hroom
          have hlast := fun hc : idx.Chained =>
            hc.last_of_none hpage (Option.isNone_iff_eq_none.mp hroom.2.2)
          exact finishAdd_rule hnil fun _ _ _ hp => htrans (happend hpage hlast) (hplace hp)
        · split
          · exact hnil
          · rename_i hnext
            have hext := happend hpage fun hc => hc.last_of_none hpage hnext
            have hone : ∀ c ∈ [(HnswInsertAppendPage idx b).1], R idx c := fun c hc => by
              rw [List.mem_singleton.mp hc]
              exact hext
            split
            · exact hone
            · rename_i newpage hnew
              split
              · refine finishAdd_rule hone fun _ _ _ hp => htrans (htrans hext ?_) (hplace hp)
                exact happend hnew fun _ => by rw [append_blkno, append_length]
              · exact finishAdd_rule hone fun _ _ _ hp => htrans hext (hplace hp)

theorem addElement_kept (idx : Index V) (e : NewElement V) (b : Nat) (nip : Option Nat) :
    ∀ c ∈ (addElement idx e b nip).commits, Kept idx c :=
  addElement_rule .trans placeElement_kept (fun _ h => replaceElement_kept h) append_kept idx b nip

/-- The metapage is written by the caller, later. -/
theorem addElement_metap (idx : Index V) (e : NewElement V) (b : Nat) (nip : Option Nat) :
    ∀ c ∈ (addElement idx e b nip).commits, c.metap = idx.metap :=
  addElement_rule (R := fun i i' => i'.metap = i.metap) (fun h h' => h'.trans h)
    (fun h => (placeElement_slots h).1.metap) (fun _ h => (replaceElement_slots h).1.metap)
    (fun _ _ => append_metap _ _) idx b nip

end Add

/-! ## 3. The vacuum -/

/-- What its changes keep, **one page of `RemoveHeapTids`** keeps. -/
theorem removeHeapTids_keeps {R : Index V → Prop} {b : Nat} {callback : ItemPointer → Bool} (h : R idx)
    (hstep : ∀ (i : Index V) o, R i → R (i.modifyItem ⟨b, o⟩ fun
      | .element etup => .element (removeTids callback etup)
      | it => it)) : ∀ c ∈ (removeHeapTids idx b callback).commits, R c := by
  have hloop : ∀ (l : List (Nat × HnswElementTuple V)) (i : Index V), R i →
      R (l.foldl (fun i x => i.modifyItem ⟨b, x.1⟩ fun
        | .element etup => .element (removeTids callback etup)
        | it => it) i) := by
    intro l
    induction l with
    | nil => exact fun i hi => hi
    | cons x l ih => exact fun i hi => ih _ (hstep i x.1 hi)
  unfold removeHeapTids
  split
  · exact fun c hc => absurd hc List.not_mem_nil
  · simp only
    split
    · exact fun c hc => absurd hc List.not_mem_nil
    · intro c hc
      rw [List.mem_singleton.mp hc]
      exact hloop _ idx h

/-- `RemoveHeapTids` on a page marks nothing. -/
theorem removeHeapTids_kept (idx : Index V) (b : Nat) (callback : ItemPointer → Bool) :
    ∀ c ∈ (removeHeapTids idx b callback).commits, Kept idx c := by
  refine removeHeapTids_keeps (.refl idx) fun i o hi => hi.trans (modifyItem_kept i _ _ fun it e _ hf hd => ?_)
  cases it with
  | element e0 =>
      cases hf
      exact ⟨e0, rfl, (removeTids_same callback e0).1 ▸ hd⟩
  | neighbor n => cases hf
  | blank => cases hf

/-- `RemoveHeapTids` on a page changes items only. -/
theorem removeHeapTids_same (idx : Index V) (b : Nat) (callback : ItemPointer → Bool) :
    ∀ c ∈ (removeHeapTids idx b callback).commits, Same idx c :=
  removeHeapTids_keeps (.refl idx) fun _ _ hi => hi.trans (Index.same_modifyItem _)

theorem markElement_same (zeroDatum : V) (idx : Index V) (t : ItemPointer) (e : HnswElementTuple V) :
    Same idx (markElement zeroDatum idx t e) :=
  (Index.same_modifyItem _).trans (Index.same_modifyItem _)

/-- What the marking of one element keeps, **the loop of `MarkDeleted`** over a page keeps. -/
theorem markLoop_keeps {R : Index V → Prop} (zeroDatum : V) (b : Nat)
    (hstep : ∀ (i : Index V) o e, R i → i.elem? ⟨b, o⟩ = some e → R (markElement zeroDatum i ⟨b, o⟩ e)) :
    ∀ (os : List Nat) (idx : Index V) (ip : Option Nat), R idx →
      R (markLoop zeroDatum b os idx ip).1 ∧ ∀ c ∈ (markLoop zeroDatum b os idx ip).2.1, R c
  | [], idx, ip, h => ⟨h, fun c hc => absurd hc List.not_mem_nil⟩
  | o :: os, idx, ip, h => by
      unfold markLoop
      split
      · exact markLoop_keeps zeroDatum b hstep os idx ip h
      · rename_i etup he
        simp only
        split
        · exact markLoop_keeps zeroDatum b hstep os idx _ h
        · split
          · exact markLoop_keeps zeroDatum b hstep os idx ip h
          · have h0 := hstep idx o etup h he
            obtain ⟨h1, h2⟩ := markLoop_keeps zeroDatum b hstep os (markElement zeroDatum idx ⟨b, o⟩ etup)
              (if ip.isNone then some b else ip) h0
            refine ⟨h1, fun c hc => ?_⟩
            rcases List.mem_cons.mp hc with rfl | hc
            · exact h0
            · exact h2 c hc

/-- The loop of `MarkDeleted` over a page changes items only. -/
theorem markLoop_same (zeroDatum : V) (b : Nat) (os : List Nat) (idx : Index V) (ip : Option Nat) :
    Same idx (markLoop zeroDatum b os idx ip).1 ∧ ∀ c ∈ (markLoop zeroDatum b os idx ip).2.1, Same idx c :=
  markLoop_keeps zeroDatum b (fun i o e hi _ => hi.trans (markElement_same zeroDatum i ⟨b, o⟩ e)) os idx ip
    (.refl idx)

theorem markDeleted_keeps {R : Index V → Prop} (zeroDatum : V) (b : Nat) (ip : Option Nat) (h : R idx)
    (hstep : ∀ (i : Index V) o e, R i → i.elem? ⟨b, o⟩ = some e → R (markElement zeroDatum i ⟨b, o⟩ e)) :
    ∀ c ∈ (markDeleted zeroDatum idx b ip).commits, R c := by
  unfold markDeleted
  split
  · exact fun c hc => absurd hc List.not_mem_nil
  · exact (markLoop_keeps zeroDatum b hstep _ idx ip h).2

theorem markDeleted_same (zeroDatum : V) (idx : Index V) (b : Nat) (ip : Option Nat) :
    ∀ c ∈ (markDeleted zeroDatum idx b ip).commits, Same idx c :=
  markDeleted_keeps zeroDatum b ip (.refl idx) fun i o e hi _ =>
    hi.trans (markElement_same zeroDatum i ⟨b, o⟩ e)

/-! ## 4. Every section -/

/-- The sections of `MarkDeleted`. -/
def PageOp.Marks : PageOp V → Prop
  | .markDeleted _ _ _ => True
  | _ => False

/-- **Every section but `MarkDeleted`'s** keeps the chain and marks nothing. -/
theorem execPage_kept (o : PageOp V) (ho : ¬ o.Marks) (idx : Index V) :
    ∀ c ∈ (execPage o idx).commits, Kept idx c := by
  have hnil : ∀ c ∈ ([] : List (Index V)), Kept idx c := fun c hc => absurd hc List.not_mem_nil
  have hone : ∀ {i : Index V}, Kept idx i → ∀ c ∈ [i], Kept idx c := fun hi c hc => by
    rw [List.mem_singleton.mp hc]
    exact hi
  cases o with
  | getMetaPageInfo => exact hnil
  | updateMetaPage ue ep ip =>
      exact hone ⟨fun hc => hc.metap _, Nat.le_refl _, fun t ht => ht⟩
  | loadElement tid l => exact hnil
  | readNeighborTuple ntid => exact hnil
  | updateNeighbor u =>
      simp only [execPage]
      split
      · exact hnil
      · split
        · exact hnil
        · exact hone (modifyItem_kept idx _ _ fun it e _ hf => by cases hf)
  | overwriteNeighborTuple ntid ntup size =>
      simp only [execPage]
      split
      · rename_i h
        exact hone (overwriteItem_kept h fun e he => by cases he)
      · exact hnil
  | addDuplicate tid heaptid =>
      simp only [execPage]
      split
      · exact hnil
      · rename_i etup hetup
        split
        · exact hnil
        · rename_i etup' hadd
          refine hone (modifyItem_kept idx _ _ fun it e hit hf hd => ?_)
          cases hf
          rw [Index.elem?_eq_some] at hetup
          refine ⟨etup, Option.some.inj (hit.symm.trans hetup), ?_⟩
          unfold addHeapTid at hadd
          simp only at hadd
          split at hadd
          · cases hadd
          · cases hadd
            exact hd
  | addElement e b nip => exact addElement_kept idx e b nip
  | removeHeapTids b callback => exact removeHeapTids_kept idx b callback
  | liveElements b => exact hnil
  | markDeleted z b ip => exact absurd trivial ho

/-- **Every section keeps the chain**, and no page is lost. -/
theorem execPage_chained (o : PageOp V) (idx : Index V) :
    ∀ c ∈ (execPage o idx).commits,
      (idx.Chained → c.Chained) ∧ idx.pages.length ≤ c.pages.length := by
  intro c hc
  by_cases ho : o.Marks
  · cases o with
    | markDeleted z b ip =>
        have h := markDeleted_same z idx b ip c hc
        exact ⟨fun hi => hi.same h, Nat.le_of_eq h.length.symm⟩
    | _ => exact ho.elim
  · have h := execPage_kept o ho idx c hc
    exact ⟨h.chained, h.grown⟩

/-- The sections that work on items only. -/
def PageOp.OnItems : PageOp V → Prop
  | .updateMetaPage _ _ _ => False
  | .addElement _ _ _ => False
  | _ => True

/-- **Only an insert adds pages**, and only `HnswUpdateMetaPage` changes the metapage. -/
theorem execPage_same (o : PageOp V) (ho : o.OnItems) (idx : Index V) :
    ∀ c ∈ (execPage o idx).commits, Same idx c := by
  have hnil : ∀ c ∈ ([] : List (Index V)), Same idx c := fun c hc => absurd hc List.not_mem_nil
  have hone : ∀ {i : Index V}, Same idx i → ∀ c ∈ [i], Same idx c := fun hi c hc => by
    rw [List.mem_singleton.mp hc]
    exact hi
  cases o with
  | getMetaPageInfo => exact hnil
  | loadElement tid l => exact hnil
  | readNeighborTuple ntid => exact hnil
  | updateNeighbor u =>
      simp only [execPage]
      split
      · exact hnil
      · split
        · exact hnil
        · exact hone (Index.same_modifyItem _)
  | overwriteNeighborTuple ntid ntup size =>
      simp only [execPage]
      split
      · rename_i h
        exact hone (Index.same_overwriteItem h)
      · exact hnil
  | addDuplicate tid heaptid =>
      simp only [execPage]
      split
      · exact hnil
      · split
        · exact hnil
        · exact hone (Index.same_modifyItem _)
  | removeHeapTids b callback => exact removeHeapTids_same idx b callback
  | liveElements b => exact hnil
  | markDeleted z b ip => exact markDeleted_same z idx b ip
  | updateMetaPage ue ep ip => exact ho.elim
  | addElement e b nip => exact ho.elim

/-- What holds of the state before a section and of every state it makes durable holds of the state it
    leaves. -/
theorem Sect.final_of_commits {ρ : Type} {r : Sect V ρ} {idx : Index V} {P : Index V → Prop}
    (h0 : P idx) (h : ∀ c ∈ r.commits, P c) : P (r.final idx) := by
  unfold Sect.final
  rcases List.eq_nil_or_concat r.commits with hc | ⟨l, c, hc⟩
  · rw [hc]
    exact h0
  · rw [hc]
    simp only [List.concat_eq_append, List.getLastD_concat]
    exact h c (by rw [hc]; simp)

end Pgvec.Hnsw
