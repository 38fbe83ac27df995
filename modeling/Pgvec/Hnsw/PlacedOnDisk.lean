/-
  File:      Pgvec/Hnsw/PlacedOnDisk.lean
  Subject:   `AddElementOnDisk` ON EVERY INDEX THAT BUILD, INSERTS AND VACUUMS LEAVE, interleaved in any way.

  * `KindsKept` -- an item keeps its kind, and an element tuple its neighbor tuple; every section but that
    of an added element does this (`execPage_kinds`), if what is overwritten is a neighbor tuple;
  * **`Written`**, `addElement_written` -- the two tuples of a new element, and all other items as before;
  * `soundSpec`, `valid_diskCall`, **`sound_reached`** -- inserts and vacuums keep the index sound, whatever
    their interleaving;
  * **`add_element_on_disk`** -- the page loop on each of these indexes.
-/
import Pgvec.Hnsw.PageChain
import Pgvec.Hnsw.SearchLogic

namespace Pgvec.Hnsw

open Conc Storage

variable {V δ : Type}

/-! ## 1. Items keep their kind -/

/-- An element tuple stays one and keeps its neighbor tuple; a neighbor tuple stays one. -/
structure KindsKept (idx idx' : Index V) : Prop where
  chained : idx.Chained → idx'.Chained
  elem : ∀ {u f}, idx'.elem? u = some f → ∃ e, idx.elem? u = some e ∧ e.neighbortid = f.neighbortid
  neigh : ∀ {u}, (∃ n, idx.neighSlot? u = some n) → ∃ n, idx'.neighSlot? u = some n

namespace KindsKept

theorem refl (idx : Index V) : KindsKept idx idx := ⟨id, fun h => ⟨_, h, rfl⟩, id⟩

theorem trans {a b c : Index V} (h : KindsKept a b) (h' : KindsKept b c) : KindsKept a c := by
  refine ⟨fun hc => h'.chained (h.chained hc), fun hf => ?_, fun hn => h'.neigh (h.neigh hn)⟩
  obtain ⟨e, he, hen⟩ := h'.elem hf
  obtain ⟨d, hd, hdn⟩ := h.elem he
  exact ⟨d, hd, hdn.trans hen⟩

/-- **A sound index stays sound.** -/
theorem sound {idx idx' : Index V} (h : KindsKept idx idx') (hs : idx.Sound) : idx'.Sound := by
  refine ⟨⟨fun hf => ?_, fun hf hg hfg => ?_⟩, h.chained hs.chained⟩
  · obtain ⟨e, he, hen⟩ := h.elem hf
    rw [← hen]
    exact h.neigh (hs.paired.ntup he)
  · obtain ⟨d, hd, hdn⟩ := h.elem hf
    obtain ⟨e, he, hen⟩ := h.elem hg
    exact hs.paired.owner hd he (by rw [hdn, hfg, hen])

end KindsKept

section Kinds

variable {idx idx' : Index V}

/-- One slot is written, with an item of the same kind. -/
theorem kindsKept_of_slot {t : ItemPointer} {x y : PageItem (HnswItem V)} (hs : Same idx idx')
    (hx : idx.slot? t = some x) (hslot : ∀ u, idx'.slot? u = if u = t then some y else idx.slot? u)
    (helem : ∀ f, y.item = .element f → ∃ e, x.item = .element e ∧ e.neighbortid = f.neighbortid)
    (hneigh : ∀ n, x.item = .neighbor n → ∃ n', y.item = .neighbor n') : KindsKept idx idx' := by
  refine ⟨fun hc => hc.same hs, fun {u f} hf => ?_, fun {u} ⟨n, hn⟩ => ?_⟩
  · by_cases hu : u = t
    · subst hu
      obtain ⟨len, hl⟩ := Index.elem?_eq_slot?.mp hf
      rw [hslot, if_pos rfl] at hl
      obtain ⟨e, he, hen⟩ := helem f (by rw [Option.some.inj hl])
      obtain ⟨xi, xl⟩ := x
      cases he
      exact ⟨e, Index.elem?_eq_slot?.mpr ⟨xl, hx⟩, hen⟩
    · rw [(elem?_ite_slot hslot u hu).1] at hf
      exact ⟨f, hf, rfl⟩
  · by_cases hu : u = t
    · subst hu
      rw [Index.neighSlot?_eq_some] at hn
      rw [hx] at hn
      obtain ⟨n', hn'⟩ := hneigh n.1 (by rw [Option.some.inj hn])
      obtain ⟨yi, yl⟩ := y
      cases hn'
      exact ⟨(n', yl), Index.neighSlot?_eq_some.mpr (by rw [hslot, if_pos rfl])⟩
    · exact ⟨n, by rw [(elem?_ite_slot hslot u hu).2]; exact hn⟩

/-- Changing one item in place. -/
theorem modifyItem_kinds (idx : Index V) (t : ItemPointer) (f : HnswItem V → HnswItem V)
    (helem : ∀ it g, idx.item? t = some it → f it = .element g →
      ∃ e, it = .element e ∧ e.neighbortid = g.neighbortid)
    (hneigh : ∀ n, idx.item? t = some (.neighbor n) → ∃ n', f (.neighbor n) = .neighbor n') :
    KindsKept idx (idx.modifyItem t f) := by
  have hs : Same idx (idx.modifyItem t f) := Index.same_modifyItem f
  cases hx : idx.slot? t with
  | none =>
      -- there is no item: nothing changes
      have hslot : ∀ u, (idx.modifyItem t f).slot? u = idx.slot? u := by
        intro u
        rw [Index.slot?_modifyItem]
        split
        · rename_i hu
          rw [hu, hx]
          rfl
        · rfl
      refine ⟨fun hc => hc.same hs, fun {u g} hg => ⟨g, ?_, rfl⟩, fun {u} ⟨n, hn⟩ => ⟨n, ?_⟩⟩
      · rw [← Index.elem?_slot_congr (hslot u)]
        exact hg
      · unfold Index.neighSlot? at hn ⊢
        rw [hslot]
        exact hn
  | some x =>
      have hit : idx.item? t = some x.item := by
        rw [Index.item?_eq_slot?, hx]
        rfl
      refine kindsKept_of_slot (y := { x with item := f x.item }) hs hx (fun u => ?_)
        (fun g hg => helem x.item g hit hg) fun n hn => ?_
      · rw [Index.slot?_modifyItem]
        split
        · rename_i hu
          rw [hu, hx]
          rfl
        · rfl
      · obtain ⟨n', hn'⟩ := hneigh n (by rw [hit, hn])
        exact ⟨n', by rw [← hn', ← hn]⟩

theorem markElement_kinds (zeroDatum : V) (idx : Index V) (t : ItemPointer) (e : HnswElementTuple V) :
    KindsKept idx (markElement zeroDatum idx t e) := by
  unfold markElement
  refine (modifyItem_kinds idx t _ (fun it g _ hg => ?_) fun n _ => ⟨n, rfl⟩).trans
    (modifyItem_kinds _ e.neighbortid _ (fun it g _ hg => ?_) fun n _ => ⟨_, rfl⟩)
  · cases it with
    | element e0 =>
        cases hg
        exact ⟨e0, rfl, rfl⟩
    | neighbor n => cases hg
    | blank => cases hg
  · cases it with
    | element e0 =>
        cases hg
        exact ⟨g, rfl, rfl⟩
    | neighbor n => cases hg
    | blank => cases hg

/-- The sections that write the neighbor tuple at a TID as a whole. -/
def OverwritesAt (o : PageOp V) (t : ItemPointer) : Prop := ∃ n size, o = .overwriteNeighborTuple t n size

/-- **Every section but that of an added element** keeps the kinds, if what it overwrites is a neighbor
    tuple. -/
theorem execPage_kinds (o : PageOp V) (ho : ∀ e b nip, o ≠ .addElement e b nip) (idx : Index V)
    (hover : ∀ t, OverwritesAt o t → ∃ n, idx.neighSlot? t = some n) :
    ∀ c ∈ (execPage o idx).commits, KindsKept idx c := by
  have hnil : ∀ c ∈ ([] : List (Index V)), KindsKept idx c := fun c hc => absurd hc List.not_mem_nil
  have hone : ∀ {i : Index V}, KindsKept idx i → ∀ c ∈ [i], KindsKept idx c := fun hi c hc => by
    rw [List.mem_singleton.mp hc]
    exact hi
  cases o with
  | getMetaPageInfo => exact hnil
  | updateMetaPage ue ep ip => exact hone ⟨fun hc => hc.metap _, fun hf => ⟨_, hf, rfl⟩, id⟩
  | loadElement tid l => exact hnil
  | readNeighborTuple ntid => exact hnil
  | updateNeighbor u =>
      simp only [execPage]
      split
      · exact hnil
      · rename_i ntup hntup
        split
        · exact hnil
        · exact hone (modifyItem_kinds idx _ _ (fun it e _ hf => by cases hf) fun n _ => ⟨_, rfl⟩)
  | overwriteNeighborTuple ntid ntup size =>
      obtain ⟨n, hn⟩ := hover ntid ⟨ntup, size, rfl⟩
      simp only [execPage]
      split
      · rename_i h
        exact hone (kindsKept_of_slot (Index.same_overwriteItem h) (Index.neighSlot?_eq_some.mp hn)
          (Index.slot?_overwriteItem h) (fun f hf => by cases hf) fun n' _ => ⟨_, rfl⟩)
      · exact hnil
  | addDuplicate tid heaptid =>
      simp only [execPage]
      split
      · exact hnil
      · rename_i etup hetup
        split
        · exact hnil
        · rename_i etup' hadd
          rw [Index.elem?_eq_some] at hetup
          refine hone (modifyItem_kinds idx _ _ (fun it g hit hg => ?_) fun n hit => ?_)
          · cases hg
            refine ⟨etup, Option.some.inj (hit.symm.trans hetup), ?_⟩
            unfold addHeapTid at hadd
            simp only at hadd
            split at hadd
            · cases hadd
            · cases hadd
              rfl
          · rw [hetup] at hit
            cases hit
  | addElement e b nip => exact absurd rfl (ho e b nip)
  | removeHeapTids b callback =>
      refine removeHeapTids_keeps (.refl idx) fun i o hi =>
        hi.trans (modifyItem_kinds i _ _ (fun it g _ hg => ?_) fun n _ => ⟨n, rfl⟩)
      cases it with
      | element e0 =>
          cases hg
          refine ⟨e0, rfl, ?_⟩
          unfold removeTids
          simp only
          split <;> rfl
      | neighbor n => cases hg
      | blank => cases hg
  | liveElements b => exact hnil
  | markDeleted z b ip =>
      exact markDeleted_keeps z b ip (.refl idx) fun i o e hi _ => hi.trans (markElement_kinds z i ⟨b, o⟩ e)

end Kinds

/-! ## 2. The two tuples of an added element -/

/-- **A new element at `tid` and its neighbor tuple at `ntid`**, where nothing was or where a deleted
    element and the neighbor tuple it pointed to were; every other item as before. -/
structure Written (idx idx' : Index V) (e : NewElement V) (tid ntid : ItemPointer) (version : Nat) :
    Prop where
  slot : ∀ u, idx'.slot? u =
    if u = ntid then some ⟨.neighbor (e.ntup version), e.ntupSize⟩
    else if u = tid then some ⟨.element (e.etup version ntid), e.etupSize⟩ else idx.slot? u
  ne : tid ≠ ntid
  old : idx.slot? tid = none ∧ idx.slot? ntid = none ∧ version = e.version ∨
    ∃ x len n nlen, idx.slot? tid = some ⟨.element x, len⟩ ∧ x.deleted = true ∧ x.neighbortid = ntid ∧
      version = x.version ∧ idx.slot? ntid = some ⟨.neighbor n, nlen⟩

section Written

variable {idx idx' : Index V} {e : NewElement V} {b nb : Nat} {nip : Option Nat} {tid ntid : ItemPointer}

theorem written_place (h : placeElement idx e b nb = some (idx', tid, ntid)) :
    Written idx idx' e tid ntid e.version := by
  obtain ⟨_, hne, hf, hnf, _, _, hs⟩ := placeElement_slots h
  exact ⟨hs, hne, Or.inl ⟨hf, hnf, rfl⟩⟩

theorem written_replace {slot : FreeSlot} {x : Node V}
    (hx : idx.node? ⟨b, slot.offno⟩ = some x) (hd : x.elem.deleted = true)
    (hv : slot.version = x.elem.version) (hn : slot.neighbortid = x.elem.neighbortid)
    (h : replaceElement idx e b slot = some (idx', tid, ntid)) :
    Written idx idx' e tid ntid slot.version := by
  obtain ⟨_, rfl, rfl, _, hslot⟩ := replaceElement_slots h
  obtain ⟨⟨len, hel⟩, hnl⟩ := node_slot hx
  refine ⟨hslot, ?_, Or.inr ⟨x.elem, len, x.neigh, x.len, hel, hd, hn.symm, hv, by rw [hn]; exact hnl⟩⟩
  rw [hn]
  exact elem_ne_ntid hx (Index.node?_elem hx)

/-- The pages appended before hold no item. -/
theorem Written.after {idx1 : Index V} {version : Nat} (h : Written idx1 idx' e tid ntid version)
    (hs : ∀ u, idx1.slot? u = idx.slot? u) : Written idx idx' e tid ntid version where
  slot u := by rw [h.slot, hs]
  ne := h.ne
  old := by
    rw [← hs, ← hs]
    exact h.old

theorem Written.neigh {version : Nat} (h : Written idx idx' e tid ntid version) {u : ItemPointer}
    (hu : ∃ n, idx.neighSlot? u = some n) : ∃ n, idx'.neighSlot? u = some n := by
  obtain ⟨n, hn⟩ := hu
  rw [Index.neighSlot?_eq_some] at hn
  by_cases h1 : u = ntid
  · exact ⟨(_, _), Index.neighSlot?_eq_some.mpr (by rw [h.slot, if_pos h1])⟩
  · have h2 : u ≠ tid := by
      rintro rfl
      rcases h.old with ⟨hf, _, _⟩ | ⟨x, len, _, _, hx, _⟩
      · rw [hf] at hn
        cases hn
      · rw [hx] at hn
        cases hn
    exact ⟨n, Index.neighSlot?_eq_some.mpr (by rw [h.slot, if_neg h1, if_neg h2]; exact hn)⟩

theorem finishAdd_placed (idx : Index V) {before : List (Index V)} {nip nip' : Option Nat}
    {placed : Option (Index V × ItemPointer × ItemPointer)}
    (h : (finishAdd before nip placed).resp = .placed tid ntid nip') :
    ∃ idx', placed = some (idx', tid, ntid) ∧ (finishAdd before nip placed).final idx = idx' := by
  unfold finishAdd at h ⊢
  split at h
  · cases h
  · rename_i i t n
    cases h
    refine ⟨i, rfl, ?_⟩
    unfold Sect.final
    rw [List.getLastD_concat]

/-- **A round that places the element.** -/
theorem addElement_written (h : idx.Sound) {nip' : Option Nat}
    (hresp : (addElement idx e b nip).resp = .placed tid ntid nip') :
    ∃ version, Written idx ((addElement idx e b nip).final idx) e tid ntid version := by
  have hplace : ∀ {before nip0} {i : Index V} {b nb},
      (finishAdd before nip0 (placeElement i e b nb)).resp = .placed tid ntid nip' →
      (∀ u, i.slot? u = idx.slot? u) →
      ∃ version, Written idx ((finishAdd before nip0 (placeElement i e b nb)).final idx) e tid ntid version := by
    intro before nip0 i b nb hr hs
    obtain ⟨i', hp, hf⟩ := finishAdd_placed idx hr
    rw [hf]
    exact ⟨_, (written_place hp).after hs⟩
  generalize hout : addElement idx e b nip = out at hresp ⊢
  unfold addElement at hout
  split at hout
  · subst hout
    cases hresp
  · rename_i page hpage
    simp only at hout
    have happ := slot?_append (b := b) hpage
    split at hout
    · subst hout
      exact hplace hresp fun _ => rfl
    · split at hout
      · rename_i slot nip2 hslot
        subst hout
        obtain ⟨i', hp, hf⟩ := finishAdd_placed idx hresp
        obtain ⟨et, het, hd, _, hv, hnt⟩ := freeOffset_spec page.offsets _ nip2 hslot
        obtain ⟨x, hx, rfl⟩ := (h.paired.mem_elements hpage).mp (mem_elements.mpr het)
        rw [hf]
        exact ⟨_, written_replace hx hd hv hnt hp⟩
      · split at hout
        · subst hout
          exact hplace hresp happ
        · split at hout
          · subst hout
            cases hresp
          · split at hout
            · subst hout
              cases hresp
            · rename_i newpage hnew
              split at hout
              · subst hout
                exact hplace hresp fun u => (slot?_append hnew u).trans (happ u)
              · subst hout
                exact hplace hresp happ

/-- What a round of the page loop keeps of the neighbor tuples, at every state it makes durable. -/
theorem addElement_neigh (idx : Index V) (e : NewElement V) (b : Nat) (nip : Option Nat) :
    ∀ c ∈ (addElement idx e b nip).commits,
      ∀ u, (∃ n, idx.neighSlot? u = some n) → ∃ n, c.neighSlot? u = some n := by
  refine addElement_rule (R := fun i i' => ∀ u, (∃ n, i.neighSlot? u = some n) → ∃ n, i'.neighSlot? u = some n)
    (fun h h' u hu => h' u (h u hu)) (fun h u hu => (written_place h).neigh hu) ?_ ?_ idx b nip
  · intro i i' b slot tid ntid ⟨x, hx⟩ h u ⟨n, hn⟩
    obtain ⟨_, rfl, rfl, _, hs⟩ := replaceElement_slots h
    rw [Index.neighSlot?_eq_some] at hn
    by_cases h1 : u = slot.neighbortid
    · exact ⟨(_, _), Index.neighSlot?_eq_some.mpr (by rw [hs, if_pos h1])⟩
    · have h2 : u ≠ ⟨b, slot.offno⟩ := by
        rintro rfl
        obtain ⟨len, hl⟩ := Index.elem?_eq_slot?.mp hx
        rw [hl] at hn
        cases hn
      exact ⟨n, Index.neighSlot?_eq_some.mpr (by rw [hs, if_neg h1, if_neg h2]; exact hn)⟩
  · intro i b p hp _ u ⟨n, hn⟩
    refine ⟨n, ?_⟩
    unfold Index.neighSlot? at hn ⊢
    rw [slot?_append hp]
    exact hn

/-- A round of the page loop leaves a sound index. -/
theorem addElement_sound (h : idx.Sound) (e : NewElement V) (b : Nat) (nip : Option Nat) :
    ((addElement idx e b nip).final idx).Sound := by
  have hfinal : ∀ (before : List (Index V)) (r : AddResult), (∀ c ∈ before, c.Sound) →
      ((⟨before, r⟩ : Sect V AddResult).final idx).Sound := fun before r hb =>
    Sect.final_of_commits (P := Index.Sound) h hb
  have hout := addElement_spec h e b nip
  generalize addElement idx e b nip = out at hout ⊢
  cases hout with
  | next nip' hb hn => exact h
  | placed before idx' tid ntid version nip' hb hp hn hs =>
      refine hfinal _ _ fun c hc => ?_
      rcases List.mem_append.mp hc with hc | hc
      · exact (hb c hc).sound
      · rw [List.mem_singleton.mp hc]
        exact hp.sound
  | failed before msg hb => exact hfinal _ _ fun c hc => (hb c hc).sound

end Written

/-! ## 3. Inserts and vacuums -/

/-- Neighbor tuples stay where they are. -/
def NeighborsStay (s s' : St V) : Prop :=
  ∀ u, (∃ n, s.index.neighSlot? u = some n) → ∃ n, s'.index.neighSlot? u = some n

/-- What a step of any backend keeps. -/
def Stays (P : St V → Prop) : Prop := ∀ a b, P a → NeighborsStay a b → P b

/-- The TID of a neighbor tuple. -/
def HasNeighbor (u : ItemPointer) (s : St V) : Prop := ∃ n, s.index.neighSlot? u = some n

theorem Stays.and {P Q : St V → Prop} (h : Stays P) (h' : Stays Q) : Stays fun s => P s ∧ Q s :=
  fun a b hab hs => ⟨h a b hab.1 hs, h' a b hab.2 hs⟩

theorem stays_hasNeighbor (u : ItemPointer) : Stays (V := V) (HasNeighbor u) := fun _ _ h hs => hs u h

/-- **What a backend may count on, and has to keep**: the index is sound, and neighbor tuples stay. -/
def soundSpec : Spec (Op V) (St V) where
  inv s := s.index.Sound
  rely := NeighborsStay
  guar := NeighborsStay
  allow _ _ := True
  safe _ _ := True
  commit _ := True
  errors := True
  cuts := True

/-- **One section**, which overwrites neighbor tuples only. -/
theorem sound_section (o : PageOp V) {idx : Index V} (h : idx.Sound)
    (hover : ∀ t, OverwritesAt o t → ∃ n, idx.neighSlot? t = some n) :
    ((execPage o idx).final idx).Sound ∧ ∀ u, (∃ n, idx.neighSlot? u = some n) →
      ∃ n, ((execPage o idx).final idx).neighSlot? u = some n := by
  by_cases ho : ∀ e b nip, o ≠ .addElement e b nip
  · have hk : KindsKept idx ((execPage o idx).final idx) :=
      Sect.final_of_commits (.refl idx) (execPage_kinds o ho idx hover)
    exact ⟨hk.sound h, fun u hu => hk.neigh hu⟩
  · simp only [not_forall, not_not] at ho
    obtain ⟨e, b, nip, rfl⟩ := ho
    exact ⟨addElement_sound h e b nip, Sect.final_of_commits
      (P := fun i => ∀ u, (∃ n, idx.neighSlot? u = some n) → ∃ n, i.neighSlot? u = some n)
      (fun _ hu => hu) (addElement_neigh idx e b nip)⟩

/-- The operations that overwrite no neighbor tuple as a whole. -/
def Tame (o : Op V) : Prop := ∀ p t, o = .page p → ¬ OverwritesAt p t

theorem tame_page {p : PageOp V} (h : ∀ t, ¬ OverwritesAt p t) : Tame (.page p) := fun q t hq => by
  cases hq
  exact h t

theorem tame_noPage {o : Op V} (h : ∀ p, o ≠ .page p) : Tame o := fun p _ hp => absurd hp (h p)

theorem Links.tame {o : Op V} (h : Links o) : Tame o := by
  intro p t hp ⟨n, size, hn⟩
  subst hp hn
  rcases h with h | ⟨u, hu⟩
  · exact h.elim
  · cases hu

/-- One operation of the machine that does not overwrite. -/
theorem Tame.step {o : Op V} (h : Tame o) {t : Nat} {s : St V} {r : Outcome (St V) o.Resp}
    (hs : s.index.Sound) (hx : (hnswMachine V).exec t o s = some r) :
    r.final.index.Sound ∧ NeighborsStay s r.final := by
  unfold NeighborsStay
  rcases exec_index hx with ⟨p, rfl, hf, _⟩ | ⟨hf, _⟩
  · rw [hf]
    exact sound_section p hs fun t ht => absurd ht (h p t rfl)
  · rw [hf]
    exact ⟨hs, fun _ hu => hu⟩

section Programs

variable {t : Nat} {s : St V} {P : St V → Prop}

/-- **A program that overwrites nothing** keeps what stays. -/
theorem valid_tame {α : Type} {p : HnswProg V α} (h : All Tame (fun _ => True) p) (hP : Stays P) (hs : P s) :
    Valid (hnswMachine V) t soundSpec p (fun _ s => P s) s := by
  refine Valid.mono (valid_of_all (P := P) (fun ha hab _ => hP _ _ ha hab)
    (fun o ho s' hs' hi => ⟨trivial, fun r hx => ?_⟩)
    (fun s' hi => ⟨hi, fun _ hu => hu⟩) trivial trivial h hs) fun _ _ hq => hq.2
  obtain ⟨h1, h2⟩ := ho.step hi hx
  exact ⟨h1, h2, fun _ _ => trivial, hP _ _ hs' h2⟩

/-- A section under what stays. -/
theorem valid_section_stays {o : PageOp V} {Q : o.Resp → St V → Prop} (hP : Stays P) (hs : P s)
    (hover : ∀ s', P s' → ∀ u, OverwritesAt o u → HasNeighbor u s')
    (hQ : ∀ s' s'', P s' → s'.index.Sound → P s'' → NeighborsStay s' s'' → Q (execPage o s'.index).resp s'') :
    Valid (hnswMachine V) t soundSpec (section_ o) Q s := by
  refine valid_section fun s' hr hi _ => ?_
  have hs' := hP _ _ hs hr
  obtain ⟨h1, h2⟩ := sound_section o hi (hover s' hs')
  exact ⟨trivial, h1, h2, fun _ _ => trivial, hQ s' _ hs' hi (hP _ _ hs' h2) h2⟩

section Tame

variable [LinearOrder δ]

theorem tame_section {o : PageOp V} (h : ∀ t, ¬ OverwritesAt o t) : All Tame (fun _ => True) (section_ o) :=
  ⟨tame_page h, fun _ => trivial⟩

theorem tame_lockPage (lock : PageLock) (mode : LockMode) (caller : Caller) :
    All Tame (fun _ => True) (LockPage lock mode caller : HnswProg V Unit) :=
  ⟨tame_noPage (fun _ h => by cases h), fun _ => trivial⟩

theorem tame_unlockPage (lock : PageLock) (mode : LockMode) :
    All Tame (fun _ => True) (UnlockPage lock mode : HnswProg V Unit) :=
  ⟨tame_noPage (fun _ h => by cases h), fun _ => trivial⟩

theorem tame_enter (phase : VacuumPhase) : All Tame (fun _ => True) (enter phase : HnswProg V Unit) :=
  ⟨tame_noPage (fun _ h => by cases h), fun _ => trivial⟩

theorem tame_getEntryPoint : All Tame (fun _ => True) (HnswGetEntryPoint : HnswProg V _) :=
  ⟨tame_page (fun _ ⟨_, _, h⟩ => by cases h), fun _ => trivial⟩

theorem tame_findNeighbors (rel : HnswRel V δ) (m budget : Nat) (element : HnswElement V)
    (entryPoint : Option EntryPoint) (existing : Bool) :
    All Tame (fun _ => True) (findNeighborsOnDisk rel element entryPoint m existing budget) :=
  (all_findNeighborsOnDisk rel m budget element entryPoint existing).mono
    (fun _ ho => Links.tame (Or.inl ho)) fun _ _ => trivial

theorem tame_updateNeighbors (rel : HnswRel V δ) (e : LocalElement V δ) (m : Nat) (checkExisting : Bool) :
    All Tame (fun _ => True) (HnswUpdateNeighborsOnDisk rel e m checkExisting) :=
  (all_updateNeighborsOnDisk rel e m checkExisting).mono (fun _ ho => ho.tame) fun _ h => h

variable [DecidableEq V]

theorem tame_updateGraph (rel : HnswRel V δ) (e : LocalElement V δ) (value : V) (heaptid : ItemPointer)
    (m : Nat) (entryPoint : Option EntryPoint) (budget : Nat) :
    All Tame (fun _ => True) (UpdateGraphOnDisk rel e value heaptid m entryPoint budget) :=
  all_updateGraphOnDisk rel e value heaptid m entryPoint budget
    (fun _ => tame_page fun _ ⟨_, _, h⟩ => by cases h) (fun _ _ _ => tame_page fun _ ⟨_, _, h⟩ => by cases h)
    (fun _ ho => ho.tame) (tame_page fun _ ⟨_, _, h⟩ => by cases h)
    (fun _ _ _ => tame_page fun _ ⟨_, _, h⟩ => by cases h)

/-- **An insert** overwrites no neighbor tuple as a whole. -/
theorem tame_insertTupleOnDisk (rel : HnswRel V δ) (value : V) (heaptid : ItemPointer) (rnd budget : Nat) :
    All Tame (fun _ => True) (HnswInsertTupleOnDisk rel value heaptid rnd budget) := by
  unfold HnswInsertTupleOnDisk
  refine All.andThen (tame_lockPage _ _ _) fun _ =>
    All.andThen (tame_section fun _ ⟨_, _, h⟩ => by cases h) fun metap => ?_
  simp only
  split
  · exact All.andThen (tame_unlockPage _ _) fun _ => All.andThen (tame_lockPage _ _ _) fun _ =>
      All.andThen tame_getEntryPoint fun ep => All.andThen (tame_findNeighbors rel _ budget _ ep false) fun r =>
        All.andThen (tame_updateGraph rel r.1 value heaptid _ r.2 budget) fun _ => tame_unlockPage _ _
  · exact All.andThen (tame_findNeighbors rel _ budget _ _ false) fun r =>
      All.andThen (tame_updateGraph rel r.1 value heaptid _ r.2 budget) fun _ => tame_unlockPage _ _

omit [LinearOrder δ] [DecidableEq V] in
theorem tame_markDeleted (zeroDatum : V) (budget : Nat) :
    All Tame (fun _ => True) (MarkDeleted zeroDatum budget) := by
  have hloop : ∀ (n : Nat) (b ip : Option Nat), All Tame (fun _ => True) (markDeletedLoop zeroDatum n b ip) := by
    intro n
    induction n with
    | zero => intro b ip; cases b <;> trivial
    | succ n ih =>
        intro b ip
        cases b with
        | none => trivial
        | some b =>
            refine ⟨tame_page (fun _ ⟨_, _, h⟩ => by cases h), fun r => ?_⟩
            cases r with
            | none => trivial
            | some r => exact ih _ _
  exact All.andThen (tame_lockPage _ _ _) fun _ => All.andThen (tame_enter _) fun _ =>
    All.andThen (tame_unlockPage _ _) fun _ => All.andThen (hloop budget _ none) fun _ =>
      tame_section fun _ ⟨_, _, h⟩ => by cases h

end Tame

/-! ## 4. The repairs, which overwrite -/

section Repair

variable [LinearOrder δ] (rel : HnswRel V δ) (m : Nat) (deleted : List ItemPointer) (budget : Nat)

/-- **`RepairGraphElement`** overwrites the neighbor tuple of the element it is given. -/
theorem valid_repairGraphElement_sound (element : HnswElement V) (entryPoint : Option EntryPoint) (hP : Stays P)
    (hs : P s) (hn : HasNeighbor element.neighbortid s) :
    Valid (hnswMachine V) t soundSpec (RepairGraphElement rel m element entryPoint budget)
      (fun _ s => P s) s := by
  have hPn := hP.and (stays_hasNeighbor (V := V) element.neighbortid)
  unfold RepairGraphElement
  split
  · exact hs
  · refine Valid.bind (Valid.mono (valid_tame (tame_findNeighbors rel m budget _ entryPoint true) hPn ⟨hs, hn⟩) ?_)
    intro ⟨e, ep⟩ s1 hs1
    refine Valid.bind (valid_section_stays hPn hs1 (fun s' hs' u hu => ?_) fun s' s'' _ _ hs'' _ => ?_)
    · obtain ⟨n, size, ho⟩ := hu
      cases ho
      exact hs'.2
    · show Valid _ _ _ (if _ then _ else _) _ _
      split
      · exact Valid.bind (Valid.mono (valid_tame (tame_updateNeighbors rel e m true) hP hs''.1)
          fun _ _ hq => hq)
      · exact ⟨trivial, fun s' _ hi => ⟨hi, fun _ hu => hu⟩⟩

/-- The element a program goes on with has a neighbor tuple. -/
def LoadedWith (P : St V → Prop) (element : HnswElement V) (s : St V) : Prop :=
  P s ∧ HasNeighbor element.neighbortid s

theorem stays_loaded (hP : Stays P) (element : HnswElement V) : Stays (LoadedWith P element) :=
  hP.and (stays_hasNeighbor _)

omit [LinearOrder δ] in
theorem tame_needsUpdated (element : HnswElement V) :
    All Tame (fun _ => True) (NeedsUpdated deleted element) := by
  refine ⟨tame_page (fun _ ⟨_, _, h⟩ => by cases h), fun n => ?_⟩
  cases n <;> trivial

omit [LinearOrder δ] in
/-- An element tuple that is loaded has a neighbor tuple. -/
theorem valid_loadElement_sound (tid : ItemPointer) (hP : Stays P) (hs : P s) :
    Valid (hnswMachine V) t soundSpec (HnswLoadElement tid) (LoadedWith P) s := by
  refine Valid.bind (valid_section_stays hP hs (fun s' _ u ⟨_, _, h⟩ => by cases h)
    fun s' s'' _ hi hs'' hst => ?_)
  cases he : s'.index.elem? tid with
  | none =>
      rw [show (execPage (.loadElement tid .HnswLoadElement) s'.index).resp = none from he]
      exact ⟨trivial, fun _ _ h => ⟨h, fun _ hu => hu⟩⟩
  | some e =>
      rw [show (execPage (.loadElement tid .HnswLoadElement) s'.index).resp = some e from he]
      exact ⟨hs'', hst _ (hi.paired.ntup he)⟩

theorem valid_repairConnections_sound (element : HnswElement V) (entryPoint : Option EntryPoint)
    (lockmode : LockMode) (hP : Stays P) (hs : LoadedWith P element s) :
    Valid (hnswMachine V) t soundSpec (repairConnections rel m element entryPoint lockmode budget)
      (fun _ s => P s) s := by
  unfold repairConnections
  refine Valid.bind (Valid.mono (valid_repairGraphElement_sound rel m budget element entryPoint hP hs.1 hs.2) ?_)
  intro ep s1 hs1
  split
  · exact Valid.bind (Valid.mono (valid_tame (tame_section fun _ ⟨_, _, h⟩ => by cases h) hP hs1)
      fun _ s2 hs2 => valid_tame (tame_unlockPage _ _) hP hs2)
  · exact valid_tame (tame_unlockPage _ _) hP hs1

/-- **One element of `RepairGraph`.** -/
theorem valid_repairOne_sound (element : HnswElement V) (hP : Stays P) (hs : LoadedWith P element s) :
    Valid (hnswMachine V) t soundSpec (repairOne rel m deleted budget element) (fun _ s => P s) s := by
  have hPn := stays_loaded hP element
  unfold repairOne
  refine Valid.bind (Valid.mono (valid_tame (tame_needsUpdated deleted element) hPn hs) fun needed s1 hs1 => ?_)
  split
  · refine Valid.bind (Valid.mono (valid_tame (tame_lockPage _ _ _) hPn hs1) fun _ s2 hs2 => ?_)
    refine Valid.bind (Valid.mono (valid_tame tame_getEntryPoint hPn hs2) fun ep s3 hs3 => ?_)
    split
    · refine Valid.bind (Valid.mono (valid_tame (tame_unlockPage _ _) hPn hs3) fun _ s4 hs4 => ?_)
      refine Valid.bind (Valid.mono (valid_tame (tame_lockPage _ _ _) hPn hs4) fun _ s5 hs5 => ?_)
      refine Valid.bind (Valid.mono (valid_tame tame_getEntryPoint hPn hs5) fun ep' s6 hs6 => ?_)
      exact valid_repairConnections_sound rel m budget element ep' _ hP hs6
    · exact valid_repairConnections_sound rel m budget element ep _ hP hs3
  · exact hs1.1

/-- **The page loop of `RepairGraph`**: each element loaded from a page has a neighbor tuple. -/
theorem valid_repairGraphLoop_sound : ∀ (n : Nat) (b : Option Nat) {s : St V},
    Valid (hnswMachine V) t soundSpec (repairGraphLoop rel m deleted budget n b) (fun _ _ => True) s
  | 0, none, _ => trivial
  | _ + 1, none, _ => trivial
  | 0, some _, _ => trivial
  | n + 1, some b, s => by
      have htrue : Stays (V := V) fun _ => True := fun _ _ _ _ => trivial
      unfold repairGraphLoop
      refine Valid.bind (valid_section_stays htrue trivial (fun s' _ u h => by obtain ⟨_, _, h⟩ := h; cases h)
        fun s' s'' _ hi _ hst => ?_)
      cases hr : (execPage (.liveElements b) s'.index).resp with
      | none => exact ⟨trivial, fun _ _ h => ⟨h, fun _ hu => hu⟩⟩
      | some r =>
          have hall : Stays (V := V) fun s => ∀ e ∈ r.elements, HasNeighbor e.neighbortid s :=
            fun _ _ h hs e he => hs _ (h e he)
          have hload : ∀ e ∈ r.elements, HasNeighbor e.neighbortid s'' := by
            intro e he
            obtain ⟨o, x, hx, _, rfl⟩ := ((liveElements_spec hi hr).2 e).mp he
            exact hst _ (hi.paired.ntup (Index.node?_elem hx))
          refine Valid.bind (Valid.mono (Valid.foldlM r.elements
            (I := fun _ s => ∀ e ∈ r.elements, HasNeighbor e.neighbortid s) hload
            fun _ e s1 he hs1 => valid_repairOne_sound rel m deleted budget e hall ⟨hs1, hs1 e he⟩) ?_)
          exact fun _ s1 _ => valid_repairGraphLoop_sound n r.nextblkno

/-- **`RepairGraphEntryPoint`.** -/
theorem valid_repairGraphEntryPoint_sound (highestPoint : Option EntryPoint) :
    Valid (hnswMachine V) t soundSpec (RepairGraphEntryPoint rel m deleted highestPoint budget)
      (fun _ _ => True) s := by
  have htrue : Stays (V := V) fun _ => True := fun _ _ _ _ => trivial
  -- an element is loaded and, if needed, repaired
  have hrepair : ∀ (tid : ItemPointer) (s : St V) {β : Type} (f : HnswElement V → Bool → HnswProg V β),
      (∀ element needed s1, HasNeighbor element.neighbortid s1 →
        Valid (hnswMachine V) t soundSpec (f element needed) (fun _ _ => True) s1) →
      Valid (hnswMachine V) t soundSpec (do
        let element ← HnswLoadElement tid
        let needed ← NeedsUpdated deleted element
        f element needed) (fun _ _ => True) s := by
    intro tid s β f hf
    refine Valid.bind (Valid.mono (valid_loadElement_sound tid htrue trivial) fun element s1 hs1 => ?_)
    exact Valid.bind (Valid.mono (valid_tame (tame_needsUpdated deleted element) (stays_loaded htrue element) hs1)
      fun needed s2 hs2 => hf element needed s2 hs2.2)
  have hone : ∀ (element : HnswElement V) (ep : Option EntryPoint) (s : St V),
      HasNeighbor element.neighbortid s → Valid (hnswMachine V) t soundSpec
        (discard <| RepairGraphElement rel m element ep budget) (fun _ _ => True) s := by
    intro element ep s hs
    exact Valid.bind (Valid.mono (valid_repairGraphElement_sound rel m budget element ep htrue trivial hs)
      fun _ _ _ => trivial)
  have hfirst : Valid (hnswMachine V) t soundSpec (repairHighestPoint rel m deleted highestPoint budget)
      (fun _ _ => True) s := by
    unfold repairHighestPoint
    cases highestPoint with
    | none => trivial
    | some p =>
        refine Valid.bind (Valid.mono (valid_tame (tame_lockPage _ _ _) htrue trivial) fun _ s1 _ => ?_)
        refine hrepair p.tid s1 _ fun element needed s2 hs2 => ?_
        split
        · refine Valid.bind (Valid.mono (valid_tame tame_getEntryPoint (stays_hasNeighbor _) hs2)
            fun ep s3 hs3 => ?_)
          refine Valid.bind (Valid.mono (hone element ep s3 hs3) fun _ s4 _ => ?_)
          exact Valid.bind (Valid.mono (valid_tame (tame_unlockPage _ _) htrue trivial) fun _ _ _ => trivial)
        · exact Valid.bind (Valid.mono (valid_tame (tame_unlockPage _ _) htrue trivial) fun _ _ _ => trivial)
  have hsecond : ∀ (hp : Option EntryPoint) (s : St V), Valid (hnswMachine V) t soundSpec
      (repairEntryPoint rel m deleted hp budget) (fun _ _ => True) s := by
    intro hp s
    unfold repairEntryPoint
    refine Valid.bind (Valid.mono (valid_tame tame_getEntryPoint htrue trivial) fun ep s1 _ => ?_)
    cases ep with
    | none => trivial
    | some ep =>
        simp only
        split
        · exact valid_tame (tame_section fun _ ⟨_, _, h⟩ => by cases h) htrue trivial
        · refine hrepair ep.tid s1 _ fun element needed s2 hs2 => ?_
          split
          · exact hone element hp s2 hs2
          · trivial
  unfold RepairGraphEntryPoint
  refine Valid.bind (Valid.mono hfirst fun hp s1 _ => ?_)
  refine Valid.bind (Valid.mono (valid_tame (tame_lockPage _ _ _) htrue trivial) fun _ s2 _ => ?_)
  refine Valid.bind (Valid.mono (hsecond hp s2) fun _ s3 _ => ?_)
  exact Valid.bind (Valid.mono (valid_tame (tame_enter _) htrue trivial) fun _ s4 _ =>
    valid_tame (tame_unlockPage _ _) htrue trivial)

end Repair

/-! ## 5. Every index that calls leave -/

section Calls

variable [LinearOrder δ] [DecidableEq V]

/-- **Every call** keeps the index sound, whatever the others do. -/
theorem valid_diskCall (rel : HnswRel V δ) (c : DiskCall V) :
    Valid (hnswMachine V) t soundSpec (c.prog rel) (fun _ _ => True) s := by
  have htrue : Stays (V := V) fun _ => True := fun _ _ _ _ => trivial
  have hinsert := fun value heaptid rnd budget =>
    valid_tame (t := t) (s := s) (tame_insertTupleOnDisk rel value heaptid rnd budget) htrue trivial
  cases c with
  | buildInsert value heaptid rnd budget => exact hinsert value heaptid rnd budget
  | insert value heaptid rnd budget =>
      unfold DiskCall.prog hnswinsert
      simp only
      split
      · trivial
      · exact hinsert _ heaptid rnd budget
  | bulkdelete stats callback budget =>
      refine Valid.bind (Valid.mono (Q := fun _ _ => True) ?_ fun _ _ _ => trivial)
      unfold hnswbulkdelete
      refine Valid.bind (Valid.mono (valid_tame (tame_section fun _ ⟨_, _, h⟩ => by cases h) htrue trivial)
        fun metap s1 _ => ?_)
      refine Valid.bind (Valid.mono (valid_tame (tame_enter _) htrue trivial) fun _ s2 _ => ?_)
      refine Valid.bind (Valid.mono (valid_tame (all_removeHeapTids _ callback budget
        (tame_page fun _ ⟨_, _, h⟩ => by cases h) fun _ => tame_page fun _ ⟨_, _, h⟩ => by cases h)
        htrue trivial) fun vs s3 _ => ?_)
      refine Valid.bind (Valid.mono (Q := fun _ _ => True) ?_ fun _ s4 _ => ?_)
      · unfold RepairGraph
        refine Valid.bind (Valid.mono (valid_tame (tame_lockPage _ _ _) htrue trivial) fun _ s4 _ => ?_)
        refine Valid.bind (Valid.mono (valid_tame (tame_enter _) htrue trivial) fun _ s5 _ => ?_)
        refine Valid.bind (Valid.mono (valid_tame (tame_unlockPage _ _) htrue trivial) fun _ s6 _ => ?_)
        exact Valid.bind (Valid.mono (valid_repairGraphEntryPoint_sound rel _ _ budget _) fun _ s7 _ =>
          valid_repairGraphLoop_sound rel _ _ budget budget _)
      · refine Valid.bind (Valid.mono (valid_tame (tame_markDeleted _ budget) htrue trivial) fun _ s5 _ => ?_)
        exact Valid.bind (Valid.mono (valid_tame (tame_enter _) htrue trivial) fun _ _ _ => trivial)

/-- **The states an interleaving of calls passes**, each call with its own relation; calls may fail. -/
def Reached (idx : Index V) (calls : List (HnswRel V δ × DiskCall V)) (s : St V) : Prop :=
  ∃ c, Run (hnswMachine V) (fun _ _ _ => True) ⟨idx.atRest, calls.map fun c => c.2.prog c.1⟩ c ∧ c.shared = s

/-- **Every state reached is sound.** -/
theorem sound_reached {idx : Index V} {calls : List (HnswRel V δ × DiskCall V)} (h : idx.Sound)
    (hr : Reached idx calls s) : s.index.Sound := by
  obtain ⟨c, hrun, rfl⟩ := hr
  have hgood : Good (hnswMachine V) (fun _ => soundSpec) c := by
    refine valid_run (fun _ s => (Iff.rfl : s.index.Sound ↔ _)) (fun _ _ _ hu => hu)
      (fun _ _ _ _ hab hbc u hu => hbc u (hab u hu)) (fun _ _ _ _ _ hg => hg) (fun _ _ _ _ => trivial) ?_ hrun
    refine ⟨fun _ => h, fun t p hp => ?_⟩
    obtain ⟨c, _, rfl⟩ := List.mem_map.mp (List.mem_of_getElem? hp)
    exact valid_diskCall c.1 c.2
  exact hgood.inv 0

end Calls

end Programs

/-! ## 6. `AddElementOnDisk` -/

section Flushed

variable {varsize : V → Nat} {m : Nat} {g : HnswGraph V δ} {idx : Index V} {locs : List Location}

/-- An element tuple of a flushed graph stands at the location of its element. -/
theorem Flushed.elem_cases (h : Flushed varsize m g idx locs) {u : ItemPointer} {f : HnswElementTuple V}
    (hf : idx.elem? u = some f) : ∃ (i : Nat) (e : MemElement V δ) (l : Location), g.elements[i]? = some e ∧
      locs[i]? = some l ∧ u = l.tid ∧ f.neighbortid = l.neighbortid := by
  obtain ⟨len, hl⟩ := Index.elem?_eq_slot?.mp hf
  obtain ⟨i, l, hi, hu⟩ := h.only hl
  obtain ⟨hlt, _⟩ := List.getElem?_eq_some_iff.mp hi
  rw [h.length] at hlt
  have he : g.elements[i]? = some g.elements[i] := List.getElem?_eq_getElem hlt
  refine ⟨i, _, l, he, hi, ?_⟩
  rcases hu with rfl | rfl
  · rw [h.elem? he hi] at hf
    cases hf
    exact ⟨rfl, rfl⟩
  · rw [h.neighbor he hi] at hl
    cases hl

/-- **The pages of a flush are sound.** -/
theorem Flushed.sound (h : Flushed varsize m g idx locs) : idx.Sound := by
  refine ⟨⟨fun hf => ?_, fun hf hf' hn => ?_⟩, h.chained⟩
  · obtain ⟨i, e, l, he, hl, _, hn⟩ := h.elem_cases hf
    rw [hn]
    exact ⟨(_, _), Index.neighSlot?_eq_some.mpr (h.neighbor he hl)⟩
  · obtain ⟨i, _, l, _, hl, hu, hl1⟩ := h.elem_cases hf
    obtain ⟨j, _, l', _, hl', hu', hl2⟩ := h.elem_cases hf'
    have hmap : ∀ {k : Nat} {x : Location}, locs[k]? = some x →
        (locs.map Location.neighbortid)[k]? = some x.neighbortid := fun hk => by
      rw [List.getElem?_map, hk]
      rfl
    have hij : i = j := by
      have hi := hmap hl
      have hj := hmap hl'
      rw [← hl1, hn, hl2] at hi
      obtain ⟨hlt, _⟩ := List.getElem?_eq_some_iff.mp hi
      exact (List.getElem?_inj hlt h.ntids).mp (hi.trans hj.symm)
    subst hij
    rw [hl] at hl'
    cases hl'
    rw [hu, hu']

end Flushed

section Main

variable {t : Nat} {e : NewElement V}

/-- **One round of the page loop** on a sound index: on to the next page, or the element is placed. -/
theorem addElement_round {idx : Index V} (h : idx.Sound) (hfit : e.Fits) {b : Nat} (hb : idx.HasPage b)
    (nip : Option Nat) :
    (∃ nip', addElement idx e b nip = ⟨[], .next (b + 1) nip'⟩ ∧ idx.HasPage (b + 1)) ∨
      ∃ tid ntid nip' version, (addElement idx e b nip).resp = .placed tid ntid nip' ∧
        Written idx ((addElement idx e b nip).final idx) e tid ntid version := by
  have hnofail := addElement_placed h hfit hb nip
  have hwritten : ∀ tid ntid nip', (addElement idx e b nip).resp = .placed tid ntid nip' →
      ∃ version, Written idx ((addElement idx e b nip).final idx) e tid ntid version :=
    fun _ _ _ => addElement_written h
  have hout := addElement_spec h e b nip
  generalize addElement idx e b nip = out at hnofail hwritten hout ⊢
  cases hout with
  | next nip' hb' _ => exact Or.inl ⟨nip', rfl, hb'⟩
  | placed before idx' tid ntid version nip' _ _ _ _ =>
      obtain ⟨v, hv⟩ := hwritten tid ntid nip' rfl
      exact Or.inr ⟨tid, ntid, nip', v, rfl, hv⟩
  | failed before msg _ => exact absurd rfl (hnofail msg)

/-- **The page loop run alone** from any page on: it comes to an end and places the element. -/
theorem addElementLoop_placed (hfit : e.Fits) : ∀ (n b : Nat) (nip : Option Nat) (s : St V),
    s.index.Sound → s.index.HasPage b → s.index.pages.length < b + n →
    ∃ tid ntid nip' s' version, run (hnswMachine V) t (addElementLoop e n b nip) s =
      some ((tid, ntid, nip'), s') ∧ Written s.index s'.index e tid ntid version
  | 0, b, _, s, _, hb, hn => by
      have := hb.2
      omega
  | n + 1, b, nip, s, hs, hb, hn => by
      unfold addElementLoop
      rw [run_section]
      rcases addElement_round hs hfit hb nip with ⟨nip', hnext, hb'⟩ | ⟨tid, ntid, nip', v, hresp, hw⟩
      · have hafter : s.after (.addElement e b nip) = s := by
          unfold St.after
          rw [show execPage (.addElement e b nip) s.index = ⟨[], .next (b + 1) nip'⟩ from hnext]
          rfl
        rw [hafter, show (execPage (.addElement e b nip) s.index).resp = .next (b + 1) nip' by
          rw [show execPage (.addElement e b nip) s.index = ⟨[], .next (b + 1) nip'⟩ from hnext]]
        exact addElementLoop_placed hfit n (b + 1) nip' s hs hb' (by omega)
      · rw [show (execPage (.addElement e b nip) s.index).resp = .placed tid ntid nip' from hresp]
        exact ⟨tid, ntid, nip', _, v, rfl, hw⟩

variable [LinearOrder δ] [DecidableEq V]

/-- **Placement on disk.** On every index that build, inserts and vacuums leave, from every page on: no
    round of `AddElementOnDisk` fails; the element and its neighbor tuple are written with one version to
    the places it records, over nothing or over a deleted element and its neighbor tuple, and nothing else
    changes. -/
theorem add_element_on_disk {varsize : V → Nat} {m0 : Nat} {g : HnswGraph V δ} {idx : Index V}
    {locs : List Location} (hf : FlushPages varsize m0 g = .ok (idx, locs))
    {calls : List (HnswRel V δ × DiskCall V)} {s : St V} (hr : Reached idx calls s)
    (rel : HnswRel V δ) (e : LocalElement V δ) {m : Nat} (value : V) (h2 : 2 ≤ m) (h100 : m ≤ 100)
    (hsize : HNSW_ELEMENT_TUPLE_SIZE (rel.support.varsize value) ≤ HNSW_MAX_SIZE)
    (hlevel : e.element.level ≤ HnswGetMaxLevel m) {b : Nat} (hb : s.index.HasPage b) :
    (∀ nip msg, (addElement s.index (e.newElement rel m value) b nip).resp ≠ .failed msg) ∧
    ∀ t n, s.index.pages.length < b + n →
      ∃ e' ip s' version, run (hnswMachine V) t (AddElementOnDisk rel e m value (some b) n) s =
          some ((e', ip), s') ∧
        Written s.index s'.index (e.newElement rel m value) e'.element.tid e'.element.neighbortid version := by
  have hsound := sound_reached (flushPages_flushed hf).sound hr
  have hfit : (e.newElement rel m value).Fits := ⟨hsize, neighborSize_le h2 h100 hlevel⟩
  refine ⟨addElement_placed hsound hfit hb, fun t n hn => ?_⟩
  obtain ⟨tid, ntid, nip', s', v, hrun, hw⟩ := addElementLoop_placed (t := t) hfit n b none s hsound hb hn
  unfold AddElementOnDisk
  rw [run_bind, hrun]
  exact ⟨_, _, s', v, rfl, hw⟩

/-- **A third value after a flush of two pages with one element each.** The pages are full, so it goes to a
    third page appended for it; after a vacuum that marks the element of the second page it takes that
    element's place. -/
theorem add_element_on_disk_pair :
    let rel : HnswRel Nat Nat :=
      ⟨⟨fun a b => (a - b) + (b - a), 0, id, fun _ => 4000, 0⟩, 64, none, id, fun _ _ _ n => n⟩
    let e : LocalElement Nat Nat := ⟨HnswInitElement ⟨9, 1⟩ 2 0 5, []⟩
    let vacuum : DiskCall Nat := .bulkdelete none (fun heaptid => decide (heaptid = ⟨7, 1⟩)) 20
    ∃ (idx : Index Nat) (locs : List Location) (s : St Nat),
      FlushPages (fun _ => 4000) 2 pairGraph = .ok (idx, locs) ∧ Reached idx [(rel, vacuum)] s ∧
      (∃ e' ip s' v, run (hnswMachine Nat) 1 (AddElementOnDisk rel e 2 5 (some 1) 2) idx.atRest =
          some ((e', ip), s') ∧ e'.element.tid = ⟨3, 1⟩ ∧
        Written idx s'.index (e.newElement rel 2 5) ⟨3, 1⟩ e'.element.neighbortid v) ∧
      ∃ e' ip s' v, run (hnswMachine Nat) 1 (AddElementOnDisk rel e 2 5 (some 1) 2) s =
          some ((e', ip), s') ∧ e'.element.tid = ⟨2, 1⟩ ∧
        Written s.index s'.index (e.newElement rel 2 5) ⟨2, 1⟩ e'.element.neighbortid v := by
  intro rel e vacuum
  have hrun : (match FlushPages (fun _ => 4000) 2 pairGraph with
      | .error _ => false
      | .ok (idx, _) => decide (idx.pages.length = 2) &&
          (run (hnswMachine Nat) 1 (AddElementOnDisk rel e 2 5 (some 1) 2) idx.atRest).any
            (fun r => decide (r.1.1.element.tid = ⟨3, 1⟩)) &&
          (schedule (hnswMachine Nat) (fun _ _ _ => true) (List.replicate 36 0)
            ⟨idx.atRest, [vacuum.prog rel]⟩).any fun c => decide (c.shared.index.pages.length = 2) &&
            (run (hnswMachine Nat) 1 (AddElementOnDisk rel e 2 5 (some 1) 2) c.shared).any
              fun r => decide (r.1.1.element.tid = ⟨2, 1⟩)) = true := by
    decide +kernel
  cases hf : FlushPages (fun _ => 4000) 2 pairGraph with
  | error msg =>
      rw [hf] at hrun
      cases hrun
  | ok x =>
      obtain ⟨idx, locs⟩ := x
      rw [hf] at hrun
      simp only [Bool.and_eq_true, decide_eq_true_iff] at hrun
      obtain ⟨⟨hlen, hnew⟩, hvac⟩ := hrun
      obtain ⟨c, hc, hold⟩ := run_of_check (fun _ _ _ => True) _ _ _ (fun _ _ _ _ => trivial) hvac
      rw [Bool.and_eq_true, decide_eq_true_iff] at hold
      have hstart : Reached (δ := Nat) idx [] idx.atRest := ⟨_, .start, rfl⟩
      have hreached : Reached idx [(rel, vacuum)] c.shared := ⟨c, hc, rfl⟩
      refine ⟨idx, locs, c.shared, rfl, hreached, ?_, ?_⟩
      · obtain ⟨e', ip, s', v, hx, hw⟩ := (add_element_on_disk hf hstart rel e (m := 2) 5 (by decide)
          (by decide) (by decide) (by decide) (b := 1) ⟨Nat.le_refl 1, by show 1 ≤ idx.pages.length; omega⟩).2
          1 2 (by show idx.pages.length < 3; omega)
        obtain ⟨r, hr, htid⟩ := (Option.any_eq_true _ _).mp hnew
        rw [hr] at hx
        cases hx
        have htid := of_decide_eq_true htid
        exact ⟨e', ip, s', v, hr, htid, htid ▸ hw⟩
      · obtain ⟨e', ip, s', v, hx, hw⟩ := (add_element_on_disk hf hreached rel e (m := 2) 5 (by decide)
          (by decide) (by decide) (by decide) (b := 1) ⟨Nat.le_refl 1, by omega⟩).2 1 2 (by omega)
        obtain ⟨r, hr, htid⟩ := (Option.any_eq_true _ _).mp hold.2
        rw [hr] at hx
        cases hx
        have htid := of_decide_eq_true htid
        exact ⟨e', ip, s', v, hr, htid, htid ▸ hw⟩

end Main

end Pgvec.Hnsw
