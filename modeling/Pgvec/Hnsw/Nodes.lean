/-
  File:      Pgvec/Hnsw/Nodes.lean
  Subject:   AN INDEX AS A MAP FROM TIDS TO NODES, and what each section does to that map.

  A node is an element tuple with its neighbor tuple (and the recorded length of the latter).

  * `Index.node?` -- the node at a TID; `Index.Paired` -- every element tuple has a neighbor tuple of its
    own, so that every element is a node; `Index.Sound` -- paired, and the pages are a chain;
  * `Wrote` -- one node is replaced and nothing else; **`updateNeighbor_spec`**,
    **`overwriteNeighborTuple_spec`**, **`addDuplicate_spec`**, **`markElement_spec`** -- these sections
    do that or nothing;
  * **`removeHeapTids_spec`** -- heap TIDs are taken out of the nodes of one page; `Removed`;
  * **`markDeleted_spec`** -- nodes of one page without heap TID are marked; `Marked`, `Settled`;
  * `Sound.next_cases` -- what the loops over pages see.
-/
import Pgvec.Hnsw.Chain
import Pgvec.Hnsw.Graph

namespace Pgvec.Hnsw

open Storage Storage.Page

variable {V : Type}

/-! ## 1. Nodes -/

/-- An element tuple with its neighbor tuple and the length recorded for the latter. -/
structure Node (V : Type) where
  elem : HnswElementTuple V
  neigh : HnswNeighborTuple
  len : Nat

/-- A valid slot of the node holds `u`. -/
def Node.Names (x : Node V) (u : ItemPointer) : Prop := u ∈ x.neigh.indextids ∧ u.isValid = true

namespace Index

/-- The neighbor tuple at a TID, with its recorded length. -/
def neighSlot? (idx : Index V) (t : ItemPointer) : Option (HnswNeighborTuple × Nat) :=
  match idx.slot? t with
  | some ⟨.neighbor n, len⟩ => some (n, len)
  | _ => none

/-- **The node at a TID.** -/
def node? (idx : Index V) (t : ItemPointer) : Option (Node V) :=
  match idx.elem? t with
  | none => none
  | some e => (idx.neighSlot? e.neighbortid).map fun n => ⟨e, n.1, n.2⟩

/-- **Every element tuple has a neighbor tuple, and shares it with no other.** -/
structure Paired (idx : Index V) : Prop where
  ntup : ∀ {t e}, idx.elem? t = some e → ∃ n, idx.neighSlot? e.neighbortid = some n
  owner : ∀ {t u e f}, idx.elem? t = some e → idx.elem? u = some f →
    e.neighbortid = f.neighbortid → t = u

/-- Elements and neighbor tuples are paired, and the pages are a chain. -/
structure Sound (idx : Index V) : Prop where
  paired : idx.Paired
  chained : idx.Chained

theorem neighSlot?_eq_some {idx : Index V} {t : ItemPointer} {n : HnswNeighborTuple} {len : Nat} :
    idx.neighSlot? t = some (n, len) ↔ idx.slot? t = some ⟨.neighbor n, len⟩ := by
  unfold neighSlot?
  split
  · rename_i n' len' h
    rw [h]
    simp
  · rename_i h
    constructor
    · intro h'
      cases h'
    · intro h'
      exact absurd h' (h n len)

theorem elem?_eq_slot? {idx : Index V} {t : ItemPointer} {e : HnswElementTuple V} :
    idx.elem? t = some e ↔ ∃ len, idx.slot? t = some ⟨.element e, len⟩ := by
  rw [elem?_eq_some, item?_eq_slot?, Option.map_eq_some_iff]
  constructor
  · rintro ⟨⟨it, len⟩, h, rfl⟩
    exact ⟨len, h⟩
  · rintro ⟨len, h⟩
    exact ⟨_, h, rfl⟩

theorem neigh?_eq_neighSlot? (idx : Index V) (t : ItemPointer) :
    idx.neigh? t = (idx.neighSlot? t).map (·.1) := by
  unfold neigh? neighSlot?
  rw [item?_eq_slot?]
  cases idx.slot? t with
  | none => rfl
  | some x => rcases x with ⟨_ | _ | _, len⟩ <;> rfl

theorem node?_eq_some {idx : Index V} {t : ItemPointer} {x : Node V} :
    idx.node? t = some x ↔
      idx.elem? t = some x.elem ∧ idx.neighSlot? x.elem.neighbortid = some (x.neigh, x.len) := by
  unfold node?
  cases idx.elem? t with
  | none => simp
  | some e =>
      simp only [Option.map_eq_some_iff, Option.some.injEq]
      constructor
      · rintro ⟨n, h, rfl⟩
        exact ⟨rfl, h⟩
      · rintro ⟨rfl, h⟩
        exact ⟨_, h, rfl⟩

theorem node?_elem {idx : Index V} {t : ItemPointer} {x : Node V} (h : idx.node? t = some x) :
    idx.elem? t = some x.elem := (node?_eq_some.mp h).1

theorem node?_neigh {idx : Index V} {t : ItemPointer} {x : Node V} (h : idx.node? t = some x) :
    idx.neigh? x.elem.neighbortid = some x.neigh := by
  rw [neigh?_eq_neighSlot?, (node?_eq_some.mp h).2]
  rfl

/-- Every element is a node. -/
theorem Paired.node {idx : Index V} (h : idx.Paired) {t : ItemPointer} {e : HnswElementTuple V}
    (he : idx.elem? t = some e) : ∃ x, idx.node? t = some x ∧ x.elem = e := by
  obtain ⟨⟨n, len⟩, hn⟩ := h.ntup he
  exact ⟨⟨e, n, len⟩, node?_eq_some.mpr ⟨he, hn⟩, rfl⟩

theorem node?_congr {idx idx' : Index V} (h : ∀ u, idx'.slot? u = idx.slot? u) (t : ItemPointer) :
    idx'.node? t = idx.node? t := by
  have he : idx'.elem? t = idx.elem? t := elem?_congr (by rw [item?_eq_slot?, item?_eq_slot?, h])
  unfold node? neighSlot?
  rw [he]
  simp only [h]

theorem Paired.congr {idx idx' : Index V} (hp : idx.Paired) (h : ∀ u, idx'.slot? u = idx.slot? u) :
    idx'.Paired := by
  have he : ∀ u, idx'.elem? u = idx.elem? u := fun u =>
    elem?_congr (by rw [item?_eq_slot?, item?_eq_slot?, h])
  refine ⟨fun {t e} hte => ?_, fun {t u e f} hte huf => ?_⟩
  · rw [he] at hte
    obtain ⟨n, hn⟩ := hp.ntup hte
    refine ⟨n, ?_⟩
    unfold neighSlot? at hn ⊢
    rw [h]
    exact hn
  · rw [he] at hte huf
    exact hp.owner hte huf

end Index

/-! ## 2. Writing one node -/

/-- **The node at `t` is `x` from now on, nothing else has changed.** -/
structure Wrote (idx idx' : Index V) (t : ItemPointer) (x : Node V) : Prop where
  node : ∀ u, idx'.node? u = if u = t then some x else idx.node? u
  same : Same idx idx'
  sound : idx'.Sound

section Write

variable {idx idx' : Index V} {t : ItemPointer} {x : Node V}

theorem elem?_ite_slot {a : ItemPointer} {y : PageItem (HnswItem V)}
    (hs : ∀ u, idx'.slot? u = if u = a then some y else idx.slot? u) (u : ItemPointer) (hu : u ≠ a) :
    idx'.elem? u = idx.elem? u ∧ idx'.neighSlot? u = idx.neighSlot? u := by
  refine ⟨Index.elem?_congr (by rw [Index.item?_eq_slot?, Index.item?_eq_slot?, hs, if_neg hu]), ?_⟩
  unfold Index.neighSlot?
  rw [hs, if_neg hu]

theorem elem_ne_ntid (hx : idx.node? t = some x) {u : ItemPointer}
    {e : HnswElementTuple V} (he : idx.elem? u = some e) : u ≠ x.elem.neighbortid := by
  rintro rfl
  obtain ⟨len, hl⟩ := Index.elem?_eq_slot?.mp he
  have := Index.neighSlot?_eq_some.mp (Index.node?_eq_some.mp hx).2
  rw [hl] at this
  cases this

/-- A new neighbor tuple for the node at `t`. -/
theorem wrote_neigh (h : idx.Sound) (hx : idx.node? t = some x) (hsame : Same idx idx')
    {n : HnswNeighborTuple} {len : Nat}
    (hs : ∀ u, idx'.slot? u =
      if u = x.elem.neighbortid then some ⟨.neighbor n, len⟩ else idx.slot? u) :
    Wrote idx idx' t ⟨x.elem, n, len⟩ := by
  obtain ⟨he, hn⟩ := Index.node?_eq_some.mp hx
  have hntid : idx'.neighSlot? x.elem.neighbortid = some (n, len) :=
    Index.neighSlot?_eq_some.mpr (by rw [hs, if_pos rfl])
  have helem : ∀ u, idx'.elem? u = idx.elem? u := by
    intro u
    by_cases hu : u = x.elem.neighbortid
    · subst hu
      have h1 : idx.elem? x.elem.neighbortid = none := by
        cases he' : idx.elem? x.elem.neighbortid with
        | none => rfl
        | some e => exact absurd rfl (elem_ne_ntid hx he')
      rw [h1]
      unfold Index.elem?
      rw [Index.item?_eq_slot?, hs, if_pos rfl]
      rfl
    · exact (elem?_ite_slot hs u hu).1
  refine ⟨fun u => ?_, hsame, ⟨⟨fun {u e} hu => ?_, fun {a b e f} ha hb => ?_⟩,
    h.chained.same hsame⟩⟩
  · by_cases hu : u = t
    · subst hu
      rw [if_pos rfl]
      exact Index.node?_eq_some.mpr ⟨by rw [helem]; exact he, hntid⟩
    · rw [if_neg hu]
      unfold Index.node?
      rw [helem]
      cases he' : idx.elem? u with
      | none => rfl
      | some e =>
          simp only
          rw [(elem?_ite_slot hs _ fun e' => hu (h.paired.owner he' he e')).2]
  · rw [helem] at hu
    by_cases e' : e.neighbortid = x.elem.neighbortid
    · exact ⟨_, e' ▸ hntid⟩
    · rw [(elem?_ite_slot hs _ e').2]
      exact h.paired.ntup hu
  · rw [helem] at ha hb
    exact h.paired.owner ha hb

/-- A new element tuple for the node at `t`, with the same neighbor tuple. -/
theorem wrote_elem (h : idx.Sound) (hx : idx.node? t = some x) (hsame : Same idx idx')
    {e : HnswElementTuple V} {len : Nat} (hnt : e.neighbortid = x.elem.neighbortid)
    (hs : ∀ u, idx'.slot? u = if u = t then some ⟨.element e, len⟩ else idx.slot? u) :
    Wrote idx idx' t { x with elem := e } := by
  obtain ⟨he, hn⟩ := Index.node?_eq_some.mp hx
  have het : idx'.elem? t = some e := Index.elem?_eq_slot?.mpr ⟨len, by rw [hs, if_pos rfl]⟩
  have helem : ∀ u, u ≠ t → idx'.elem? u = idx.elem? u := fun u hu => (elem?_ite_slot hs u hu).1
  have hneigh : ∀ u, (∃ n, idx.neighSlot? u = some n) → idx'.neighSlot? u = idx.neighSlot? u := by
    rintro u ⟨⟨n, l⟩, hu⟩
    refine (elem?_ite_slot hs u ?_).2
    rintro rfl
    obtain ⟨l', hl'⟩ := Index.elem?_eq_slot?.mp he
    rw [Index.neighSlot?_eq_some.mp hu] at hl'
    cases hl'
  have hpair : ∀ {u f}, idx'.elem? u = some f →
      ∃ g, idx.elem? u = some g ∧ g.neighbortid = f.neighbortid := by
    intro u f hf
    by_cases hu : u = t
    · subst hu
      rw [het] at hf
      cases hf
      exact ⟨_, he, hnt.symm⟩
    · rw [helem u hu] at hf
      exact ⟨f, hf, rfl⟩
  refine ⟨fun u => ?_, hsame, ⟨⟨fun {u f} hu => ?_, fun {a b e f} ha hb hab => ?_⟩,
    h.chained.same hsame⟩⟩
  · by_cases hu : u = t
    · subst hu
      rw [if_pos rfl]
      refine Index.node?_eq_some.mpr ⟨het, ?_⟩
      simp only
      rw [hnt, hneigh _ ⟨_, hn⟩]
      exact hn
    · rw [if_neg hu]
      unfold Index.node?
      rw [helem u hu]
      cases he' : idx.elem? u with
      | none => rfl
      | some f =>
          simp only
          rw [hneigh _ (h.paired.ntup he')]
  · obtain ⟨g, hg, hgf⟩ := hpair hu
    obtain ⟨n, hn'⟩ := h.paired.ntup hg
    refine ⟨n, ?_⟩
    rw [← hgf, hneigh _ ⟨n, hn'⟩]
    exact hn'
  · obtain ⟨ga, hga, hgae⟩ := hpair ha
    obtain ⟨gb, hgb, hgbe⟩ := hpair hb
    exact h.paired.owner hga hgb (by rw [hgae, hgbe, hab])

theorem Wrote.trans {idx'' : Index V} {y : Node V} (h : Wrote idx idx' t x)
    (h' : Wrote idx' idx'' t y) : Wrote idx idx'' t y where
  node u := by
    rw [h'.node]
    split
    · rfl
    · rename_i hu
      rw [h.node, if_neg hu]
  same := h.same.trans h'.same
  sound := h'.sound

end Write

/-! ## 3. Sections that write one node or none -/

section Sections

variable {idx : Index V} {t : ItemPointer} {x : Node V}

/-- The element tuple of a node is at its TID. -/
theorem node_slot (hx : idx.node? t = some x) :
    (∃ len, idx.slot? t = some ⟨.element x.elem, len⟩) ∧
      idx.slot? x.elem.neighbortid = some ⟨.neighbor x.neigh, x.len⟩ := by
  obtain ⟨he, hn⟩ := Index.node?_eq_some.mp hx
  exact ⟨Index.elem?_eq_slot?.mp he, Index.neighSlot?_eq_some.mp hn⟩

theorem modify_neigh (h : idx.Sound) (hx : idx.node? t = some x) {f : HnswItem V → HnswItem V}
    {n : HnswNeighborTuple} (hf : f (.neighbor x.neigh) = .neighbor n) :
    Wrote idx (idx.modifyItem x.elem.neighbortid f) t { x with neigh := n } := by
  refine wrote_neigh h hx (Index.same_modifyItem f) fun u => ?_
  rw [Index.slot?_modifyItem]
  split
  · rename_i hu
    subst hu
    rw [(node_slot hx).2]
    simp only [Option.map_some, hf]
  · rfl

theorem modify_elem (h : idx.Sound) (hx : idx.node? t = some x) {f : HnswItem V → HnswItem V}
    {e : HnswElementTuple V} (hnt : e.neighbortid = x.elem.neighbortid)
    (hf : f (.element x.elem) = .element e) :
    Wrote idx (idx.modifyItem t f) t { x with elem := e } := by
  obtain ⟨⟨len, hl⟩, _⟩ := node_slot hx
  have hs : ∀ u, (idx.modifyItem t f).slot? u =
      if u = t then some ⟨.element e, len⟩ else idx.slot? u := by
    intro u
    rw [Index.slot?_modifyItem]
    split
    · rename_i hu
      subst hu
      rw [hl]
      simp only [Option.map_some, hf]
    · rfl
  exact wrote_elem h hx (Index.same_modifyItem f) hnt hs

theorem modify_both (h : idx.Sound) (hx : idx.node? t = some x) {f g : HnswItem V → HnswItem V}
    {e : HnswElementTuple V} {n : HnswNeighborTuple} (hnt : e.neighbortid = x.elem.neighbortid)
    (hf : f (.element x.elem) = .element e) (hg : g (.neighbor x.neigh) = .neighbor n) :
    Wrote idx ((idx.modifyItem t f).modifyItem x.elem.neighbortid g) t { x with elem := e, neigh := n } := by
  have h1 := modify_elem h hx hnt hf
  have hx1 := h1.node t
  rw [if_pos rfl] at hx1
  rw [← hnt]
  exact h1.trans (modify_neigh h1.sound hx1 hg)

/-- **`UpdateNeighborOnDisk`** writes a slot of the node's neighbor tuple, or nothing. -/
theorem updateNeighbor_spec (h : idx.Sound) (hx : idx.node? t = some x) {u : NeighborUpdate}
    (hu : u.ntid = x.elem.neighbortid) :
    (updateNeighborTuple x.neigh u = none ∧ (execPage (.updateNeighbor u) idx).commits = []) ∨
      ∃ n idx', updateNeighborTuple x.neigh u = some n ∧
        (execPage (.updateNeighbor u) idx).commits = [idx'] ∧ Wrote idx idx' t { x with neigh := n } := by
  simp only [execPage, hu, Index.node?_neigh hx]
  cases hn : updateNeighborTuple x.neigh u with
  | none => exact Or.inl ⟨rfl, rfl⟩
  | some n => exact Or.inr ⟨n, _, rfl, rfl, modify_neigh h hx rfl⟩

/-- **The write of `RepairGraphElement`** replaces the node's neighbor tuple; one that is not longer than
    before always fits. -/
theorem overwriteNeighborTuple_spec (h : idx.Sound) (hx : idx.node? t = some x)
    (n : HnswNeighborTuple) (size : Nat) :
    (x.len < size ∧ (execPage (.overwriteNeighborTuple x.elem.neighbortid n size) idx).commits = [] ∧
      (execPage (.overwriteNeighborTuple x.elem.neighbortid n size) idx).resp = false) ∨
    ∃ idx', (execPage (.overwriteNeighborTuple x.elem.neighbortid n size) idx).commits = [idx'] ∧
      (execPage (.overwriteNeighborTuple x.elem.neighbortid n size) idx).resp = true ∧
      Wrote idx idx' t ⟨x.elem, n, size⟩ := by
  have hslot := (node_slot hx).2
  obtain ⟨p, hp⟩ : ∃ p, idx.page? x.elem.neighbortid.blkno = some p := by
    unfold Index.slot? at hslot
    split at hslot
    · cases hslot
    · rename_i p hp
      exact ⟨p, hp⟩
  have hmono : ∀ a b : Nat, a ≤ b → MAXALIGN a ≤ MAXALIGN b := by
    intro a b hab
    unfold MAXALIGN
    omega
  cases hw : idx.overwriteItem x.elem.neighbortid (.neighbor n) size with
  | ok r =>
      cases r with
      | some idx' =>
          refine Or.inr ⟨idx', ?_, ?_, wrote_neigh h hx (Index.same_overwriteItem hw)
            (Index.slot?_overwriteItem hw)⟩
          · simp only [execPage, hw]
          · simp only [execPage, hw]
      | none =>
          refine Or.inl ⟨Nat.lt_of_not_le fun hle => ?_, ?_, ?_⟩
          · obtain ⟨idx', hw'⟩ := Index.overwriteItem_isSome (.neighbor n) size hp hslot
              (Nat.le_trans (hmono _ _ hle) (Nat.le_add_right _ _))
            rw [hw] at hw'
            cases hw'
          · simp only [execPage, hw]
          · simp only [execPage, hw]
  | error msg =>
      refine Or.inl ⟨Nat.lt_of_not_le fun hle => ?_, ?_, ?_⟩
      · obtain ⟨idx', hw'⟩ := Index.overwriteItem_isSome (.neighbor n) size hp hslot
          (Nat.le_trans (hmono _ _ hle) (Nat.le_add_right _ _))
        rw [hw] at hw'
        cases hw'
      · simp only [execPage, hw]
      · simp only [execPage, hw]

/-- **`AddDuplicateOnDisk`** adds the heap TID to the node, or answers that it did not. -/
theorem addDuplicate_spec (h : idx.Sound) (hx : idx.node? t = some x) (heaptid : ItemPointer) :
    ((execPage (.addDuplicate t heaptid) idx).commits = [] ∧
      (execPage (.addDuplicate t heaptid) idx).resp = false) ∨
    ∃ e idx', addHeapTid x.elem heaptid = some e ∧
      (execPage (.addDuplicate t heaptid) idx).commits = [idx'] ∧
      (execPage (.addDuplicate t heaptid) idx).resp = true ∧ Wrote idx idx' t { x with elem := e } := by
  simp only [execPage, Index.node?_elem hx]
  cases he : addHeapTid x.elem heaptid with
  | none => exact Or.inl ⟨rfl, rfl⟩
  | some e =>
      refine Or.inr ⟨e, _, rfl, rfl, rfl, modify_elem h hx ?_ rfl⟩
      unfold addHeapTid at he
      simp only at he
      split at he
      · cases he
      · cases he
        rfl

/-- A node after `MarkDeleted`. -/
def Node.marked (zeroDatum : V) (x : Node V) : Node V where
  elem := { x.elem with deleted := true, version := nextVersion x.elem.version, data := zeroDatum }
  neigh := ⟨nextVersion x.elem.version, List.replicate x.neigh.count .invalid⟩
  len := x.len

/-- **`MarkDeleted` on one element.** -/
theorem markElement_spec (h : idx.Sound) (hx : idx.node? t = some x) (zeroDatum : V) :
    Wrote idx (markElement zeroDatum idx t x.elem) t (x.marked zeroDatum) := by
  simp only [markElement]
  exact modify_both h hx (e := { x.elem with
    deleted := true, version := nextVersion x.elem.version, data := zeroDatum }) rfl rfl rfl

end Sections

/-! ## 4. The elements of a page -/

theorem mem_elements {p : HnswPage V} {o : Nat} {e : HnswElementTuple V} :
    (o, e) ∈ p.elements ↔ p.page.PageGetItem o = some (.element e) := by
  unfold HnswPage.elements
  rw [List.mem_filterMap]
  constructor
  · rintro ⟨a, _, ha⟩
    split at ha
    · rename_i etup hetup
      cases ha
      exact hetup
    · cases ha
  · intro h
    have hlen : 1 ≤ o ∧ o ≤ p.page.items.length := by
      rw [Page.getItem_eq, Option.map_eq_some_iff] at h
      obtain ⟨x, hx, _⟩ := h
      exact Page.slot?_isSome hx
    refine ⟨o, List.mem_range'_1.mpr ⟨hlen.1, ?_⟩, by rw [h]⟩
    simp only [Page.PageGetMaxOffsetNumber]
    omega

theorem elements_sublist (p : HnswPage V) : (p.elements.map (·.1)).Sublist p.offsets := by
  unfold HnswPage.elements
  generalize p.offsets = l
  induction l with
  | nil => exact .refl _
  | cons o l ih =>
      rw [List.filterMap_cons]
      split
      · exact ih.cons _
      · rename_i x hx
        split at hx
        · cases hx
          exact ih.cons_cons _
        · cases hx

theorem elements_nodup (p : HnswPage V) : (p.elements.map (·.1)).Nodup :=
  (elements_sublist p).nodup List.nodup_range'

namespace Index

variable {idx : Index V} {b : Nat} {p : HnswPage V}

/-- The elements of a page are the nodes at its block number. -/
theorem Paired.mem_elements (h : idx.Paired) (hp : idx.page? b = some p) {o : Nat}
    {e : HnswElementTuple V} :
    (o, e) ∈ p.elements ↔ ∃ x, idx.node? ⟨b, o⟩ = some x ∧ x.elem = e := by
  have hitem : idx.item? ⟨b, o⟩ = p.page.PageGetItem o := by
    unfold item?
    rw [hp]
  rw [Hnsw.mem_elements, ← hitem, ← elem?_eq_some]
  constructor
  · exact fun he => h.node he
  · rintro ⟨x, hx, rfl⟩
    exact node?_elem hx

/-- A node stands on a page. -/
theorem node?_page {t : ItemPointer} {x : Node V} (h : idx.node? t = some x) :
    ∃ p, idx.page? t.blkno = some p := by
  obtain ⟨⟨len, hl⟩, _⟩ := node_slot h
  unfold slot? at hl
  split at hl
  · cases hl
  · rename_i p hp
    exact ⟨p, hp⟩

theorem node?_blkno {t : ItemPointer} {x : Node V} (h : idx.node? t = some x) :
    1 ≤ t.blkno ∧ t.blkno ≤ idx.pages.length := by
  obtain ⟨p, hp⟩ := node?_page h
  exact page?_pos hp

end Index

/-- **What `RepairGraph` reads from a page**: the nodes there that have a heap TID. -/
theorem liveElements_spec {idx : Index V} (h : idx.Sound) {b : Nat} {r : PageElements V}
    (hr : liveElements idx b = some r) :
    (∃ p, idx.page? b = some p ∧ r.nextblkno = p.nextblkno) ∧
    ∀ e, e ∈ r.elements ↔ ∃ o x, idx.node? ⟨b, o⟩ = some x ∧ x.elem.isLive = true ∧
      e = HnswLoadElementFromTuple (HnswInitElementFromBlock ⟨b, o⟩ 0) x.elem false true := by
  unfold liveElements at hr
  split at hr
  · cases hr
  · rename_i p hp
    cases hr
    refine ⟨⟨p, hp, rfl⟩, fun e => ?_⟩
    simp only [List.mem_filterMap]
    constructor
    · rintro ⟨⟨o, et⟩, hm, he⟩
      obtain ⟨x, hx, rfl⟩ := (h.paired.mem_elements hp).mp hm
      simp only at he
      split at he
      · rename_i hl
        cases he
        exact ⟨o, x, hx, hl, rfl⟩
      · cases he
    · rintro ⟨o, x, hx, hl, rfl⟩
      exact ⟨(o, x.elem), (h.paired.mem_elements hp).mpr ⟨x, hx, rfl⟩, by simp only [hl, if_true]⟩

/-- Where the loop over the pages goes from block `b`: to the next one, or it is over and there is no
    node beyond. -/
theorem Index.Sound.next_cases {idx : Index V} (h : idx.Sound) {b : Nat} {p : HnswPage V}
    (hp : idx.page? b = some p) :
    p.nextblkno = some (b + 1) ∧ b < idx.pages.length ∨
      p.nextblkno = none ∧ ∀ t x, idx.node? t = some x → t.blkno ≤ b := by
  have hb := Index.page?_pos hp
  have hn := h.chained.next hp
  split at hn
  · rename_i hlt
    exact Or.inl ⟨hn, hlt⟩
  · exact Or.inr ⟨hn, fun t x hx => by have := Index.node?_blkno hx; omega⟩

/-! ## 5. One page of `RemoveHeapTids` -/

/-- An item after `RemoveHeapTids`. -/
def removeItem (callback : ItemPointer → Bool) : HnswItem V → HnswItem V
  | .element etup => .element (removeTids callback etup)
  | it => it

/-- A node after `RemoveHeapTids`. -/
def Node.removed (callback : ItemPointer → Bool) (x : Node V) : Node V :=
  { x with elem := removeTids callback x.elem }

theorem removeTids_neighbortid (callback : ItemPointer → Bool) (e : HnswElementTuple V) :
    (removeTids callback e).neighbortid = e.neighbortid := by
  unfold removeTids
  simp only
  split <;> rfl

/-- Only heap TIDs are taken out. -/
theorem removeTids_same (callback : ItemPointer → Bool) (e : HnswElementTuple V) :
    (removeTids callback e).deleted = e.deleted ∧ (removeTids callback e).version = e.version ∧
      (removeTids callback e).level = e.level ∧ (removeTids callback e).data = e.data ∧
      ((removeTids callback e).isLive = true → e.isLive = true) := by
  unfold removeTids
  simp only
  split
  · exact ⟨rfl, rfl, rfl, rfl, id⟩
  · refine ⟨rfl, rfl, rfl, rfl, fun h => ?_⟩
    rename_i hne
    unfold HnswElementTuple.isLive
    cases hh : e.heaptids with
    | nil => exact absurd (by rw [hh]; rfl) hne
    | cons p ps =>
        by_contra hv
        exact hne (by rw [hh]; simp only [compactTids, hv, Bool.not_false, if_true])

/-- **The nodes of block `blkno` have lost the heap TIDs the callback names.** -/
structure Removed (idx idx' : Index V) (blkno : Nat) (callback : ItemPointer → Bool) : Prop where
  node : ∀ u, idx'.node? u =
    if u.blkno = blkno then (idx.node? u).map (Node.removed callback) else idx.node? u
  same : Same idx idx'
  sound : idx'.Sound

section Remove

variable {idx idx' : Index V} {b : Nat} {callback : ItemPointer → Bool}

/-- The loop over the elements of the page. -/
theorem removeLoop_slot (b : Nat) (callback : ItemPointer → Bool) :
    ∀ (l : List (Nat × HnswElementTuple V)) (idx : Index V), (l.map (·.1)).Nodup →
    Same idx (l.foldl (fun i x => i.modifyItem ⟨b, x.1⟩ (removeItem callback)) idx) ∧
    ∀ u, (l.foldl (fun i x => i.modifyItem ⟨b, x.1⟩ (removeItem callback)) idx).slot? u =
      if u.blkno = b ∧ u.offno ∈ l.map (·.1) then
        (idx.slot? u).map fun i => { i with item := removeItem callback i.item } else idx.slot? u
  | [], idx, _ => ⟨.refl idx, fun u => by simp⟩
  | x :: l, idx, hnd => by
      rw [List.map_cons, List.nodup_cons] at hnd
      obtain ⟨h1, h2⟩ := removeLoop_slot b callback l
        (idx.modifyItem ⟨b, x.1⟩ (removeItem callback)) hnd.2
      rw [List.foldl_cons]
      refine ⟨(Index.same_modifyItem _).trans h1, fun u => ?_⟩
      rw [h2, Index.slot?_modifyItem]
      by_cases hu : u = ⟨b, x.1⟩
      · subst hu
        rw [if_neg fun h => hnd.1 h.2, if_pos rfl, if_pos ⟨rfl, by simp⟩]
      · rw [if_neg hu]
        have : (u.blkno = b ∧ u.offno ∈ (x :: l).map (·.1)) ↔ (u.blkno = b ∧ u.offno ∈ l.map (·.1)) := by
          refine ⟨fun ⟨h, h'⟩ => ⟨h, ?_⟩, fun ⟨h, h'⟩ => ⟨h, List.mem_cons_of_mem _ h'⟩⟩
          rcases List.mem_cons.mp h' with e | h'
          · exact absurd (by cases u; simp_all) hu
          · exact h'
        simp only [this]

/-- What the slots say about the nodes. -/
theorem removed_of_slot (h : idx.Sound) (hsame : Same idx idx')
    (hs : ∀ u, idx'.slot? u = if u.blkno = b then
      (idx.slot? u).map fun i => { i with item := removeItem callback i.item } else idx.slot? u) :
    Removed idx idx' b callback := by
  have helem : ∀ u, idx'.elem? u =
      if u.blkno = b then (idx.elem? u).map (removeTids callback) else idx.elem? u := by
    intro u
    unfold Index.elem?
    rw [Index.item?_eq_slot?, Index.item?_eq_slot?, hs]
    by_cases hu : u.blkno = b
    · rw [if_pos hu, if_pos hu]
      cases idx.slot? u with
      | none => rfl
      | some x => rcases x with ⟨_ | _ | _, len⟩ <;> rfl
    · rw [if_neg hu, if_neg hu]
  have hneigh : ∀ u, idx'.neighSlot? u = idx.neighSlot? u := by
    intro u
    unfold Index.neighSlot?
    rw [hs]
    by_cases hu : u.blkno = b
    · rw [if_pos hu]
      cases idx.slot? u with
      | none => rfl
      | some x => rcases x with ⟨_ | _ | _, len⟩ <;> rfl
    · rw [if_neg hu]
  have hpair : ∀ {u f}, idx'.elem? u = some f →
      ∃ g, idx.elem? u = some g ∧ g.neighbortid = f.neighbortid := by
    intro u f hf
    rw [helem] at hf
    split at hf
    · obtain ⟨g, hg, rfl⟩ := Option.map_eq_some_iff.mp hf
      exact ⟨g, hg, (removeTids_neighbortid _ _).symm⟩
    · exact ⟨f, hf, rfl⟩
  refine ⟨fun u => ?_, hsame, ⟨⟨fun {u f} hu => ?_, fun {a c e f} ha hc hac => ?_⟩,
    h.chained.same hsame⟩⟩
  · unfold Index.node?
    rw [helem]
    by_cases hu : u.blkno = b
    · rw [if_pos hu, if_pos hu]
      cases idx.elem? u with
      | none => rfl
      | some e =>
          simp only [Option.map_some, hneigh, removeTids_neighbortid]
          cases idx.neighSlot? e.neighbortid <;> rfl
    · rw [if_neg hu, if_neg hu]
      simp only [hneigh]
  · obtain ⟨g, hg, hgf⟩ := hpair hu
    rw [← hgf, hneigh]
    exact h.paired.ntup hg
  · obtain ⟨ga, hga, hgae⟩ := hpair ha
    obtain ⟨gc, hgc, hgce⟩ := hpair hc
    exact h.paired.owner hga hgc (by rw [hgae, hgce, hac])

theorem removeTids_of_none {e : HnswElementTuple V} (h : (compactTids callback e.heaptids).2 = 0) :
    removeTids callback e = e := by
  unfold removeTids
  simp only [h, if_true]

theorem removed_nothing (h : idx.Sound)
    (h0 : ∀ u x, idx.node? u = some x → u.blkno = b → (compactTids callback x.elem.heaptids).2 = 0) :
    Removed idx idx b callback := by
  refine ⟨fun u => ?_, .refl idx, h⟩
  split
  · rename_i hu
    cases hx : idx.node? u with
    | none => rfl
    | some x =>
        simp only [Option.map_some, Node.removed, removeTids_of_none (h0 u x hx hu)]
  · rfl

/-- What one page answers to `RemoveHeapTids`. -/
structure RemoveAnswer (idx : Index V) (b : Nat) (callback : ItemPointer → Bool) (r : RemoveResult) :
    Prop where
  page : ∃ p, idx.page? b = some p ∧ r.nextblkno = p.nextblkno
  mem : ∀ o level live, (o, level, live) ∈ r.elements ↔ ∃ x, idx.node? ⟨b, o⟩ = some x ∧
    level = x.elem.level ∧ live = (removeTids callback x.elem).isLive

theorem removeHeapTids_eq {p : HnswPage V} (hp : idx.page? b = some p) :
    removeHeapTids idx b callback =
      ⟨if (p.elements.map fun x => (compactTids callback x.2.heaptids).2).sum = 0 then []
        else [p.elements.foldl (fun i x => i.modifyItem ⟨b, x.1⟩ (removeItem callback)) idx],
        some ⟨p.elements.map fun x => (x.1, x.2.level, (removeTids callback x.2).isLive),
          (p.elements.map fun x => (compactTids callback x.2.heaptids).2).sum,
          (p.elements.map fun x => (compactTids callback x.2.heaptids).1.length).sum,
          p.nextblkno⟩⟩ := by
  unfold removeHeapTids
  rw [hp]
  rfl

/-- **One page of `RemoveHeapTids`.** -/
theorem removeHeapTids_spec (h : idx.Sound) (b : Nat) (callback : ItemPointer → Bool) :
    (∀ c ∈ (removeHeapTids idx b callback).commits, Removed idx c b callback) ∧
    Removed idx ((removeHeapTids idx b callback).final idx) b callback ∧
    ((removeHeapTids idx b callback).resp = none ∧ idx.page? b = none ∨
      ∃ r, (removeHeapTids idx b callback).resp = some r ∧ RemoveAnswer idx b callback r) := by
  cases hp : idx.page? b with
  | none =>
      unfold removeHeapTids
      rw [hp]
      refine ⟨fun c hc => absurd hc List.not_mem_nil, removed_nothing h fun u x hx hu => ?_,
        Or.inl ⟨rfl, rfl⟩⟩
      obtain ⟨p, hp'⟩ := Index.node?_page hx
      rw [hu, hp] at hp'
      cases hp'
  | some p =>
      rw [removeHeapTids_eq hp]
      obtain ⟨hsame, hslot⟩ := removeLoop_slot b callback p.elements idx (elements_nodup p)
      have hrem : Removed idx (p.elements.foldl (fun i x => i.modifyItem ⟨b, x.1⟩
          (removeItem callback)) idx) b callback := by
        refine removed_of_slot h hsame fun u => ?_
        rw [hslot]
        by_cases hu : u.blkno = b
        · rw [if_pos hu]
          by_cases hm : u.offno ∈ p.elements.map (·.1)
          · rw [if_pos ⟨hu, hm⟩]
          · rw [if_neg fun h => hm h.2]
            -- not an element, so nothing is removed there
            cases hx : idx.slot? u with
            | none => rfl
            | some x =>
                rcases x with ⟨e | n | _, len⟩
                · have hi : p.page.PageGetItem u.offno = some (.element e) := by
                    have h1 : idx.item? u = some (.element e) := by
                      rw [Index.item?_eq_slot?, hx]
                      rfl
                    unfold Index.item? at h1
                    rw [hu, hp] at h1
                    exact h1
                  exact absurd (List.mem_map_of_mem (mem_elements.mpr hi)) hm
                · rfl
                · rfl
        · rw [if_neg hu, if_neg fun h => hu h.1]
      refine ⟨fun c hc => ?_, ?_, Or.inr ⟨_, rfl, ⟨p, hp, rfl⟩, fun o level live => ?_⟩⟩
      · split at hc
        · cases hc
        · rw [List.mem_singleton.mp hc]
          exact hrem
      · unfold Sect.final
        simp only
        split
        · rename_i h0
          refine removed_nothing h fun u x hx hu => ?_
          have hm : (u.offno, x.elem) ∈ p.elements :=
            (h.paired.mem_elements hp).mpr ⟨x, by rw [← hu]; exact hx, rfl⟩
          exact List.sum_eq_zero_iff_forall_eq_nat.mp h0 _ (List.mem_map_of_mem hm)
        · exact hrem
      · simp only [List.mem_map, Prod.mk.injEq, Prod.exists]
        constructor
        · rintro ⟨o', e, hm, rfl, rfl, rfl⟩
          obtain ⟨x, hx, rfl⟩ := (h.paired.mem_elements hp).mp hm
          exact ⟨x, hx, rfl, rfl⟩
        · rintro ⟨x, hx, rfl, rfl⟩
          exact ⟨o, x.elem, (h.paired.mem_elements hp).mpr ⟨x, hx, rfl⟩, rfl, rfl, rfl⟩

end Remove

/-! ## 6. One page of `MarkDeleted` -/

/-- Nothing is left to mark at `u`. -/
def Settled (idx : Index V) (u : ItemPointer) : Prop :=
  ∀ x, idx.node? u = some x → x.elem.isLive = true ∨ x.elem.deleted = true

theorem Settled.mark {idx idx' : Index V} {t u : ItemPointer} {x : Node V} {zeroDatum : V}
    (h : Settled idx u) (hw : Wrote idx idx' t (x.marked zeroDatum)) : Settled idx' u := by
  intro y hy
  rw [hw.node] at hy
  split at hy
  · cases hy
    exact Or.inr rfl
  · exact h y hy

/-- **The loop of `MarkDeleted` over a page**: an invariant kept by the marking of one element is kept by
    all, and nothing is left to mark. -/
theorem markLoop_rule {I : Index V → Prop} (zeroDatum : V) (b : Nat) (hsound : ∀ i, I i → i.Sound)
    (step : ∀ i o x, I i → i.node? ⟨b, o⟩ = some x → x.elem.deleted = false → x.elem.isLive = false →
      I (markElement zeroDatum i ⟨b, o⟩ x.elem)) :
    ∀ (os : List Nat) (i : Index V) (ip : Option Nat), I i →
      I (markLoop zeroDatum b os i ip).1 ∧
      (∀ c ∈ (markLoop zeroDatum b os i ip).2.1, I c) ∧
      (markLoop zeroDatum b os i ip).2.1.getLastD i = (markLoop zeroDatum b os i ip).1 ∧
      (∀ u, Settled i u → Settled (markLoop zeroDatum b os i ip).1 u) ∧
      ∀ o ∈ os, Settled (markLoop zeroDatum b os i ip).1 ⟨b, o⟩
  | [], i, ip, hI =>
      ⟨hI, fun c hc => absurd hc List.not_mem_nil, rfl, fun _ h => h,
        fun o ho => absurd ho List.not_mem_nil⟩
  | o :: os, i, ip, hI => by
      have hp := (hsound i hI).paired
      unfold markLoop
      cases he : i.elem? ⟨b, o⟩ with
      | none =>
          obtain ⟨h1, h2, h3, h4, h5⟩ := markLoop_rule zeroDatum b hsound step os i ip hI
          refine ⟨h1, h2, h3, h4, fun o' ho' => ?_⟩
          rcases List.mem_cons.mp ho' with rfl | ho'
          · refine h4 _ fun x hx => ?_
            rw [Index.node?_elem hx] at he
            cases he
          · exact h5 o' ho'
      | some e =>
          obtain ⟨x, hx, rfl⟩ := hp.node he
          simp only
          split
          · rename_i hd
            generalize (if ip.isNone = true then some b else ip) = ip'
            obtain ⟨h1, h2, h3, h4, h5⟩ := markLoop_rule zeroDatum b hsound step os i ip' hI
            refine ⟨h1, h2, h3, h4, fun o' ho' => ?_⟩
            rcases List.mem_cons.mp ho' with rfl | ho'
            · refine h4 _ fun y hy => ?_
              rw [hx] at hy
              cases hy
              exact Or.inr hd
            · exact h5 o' ho'
          · rename_i hd
            split
            · rename_i hl
              obtain ⟨h1, h2, h3, h4, h5⟩ := markLoop_rule zeroDatum b hsound step os i ip hI
              refine ⟨h1, h2, h3, h4, fun o' ho' => ?_⟩
              rcases List.mem_cons.mp ho' with rfl | ho'
              · refine h4 _ fun y hy => ?_
                rw [hx] at hy
                cases hy
                exact Or.inl hl
              · exact h5 o' ho'
            · rename_i hl
              generalize (if ip.isNone = true then some b else ip) = ip'
              have hw := markElement_spec (hsound i hI) hx zeroDatum
              have hI' := step i o x hI hx (by simpa using hd) (by simpa using hl)
              obtain ⟨h1, h2, h3, h4, h5⟩ := markLoop_rule zeroDatum b hsound step os _ ip' hI'
              simp only
              refine ⟨h1, fun c hc => ?_, ?_, fun u hu => h4 u (hu.mark hw), fun o' ho' => ?_⟩
              · rcases List.mem_cons.mp hc with rfl | hc
                · exact hI'
                · exact h2 c hc
              · rw [List.getLastD_cons]
                exact h3
              · rcases List.mem_cons.mp ho' with rfl | ho'
                · refine h4 _ fun y hy => ?_
                  rw [hw.node, if_pos rfl] at hy
                  cases hy
                  exact Or.inr rfl
                · exact h5 o' ho'

/-- **One page of `MarkDeleted`.** -/
theorem markDeleted_rule {idx : Index V} {I : Index V → Prop} (zeroDatum : V) (b : Nat)
    (ip : Option Nat) (hsound : ∀ i, I i → i.Sound)
    (step : ∀ i o x, I i → i.node? ⟨b, o⟩ = some x → x.elem.deleted = false → x.elem.isLive = false →
      I (markElement zeroDatum i ⟨b, o⟩ x.elem)) (h : I idx) :
    (∀ c ∈ (markDeleted zeroDatum idx b ip).commits, I c) ∧
    I ((markDeleted zeroDatum idx b ip).final idx) ∧
    (∀ u, Settled idx u → Settled ((markDeleted zeroDatum idx b ip).final idx) u) ∧
    (∀ u, u.blkno = b → Settled ((markDeleted zeroDatum idx b ip).final idx) u) ∧
    ((markDeleted zeroDatum idx b ip).resp = none ∧ idx.page? b = none ∨
      ∃ r p, (markDeleted zeroDatum idx b ip).resp = some r ∧ idx.page? b = some p ∧
        r.nextblkno = p.nextblkno) := by
  unfold markDeleted
  cases hp : idx.page? b with
  | none =>
      refine ⟨fun c hc => absurd hc List.not_mem_nil, h, fun _ hu => hu, fun u hu x hx => ?_,
        Or.inl ⟨rfl, rfl⟩⟩
      obtain ⟨p, hp'⟩ := Index.node?_page hx
      rw [hu] at hp'
      change idx.page? b = some p at hp'
      rw [hp] at hp'
      cases hp'
  | some p =>
      obtain ⟨h1, h2, h3, h4, h5⟩ := markLoop_rule zeroDatum b hsound step p.offsets idx ip h
      simp only [Sect.final]
      rw [h3]
      refine ⟨h2, h1, h4, fun u hu => ?_, Or.inr ⟨_, p, rfl, rfl, rfl⟩⟩
      by_cases hm : u.offno ∈ p.offsets
      · obtain ⟨ub, uo⟩ := u
        simp only at hu hm
        subst hu
        exact h5 uo hm
      · refine h4 u fun x hx => ?_
        obtain ⟨ub, uo⟩ := u
        simp only at hu hm
        subst hu
        exact absurd ((elements_sublist p).subset (List.mem_map_of_mem
          (((hsound idx h).paired.mem_elements hp).mpr ⟨x, hx, rfl⟩))) hm

theorem nextVersion_ne (v : Nat) : nextVersion v ≠ v := by
  unfold nextVersion
  simp only
  split <;> omega

theorem Node.not_names_marked {x : Node V} {zeroDatum : V} {v : ItemPointer} :
    ¬ (x.marked zeroDatum).Names v := by
  rintro ⟨hm, hv⟩
  rw [List.eq_of_mem_replicate hm] at hv
  cases hv

/-- **Some nodes without heap TID were marked, nothing else has changed.** -/
structure Marked (zeroDatum : V) (idx idx' : Index V) : Prop where
  node : ∀ u, idx'.node? u = idx.node? u ∨ ∃ x, idx.node? u = some x ∧ x.elem.deleted = false ∧
    x.elem.isLive = false ∧ idx'.node? u = some (x.marked zeroDatum)
  same : Same idx idx'
  sound : idx'.Sound

namespace Marked

variable {zeroDatum : V} {idx idx' : Index V}

theorem mark {t : ItemPointer} {x : Node V} (h : Marked zeroDatum idx idx') (hx : idx'.node? t = some x)
    (hd : x.elem.deleted = false) (hl : x.elem.isLive = false) :
    Marked zeroDatum idx (markElement zeroDatum idx' t x.elem) := by
  have hw := markElement_spec h.sound hx zeroDatum
  refine ⟨fun u => ?_, h.same.trans hw.same, hw.sound⟩
  by_cases hu : u = t
  · subst hu
    rcases h.node u with e | ⟨y, _, _, _, e⟩
    · exact Or.inr ⟨x, by rw [← e]; exact hx, hd, hl, by rw [hw.node, if_pos rfl]⟩
    · rw [hx] at e
      cases e
      cases hd
  · rw [hw.node, if_neg hu]
    exact h.node u

/-- A node after the marking is the one before, or that one marked. -/
theorem back (h : Marked zeroDatum idx idx') {u : ItemPointer} {x' : Node V}
    (hx : idx'.node? u = some x') : idx.node? u = some x' ∨ ∃ x, idx.node? u = some x ∧
      x.elem.deleted = false ∧ x.elem.isLive = false ∧ x' = x.marked zeroDatum := by
  rcases h.node u with e | ⟨x, hx0, hd, hl, e⟩
  · exact Or.inl (by rw [← e]; exact hx)
  · exact Or.inr ⟨x, hx0, hd, hl, Option.some.inj (hx.symm.trans e)⟩

/-- A node that is live, or marked already, stays. -/
theorem stays (h : Marked zeroDatum idx idx') {u : ItemPointer} {x : Node V}
    (hx : idx.node? u = some x) (hl : x.elem.isLive = true ∨ x.elem.deleted = true) :
    idx'.node? u = some x := by
  rcases h.node u with e | ⟨y, hy, hd, hyl, _⟩
  · exact e.trans hx
  · rw [hx] at hy
    cases hy
    rw [hd, hyl] at hl
    rcases hl with hl | hl <;> cases hl

theorem kept (h : Marked zeroDatum idx idx') {u : ItemPointer} {x : Node V}
    (hx : idx.node? u = some x) : ∃ x', idx'.node? u = some x' ∧ (x' = x ∨ x.elem.deleted = false ∧
      x.elem.isLive = false ∧ x' = x.marked zeroDatum) := by
  rcases h.node u with e | ⟨y, hy, hd, hyl, e⟩
  · exact ⟨x, e.trans hx, Or.inl rfl⟩
  · rw [hx] at hy
    cases hy
    exact ⟨_, e, Or.inr ⟨hd, hyl, rfl⟩⟩

end Marked

/-- **What one page of `MarkDeleted` does.** -/
theorem markDeleted_spec {idx : Index V} (h : idx.Sound) (zeroDatum : V) (b : Nat) (ip : Option Nat) :
    (∀ c ∈ (markDeleted zeroDatum idx b ip).commits, Marked zeroDatum idx c) ∧
    Marked zeroDatum idx ((markDeleted zeroDatum idx b ip).final idx) ∧
    (∀ u, Settled idx u → Settled ((markDeleted zeroDatum idx b ip).final idx) u) ∧
    (∀ u, u.blkno = b → Settled ((markDeleted zeroDatum idx b ip).final idx) u) ∧
    ((markDeleted zeroDatum idx b ip).resp = none ∧ idx.page? b = none ∨
      ∃ r p, (markDeleted zeroDatum idx b ip).resp = some r ∧ idx.page? b = some p ∧
        r.nextblkno = p.nextblkno) :=
  markDeleted_rule zeroDatum b ip (fun _ hi => hi.sound) (fun _ _ _ hi hx hd hl => hi.mark hx hd hl)
    ⟨fun _ => Or.inl rfl, .refl idx, h⟩

end Pgvec.Hnsw
