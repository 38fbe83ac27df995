/-
  File:      Pgvec/Common/IntegerSetLeaves.lean
  Subject:   THE LEAVES OF AN INTEGER SET: the chain they form, and one more item at the right end.

  * `Leaves` -- the leaves in order, linked to one another, all full but the last;
  * `Built` -- a tree over leaves that hold exactly these items;
  * `linkLeaf_spec`, **`append_spec`** -- the next item is put into the rightmost leaf, which is a new one when
    the old one is full; the levels never run out.
-/
import Pgvec.Common.IntegerSetTree

namespace Pgvec.Intset

variable {s t : IntegerSet} {lv : Nat → List Nat} {key key' : Nat → Nat} {pend : Nat → List Nat}
  {l child : Nat} {ps : List Nat} {items : List leaf_item}

/-! ## 1. The chain of leaves -/

/-- From `p`, the `next` pointers go through exactly these leaves. -/
def Walk (s : IntegerSet) : Nat → List Nat → Prop
  | p, [] => p = NULL
  | p, q :: qs => p = q ∧ q ≠ NULL ∧ Walk s (s.mem q).next qs

theorem Walk.frame : ∀ {p : Nat} {qs : List Nat}, Walk s p qs → (∀ q ∈ qs, (t.mem q).next = (s.mem q).next) →
    Walk t p qs
  | _, [], h, _ => h
  | _, q :: qs, ⟨hp, hq, hrest⟩, hsame => by
      refine ⟨hp, hq, ?_⟩
      rw [hsame q List.mem_cons_self]
      exact hrest.frame fun r hr => hsame r (List.mem_cons_of_mem q hr)

/-- One more leaf behind the last. -/
theorem Walk.snoc {last new : Nat} : ∀ {p : Nat} {init : List Nat}, Walk s p (init ++ [last]) →
    (∀ q ∈ init, (t.mem q).next = (s.mem q).next) → (t.mem last).next = new → new ≠ NULL → (t.mem new).next = NULL →
    Walk t p (init ++ [last] ++ [new])
  | _, [], ⟨hp, hlast, _⟩, _, hnext, hnew, hend => ⟨hp, hlast, hnext, hnew, hend⟩
  | _, q :: init, ⟨hp, hq, hrest⟩, hsame, hnext, hnew, hend => by
      refine ⟨hp, hq, ?_⟩
      rw [hsame q List.mem_cons_self]
      exact Walk.snoc hrest (fun r hr => hsame r (List.mem_cons_of_mem q hr)) hnext hnew hend

/-! ## 2. The leaves -/

/-- **The leaves**, from left to right. -/
structure Leaves (s : IntegerSet) (ps : List Nat) (items : List leaf_item) : Prop where
  items : ps.flatMap (fun p => (s.mem p).items) = items
  full : ∀ p ∈ ps.dropLast, (s.mem p).items.length = MAX_LEAF_ITEMS
  room : ∀ p ∈ ps, (s.mem p).items.length ≤ MAX_LEAF_ITEMS
  walk : Walk s s.leftmost_leaf ps

/-- The low key of every leaf is its first value. -/
def Low (s : IntegerSet) (key : Nat → Nat) (ps : List Nat) : Prop :=
  ∀ p ∈ ps, ∃ item rest, (s.mem p).items = item :: rest ∧ key p = item.first

/-- **A tree that holds these items**; without any it is one empty leaf. -/
structure Built (s : IntegerSet) (items : List leaf_item) : Prop where
  shape : ∃ lv key, Upper s lv key settled ∧ Leaves s (lv 0) items ∧ (items ≠ [] → Low s key (lv 0))
  blank : items = [] → s.num_levels = 1

/-- The only level can be given any low keys. -/
theorem Upper.rekey (h : Upper s lv key pend) (hone : s.num_levels = 1) (key' : Nat → Nat) : Upper s lv key' pend where
  pos := h.pos
  level := h.level
  inner := fun k hk => absurd hk (by omega)
  root := h.root
  linked := h.linked

/-- **A leaf changed in place**; its level stays. -/
theorem Upper.setLeaf (h : Upper s lv key pend) {p : Nat} (hp : p ∈ lv 0) {n : intset_node} (hn : n.level = 0) :
    Upper (setNode s p n) lv key pend := by
  have hmem : ∀ q, q ≠ p → (setNode s p n).mem q = s.mem q := fun q hq => Function.update_of_ne hq ..
  have hself : (setNode s p n).mem p = n := Function.update_self ..
  have hother : ∀ k, k + 1 < s.num_levels → ∀ q ∈ lv (k + 1), q ≠ p := by
    intro k hk q hq he
    have hq0 := (h.level (k + 1) hk).level q hq
    rw [he, (h.level 0 h.pos).level p hp] at hq0
    exact Nat.succ_ne_zero k hq0.symm
  constructor
  · exact h.pos
  · intro k hk
    have hlev := h.level k hk
    refine ⟨hlev.alloc, fun q hq => ?_, hlev.nodup, hlev.last⟩
    by_cases hqp : q = p
    · subst hqp
      rw [hself, hn, ← hlev.level q hq, (h.level 0 h.pos).level q hp]
    · rw [hmem q hqp]
      exact hlev.level q hq
  · intro k hk
    exact (h.inner k hk).frame (h.level (k + 1) hk) (fun q hq => hmem q (hother k hk q hq)) (Nat.le_refl _)
      fun _ _ => rfl
  · exact h.root
  · intro k hk
    rw [← h.linked k hk]
    congr 1
    exact List.flatMap_congr fun q hq => congrArg _ (hmem q (hother k hk q hq))

/-- **A new leaf** is pending. -/
theorem Upper.addLeaf (h : Upper s lv key settled) (k : Nat) :
    Upper (setRightmost (newNode s leafNode) 0 s.allocated) (Function.update lv 0 (lv 0 ++ [s.allocated]))
      (Function.update key s.allocated k) (pendAt 0 s.allocated) := by
  have hlev := h.level 0 h.pos
  have hpos : 0 < s.allocated := by
    have := (hlev.alloc _ hlev.last_mem).2
    omega
  generalize ht : setRightmost (newNode s leafNode) 0 s.allocated = t
  have hmem : ∀ p, p < s.allocated → t.mem p = s.mem p := fun p hp => by
    rw [← ht]
    exact Function.update_of_ne (Nat.ne_of_lt hp) _ _
  have hnew : t.mem s.allocated = leafNode := by
    rw [← ht]
    exact Function.update_self ..
  have hlevels : t.num_levels = s.num_levels := by rw [← ht]; rfl
  have halloc : t.allocated = s.allocated + 1 := by rw [← ht]; rfl
  have hroot : t.root = s.root := by rw [← ht]; rfl
  have hright : ∀ k, k ≠ 0 → t.rightmost_nodes k = s.rightmost_nodes k := fun k hk => by
    rw [← ht]
    exact Function.update_of_ne hk _ _
  have hright0 : t.rightmost_nodes 0 = s.allocated := by
    rw [← ht]
    exact Function.update_self 0 s.allocated s.rightmost_nodes
  have hold : ∀ k, k ≠ 0 → Function.update lv 0 (lv 0 ++ [s.allocated]) k = lv k :=
    fun k hk => Function.update_of_ne hk _ _
  constructor
  · rw [hlevels]
    exact h.pos
  · intro k hk
    rw [hlevels] at hk
    by_cases hk0 : k = 0
    · rw [hk0, Function.update_self]
      exact hlev.snoc hpos hmem (by rw [hnew]; rfl) hright0 halloc
    · rw [hold k hk0]
      exact (h.level k hk).frame (fun p hp => hmem p (h.lt_allocated hk hp)) (hright k hk0) (by omega)
  · intro k hk
    rw [hlevels] at hk
    rw [hold _ (Nat.succ_ne_zero k)]
    exact (h.inner k hk).frame (h.level (k + 1) hk) (fun p hp => hmem p (h.lt_allocated hk hp)) (by omega)
      fun q hq => Function.update_of_ne (Nat.ne_of_lt hq) _ key
  · rw [hlevels, hroot]
    by_cases htop : s.num_levels - 1 = 0
    · have hroots := h.root
      rw [htop] at hroots ⊢
      rw [Function.update_self, pendAt_self, hroots]
      rfl
    · rw [hold _ htop, pendAt_of_ne htop]
      exact h.root
  · intro k hk
    rw [hlevels] at hk
    have hlink := h.linked k hk
    have hsame : (lv (k + 1)).flatMap (fun p => (t.mem p).downlinks) =
        (lv (k + 1)).flatMap fun p => (s.mem p).downlinks :=
      List.flatMap_congr fun p hp => congrArg _ (hmem p (h.lt_allocated hk hp))
    rw [show settled k = [] from rfl, List.append_nil] at hlink
    rw [hold _ (Nat.succ_ne_zero k), hsame, hlink]
    by_cases hk0 : k = 0
    · rw [hk0, pendAt_self, Function.update_self]
    · rw [hold _ hk0, pendAt_of_ne hk0, List.append_nil]

/-! ## 3. The next item -/

/-- What a flush leaves alone. -/
structure SameRest (s t : IntegerSet) : Prop where
  buffered : t.buffered_values = s.buffered_values
  entries : t.num_entries = s.num_entries
  highest : t.highest_value = s.highest_value
  active : t.iter_active = s.iter_active

theorem SameRest.trans {u : IntegerSet} (h : SameRest s t) (h' : SameRest t u) : SameRest s u :=
  ⟨h'.buffered.trans h.buffered, h'.entries.trans h.entries, h'.highest.trans h.highest, h'.active.trans h.active⟩

theorem SameLeaves.rest (h : SameLeaves s t) : SameRest s t := ⟨h.buffered, h.entries, h.highest, h.active⟩

/-- The leaves as they stand after the work on the internal nodes. -/
theorem Leaves.frame (h : Leaves s ps items) (hmem : ∀ p ∈ ps, t.mem p = s.mem p)
    (hleft : t.leftmost_leaf = s.leftmost_leaf) : Leaves t ps items where
  items := by
    rw [← h.items]
    exact List.flatMap_congr fun p hp => congrArg _ (hmem p hp)
  full := fun p hp => by
    rw [hmem p (List.mem_of_mem_dropLast hp)]
    exact h.full p hp
  room := fun p hp => by
    rw [hmem p hp]
    exact h.room p hp
  walk := by
    rw [hleft]
    exact h.walk.frame fun q hq => congrArg _ (hmem q hq)

/-- So many items in so many leaves. -/
theorem Leaves.length (h : Leaves s ps items) : MAX_LEAF_ITEMS * (ps.length - 1) ≤ items.length := by
  rcases List.eq_nil_or_concat ps with rfl | ⟨init, last, rfl⟩
  · exact Nat.zero_le _
  · have hfull := h.full
    rw [List.concat_eq_append, List.dropLast_concat] at hfull
    have hcount := congrArg List.length h.items
    rw [List.concat_eq_append, List.flatMap_append, List.length_append, length_flatMap_full hfull] at hcount
    rw [List.concat_eq_append, List.length_append, List.length_singleton, Nat.add_sub_cancel]
    omega

/-- The item goes into the last leaf. -/
theorem Leaves.append {init : List Nat} {leaf : Nat} (h : Leaves s (init ++ [leaf]) items) (item : leaf_item)
    (hnot : leaf ∉ init) (hroom : (s.mem leaf).items.length < MAX_LEAF_ITEMS) :
    Leaves (appendItem s leaf item) (init ++ [leaf]) (items ++ [item]) := by
  have hmem : ∀ q, q ≠ leaf → (appendItem s leaf item).mem q = s.mem q := fun q hq => Function.update_of_ne hq ..
  have hself : (appendItem s leaf item).mem leaf =
      { s.mem leaf with items := (s.mem leaf).items ++ [item] } := Function.update_self ..
  have hinit : ∀ q ∈ init, (appendItem s leaf item).mem q = s.mem q :=
    fun q hq => hmem q fun he => hnot (he ▸ hq)
  have hnext : ∀ q, ((appendItem s leaf item).mem q).next = (s.mem q).next := fun q => by
    by_cases hq : q = leaf
    · rw [hq, hself]
    · rw [hmem q hq]
  constructor
  · have hitems := h.items
    rw [List.flatMap_append, List.flatMap_singleton] at hitems ⊢
    rw [hself, ← hitems, List.append_assoc]
    congr 1
    exact List.flatMap_congr fun p hp => congrArg _ (hinit p hp)
  · intro p hp
    have hfull := h.full p hp
    rw [List.dropLast_concat] at hp
    rw [hinit p hp]
    exact hfull
  · intro p hp
    rcases List.mem_append.mp hp with hp' | hp'
    · rw [hinit p hp']
      exact h.room p hp
    · rw [List.mem_singleton.mp hp', hself]
      simpa using hroom
  · exact h.walk.frame fun q _ => hnext q

/-- A new leaf behind the last, which is full. -/
theorem Leaves.snoc {init : List Nat} {old new : Nat} (h : Leaves s (init ++ [old]) items)
    (hfull : (s.mem old).items.length = MAX_LEAF_ITEMS) (hinit : ∀ q ∈ init, t.mem q = s.mem q)
    (hold : t.mem old = { s.mem old with next := new }) (hnew : t.mem new = leafNode) (hpos : new ≠ NULL)
    (hleft : t.leftmost_leaf = s.leftmost_leaf) : Leaves t (init ++ [old] ++ [new]) items := by
  constructor
  · rw [List.flatMap_append, List.flatMap_append, List.flatMap_singleton, List.flatMap_singleton, hold, hnew, ← h.items,
      List.flatMap_append, List.flatMap_singleton]
    show _ ++ [] = _
    rw [List.append_nil]
    congr 1
    exact List.flatMap_congr fun p hp => congrArg _ (hinit p hp)
  · rw [List.dropLast_concat]
    intro p hp
    rcases List.mem_append.mp hp with hp | hp
    · have := h.full p (by rwa [List.dropLast_concat])
      rwa [hinit p hp]
    · rw [List.mem_singleton.mp hp, hold]
      exact hfull
  · intro p hp
    rcases List.mem_append.mp hp with hp | hp
    · have hroom := h.room p hp
      rcases List.mem_append.mp hp with hp | hp
      · rwa [hinit p hp]
      · rw [List.mem_singleton.mp hp, hold]
        exact Nat.le_of_eq hfull
    · rw [List.mem_singleton.mp hp, hnew]
      exact Nat.zero_le _
  · rw [hleft]
    refine h.walk.snoc (fun q hq => congrArg _ (hinit q hq)) ?_ hpos ?_
    · rw [hold]
    · rw [hnew]
      rfl

/-- The first item of all goes into the leaf that is already there. -/
theorem Built.blank_leaf (h : Leaves s ps items) (hitems : items = []) {init : List Nat} {leaf : Nat}
    (hps : ps = init ++ [leaf]) : init = [] ∧ (s.mem leaf).items = [] := by
  have hall := h.items
  rw [hitems, List.flatMap_eq_nil_iff] at hall
  subst hps
  refine ⟨?_, hall leaf (List.mem_append_right _ List.mem_cons_self)⟩
  cases init with
  | nil => rfl
  | cons q init =>
      have hq := h.full q (by rw [List.dropLast_concat]; exact List.mem_cons_self)
      rw [hall q List.mem_cons_self] at hq
      exact absurd hq (by decide)

/-- The last leaf has room. -/
theorem Built.append_room (h : Built s items) (item : leaf_item)
    (hroom : (s.mem (s.rightmost_nodes 0)).items.length < MAX_LEAF_ITEMS) :
    Built (appendItem s (s.rightmost_nodes 0) item) (items ++ [item]) := by
  obtain ⟨⟨lv, key, hup, hleaves, hlow⟩, hblank⟩ := h
  have hlev := hup.level 0 hup.pos
  have hlast := hlev.last
  have hleaf := hlev.last_mem
  have hnodup := hlev.nodup
  generalize s.rightmost_nodes 0 = leaf at hroom hlast hleaf ⊢
  obtain ⟨init, hinit⟩ := hlast
  rw [hinit, List.nodup_append] at hnodup
  have hnot : leaf ∉ init := fun hin => hnodup.2.2 leaf hin leaf List.mem_cons_self rfl
  have hmem : ∀ q, q ≠ leaf → (appendItem s leaf item).mem q = s.mem q := fun q hq => Function.update_of_ne hq ..
  have hself : (appendItem s leaf item).mem leaf =
      { s.mem leaf with items := (s.mem leaf).items ++ [item] } := Function.update_self ..
  have hleaves' : Leaves (appendItem s leaf item) (lv 0) (items ++ [item]) := by
    rw [hinit] at hleaves ⊢
    exact hleaves.append item hnot hroom
  refine ⟨?_, fun he => absurd he (List.append_ne_nil_of_right_ne_nil _ (List.cons_ne_nil _ _))⟩
  by_cases hitems : items = []
  · obtain ⟨hnil, hempty⟩ := Built.blank_leaf hleaves hitems hinit
    refine ⟨lv, fun _ => item.first, (hup.rekey (hblank hitems) _).setLeaf hleaf (hlev.level leaf hleaf), hleaves', ?_⟩
    intro _ p hp
    rw [hinit, hnil, List.nil_append] at hp
    refine ⟨item, [], ?_, rfl⟩
    rw [List.mem_singleton.mp hp, hself]
    show (s.mem leaf).items ++ [item] = [item]
    rw [hempty]
    rfl
  · refine ⟨lv, key, hup.setLeaf hleaf (hlev.level leaf hleaf), hleaves', fun _ p hp => ?_⟩
    obtain ⟨it, rest, hits, hkey⟩ := hlow hitems p hp
    by_cases hpl : p = leaf
    · refine ⟨it, rest ++ [item], ?_, hkey⟩
      rw [hpl, hself]
      rw [hpl] at hits
      show (s.mem leaf).items ++ [item] = _
      rw [hits]
      rfl
    · exact ⟨it, rest, by rw [hmem p hpl]; exact hits, hkey⟩

/-- **A full leaf**: a new one is linked behind it and into the tree. -/
theorem linkLeaf_full (h : Built s items) (hsmall : items.length ≤ 2 ^ 64) (item : leaf_item)
    (hfull : MAX_LEAF_ITEMS ≤ (s.mem (s.rightmost_nodes 0)).items.length) :
    ∃ t leaf, linkLeaf s (s.rightmost_nodes 0) item.first = .ok (t, leaf) ∧ leaf = t.rightmost_nodes 0 ∧
      Built (appendItem t leaf item) (items ++ [item]) ∧ SameRest s t := by
  obtain ⟨⟨lv, key, hup, hleaves, hlow⟩, -⟩ := h
  have hlev := hup.level 0 hup.pos
  have hlast := hlev.last
  have hleaf := hlev.last_mem
  have hnodup := hlev.nodup
  generalize s.rightmost_nodes 0 = old at hfull hlast hleaf ⊢
  obtain ⟨init, hinit⟩ := hlast
  rw [hinit, List.nodup_append] at hnodup
  have hnot : old ∉ init := fun hin => hnodup.2.2 old hin old List.mem_cons_self rfl
  have hlen : (s.mem old).items.length = MAX_LEAF_ITEMS := Nat.le_antisymm (hleaves.room old hleaf) hfull
  have holdlt := (hlev.alloc old hleaf).2
  have hne : items ≠ [] := by
    intro hitems
    have hempty := (Built.blank_leaf hleaves hitems hinit).2
    rw [hempty] at hlen
    exact absurd hlen (by decide)
  have hlow := hlow hne
  have hset : (newNode s leafNode).mem old = s.mem old := Function.update_of_ne (Nat.ne_of_lt holdlt) _ _
  -- the state in which the downlink is inserted
  have hup₂ := (hup.addLeaf item.first).setLeaf (p := old)
    (n := { (newNode s leafNode).mem old with next := s.allocated })
    (by rw [Function.update_self]; exact List.mem_append_left _ hleaf)
    (by
      show ((newNode s leafNode).mem old).level = 0
      rw [hset]
      exact hlev.level old hleaf)
  generalize hs₂ : setNode (setRightmost (newNode s leafNode) 0 s.allocated) old
    { (newNode s leafNode).mem old with next := s.allocated } = s₂ at hup₂
  have hmem₂ : ∀ p, p < s.allocated → p ≠ old → s₂.mem p = s.mem p := fun p hp hpo => by
    rw [← hs₂]
    exact (Function.update_of_ne hpo _ _).trans (Function.update_of_ne (Nat.ne_of_lt hp) _ _)
  have hold₂ : s₂.mem old = { s.mem old with next := s.allocated } := by
    rw [← hs₂, ← hset]
    exact Function.update_self ..
  have hnew₂ : s₂.mem s.allocated = leafNode := by
    rw [← hs₂]
    exact (Function.update_of_ne (Nat.ne_of_gt holdlt) _ _).trans (Function.update_self ..)
  have hinit₂ : ∀ q ∈ init, s₂.mem q = s.mem q := fun q hq => by
    have hqlv : q ∈ lv 0 := by
      rw [hinit]
      exact List.mem_append_left _ hq
    exact hmem₂ q (hlev.alloc q hqlv).2 fun he => hnot (he ▸ hq)
  have hleaves₂ : Leaves s₂ (lv 0 ++ [s.allocated]) items := by
    rw [hinit] at hleaves ⊢
    exact hleaves.snoc hlen hinit₂ hold₂ hnew₂ (Nat.ne_of_gt (Nat.lt_of_le_of_lt (Nat.zero_le _) holdlt))
      (by rw [← hs₂]; rfl)
  have hitems₂ : ∀ p ∈ lv 0, (s₂.mem p).items = (s.mem p).items := fun p hp => by
    by_cases hpo : p = old
    · rw [hpo, hold₂]
    · rw [hmem₂ p (hlev.alloc p hp).2 hpo]
  have hlv₂ : Function.update lv 0 (lv 0 ++ [s.allocated]) 0 = lv 0 ++ [s.allocated] :=
    Function.update_self 0 _ lv
  have hkeys₂ : ∀ q, q < s.allocated → Function.update key s.allocated item.first q = key q :=
    fun q hq => Function.update_of_ne (Nat.ne_of_lt hq) _ _
  have hroot₂ : s₂.num_levels = 1 →
      Function.update key s.allocated item.first s₂.root = firstValue (s₂.mem s₂.root) := by
    intro hone
    have hone' : s.num_levels = 1 := by rw [← hone, ← hs₂]; rfl
    have hroot : s₂.root = s.root := by rw [← hs₂]; rfl
    have hrootlv : s.root ∈ lv 0 := by
      have := hup.root_mem
      rwa [hone'] at this
    obtain ⟨it, rest, hits, hkey⟩ := hlow s.root hrootlv
    have hlevel := (hup₂.level 0 hup₂.pos).level s.root (by rw [hlv₂]; exact List.mem_append_left _ hrootlv)
    rw [hroot, hkeys₂ _ (hlev.alloc _ hrootlv).2, hkey]
    unfold firstValue
    rw [if_pos hlevel, hitems₂ _ hrootlv, hits]
    rfl
  have hsmall₂ : (Function.update lv 0 (lv 0 ++ [s.allocated]) 0).length ≤ 2 ^ 60 := by
    have hlength := hleaves₂.length
    have hmax : MAX_LEAF_ITEMS = 64 := rfl
    rw [List.length_append, List.length_singleton, Nat.add_sub_cancel, hmax] at hlength
    rw [hlv₂, List.length_append, List.length_singleton]
    omega
  obtain ⟨t, lv₃, key₃, hrun, hup₃, hlv₃, hkey₃, hsame⟩ :=
    update_upper_spec _ (Nat.le_refl _) hup₂ hup₂.pos hroot₂ hsmall₂
  rw [Function.update_self] at hrun
  rw [hlv₂] at hlv₃
  have halloc₂ : s₂.allocated = s.allocated + 1 := by rw [← hs₂]; rfl
  have hmem₃ : ∀ p ∈ lv 0 ++ [s.allocated], t.mem p = s₂.mem p := fun p hp => by
    have hp' : p ∈ Function.update lv 0 (lv 0 ++ [s.allocated]) 0 := by rw [hlv₂]; exact hp
    exact hsame.mem p (hup₂.lt_allocated hup₂.pos hp') ((hup₂.level 0 hup₂.pos).level p hp')
  have hright₃ : t.rightmost_nodes 0 = s.allocated := by
    rw [hsame.right, ← hs₂]
    exact Function.update_self 0 s.allocated s.rightmost_nodes
  have hnew₃ : t.mem s.allocated = leafNode := by
    rw [hmem₃ _ (List.mem_append_right _ List.mem_cons_self), hnew₂]
  have hnotin : s.allocated ∉ lv 0 := fun hin => Nat.lt_irrefl _ (hlev.alloc _ hin).2
  have hleaves₃ := (hleaves₂.frame hmem₃ hsame.leftmost).append item hnotin (by rw [hnew₃]; decide)
  have hnewlv : s.allocated ∈ lv₃ 0 := by
    rw [hlv₃]
    exact List.mem_append_right _ List.mem_cons_self
  refine ⟨t, s.allocated, ?_, hright₃.symm, ⟨⟨lv₃, key₃, ?_, ?_, fun _ p hp => ?_⟩, ?_⟩, ?_⟩
  · unfold linkLeaf
    rw [if_pos hfull]
    dsimp only
    rw [show setRightmost (setNode (newNode s leafNode) old
      { (newNode s leafNode).mem old with next := s.allocated }) 0 s.allocated = s₂ from hs₂, hrun]
  · exact hup₃.setLeaf hnewlv ((hup₃.level 0 hup₃.pos).level _ hnewlv)
  · rw [hlv₃]
    exact hleaves₃
  · rw [hlv₃] at hp
    rcases List.mem_append.mp hp with hp' | hp'
    · obtain ⟨it, rest, hits, hkey⟩ := hlow p hp'
      have hplt := (hlev.alloc p hp').2
      refine ⟨it, rest, ?_, ?_⟩
      · show (Function.update t.mem s.allocated _ p).items = _
        rw [Function.update_of_ne (Nat.ne_of_lt hplt), hmem₃ p hp, hitems₂ p hp', hits]
      · rw [hkey₃ p (by omega), hkeys₂ p hplt, hkey]
    · rw [List.mem_singleton.mp hp']
      refine ⟨item, [], ?_, ?_⟩
      · show (Function.update t.mem s.allocated { t.mem s.allocated with
          items := (t.mem s.allocated).items ++ [item] } s.allocated).items = _
        rw [Function.update_self, hnew₃]
        rfl
      · rw [hkey₃ _ (by omega), Function.update_self]
  · exact fun he => absurd he (List.append_ne_nil_of_right_ne_nil _ (List.cons_ne_nil _ _))
  · exact SameRest.trans ⟨by rw [← hs₂]; rfl, by rw [← hs₂]; rfl, by rw [← hs₂]; rfl, by rw [← hs₂]; rfl⟩ hsame.rest

/-- **The next item** is put at the right end of the tree, whatever leaf has to be made for it. -/
theorem append_spec (h : Built s items) (hsmall : items.length ≤ 2 ^ 64) (item : leaf_item) :
    ∃ t leaf, linkLeaf s (s.rightmost_nodes 0) item.first = .ok (t, leaf) ∧ leaf = t.rightmost_nodes 0 ∧
      Built (appendItem t leaf item) (items ++ [item]) ∧ SameRest s t := by
  by_cases hfull : MAX_LEAF_ITEMS ≤ (s.mem (s.rightmost_nodes 0)).items.length
  · exact linkLeaf_full h hsmall item hfull
  · refine ⟨s, s.rightmost_nodes 0, ?_, rfl, h.append_room item (by omega), rfl, rfl, rfl, rfl⟩
    unfold linkLeaf
    rw [if_neg hfull]

/-! ## 4. What does not touch the tree -/

/-- Two sets with the same tree. -/
structure SameTree (s t : IntegerSet) : Prop where
  mem : t.mem = s.mem
  alloc : t.allocated = s.allocated
  levels : t.num_levels = s.num_levels
  root : t.root = s.root
  right : t.rightmost_nodes = s.rightmost_nodes
  leftmost : t.leftmost_leaf = s.leftmost_leaf

theorem Upper.congr (h : Upper s lv key pend) (e : SameTree s t) : Upper t lv key pend where
  pos := by rw [e.levels]; exact h.pos
  level := fun l hl => by
    rw [e.levels] at hl
    exact (h.level l hl).frame (fun p _ => congrFun e.mem p) (congrFun e.right l) (Nat.le_of_eq e.alloc.symm)
  inner := fun l hl => by
    rw [e.levels] at hl
    exact (h.inner l hl).frame (h.level (l + 1) hl) (fun p _ => congrFun e.mem p) (Nat.le_of_eq e.alloc.symm)
      fun _ _ => rfl
  root := by rw [e.levels, e.root]; exact h.root
  linked := fun l hl => by
    rw [e.levels] at hl
    rw [e.mem]
    exact h.linked l hl

theorem Built.congr (h : Built s items) (e : SameTree s t) : Built t items := by
  obtain ⟨⟨lv, key, hup, hleaves, hlow⟩, hblank⟩ := h
  refine ⟨⟨lv, key, hup.congr e, hleaves.frame (fun p _ => congrFun e.mem p) e.leftmost, fun hne p hp => ?_⟩, ?_⟩
  · rw [e.mem]
    exact hlow hne p hp
  · rw [e.levels]
    exact hblank

end Pgvec.Intset
