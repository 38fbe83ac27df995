/-
  File:      Pgvec/Common/IntegerSetTree.lean
  Subject:   THE TREE OF AN INTEGER SET: what its levels hold, and that a downlink inserted along the right
             edge keeps it.

  * `Upper` -- the levels of the tree, each the downlinks of the one above; a node made but not yet linked
    is pending at its level. `key` is the low key of a node;
  * `Upper.expand`, `Upper.place`, `Upper.split` -- the three things `intset_update_upper` does to a level;
  * `Upper.length_ge` -- all nodes but the last of a level are full, so a tree of many levels is large;
  * **`update_upper_spec`**.
-/
import Pgvec.Common.IntegerSet

namespace Pgvec.Intset

/-! ## 1. Levels -/

/-- The nodes of level `l`, from left to right. -/
structure Level (s : IntegerSet) (l : Nat) (ps : List Nat) : Prop where
  alloc : ∀ p ∈ ps, 0 < p ∧ p < s.allocated
  level : ∀ p ∈ ps, (s.mem p).level = l
  nodup : ps.Nodup
  last : ∃ init, ps = init ++ [s.rightmost_nodes l]

/-- An internal node: the low keys of its children, the first of them its own. -/
structure NodeOk (s : IntegerSet) (key : Nat → Nat) (p : Nat) : Prop where
  values : (s.mem p).values = (s.mem p).downlinks.map key
  alloc : ∀ q ∈ (s.mem p).downlinks, q < s.allocated
  low : key p = (s.mem p).values.getD 0 0
  some : 0 < (s.mem p).values.length
  room : (s.mem p).values.length ≤ MAX_INTERNAL_ITEMS

theorem NodeOk.length {s : IntegerSet} {key : Nat → Nat} {p : Nat} (h : NodeOk s key p) :
    (s.mem p).downlinks.length = (s.mem p).values.length := by
  rw [h.values, List.length_map]

/-- A level of internal nodes; all but the last are full. -/
structure Inner (s : IntegerSet) (key : Nat → Nat) (ps : List Nat) : Prop where
  node : ∀ p ∈ ps, NodeOk s key p
  full : ∀ p ∈ ps.dropLast, (s.mem p).values.length = MAX_INTERNAL_ITEMS

/-- **The levels of the tree**; the nodes of `pend` have no downlink yet. -/
structure Upper (s : IntegerSet) (lv : Nat → List Nat) (key : Nat → Nat) (pend : Nat → List Nat) : Prop where
  pos : 0 < s.num_levels
  level : ∀ l, l < s.num_levels → Level s l (lv l)
  inner : ∀ l, l + 1 < s.num_levels → Inner s key (lv (l + 1))
  root : lv (s.num_levels - 1) = s.root :: pend (s.num_levels - 1)
  linked : ∀ l, l + 1 < s.num_levels → (lv (l + 1)).flatMap (fun p => (s.mem p).downlinks) ++ pend l = lv l

/-- One pending node. -/
def pendAt (l child : Nat) : Nat → List Nat := Function.update (fun _ => []) l [child]

/-- Nothing pending. -/
def settled : Nat → List Nat := fun _ => []

@[simp] theorem pendAt_self (l child : Nat) : pendAt l child l = [child] := Function.update_self ..

theorem pendAt_of_ne {l k : Nat} (h : k ≠ l) (child : Nat) : pendAt l child k = [] := Function.update_of_ne h ..

variable {s t : IntegerSet} {lv : Nat → List Nat} {key key' : Nat → Nat} {pend : Nat → List Nat}
  {l child : Nat} {ps : List Nat}

theorem Level.frame (h : Level s l ps) (hmem : ∀ p ∈ ps, t.mem p = s.mem p)
    (hright : t.rightmost_nodes l = s.rightmost_nodes l) (halloc : s.allocated ≤ t.allocated) : Level t l ps where
  alloc := fun p hp => ⟨(h.alloc p hp).1, Nat.lt_of_lt_of_le (h.alloc p hp).2 halloc⟩
  level := fun p hp => by rw [hmem p hp]; exact h.level p hp
  nodup := h.nodup
  last := by rw [hright]; exact h.last

theorem NodeOk.frame {p : Nat} (h : NodeOk s key p) (hmem : t.mem p = s.mem p) (halloc : s.allocated ≤ t.allocated)
    (hp : p < s.allocated) (hkey : ∀ q, q < s.allocated → key' q = key q) : NodeOk t key' p where
  values := by
    rw [hmem, h.values]
    exact List.map_congr_left fun q hq => (hkey q (h.alloc q hq)).symm
  alloc := fun q hq => by
    rw [hmem] at hq
    exact Nat.lt_of_lt_of_le (h.alloc q hq) halloc
  low := by rw [hkey p hp, hmem, h.low]
  some := by rw [hmem]; exact h.some
  room := by rw [hmem]; exact h.room

theorem Inner.frame (h : Inner s key ps) (hlev : Level s l ps) (hmem : ∀ p ∈ ps, t.mem p = s.mem p)
    (halloc : s.allocated ≤ t.allocated) (hkey : ∀ q, q < s.allocated → key' q = key q) : Inner t key' ps where
  node := fun p hp => (h.node p hp).frame (hmem p hp) halloc (hlev.alloc p hp).2 hkey
  full := fun p hp => by
    rw [hmem p (List.mem_of_mem_dropLast hp)]
    exact h.full p hp

/-- A node with one downlink. -/
theorem NodeOk.single {p q k : Nat} (hnew : t.mem p = internalNode (l + 1) [k] [q]) (hq : q < t.allocated)
    (hkq : key q = k) (hkp : key p = k) : NodeOk t key p where
  values := by
    rw [hnew]
    show [k] = [key q]
    rw [hkq]
  alloc := fun r hr => by
    rw [hnew] at hr
    rw [List.mem_singleton.mp hr]
    exact hq
  low := by
    rw [hnew, hkp]
    rfl
  some := by
    rw [hnew]
    exact Nat.succ_pos 0
  room := by
    rw [hnew]
    exact (by decide : 1 ≤ MAX_INTERNAL_ITEMS)

theorem Level.last_mem (h : Level s l ps) : s.rightmost_nodes l ∈ ps := by
  obtain ⟨init, hps⟩ := h.last
  rw [hps]
  exact List.mem_append_right _ List.mem_cons_self

/-- One more node at the right end. -/
theorem Level.snoc (h : Level s l ps) (hpos : 0 < s.allocated) (hmem : ∀ p, p < s.allocated → t.mem p = s.mem p)
    (hnew : (t.mem s.allocated).level = l) (hright : t.rightmost_nodes l = s.allocated)
    (halloc : t.allocated = s.allocated + 1) : Level t l (ps ++ [s.allocated]) := by
  refine ⟨fun p hp => ?_, fun p hp => ?_, ?_, ps, by rw [hright]⟩
  · rcases List.mem_append.mp hp with hp | hp
    · have := h.alloc p hp
      omega
    · rw [List.mem_singleton.mp hp]
      omega
  · rcases List.mem_append.mp hp with hp | hp
    · rw [hmem p (h.alloc p hp).2]
      exact h.level p hp
    · rw [List.mem_singleton.mp hp, hnew]
  · refine List.nodup_append.mpr ⟨h.nodup, List.nodup_singleton _, fun p hp q hq he => ?_⟩
    have := (h.alloc p hp).2
    rw [he, List.mem_singleton.mp hq] at this
    exact absurd this (Nat.lt_irrefl _)

/-- The nodes of the tree are in allocated cells. -/
theorem Upper.lt_allocated (h : Upper s lv key pend) {p : Nat} (hl : l < s.num_levels) (hp : p ∈ lv l) :
    p < s.allocated := ((h.level l hl).alloc p hp).2

theorem Upper.root_mem (h : Upper s lv key pend) : s.root ∈ lv (s.num_levels - 1) := by
  rw [h.root]
  exact List.mem_cons_self

/-- A pending node is on its level. -/
theorem Upper.child_mem (h : Upper s lv key (pendAt l child)) (hl : l < s.num_levels) : child ∈ lv l := by
  rcases Nat.lt_or_ge (l + 1) s.num_levels with hlt | hge
  · rw [← h.linked l hlt, pendAt_self]
    exact List.mem_append_right _ List.mem_cons_self
  · have hroot := h.root
    rw [show s.num_levels - 1 = l by omega, pendAt_self] at hroot
    rw [hroot]
    exact List.mem_cons_of_mem _ List.mem_cons_self

/-! ## 2. A new root -/

/-- **A new root** over the old one. -/
theorem Upper.expand (h : Upper s lv key (pendAt l child)) (hlevels : s.num_levels = l + 1)
    (hkey : key s.root = firstValue (s.mem s.root)) :
    Upper (setRightmost
        { newNode s (internalNode (l + 1) [firstValue (s.mem s.root)] [s.root]) with
          num_levels := s.num_levels + 1
          root := s.allocated } (l + 1) s.allocated)
      (Function.update lv (l + 1) [s.allocated])
      (Function.update key s.allocated (firstValue (s.mem s.root))) (pendAt l child) := by
  have hroot : s.root < s.allocated := h.lt_allocated (by omega) h.root_mem
  have hpos : 0 < s.allocated := by omega
  have hmem : ∀ p, p < s.allocated → Function.update s.mem s.allocated
      (internalNode (l + 1) [firstValue (s.mem s.root)] [s.root]) p = s.mem p :=
    fun p hp => Function.update_of_ne (Nat.ne_of_lt hp) _ _
  have hkeys : ∀ q, q < s.allocated → Function.update key s.allocated (firstValue (s.mem s.root)) q = key q :=
    fun q hq => Function.update_of_ne (Nat.ne_of_lt hq) _ _
  have hold : ∀ k, k < l + 1 → Function.update lv (l + 1) [s.allocated] k = lv k :=
    fun k hk => Function.update_of_ne (Nat.ne_of_lt hk) _ _
  constructor
  · exact Nat.succ_pos _
  · intro k hk
    rcases Nat.lt_succ_iff_lt_or_eq.mp (show k < l + 1 + 1 by rwa [← hlevels]) with hk' | rfl
    · rw [hold k hk']
      exact (h.level k (by omega)).frame (fun p hp => hmem p (h.lt_allocated (by omega) hp))
        (Function.update_of_ne (Nat.ne_of_lt hk') _ _) (Nat.le_succ _)
    · rw [Function.update_self]
      refine ⟨fun p hp => ?_, fun p hp => ?_, List.nodup_singleton _, [], ?_⟩
      · rw [List.mem_singleton.mp hp]
        exact ⟨hpos, Nat.lt_succ_self _⟩
      · rw [List.mem_singleton.mp hp]
        show (Function.update s.mem s.allocated _ s.allocated).level = _
        rw [Function.update_self]
        rfl
      · show [s.allocated] = [] ++ [Function.update s.rightmost_nodes (l + 1) s.allocated (l + 1)]
        rw [Function.update_self]
        rfl
  · intro k hk
    rcases Nat.lt_succ_iff_lt_or_eq.mp (show k + 1 < l + 1 + 1 by rwa [← hlevels]) with hk' | hk'
    · rw [hold _ hk']
      exact (h.inner k (by omega)).frame (h.level (k + 1) (by omega))
        (fun p hp => hmem p (h.lt_allocated (by omega) hp)) (Nat.le_succ _) hkeys
    · rw [hk', Function.update_self]
      refine ⟨fun p hp => ?_, fun p hp => absurd hp List.not_mem_nil⟩
      rw [List.mem_singleton.mp hp]
      refine NodeOk.single (Function.update_self ..) (Nat.lt_succ_of_lt hroot) ?_ (Function.update_self ..)
      rw [hkeys _ hroot, hkey]
  · show Function.update lv (l + 1) [s.allocated] (s.num_levels + 1 - 1) = s.allocated :: pendAt l child (s.num_levels + 1 - 1)
    rw [Nat.add_sub_cancel, hlevels, Function.update_self, pendAt_of_ne (Nat.succ_ne_self l)]
  · intro k hk
    rcases Nat.lt_succ_iff_lt_or_eq.mp (show k + 1 < l + 1 + 1 by rwa [← hlevels]) with hk' | hk'
    · rw [hold _ hk', hold _ (by omega), ← h.linked k (by omega)]
      congr 1
      exact List.flatMap_congr fun p hp => congrArg _ (hmem p (h.lt_allocated (by omega) hp))
    · obtain rfl : k = l := Nat.succ.inj hk'
      rw [Function.update_self, hold _ (Nat.lt_succ_self k)]
      have hroots := h.root
      rw [show s.num_levels - 1 = k by omega] at hroots
      rw [hroots, List.flatMap_singleton]
      show (Function.update s.mem s.allocated _ s.allocated).downlinks ++ _ = _
      rw [Function.update_self]
      rfl

/-! ## 3. One more downlink -/

/-- The rightmost node of a level, and that no other node of the tree shares its cell. -/
theorem Upper.ne_rightmost (h : Upper s lv key pend) {k p : Nat} (hl : l < s.num_levels) (hk : k < s.num_levels)
    (hp : p ∈ lv k) (hne : k ≠ l) : p ≠ s.rightmost_nodes l := by
  intro he
  have hlev := (h.level l hl).level _ (h.level l hl).last_mem
  rw [← he, (h.level k hk).level p hp] at hlev
  exact hne hlev

/-- **The parent has room** for the downlink. -/
theorem Upper.place (h : Upper s lv key (pendAt l child)) (hl : l + 1 < s.num_levels)
    (hroom : (s.mem (s.rightmost_nodes (l + 1))).values.length < MAX_INTERNAL_ITEMS) :
    Upper (setNode s (s.rightmost_nodes (l + 1))
      { s.mem (s.rightmost_nodes (l + 1)) with
        values := (s.mem (s.rightmost_nodes (l + 1))).values ++ [key child]
        downlinks := (s.mem (s.rightmost_nodes (l + 1))).downlinks ++ [child] }) lv key settled := by
  have hlast := (h.level (l + 1) hl).last
  have hmemb := (h.level (l + 1) hl).last_mem
  have hchild := h.lt_allocated (by omega) (h.child_mem (by omega))
  have hother : ∀ k, k < s.num_levels → ∀ p ∈ lv k, k ≠ l + 1 → p ≠ s.rightmost_nodes (l + 1) :=
    fun k hk p hp hne => h.ne_rightmost hl hk hp hne
  generalize s.rightmost_nodes (l + 1) = parent at hroom hlast hmemb hother ⊢
  obtain ⟨init, hinit⟩ := hlast
  have hnodup := (h.level (l + 1) hl).nodup
  have hnotin : ∀ p ∈ init, p ≠ parent := fun p hp he => by
    rw [hinit, List.nodup_append] at hnodup
    exact hnodup.2.2 p hp parent List.mem_cons_self he
  generalize hn : ({ s.mem parent with
    values := (s.mem parent).values ++ [key child]
    downlinks := (s.mem parent).downlinks ++ [child] } : intset_node) = n
  have hmem : ∀ p, p ≠ parent → (setNode s parent n).mem p = s.mem p := fun p hp => Function.update_of_ne hp ..
  have hself : (setNode s parent n).mem parent = n := Function.update_self ..
  have hok := (h.inner l hl).node parent hmemb
  constructor
  · exact h.pos
  · intro k hk
    have hlev := h.level k hk
    refine ⟨hlev.alloc, fun p hp => ?_, hlev.nodup, hlev.last⟩
    by_cases hpp : p = parent
    · rw [hpp, hself, ← hn]
      rw [hpp] at hp
      exact hlev.level parent hp
    · rw [hmem p hpp]
      exact hlev.level p hp
  · intro k hk
    have hin := h.inner k hk
    have hlev := h.level (k + 1) hk
    by_cases hkl : k = l
    · subst hkl
      refine ⟨fun p hp => ?_, fun p hp => ?_⟩
      · by_cases hpp : p = parent
        · rw [hpp]
          constructor
          · rw [hself, ← hn]
            show _ ++ [key child] = _
            rw [hok.values, List.map_append]
            rfl
          · rw [hself, ← hn]
            intro q hq
            rcases List.mem_append.mp hq with hq | hq
            · exact hok.alloc q hq
            · rw [List.mem_singleton.mp hq]
              exact hchild
          · rw [hself, ← hn, hok.low]
            exact (List.getD_append _ _ _ _ hok.some).symm
          · rw [hself, ← hn]
            simp
          · rw [hself, ← hn]
            simpa using hroom
        · exact (hin.node p hp).frame (hmem p hpp) (Nat.le_refl _) (hlev.alloc p hp).2 fun _ _ => rfl
      · have hp' : p ∈ init := by
          rwa [hinit, List.dropLast_concat] at hp
        rw [hmem p (hnotin p hp')]
        exact hin.full p hp
    · have hkl' : k + 1 ≠ l + 1 := fun he => hkl (Nat.succ.inj he)
      exact hin.frame hlev (fun p hp => hmem p (hother _ hk p hp hkl')) (Nat.le_refl _) fun _ _ => rfl
  · show lv (s.num_levels - 1) = s.root :: []
    rw [h.root, pendAt_of_ne (by omega)]
  · intro k hk
    have hlink := h.linked k hk
    show (lv (k + 1)).flatMap _ ++ [] = lv k
    rw [List.append_nil]
    by_cases hkl : k = l
    · subst hkl
      rw [pendAt_self, hinit, List.flatMap_append, List.flatMap_singleton, List.append_assoc] at hlink
      have hdown : n.downlinks = (s.mem parent).downlinks ++ [child] := by rw [← hn]
      rw [hinit, List.flatMap_append, List.flatMap_singleton, hself, hdown, ← hlink]
      congr 1
      exact List.flatMap_congr fun p hp => congrArg _ (hmem p (hnotin p hp))
    · rw [pendAt_of_ne hkl, List.append_nil] at hlink
      rw [← hlink]
      have hkl' : k + 1 ≠ l + 1 := fun he => hkl (Nat.succ.inj he)
      exact List.flatMap_congr fun p hp => congrArg _ (hmem p (hother _ hk p hp hkl'))

/-- **The parent is full**: a new one with the downlink, and that one is pending. -/
theorem Upper.split (h : Upper s lv key (pendAt l child)) (hl : l + 1 < s.num_levels)
    (hfull : ¬ (s.mem (s.rightmost_nodes (l + 1))).values.length < MAX_INTERNAL_ITEMS) :
    Upper (setRightmost (newNode s (internalNode (l + 1) [key child] [child])) (l + 1) s.allocated)
      (Function.update lv (l + 1) (lv (l + 1) ++ [s.allocated]))
      (Function.update key s.allocated (key child)) (pendAt (l + 1) s.allocated) := by
  have hchild := h.lt_allocated (by omega) (h.child_mem (by omega))
  have hpos : 0 < s.allocated := by omega
  generalize ht : setRightmost (newNode s (internalNode (l + 1) [key child] [child])) (l + 1) s.allocated = t
  have hmem : ∀ p, p < s.allocated → t.mem p = s.mem p := fun p hp => by
    rw [← ht]
    exact Function.update_of_ne (Nat.ne_of_lt hp) _ _
  have hnew : t.mem s.allocated = internalNode (l + 1) [key child] [child] := by
    rw [← ht]
    exact Function.update_self ..
  have hlevels : t.num_levels = s.num_levels := by rw [← ht]; rfl
  have halloc : t.allocated = s.allocated + 1 := by rw [← ht]; rfl
  have hroot : t.root = s.root := by rw [← ht]; rfl
  have hright : ∀ k, k ≠ l + 1 → t.rightmost_nodes k = s.rightmost_nodes k := fun k hk => by
    rw [← ht]
    exact Function.update_of_ne hk _ _
  have hrightl : t.rightmost_nodes (l + 1) = s.allocated := by
    rw [← ht]
    exact Function.update_self ..
  have hkeys : ∀ q, q < s.allocated → Function.update key s.allocated (key child) q = key q :=
    fun q hq => Function.update_of_ne (Nat.ne_of_lt hq) _ _
  have hold : ∀ k, k ≠ l + 1 → Function.update lv (l + 1) (lv (l + 1) ++ [s.allocated]) k = lv k :=
    fun k hk => Function.update_of_ne hk _ _
  have hlev := h.level (l + 1) hl
  have hin := h.inner l hl
  constructor
  · rw [hlevels]
    exact h.pos
  · intro k hk
    rw [hlevels] at hk
    by_cases hkl : k = l + 1
    · rw [hkl, Function.update_self]
      exact hlev.snoc hpos hmem (by rw [hnew]; rfl) hrightl halloc
    · rw [hold k hkl]
      exact (h.level k hk).frame (fun p hp => hmem p (h.lt_allocated hk hp)) (hright k hkl) (by omega)
  · intro k hk
    rw [hlevels] at hk
    by_cases hkl : k = l
    · subst hkl
      rw [Function.update_self]
      refine ⟨fun p hp => ?_, fun p hp => ?_⟩
      · rcases List.mem_append.mp hp with hp | hp
        · have hlt := (hlev.alloc p hp).2
          exact (hin.node p hp).frame (hmem p hlt) (by omega) hlt hkeys
        · rw [List.mem_singleton.mp hp]
          exact NodeOk.single hnew (by omega) (hkeys child hchild) (Function.update_self ..)
      · rw [List.dropLast_concat] at hp
        rw [hmem p (hlev.alloc p hp).2]
        obtain ⟨init, hinit⟩ := hlev.last
        have hfullp := hin.full
        rw [hinit, List.dropLast_concat] at hfullp
        rw [hinit] at hp
        rcases List.mem_append.mp hp with hp | hp
        · exact hfullp p hp
        · rw [List.mem_singleton.mp hp]
          have := (hin.node _ hlev.last_mem).room
          omega
    · have hkl' : k + 1 ≠ l + 1 := fun he => hkl (Nat.succ.inj he)
      rw [hold _ hkl']
      exact (h.inner k hk).frame (h.level (k + 1) hk) (fun p hp => hmem p (h.lt_allocated hk hp)) (by omega) hkeys
  · rw [hlevels, hroot]
    have hroots := h.root
    rw [pendAt_of_ne (show s.num_levels - 1 ≠ l by omega)] at hroots
    by_cases htop : s.num_levels - 1 = l + 1
    · rw [htop] at hroots ⊢
      rw [Function.update_self, pendAt_self, hroots]
      rfl
    · rw [hold _ htop, pendAt_of_ne htop, hroots]
  · intro k hk
    rw [hlevels] at hk
    have hlink := h.linked k hk
    have hsame : ∀ ps : List Nat, (∀ p ∈ ps, p < s.allocated) →
        ps.flatMap (fun p => (t.mem p).downlinks) = ps.flatMap fun p => (s.mem p).downlinks :=
      fun ps hps => List.flatMap_congr fun p hp => congrArg _ (hmem p (hps p hp))
    have hlt : ∀ p ∈ lv (k + 1), p < s.allocated := fun p hp => h.lt_allocated hk hp
    rcases Nat.lt_trichotomy k l with hkl | rfl | hkl
    · rw [hold _ (by omega), hold _ (by omega), hsame _ hlt, pendAt_of_ne (by omega), ← hlink,
        pendAt_of_ne (by omega)]
    · rw [Function.update_self, hold _ (by omega), List.flatMap_append, List.flatMap_singleton, hnew, hsame _ hlt,
        pendAt_of_ne (by omega), List.append_nil, ← hlink, pendAt_self]
      rfl
    · rw [pendAt_of_ne (by omega), List.append_nil] at hlink
      rw [hold _ (by omega), hsame _ hlt, hlink]
      by_cases hk1 : k = l + 1
      · rw [hk1, pendAt_self, Function.update_self]
      · rw [hold _ hk1, pendAt_of_ne hk1, List.append_nil]

/-! ## 4. How large a tree of many levels is -/

/-- Lists of one length, after one another. -/
theorem length_flatMap_full {α : Type} {f : Nat → List α} {n : Nat} : ∀ {l : List Nat}, (∀ p ∈ l, (f p).length = n) →
    (l.flatMap f).length = n * l.length
  | [], _ => by simp
  | q :: qs, h => by
      rw [List.flatMap_cons, List.length_append, h q List.mem_cons_self,
        length_flatMap_full fun p hp => h p (List.mem_cons_of_mem q hp), List.length_cons, Nat.mul_succ, Nat.add_comm]

/-- Below a level of full nodes but for the last. -/
theorem Upper.length_step (h : Upper s lv key pend) {k : Nat} (hk : k + 1 < s.num_levels) :
    MAX_INTERNAL_ITEMS * ((lv (k + 1)).length - 1) < (lv k).length := by
  have hlink := h.linked k hk
  have hin := h.inner k hk
  have hlev := h.level (k + 1) hk
  obtain ⟨init, hinit⟩ := hlev.last
  have hfull := hin.full
  have hlast := hin.node _ hlev.last_mem
  rw [hinit, List.dropLast_concat] at hfull
  have hlen := length_flatMap_full (f := fun p => (s.mem p).downlinks) (n := MAX_INTERNAL_ITEMS) (l := init)
    fun p hp => by
      have hok := hin.node p (by rw [hinit]; exact List.mem_append_left _ hp)
      rw [hok.length, hfull p hp]
  have hone : 0 < (s.mem (s.rightmost_nodes (k + 1))).downlinks.length := hlast.length ▸ hlast.some
  have hcount := congrArg List.length hlink
  rw [hinit, List.flatMap_append, List.flatMap_singleton, List.length_append, List.length_append, hlen] at hcount
  have hsize : (lv (k + 1)).length = init.length + 1 := by
    rw [hinit, List.length_append]
    rfl
  rw [hsize, Nat.add_sub_cancel]
  omega

/-- **A level far up** stands for many leaves. -/
theorem Upper.length_ge (h : Upper s lv key pend) : ∀ (d k : Nat), k + d < s.num_levels →
    MAX_INTERNAL_ITEMS ^ d * ((lv (k + d)).length - 1) ≤ (lv k).length - 1
  | 0, k, _ => by
      rw [pow_zero, one_mul]
      exact Nat.le_refl _
  | d + 1, k, hk => by
      have hstep := h.length_step (k := k) (by omega)
      have ih := h.length_ge d (k + 1) (by omega)
      calc MAX_INTERNAL_ITEMS ^ (d + 1) * ((lv (k + (d + 1))).length - 1)
          = MAX_INTERNAL_ITEMS * (MAX_INTERNAL_ITEMS ^ d * ((lv (k + 1 + d)).length - 1)) := by
            rw [show k + (d + 1) = k + 1 + d by omega, Nat.pow_succ]
            ring
        _ ≤ MAX_INTERNAL_ITEMS * ((lv (k + 1)).length - 1) := Nat.mul_le_mul_left _ ih
        _ ≤ (lv k).length - 1 := by omega

/-! ## 5. `intset_update_upper` -/

/-- What the work on the internal nodes leaves alone. -/
structure SameLeaves (s t : IntegerSet) : Prop where
  mem : ∀ p, p < s.allocated → (s.mem p).level = 0 → t.mem p = s.mem p
  alloc : s.allocated ≤ t.allocated
  right : t.rightmost_nodes 0 = s.rightmost_nodes 0
  leftmost : t.leftmost_leaf = s.leftmost_leaf
  buffered : t.buffered_values = s.buffered_values
  entries : t.num_entries = s.num_entries
  highest : t.highest_value = s.highest_value
  active : t.iter_active = s.iter_active

theorem SameLeaves.trans {u : IntegerSet} (h : SameLeaves s t) (h' : SameLeaves t u) : SameLeaves s u where
  mem := fun p hp hl => by
    have hst := h.mem p hp hl
    rw [h'.mem p (Nat.lt_of_lt_of_le hp h.alloc) (by rw [hst]; exact hl), hst]
  alloc := Nat.le_trans h.alloc h'.alloc
  right := h'.right.trans h.right
  leftmost := h'.leftmost.trans h.leftmost
  buffered := h'.buffered.trans h.buffered
  entries := h'.entries.trans h.entries
  highest := h'.highest.trans h.highest
  active := h'.active.trans h.active

/-- **The root is expanded** when the child is on its level, and never for want of levels. -/
theorem expandRoot_spec (h : Upper s lv key (pendAt l child)) (hl : l < s.num_levels)
    (hroot : s.num_levels = 1 → key s.root = firstValue (s.mem s.root)) (hsmall : (lv 0).length ≤ 2 ^ 60) :
    ∃ t lv' key', expandRoot s (l + 1) = .ok t ∧ Upper t lv' key' (pendAt l child) ∧ l + 1 < t.num_levels ∧
      lv' 0 = lv 0 ∧ (∀ q, q < s.allocated → key' q = key q) ∧ SameLeaves s t := by
  unfold expandRoot
  by_cases hexp : s.num_levels ≤ l + 1
  · have hlevels : s.num_levels = l + 1 := by omega
    have hmax : s.num_levels ≠ MAX_TREE_LEVELS := by
      intro hmax
      have htop := h.root
      rw [hlevels, Nat.add_sub_cancel, pendAt_self] at htop
      have hten : l = 10 := by
        rw [hlevels] at hmax
        exact Nat.succ.inj hmax
      have hge := h.length_ge 10 0 (by omega)
      rw [Nat.zero_add, ← hten, htop, hten] at hge
      have hpow : MAX_INTERNAL_ITEMS ^ 10 = 2 ^ 60 := by decide
      rw [hpow] at hge
      simp only [List.length_cons, List.length_nil] at hge
      omega
    have hkey : key s.root = firstValue (s.mem s.root) := by
      rcases Nat.eq_zero_or_pos l with rfl | hlpos
      · exact hroot hlevels
      · obtain ⟨k, rfl⟩ := Nat.exists_eq_add_one.mpr hlpos
        have hmem := h.root_mem
        rw [show s.num_levels - 1 = k + 1 by omega] at hmem
        have hlev := (h.level (k + 1) hl).level _ hmem
        unfold firstValue
        rw [if_neg (by omega)]
        exact ((h.inner k hl).node _ hmem).low
    rw [if_pos hexp, if_neg hmax]
    refine ⟨_, _, _, rfl, h.expand hlevels hkey, ?_, ?_, fun q hq => ?_, ?_⟩
    · show l + 1 < s.num_levels + 1
      omega
    · exact Function.update_of_ne (Nat.succ_ne_zero l).symm _ _
    · exact Function.update_of_ne (Nat.ne_of_lt hq) _ _
    · exact ⟨fun p hp _ => Function.update_of_ne (Nat.ne_of_lt hp) _ _, Nat.le_succ _,
        Function.update_of_ne (Nat.succ_ne_zero l).symm s.allocated s.rightmost_nodes, rfl, rfl, rfl, rfl, rfl⟩
  · rw [if_neg hexp]
    exact ⟨s, lv, key, rfl, h, by omega, rfl, fun _ _ => rfl,
      fun _ _ _ => rfl, Nat.le_refl _, rfl, rfl, rfl, rfl, rfl, rfl⟩

/-- **`intset_update_upper`** links the pending child, with its ancestors as they are needed; by the levels
    that are left above. -/
theorem update_upper_spec : ∀ (n : Nat) {s : IntegerSet} {lv : Nat → List Nat} {key : Nat → Nat} {l child : Nat},
    s.num_levels - l ≤ n → Upper s lv key (pendAt l child) → l < s.num_levels →
    (s.num_levels = 1 → key s.root = firstValue (s.mem s.root)) → (lv 0).length ≤ 2 ^ 60 →
    ∃ t lv' key', intset_update_upper s (l + 1) child (key child) = .ok t ∧ Upper t lv' key' settled ∧
      lv' 0 = lv 0 ∧ (∀ q, q < s.allocated → key' q = key q) ∧ SameLeaves s t
  | 0, s, _, _, l, _, hn, _, hl, _, _ => by omega
  | n + 1, s, lv, key, l, child, hn, h, hl, hroot, hsmall => by
      obtain ⟨t, lv', key', hexp, ht, hlt, hlv, hkey, hsame⟩ := expandRoot_spec h hl hroot hsmall
      have hchild := h.lt_allocated hl (h.child_mem hl)
      rw [← hkey child hchild, intset_update_upper, hexp]
      dsimp only
      by_cases hroom : (t.mem (t.rightmost_nodes (l + 1))).values.length < MAX_INTERNAL_ITEMS
      · rw [if_pos hroom]
        refine ⟨_, lv', key', rfl, ht.place hlt hroom, hlv, hkey, hsame.trans ?_⟩
        refine ⟨fun p _ hp => ?_, Nat.le_refl _, rfl, rfl, rfl, rfl, rfl, rfl⟩
        refine Function.update_of_ne (fun he => ?_) _ _
        have hlev := (ht.level (l + 1) hlt).level _ (ht.level (l + 1) hlt).last_mem
        rw [← he, hp] at hlev
        exact Nat.succ_ne_zero l hlev.symm
      · -- only the level that was there before can be full
        obtain rfl : t = s := by
          rcases expandRoot_ok hexp with ⟨-, hts⟩ | hone
          · exact hts
          · exact absurd (hone.trans_lt (by decide)) hroom
        have hsplit := ht.split hlt hroom
        have hlv0 : Function.update lv' (l + 1) (lv' (l + 1) ++ [t.allocated]) 0 = lv' 0 :=
          Function.update_of_ne (Nat.succ_ne_zero l).symm _ _
        obtain ⟨u, lv₂, key₂, hrun, hu, hlv₂, hkey₂, hsame₂⟩ :=
          update_upper_spec n (by
            show t.num_levels - (l + 1) ≤ n
            omega) hsplit hlt (fun hone => by
            have : t.num_levels = 1 := hone
            omega) (by rw [hlv0, hlv]; exact hsmall)
        rw [Function.update_self] at hrun
        rw [if_neg hroom]
        refine ⟨u, lv₂, key₂, hrun, hu, ?_, fun q hq => ?_, ?_⟩
        · rw [hlv₂, hlv0, hlv]
        · rw [hkey₂ q (Nat.lt_succ_of_lt hq), Function.update_of_ne (Nat.ne_of_lt hq), hkey q hq]
        · refine SameLeaves.trans ?_ hsame₂
          exact ⟨fun p hp _ => Function.update_of_ne (Nat.ne_of_lt hp) _ _, Nat.le_succ _,
            Function.update_of_ne (Nat.succ_ne_zero l).symm t.allocated t.rightmost_nodes, rfl, rfl, rfl, rfl, rfl⟩

end Pgvec.Intset
