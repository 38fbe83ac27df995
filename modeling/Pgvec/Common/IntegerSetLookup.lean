/-
  File:      Pgvec/Common/IntegerSetLookup.lean
  Subject:   WHAT AN INTEGER SET HOLDS, AND HOW IT IS FOUND: the walk down the tree ends at the last item whose
             first value is not above the key.

  * `under` -- the items below a node; `Upper.cover` -- those of one level are all of them;
  * `descend_spec` -- the walk down, one level at a time by `Floor.floor_flatMap`;
  * `Holds` -- the set stands for an increasing list of words: the items of the tree, then the buffer;
  * **`is_member_spec`**.
-/
import Pgvec.Common.IntegerSetLeaves

namespace Pgvec.Intset

open Floor (floor floor_flatMap search_floor search_member mem_iff_floor)

variable {s t : IntegerSet} {lv : Nat → List Nat} {key : Nat → Nat} {items : List leaf_item} {l : Nat}

/-! ## 1. Below a node -/

/-- The items below a node of level `l`. -/
def under (s : IntegerSet) : Nat → Nat → List leaf_item
  | 0, p => (s.mem p).items
  | l + 1, p => (s.mem p).downlinks.flatMap (under s l)

/-- **Every level covers the items.** -/
theorem Upper.cover (h : Upper s lv key settled) (hleaves : Leaves s (lv 0) items) :
    ∀ {l : Nat}, l < s.num_levels → (lv l).flatMap (under s l) = items
  | 0, _ => hleaves.items
  | l + 1, hl => by
      have hlink := h.linked l hl
      rw [show settled l = [] from rfl, List.append_nil] at hlink
      calc (lv (l + 1)).flatMap (under s (l + 1))
          = ((lv (l + 1)).flatMap fun p => (s.mem p).downlinks).flatMap (under s l) := List.flatMap_assoc.symm
        _ = (lv l).flatMap (under s l) := by rw [hlink]
        _ = items := h.cover hleaves (Nat.lt_of_succ_lt hl)

/-- A child is on the level below. -/
theorem Upper.downlink_mem (h : Upper s lv key settled) (hl : l + 1 < s.num_levels) {p q : Nat} (hp : p ∈ lv (l + 1))
    (hq : q ∈ (s.mem p).downlinks) : q ∈ lv l := by
  have hlink := h.linked l hl
  rw [show settled l = [] from rfl, List.append_nil] at hlink
  rw [← hlink]
  exact List.mem_flatMap_of_mem hp hq

/-- **The low key** is the first value below the node. -/
theorem Upper.under_head (h : Upper s lv key settled) (hlow : Low s key (lv 0)) :
    ∀ {l p : Nat}, l < s.num_levels → p ∈ lv l → ∃ item rest, under s l p = item :: rest ∧ key p = item.first
  | 0, p, _, hp => hlow p hp
  | l + 1, p, hl, hp => by
      have hok := (h.inner l hl).node p hp
      have hsome : 0 < (s.mem p).downlinks.length := hok.length ▸ hok.some
      obtain ⟨c, cs, hcs⟩ := List.exists_cons_of_length_pos hsome
      have hc : c ∈ lv l := h.downlink_mem hl hp (by rw [hcs]; exact List.mem_cons_self)
      obtain ⟨item, rest, hitems, hkey⟩ := h.under_head hlow (Nat.lt_of_succ_lt hl) hc
      refine ⟨item, rest ++ cs.flatMap (under s l), ?_, ?_⟩
      · show (s.mem p).downlinks.flatMap (under s l) = _
        rw [hcs, List.flatMap_cons, hitems]
        rfl
      · rw [hok.low, hok.values, hcs]
        exact hkey

/-- Items in the order of their first values. -/
def Sorted (items : List leaf_item) : Prop := items.Pairwise fun a b => a.first < b.first

/-- What is below a node is in order. -/
theorem Upper.under_sorted (h : Upper s lv key settled) (hleaves : Leaves s (lv 0) items) (hs : Sorted items) {p : Nat}
    (hl : l < s.num_levels) (hp : p ∈ lv l) : Sorted (under s l p) := by
  unfold Sorted at hs
  rw [← h.cover hleaves hl, List.pairwise_flatMap] at hs
  exact hs.1 p hp

/-- The low key bounds what is below the node. -/
theorem Upper.under_low (h : Upper s lv key settled) (hleaves : Leaves s (lv 0) items) (hlow : Low s key (lv 0))
    (hs : Sorted items) {p : Nat} (hl : l < s.num_levels) (hp : p ∈ lv l) :
    (∃ a ∈ under s l p, a.first = key p) ∧ ∀ a ∈ under s l p, key p ≤ a.first := by
  have hsort := h.under_sorted hleaves hs hl hp
  obtain ⟨item, rest, hitems, hkey⟩ := h.under_head hlow hl hp
  rw [hitems] at hsort ⊢
  refine ⟨⟨item, List.mem_cons_self, hkey.symm⟩, fun a ha => ?_⟩
  rcases List.mem_cons.mp ha with rfl | ha
  · exact Nat.le_of_eq hkey
  · rw [hkey]
    exact Nat.le_of_lt ((List.pairwise_cons.mp hsort).1 a ha)

/-- The keys of an internal node are in order. -/
theorem Upper.downlinks_sorted (h : Upper s lv key settled) (hleaves : Leaves s (lv 0) items)
    (hlow : Low s key (lv 0)) (hs : Sorted items) {p : Nat} (hl : l + 1 < s.num_levels) (hp : p ∈ lv (l + 1)) :
    (s.mem p).downlinks.Pairwise fun a b => key a < key b := by
  have hsort := h.under_sorted hleaves hs hl hp
  unfold Sorted under at hsort
  rw [List.pairwise_flatMap] at hsort
  refine hsort.2.imp_of_mem fun {a b} ha hb hab => ?_
  obtain ⟨i, hi, hia⟩ := (h.under_low hleaves hlow hs (Nat.lt_of_succ_lt hl) (h.downlink_mem hl hp ha)).1
  obtain ⟨j, hj, hjb⟩ := (h.under_low hleaves hlow hs (Nat.lt_of_succ_lt hl) (h.downlink_mem hl hp hb)).1
  rw [← hia, ← hjb]
  exact hab i hi j hj

/-! ## 2. The walk down -/

/-- `nextkey` searches past equal keys: the position right behind the floor. -/
theorem binsrch_uint64_floor {α : Type} [Inhabited α] {f : α → Nat} {arr : List α}
    (hs : arr.Pairwise fun a b => f a < f b) (x : Nat) :
    floor f x arr =
      if intset_binsrch_uint64 x (arr.map f) (arr.map f).length true = 0 then none
      else some (arr.getD (intset_binsrch_uint64 x (arr.map f) (arr.map f).length true - 1) default) := by
  have hsame : intset_binsrch_uint64 x (arr.map f) (arr.map f).length true =
      Floor.search (fun mid => decide (f (arr.getD mid default) ≤ x)) 0 arr.length := by
    unfold intset_binsrch_uint64
    rw [List.length_map]
    refine Floor.search_congr 0 arr.length fun mid hmid => ?_
    rw [if_pos rfl, List.getD_eq_getElem _ _ (by rwa [List.length_map]), List.getElem_map,
      List.getD_eq_getElem _ _ hmid]
  rw [hsame]
  exact search_floor hs default

/-- Without `nextkey` it finds a member. -/
theorem binsrch_uint64_member {arr : List Nat} (hs : arr.Pairwise (· < ·)) (x : Nat) :
    x ∈ arr ↔ intset_binsrch_uint64 x arr arr.length false < arr.length ∧
      arr.getD (intset_binsrch_uint64 x arr arr.length false) 0 = x :=
  search_member hs x 0

/-- The same on a leaf. -/
theorem binsrch_leaf_floor {items : List leaf_item} (hs : Sorted items) (x : Nat) :
    floor leaf_item.first x items =
      if intset_binsrch_leaf x items items.length true = 0 then none
      else some (items.getD (intset_binsrch_leaf x items items.length true - 1) default) :=
  search_floor hs default

/-- **The walk down** ends at the leaf that holds the floor, or there is none. -/
theorem descend_spec (h : Upper s lv key settled) (hleaves : Leaves s (lv 0) items) (hlow : Low s key (lv 0))
    (hs : Sorted items) (x : Nat) : ∀ {l p : Nat}, l < s.num_levels → p ∈ lv l →
      (∀ leaf, descend s x l p = some leaf → leaf ∈ lv 0) ∧
      ((descend s x l p).bind fun leaf => floor leaf_item.first x (s.mem leaf).items) =
        floor leaf_item.first x (under s l p)
  | 0, p, _, hp => ⟨fun leaf hleaf => by cases hleaf; exact hp, rfl⟩
  | l + 1, p, hl, hp => by
      have hok := (h.inner l hl).node p hp
      have hl' := Nat.lt_of_succ_lt hl
      have hsplit : floor leaf_item.first x (under s (l + 1) p) =
          (floor key x (s.mem p).downlinks).bind fun c => floor leaf_item.first x (under s l c) :=
        floor_flatMap (s.mem p).downlinks fun c hc => h.under_low hleaves hlow hs hl' (h.downlink_mem hl hp hc)
      have hsearch := binsrch_uint64_floor (h.downlinks_sorted hleaves hlow hs hl hp) x
      rw [← hok.values] at hsearch
      rw [hsplit, descend]
      by_cases hzero : intset_binsrch_uint64 x (s.mem p).values (s.mem p).values.length true = 0
      · rw [if_pos hzero] at hsearch ⊢
        rw [hsearch]
        exact ⟨fun leaf hleaf => (nomatch hleaf), rfl⟩
      · rw [if_neg hzero] at hsearch ⊢
        rw [hsearch]
        have hc := h.downlink_mem hl hp (Floor.floor_mem hsearch).1
        exact descend_spec h hleaves hlow hs x hl' hc

/-! ## 3. What the set holds -/

/-- The values of an item. -/
def itemValues (item : leaf_item) : List Nat := item.first :: simple8b_decode item.codeword item.first

/-- The search in an item agrees with its decoding. -/
def ItemOk (item : leaf_item) : Prop :=
  ∀ x, item.first < x → x < 2 ^ 64 →
    simple8b_contains item.codeword x item.first = decide (x ∈ simple8b_decode item.codeword item.first)

/-- No tree yet. -/
structure Blank (s : IntegerSet) : Prop where
  pos : 0 < s.allocated
  root : s.root = NULL
  right : s.rightmost_nodes 0 = NULL
  leftmost : s.leftmost_leaf = NULL

/-- The tree, if there is one, holds these items. -/
def Stored (s : IntegerSet) (items : List leaf_item) : Prop := (items = [] ∧ Blank s) ∨ (items ≠ [] ∧ Built s items)

theorem Stored.congr (h : Stored s items) (e : SameTree s t) : Stored t items := by
  rcases h with ⟨hnil, hblank⟩ | ⟨hne, hbuilt⟩
  · refine Or.inl ⟨hnil, ?_, ?_, ?_, ?_⟩
    · rw [e.alloc]
      exact hblank.pos
    · rw [e.root]
      exact hblank.root
    · rw [e.right]
      exact hblank.right
    · rw [e.leftmost]
      exact hblank.leftmost
  · exact Or.inr ⟨hne, hbuilt.congr e⟩

/-- **The set stands for these values**: those packed into the tree, then those in the buffer. -/
structure Holds (s : IntegerSet) (vs : List Nat) : Prop where
  sorted : vs.Pairwise (· < ·)
  word : ∀ v ∈ vs, v < 2 ^ 64
  content : ∃ items, Stored s items ∧ (∀ item ∈ items, ItemOk item) ∧
    items.flatMap itemValues ++ s.buffered_values = vs
  buffer : s.buffered_values.length ≤ MAX_BUFFERED_VALUES
  entries : s.num_entries = vs.length % 2 ^ 64
  highest : ∀ v, vs.getLast? = some v → s.highest_value = v

/-- Items whose values are in order are so themselves. -/
theorem sorted_of_values (h : (items.flatMap itemValues).Pairwise (· < ·)) : Sorted items := by
  rw [List.pairwise_flatMap] at h
  exact h.2.imp fun {a b} hab => hab a.first List.mem_cons_self b.first List.mem_cons_self

/-- A member of the packed values is in the item of the floor. -/
theorem mem_packed (h : (items.flatMap itemValues).Pairwise (· < ·)) (x : Nat) :
    x ∈ items.flatMap itemValues ↔ ∃ item, floor leaf_item.first x items = some item ∧ x ∈ itemValues item := by
  have hparts := List.pairwise_flatMap.mp h
  have hsplit : floor (fun v => v) x (items.flatMap itemValues) =
      (floor leaf_item.first x items).bind fun item => floor (fun v => v) x (itemValues item) :=
    floor_flatMap items fun item hitem => by
      refine ⟨⟨item.first, List.mem_cons_self, rfl⟩, fun v hv => ?_⟩
      rcases List.mem_cons.mp hv with rfl | hv
      · exact Nat.le_refl _
      · exact Nat.le_of_lt ((List.pairwise_cons.mp (hparts.1 item hitem)).1 v hv)
  rw [mem_iff_floor h, hsplit, Option.bind_eq_some_iff]
  constructor
  · intro ⟨item, hitem, hx⟩
    exact ⟨item, hitem, (Floor.floor_mem hx).1⟩
  · intro ⟨item, hitem, hx⟩
    exact ⟨item, hitem, (mem_iff_floor (hparts.1 item (Floor.floor_mem hitem).1) x).mp hx⟩

/-! ## 4. `intset_is_member` -/

/-- The root of a tree is a node. -/
theorem Built.root_ne (h : Built s items) : s.root ≠ NULL := by
  obtain ⟨⟨lv, key, hup, -, -⟩, -⟩ := h
  exact Nat.ne_of_gt ((hup.level _ (Nat.sub_lt hup.pos Nat.one_pos)).alloc _ hup.root_mem).1

/-- **The lookup in the tree.** -/
theorem Built.lookup (h : Built s items) (hne : items ≠ []) (hs : Sorted items) (x : Nat) :
    (∀ leaf, descend s x (s.num_levels - 1) s.root = some leaf → Sorted (s.mem leaf).items) ∧
    ((descend s x (s.num_levels - 1) s.root).bind fun leaf => floor leaf_item.first x (s.mem leaf).items) =
      floor leaf_item.first x items := by
  obtain ⟨⟨lv, key, hup, hleaves, hlow⟩, -⟩ := h
  have htop : s.num_levels - 1 < s.num_levels := Nat.sub_lt hup.pos Nat.one_pos
  obtain ⟨hleaf, hfloor⟩ := descend_spec hup hleaves (hlow hne) hs x htop hup.root_mem
  have hall : under s (s.num_levels - 1) s.root = items := by
    have hcover := hup.cover hleaves htop
    rw [hup.root] at hcover
    exact (List.append_nil _).symm.trans hcover
  rw [hall] at hfloor
  exact ⟨fun leaf hd => hup.under_sorted hleaves hs hup.pos (hleaf leaf hd), hfloor⟩

/-- **`intset_is_member`** is true for the values of the set and no others. -/
theorem is_member_spec {vs : List Nat} (h : Holds s vs) {x : Nat} (hx : x < 2 ^ 64) :
    intset_is_member s x = true ↔ x ∈ vs := by
  obtain ⟨items, hstored, hok, hcontent⟩ := h.content
  have hsorted := h.sorted
  rw [← hcontent] at hsorted ⊢
  obtain ⟨hpacked, hbuf, hcross⟩ := List.pairwise_append.mp hsorted
  rw [List.mem_append]
  unfold intset_is_member
  dsimp only
  split
  · -- the value might be in the buffer of newly-added values
    rename_i hin
    obtain ⟨hpos, hfirst⟩ := hin
    have hnot : x ∉ items.flatMap itemValues := fun hmem => by
      have := hcross x hmem _ (List.getElem_mem hpos)
      rw [List.getD_eq_getElem _ _ hpos] at hfirst
      omega
    have hsearch := binsrch_uint64_member hbuf x
    rw [or_iff_right hnot, hsearch]
    split
    · rename_i hout
      exact ⟨fun hf => (nomatch hf), fun hlt => absurd hlt.1 (by omega)⟩
    · rename_i hin
      rw [decide_eq_true_eq]
      exact ⟨fun he => ⟨by omega, he⟩, fun hlt => hlt.2⟩
  · rename_i hout
    have hnot : x ∉ s.buffered_values := fun hmem => by
      obtain ⟨b, rest, hb⟩ := List.exists_cons_of_ne_nil (List.ne_nil_of_mem hmem)
      rw [hb] at hmem hbuf hout
      refine hout ⟨Nat.succ_pos _, ?_⟩
      rcases List.mem_cons.mp hmem with rfl | hmem
      · exact Nat.le_refl _
      · exact Nat.le_of_lt ((List.pairwise_cons.mp hbuf).1 x hmem)
    rw [or_iff_left hnot, mem_packed hpacked]
    rcases hstored with ⟨rfl, hblank⟩ | ⟨hne, hbuilt⟩
    · rw [if_pos hblank.root]
      exact ⟨fun hf => (nomatch hf), fun ⟨item, hitem, _⟩ => (nomatch hitem)⟩
    · obtain ⟨hleaf, hfloor⟩ := hbuilt.lookup hne (sorted_of_values hpacked) x
      rw [if_neg hbuilt.root_ne, ← hfloor]
      cases hd : descend s x (s.num_levels - 1) s.root with
      | none => exact ⟨fun hf => (nomatch hf), fun ⟨item, hitem, _⟩ => (nomatch hitem)⟩
      | some leaf =>
          have hsearch := binsrch_leaf_floor (hleaf leaf hd) x
          rw [hd] at hfloor
          have hfloor' : floor leaf_item.first x (s.mem leaf).items = floor leaf_item.first x items := hfloor
          show _ ↔ ∃ item, floor leaf_item.first x (s.mem leaf).items = some item ∧ x ∈ itemValues item
          dsimp only
          split
          · rename_i hzero
            rw [if_pos hzero] at hsearch
            rw [hsearch]
            exact ⟨fun hf => (nomatch hf), fun ⟨item, hitem, _⟩ => (nomatch hitem)⟩
          · rename_i hzero
            rw [if_neg hzero] at hsearch
            rw [hsearch] at hfloor' ⊢
            generalize (s.mem leaf).items.getD
              (intset_binsrch_leaf x (s.mem leaf).items (s.mem leaf).items.length true - 1) default = item at hfloor' ⊢
            obtain ⟨hitem, hle⟩ := Floor.floor_mem hfloor'.symm
            have hsome : (∃ it, some item = some it ∧ x ∈ itemValues it) ↔ x ∈ itemValues item :=
              ⟨fun ⟨it, hit, hmem⟩ => by cases hit; exact hmem, fun hmem => ⟨item, rfl, hmem⟩⟩
            rw [hsome]
            unfold itemValues
            rw [List.mem_cons]
            split
            · rename_i he
              exact ⟨fun _ => Or.inl he.symm, fun _ => rfl⟩
            · rename_i hx0
              rw [hok item hitem x (by omega) hx, decide_eq_true_eq]
              exact ⟨Or.inr, fun hor => hor.resolve_left fun he => hx0 he.symm⟩

end Pgvec.Intset
