/-
  File:      Pgvec/Common/IntegerSetRun.lean
  Subject:   RUNS OF AN INTEGER SET: values added in order, the lookup, and the iteration.

  * `flushLoop_spec` -- the loop packs the buffer into items until less than an item's worth is left;
  * `add_member_spec`, `add_out_of_order` -- a value above all others, and any other;
  * `Cursor` -- what an iteration has still to return; `iterate_next_spec` -- one call, as one step on that list;
  * `Holds.tall` -- more values than a leaf and the buffer take make several levels;
  * **`integer_set`**; **`num_entries_wraps`** -- the counter after all words there are.
-/
import Pgvec.Common.IntegerSetLookup

namespace Pgvec.Intset

variable {s t : IntegerSet} {items : List leaf_item}

/-! ## 1. Flushing the buffer -/

/-- An increasing list of words below `n` is no longer than that. -/
theorem length_le_of_sorted {vs : List Nat} {n : Nat} (hs : vs.Pairwise (· < ·)) (hn : ∀ v ∈ vs, v < n) :
    vs.length ≤ n := by
  have hnodup : vs.Nodup := hs.imp fun h => Nat.ne_of_lt h
  have hsub : vs ⊆ List.range n := fun v hv => List.mem_range.mpr (hn v hv)
  have hle := (List.subperm_of_subset hnodup hsub).length_le
  rwa [List.length_range] at hle

/-- Every item holds a value. -/
theorem length_items_le : ∀ items : List leaf_item, items.length ≤ (items.flatMap itemValues).length
  | [] => Nat.zero_le _
  | item :: items => by
      have ih := length_items_le items
      rw [List.flatMap_cons, List.length_append, List.length_cons]
      have hone : 1 ≤ (itemValues item).length := Nat.succ_le_succ (Nat.zero_le _)
      omega

/-- **The first leaf** is there, empty or not. -/
theorem firstLeaf_spec (h : Stored s items) : Built (firstLeaf s) items ∧ SameRest s (firstLeaf s) := by
  unfold firstLeaf
  rcases h with ⟨rfl, hblank⟩ | ⟨_, hbuilt⟩
  · rw [if_pos hblank.right]
    refine ⟨⟨⟨fun l => if l = 0 then [s.allocated] else [], fun _ => 0, ?_, ?_, fun he => absurd rfl he⟩, fun _ => rfl⟩,
      rfl, rfl, rfl, rfl⟩
    · constructor
      · exact Nat.one_pos
      · intro l hl
        obtain rfl : l = 0 := Nat.lt_one_iff.mp hl
        rw [if_pos rfl]
        refine ⟨fun p hp => ?_, fun p hp => ?_, List.nodup_singleton _, [], ?_⟩
        · rw [List.mem_singleton.mp hp]
          exact ⟨hblank.pos, Nat.lt_succ_self _⟩
        · rw [List.mem_singleton.mp hp]
          show (Function.update s.mem s.allocated leafNode s.allocated).level = 0
          rw [Function.update_self]
          rfl
        · show [s.allocated] = [] ++ [Function.update s.rightmost_nodes 0 s.allocated 0]
          rw [Function.update_self]
          rfl
      · exact fun l hl => absurd hl (by show ¬ l + 1 < 1; omega)
      · rfl
      · exact fun l hl => absurd hl (by show ¬ l + 1 < 1; omega)
    · have hnew : Function.update s.mem s.allocated leafNode s.allocated = leafNode := Function.update_self ..
      constructor
      · show (Function.update s.mem s.allocated leafNode s.allocated).items ++ [] = []
        rw [hnew]
        rfl
      · exact fun p hp => absurd hp List.not_mem_nil
      · intro p hp
        rw [List.mem_singleton.mp hp]
        show (Function.update s.mem s.allocated leafNode s.allocated).items.length ≤ _
        rw [hnew]
        exact Nat.zero_le _
      · refine ⟨rfl, Nat.ne_of_gt hblank.pos, ?_⟩
        show (Function.update s.mem s.allocated leafNode s.allocated).next = NULL
        rw [hnew]
        rfl
  · have hright : s.rightmost_nodes 0 ≠ NULL := by
      obtain ⟨⟨lv, key, hup, -, -⟩, -⟩ := hbuilt
      have hlev := hup.level 0 hup.pos
      exact Nat.ne_of_gt (hlev.alloc _ hlev.last_mem).1
    rw [if_neg hright]
    exact ⟨hbuilt, rfl, rfl, rfl, rfl⟩

/-- What the encoder packs behind the first value of an item. -/
theorem encode_item {first : Nat} {rest : List Nat} (h : Above first rest) (hlen : 240 ≤ rest.length) :
    ItemOk ⟨first, (simple8b_encode rest first).1⟩ ∧
      itemValues ⟨first, (simple8b_encode rest first).1⟩ = first :: rest.take (simple8b_encode rest first).2 := by
  obtain ⟨hdec, hcont⟩ := simple8b_spec h hlen
  refine ⟨fun x hx hx64 => ?_, ?_⟩
  · rw [hdec]
    exact hcont x hx hx64
  · unfold itemValues
    rw [hdec]

/-- **The loop** packs the values one item after the other; by the number of values left. -/
theorem flushLoop_spec {packed values : List Nat} (hs : (packed ++ values).Pairwise (· < ·))
    (hw : ∀ v ∈ packed ++ values, v < 2 ^ 64) : ∀ (n : Nat) {s : IntegerSet} {items : List leaf_item} {k : Nat},
    values.length - k ≤ n → k ≤ values.length → Built s items → (∀ item ∈ items, ItemOk item) →
    items.flatMap itemValues = packed ++ values.take k →
    ∃ t items' k', flushLoop values s (s.rightmost_nodes 0) k = .ok (t, k') ∧ Built t items' ∧
      (∀ item ∈ items', ItemOk item) ∧ items'.flatMap itemValues = packed ++ values.take k' ∧ k ≤ k' ∧
      k' ≤ values.length ∧ values.length - k' < MAX_VALUES_PER_LEAF_ITEM ∧ SameRest s t
  | n, s, items, k, hn, hk, hbuilt, hok, hvals => by
      have hmaxv : MAX_VALUES_PER_LEAF_ITEM = 241 := rfl
      rw [flushLoop]
      by_cases henough : MAX_VALUES_PER_LEAF_ITEM ≤ values.length - k
      · rw [if_pos henough]
        have hklt : k < values.length := by omega
        have hdrop : values.drop k = values.getD k 0 :: values.drop (k + 1) := by
          rw [List.getD_eq_getElem _ _ hklt]
          exact List.drop_eq_getElem_cons hklt
        have hrest : Above (values.getD k 0) (values.drop (k + 1)) := by
          refine ⟨?_, fun v hv => hw v (List.mem_append_right _ (List.mem_of_mem_drop hv))⟩
          rw [← hdrop]
          exact (List.pairwise_append.mp hs).2.1.sublist (List.drop_sublist k values)
        have hlen : 240 ≤ (values.drop (k + 1)).length := by
          rw [List.length_drop]
          omega
        obtain ⟨hitem, hvalues⟩ := encode_item hrest hlen
        have hm := simple8b_encode_le (values.drop (k + 1)) (values.getD k 0)
        dsimp only
        generalize values.getD k 0 = first at *
        generalize simple8b_encode (values.drop (k + 1)) first = enc at *
        have hsmall : items.length ≤ 2 ^ 64 := by
          refine Nat.le_trans (length_items_le items) ?_
          rw [hvals]
          refine length_le_of_sorted (hs.sublist ?_) fun v hv => hw v ?_
          · exact (List.take_sublist k values).append_left packed
          · exact ((List.take_sublist k values).append_left packed).subset hv
        obtain ⟨u, leaf, hlink, hleaf, hbuilt', hsame⟩ := append_spec hbuilt hsmall ⟨first, enc.1⟩
        have hmaxc : SIMPLE8B_MAX_VALUES_PER_CODEWORD = 240 := rfl
        have hvals' : (items ++ [(⟨first, enc.1⟩ : leaf_item)]).flatMap itemValues = packed ++ values.take (k + (1 + enc.2)) := by
          rw [List.flatMap_append, List.flatMap_singleton, hvals, hvalues, List.append_assoc, List.take_add, hdrop,
            Nat.add_comm 1, List.take_succ_cons]
        have hok' : ∀ item ∈ items ++ [⟨first, enc.1⟩], ItemOk item := fun item hmem => by
          rcases List.mem_append.mp hmem with hmem | hmem
          · exact hok item hmem
          · rw [List.mem_singleton.mp hmem]
            exact hitem
        have hright : leaf = (appendItem u leaf ⟨first, enc.1⟩).rightmost_nodes 0 := hleaf
        match n, hn with
        | 0, hn => omega
        | n + 1, hn =>
            obtain ⟨t, items', k', hrun, hrest'⟩ := flushLoop_spec hs hw n (k := k + (1 + enc.2)) (by omega) (by omega)
              hbuilt' hok' hvals'
            obtain ⟨hb, ho, hv, hle, hle', hlt, hsame'⟩ := hrest'
            rw [← hright] at hrun
            refine ⟨t, items', k', ?_, hb, ho, hv, by omega, hle', hlt, hsame.trans (SameRest.trans ?_ hsame')⟩
            · rw [hlink]
              exact hrun
            · exact ⟨rfl, rfl, rfl, rfl⟩
      · rw [if_neg henough]
        exact ⟨s, items, k, rfl, hbuilt, hok, hvals, Nat.le_refl _, hk, by omega, rfl, rfl, rfl, rfl⟩

/-- **`intset_flush_buffered_values`** moves values from the buffer into the tree, and makes room. -/
theorem flush_spec (h : Stored s items) (hok : ∀ item ∈ items, ItemOk item)
    (hs : (items.flatMap itemValues ++ s.buffered_values).Pairwise (· < ·))
    (hw : ∀ v ∈ items.flatMap itemValues ++ s.buffered_values, v < 2 ^ 64)
    (hfull : MAX_BUFFERED_VALUES ≤ s.buffered_values.length) :
    ∃ t items', intset_flush_buffered_values s = .ok t ∧ Stored t items' ∧ (∀ item ∈ items', ItemOk item) ∧
      items'.flatMap itemValues ++ t.buffered_values = items.flatMap itemValues ++ s.buffered_values ∧
      t.buffered_values.length < MAX_BUFFERED_VALUES ∧ t.num_entries = s.num_entries ∧ t.highest_value = s.highest_value ∧
      t.iter_active = s.iter_active := by
  obtain ⟨hbuilt, hsame⟩ := firstLeaf_spec h
  have hmaxv : MAX_VALUES_PER_LEAF_ITEM = 241 := rfl
  have hmaxb : MAX_BUFFERED_VALUES = 482 := rfl
  obtain ⟨t, items', k, hrun, hbuilt', hok', hvals, -, hk, hlt, hsame'⟩ :=
    flushLoop_spec hs hw s.buffered_values.length (k := 0) (Nat.sub_le _ _) (Nat.zero_le _) hbuilt hok
      (by rw [List.take_zero, List.append_nil])
  have hrest := hsame.trans hsame'
  have hpos : 0 < k := by omega
  have hne : items' ≠ [] := by
    rintro rfl
    have hlen := congrArg List.length hvals
    rw [List.length_append, List.length_take] at hlen
    have hzero : (List.flatMap itemValues []).length = 0 := rfl
    omega
  refine ⟨{ t with buffered_values := t.buffered_values.drop k }, items', ?_, Or.inr ⟨hne, ?_⟩, hok', ?_, ?_,
    hrest.entries, hrest.highest, hrest.active⟩
  · unfold intset_flush_buffered_values
    dsimp only
    rw [hsame.buffered, hrun]
  · exact hbuilt'.congr ⟨rfl, rfl, rfl, rfl, rfl, rfl⟩
  · show _ ++ t.buffered_values.drop k = _
    rw [hvals, hrest.buffered, List.append_assoc, List.take_append_drop]
  · show (t.buffered_values.drop k).length < _
    rw [hrest.buffered, List.length_drop]
    omega

/-! ## 2. Adding -/

/-- The empty set. -/
theorem holds_create : Holds intset_create [] where
  sorted := List.Pairwise.nil
  word := fun _ hv => absurd hv List.not_mem_nil
  content := ⟨[], Or.inl ⟨rfl, Nat.one_pos, rfl, rfl, rfl⟩, fun _ hitem => absurd hitem List.not_mem_nil, rfl⟩
  buffer := Nat.zero_le _
  entries := rfl
  highest := fun _ hv => (nomatch hv)

/-- **Room is made** in the buffer if need be; the values stay. -/
theorem makeRoom_spec {vs : List Nat} (h : Holds s vs) :
    ∃ u, (if MAX_BUFFERED_VALUES ≤ s.buffered_values.length then intset_flush_buffered_values s else .ok s) = .ok u ∧
      (∃ items, Stored u items ∧ (∀ item ∈ items, ItemOk item) ∧ items.flatMap itemValues ++ u.buffered_values = vs) ∧
      u.buffered_values.length < MAX_BUFFERED_VALUES ∧ u.num_entries = s.num_entries ∧ u.iter_active = s.iter_active := by
  obtain ⟨items, hstored, hok, hcontent⟩ := h.content
  by_cases hfull : MAX_BUFFERED_VALUES ≤ s.buffered_values.length
  · obtain ⟨u, items', hrun, hstored', hok', hvals, hlt, hent, -, hact⟩ := flush_spec hstored hok
      (by rw [hcontent]; exact h.sorted) (by rw [hcontent]; exact h.word) hfull
    rw [if_pos hfull]
    exact ⟨u, hrun, ⟨items', hstored', hok', hvals.trans hcontent⟩, hlt, hent, hact⟩
  · rw [if_neg hfull]
    exact ⟨s, rfl, ⟨items, hstored, hok, hcontent⟩, by omega, rfl, rfl⟩

/-- **A value above all others** is added. -/
theorem add_member_spec {vs : List Nat} {x : Nat} (h : Holds s vs) (hiter : s.iter_active = false)
    (hup : ∀ v ∈ vs, v < x) (hx : x < 2 ^ 64) :
    ∃ t, intset_add_member s x = .ok t ∧ Holds t (vs ++ [x]) ∧ t.iter_active = false := by
  have horder : ¬ (x ≤ s.highest_value ∧ 0 < s.num_entries) := by
    intro ⟨hle, hpos⟩
    rcases List.eq_nil_or_concat vs with rfl | ⟨init, v, rfl⟩
    · have := h.entries
      rw [List.length_nil, Nat.zero_mod] at this
      omega
    · rw [List.concat_eq_append] at *
      have hv := h.highest v List.getLast?_concat
      have := hup v (List.mem_append_right _ List.mem_cons_self)
      omega
  obtain ⟨u, hrun, ⟨items, hstored, hok, hcontent⟩, hlt, hent, hact⟩ := makeRoom_spec h
  unfold intset_add_member
  rw [if_neg (by rw [hiter]; decide), if_neg horder, hrun]
  refine ⟨_, rfl, ⟨?_, ?_, ⟨items, hstored.congr ⟨rfl, rfl, rfl, rfl, rfl, rfl⟩, hok, ?_⟩, ?_, ?_, ?_⟩, ?_⟩
  · refine List.pairwise_append.mpr ⟨h.sorted, List.pairwise_singleton _ _, fun v hv w hw => ?_⟩
    rw [List.mem_singleton.mp hw]
    exact hup v hv
  · intro v hv
    rcases List.mem_append.mp hv with hv | hv
    · exact h.word v hv
    · rw [List.mem_singleton.mp hv]
      exact hx
  · show _ ++ (u.buffered_values ++ [x]) = _
    rw [← List.append_assoc, hcontent]
  · show (u.buffered_values ++ [x]).length ≤ _
    rw [List.length_append]
    exact hlt
  · show (u.num_entries + 1) % 2 ^ 64 = _
    rw [hent, h.entries, Nat.mod_add_mod, List.length_append]
    rfl
  · intro v hv
    rw [List.getLast?_concat] at hv
    exact Option.some.inj hv
  · exact hact.trans hiter

/-- **A value out of order** raises the error, and the set is as before. -/
theorem add_out_of_order {vs : List Nat} {x v : Nat} (h : Holds s vs) (hiter : s.iter_active = false)
    (hcount : vs.length < 2 ^ 64) (hv : v ∈ vs) (hx : x ≤ v) :
    intset_add_member s x = .error ("cannot add value to integer set out of order", s) := by
  have horder : x ≤ s.highest_value ∧ 0 < s.num_entries := by
    obtain ⟨init, last, rfl⟩ := (List.eq_nil_or_concat vs).resolve_left (List.ne_nil_of_mem hv)
    rw [List.concat_eq_append] at *
    have hlast := h.highest last List.getLast?_concat
    have hle : v ≤ last := by
      rcases List.mem_append.mp hv with hv | hv
      · exact Nat.le_of_lt ((List.pairwise_append.mp h.sorted).2.2 v hv last List.mem_cons_self)
      · exact Nat.le_of_eq (List.mem_singleton.mp hv)
    have hentries := h.entries
    rw [Nat.mod_eq_of_lt hcount, List.length_append, List.length_singleton] at hentries
    omega
  unfold intset_add_member
  rw [if_neg (by rw [hiter]; decide), if_pos horder]

/-- `intset_add_member` for one value after the other. -/
def addAll (intset : IntegerSet) : List Nat → Result IntegerSet
  | [] => .ok intset
  | x :: xs =>
      match intset_add_member intset x with
      | .error e => .error e
      | .ok intset => addAll intset xs

/-- **All values** of an increasing sequence are added. -/
theorem addAll_spec : ∀ {xs vs : List Nat} {s : IntegerSet}, Holds s vs → s.iter_active = false →
    (vs ++ xs).Pairwise (· < ·) → (∀ x ∈ xs, x < 2 ^ 64) →
    ∃ t, addAll s xs = .ok t ∧ Holds t (vs ++ xs) ∧ t.iter_active = false
  | [], vs, s, h, hiter, _, _ => ⟨s, rfl, by rw [List.append_nil]; exact h, hiter⟩
  | x :: xs, vs, s, h, hiter, hs, hw => by
      have hup : ∀ v ∈ vs, v < x := fun v hv => (List.pairwise_append.mp hs).2.2 v hv x List.mem_cons_self
      obtain ⟨t, hrun, ht, hiter'⟩ := add_member_spec h hiter hup (hw x List.mem_cons_self)
      rw [List.append_cons] at hs
      obtain ⟨u, hrest, hu, hiter''⟩ := addAll_spec ht hiter' hs fun y hy => hw y (List.mem_cons_of_mem x hy)
      refine ⟨u, ?_, ?_, hiter''⟩
      · rw [addAll, hrun]
        exact hrest
      · rw [List.append_cons]
        exact hu

/-- From the empty set. -/
theorem addAll_create {vs : List Nat} (hs : vs.Pairwise (· < ·)) (hw : ∀ v ∈ vs, v < 2 ^ 64) :
    ∃ s, addAll intset_create vs = .ok s ∧ Holds s vs ∧ s.iter_active = false := by
  obtain ⟨s, hrun, h, hact⟩ := addAll_spec holds_create rfl hs hw
  rw [List.nil_append] at h
  exact ⟨s, hrun, h, hact⟩

theorem length_decodeLoop (mask bits : Nat) : ∀ n codeword curr : Nat,
    (decodeLoop mask bits n codeword curr).length = n
  | 0, _, _ => rfl
  | n + 1, _, _ => congrArg (· + 1) (length_decodeLoop mask bits n ..)

/-- An item has at most as many values as the bound says. -/
theorem length_itemValues (item : leaf_item) : (itemValues item).length ≤ MAX_VALUES_PER_LEAF_ITEM := by
  have hdec : (simple8b_decode item.codeword item.first).length ≤ 240 := by
    unfold simple8b_decode
    dsimp only
    split
    · exact Nat.zero_le _
    · rw [length_decodeLoop]
      exact nintsOf_le _
  rw [itemValues, List.length_cons, Nat.add_comm]
  exact Nat.add_le_add_left hdec 1

theorem length_values_le : ∀ items : List leaf_item,
    (items.flatMap itemValues).length ≤ MAX_VALUES_PER_LEAF_ITEM * items.length
  | [] => Nat.zero_le _
  | item :: items => by
      rw [List.flatMap_cons, List.length_append, List.length_cons, Nat.mul_succ, Nat.add_comm]
      exact Nat.add_le_add (length_values_le items) (length_itemValues item)

/-- **More values than a leaf and the buffer take** make a tree of several levels. -/
theorem Holds.tall {vs : List Nat} (h : Holds s vs)
    (hlen : MAX_VALUES_PER_LEAF_ITEM * MAX_LEAF_ITEMS + MAX_BUFFERED_VALUES < vs.length) : 2 ≤ s.num_levels := by
  obtain ⟨items, hstored, -, hcontent⟩ := h.content
  have hitems : MAX_LEAF_ITEMS < items.length := by
    have hsum := congrArg List.length hcontent
    rw [List.length_append] at hsum
    have hpacked := length_values_le items
    have hbuf := h.buffer
    exact Nat.lt_of_mul_lt_mul_left (a := MAX_VALUES_PER_LEAF_ITEM) (by omega)
  rcases hstored with ⟨rfl, -⟩ | ⟨-, ⟨lv, key, hup, hleaves, -⟩, -⟩
  · exact absurd hitems (Nat.not_lt_zero _)
  · by_contra hlow
    have hone : s.num_levels = 1 := by
      have := hup.pos
      omega
    -- the root would be the only leaf
    have hroot : lv 0 = [s.root] := by
      have := hup.root
      rw [hone] at this
      exact this
    have hroom := hleaves.room s.root (by rw [hroot]; exact List.mem_cons_self)
    have hall := congrArg List.length hleaves.items
    rw [hroot, List.flatMap_singleton] at hall
    omega

/-! ## 3. Iterating -/

/-- Two sets that differ in their iteration only. -/
structure SameSet (s t : IntegerSet) : Prop where
  tree : SameTree s t
  buffered : t.buffered_values = s.buffered_values
  entries : t.num_entries = s.num_entries
  highest : t.highest_value = s.highest_value

theorem SameSet.refl (s : IntegerSet) : SameSet s s := ⟨⟨rfl, rfl, rfl, rfl, rfl, rfl⟩, rfl, rfl, rfl⟩

theorem SameSet.trans {u : IntegerSet} (h : SameSet s t) (h' : SameSet t u) : SameSet s u where
  tree :=
    { mem := h'.tree.mem.trans h.tree.mem
      alloc := h'.tree.alloc.trans h.tree.alloc
      levels := h'.tree.levels.trans h.tree.levels
      root := h'.tree.root.trans h.tree.root
      right := h'.tree.right.trans h.tree.right
      leftmost := h'.tree.leftmost.trans h.tree.leftmost }
  buffered := h'.buffered.trans h.buffered
  entries := h'.entries.trans h.entries
  highest := h'.highest.trans h.highest

/-- An iteration leaves the set what it is. -/
theorem Holds.congr {vs : List Nat} (h : Holds s vs) (e : SameSet s t) : Holds t vs where
  sorted := h.sorted
  word := h.word
  content := by
    obtain ⟨items, hstored, hok, hvals⟩ := h.content
    exact ⟨items, hstored.congr e.tree, hok, by rw [e.buffered]; exact hvals⟩
  buffer := by rw [e.buffered]; exact h.buffer
  entries := by rw [e.entries]; exact h.entries
  highest := by rw [e.highest]; exact h.highest

/-- The values of leaves. -/
def leafValues (s : IntegerSet) (ps : List Nat) : List Nat := ps.flatMap fun p => (s.mem p).items.flatMap itemValues

/-- The values from an item of the first of these leaves on. -/
def walkValues (s : IntegerSet) (itemno : Nat) : List Nat → List Nat
  | [] => []
  | p :: ps => ((s.mem p).items.drop itemno).flatMap itemValues ++ leafValues s ps

theorem walkValues_zero (s : IntegerSet) : ∀ ps : List Nat, walkValues s 0 ps = leafValues s ps
  | [] => rfl
  | p :: ps => by
      show ((s.mem p).items.drop 0).flatMap itemValues ++ leafValues s ps = _
      rw [List.drop_zero]
      rfl

/-- **What an iteration has still to return**: in the tree, or in the buffer behind it. -/
inductive Cursor (s : IntegerSet) (rest : List Nat) : Prop where
  | tree (ps : List Nat) (arr : s.iter_values = .iter_values_buf) (walk : Walk s s.iter_node ps)
      (some : ∀ p ∈ ps, (s.mem p).items ≠ []) (num : s.iter_num_values ≤ s.iter_values_buf.length)
      (left : rest = (s.iter_values_buf.take s.iter_num_values).drop s.iter_valueno ++
        (walkValues s s.iter_itemno ps ++ s.buffered_values))
  | buffer (arr : s.iter_values = .buffered_values) (node : s.iter_node = NULL)
      (num : s.iter_num_values = s.buffered_values.length) (left : rest = s.buffered_values.drop s.iter_valueno)

/-- What a call makes of the values left. -/
def Next (s : IntegerSet) (fuel : Nat) : List Nat → Prop
  | [] => ∃ t, intset_iterate_next fuel s = some (t, false, 0) ∧ t.iter_active = false ∧ SameSet s t
  | v :: rest => ∃ t, intset_iterate_next fuel s = some (t, true, v) ∧ Cursor t rest ∧ SameSet s t

theorem drop_take_cons {l : List Nat} {n i : Nat} (hi : i < n) (hn : n ≤ l.length) :
    (l.take n).drop i = l.getD i 0 :: (l.take n).drop (i + 1) := by
  have hlen : i < (l.take n).length := by
    rw [List.length_take]
    omega
  rw [List.drop_eq_getElem_cons hlen, List.getElem_take, List.getD_eq_getElem _ _ (by omega)]

/-- An entry of the array is returned. -/
theorem Cursor.entry {rest : List Nat} (h : Cursor s rest) (hlt : s.iter_valueno < s.iter_num_values) (fuel : Nat) :
    Next s (fuel + 1) rest := by
  have hrun : intset_iterate_next (fuel + 1) s = some ({ s with iter_valueno := s.iter_valueno + 1 }, true,
      (iterArray s).getD s.iter_valueno 0) := by
    rw [intset_iterate_next]
    exact if_pos hlt
  have hsame : SameSet s { s with iter_valueno := s.iter_valueno + 1 } := ⟨⟨rfl, rfl, rfl, rfl, rfl, rfl⟩, rfl, rfl, rfl⟩
  cases h with
  | tree ps arr walk some num left =>
      have harr : iterArray s = s.iter_values_buf := by
        unfold iterArray
        rw [arr]
      rw [harr] at hrun
      rw [left, drop_take_cons hlt num]
      exact ⟨_, hrun, .tree ps arr (walk.frame fun _ _ => rfl) some num rfl, hsame⟩
  | buffer arr node num left =>
      have harr : iterArray s = s.buffered_values := by
        unfold iterArray
        rw [arr]
      rw [harr] at hrun
      have hcons := drop_take_cons hlt (Nat.le_of_eq num)
      rw [num, List.take_length] at hcons
      rw [left, hcons]
      exact ⟨_, hrun, .buffer arr node num rfl, hsame⟩

/-- The round that goes on to the buffer. -/
def toBuffer (s : IntegerSet) : IntegerSet :=
  { s with
    iter_values := .buffered_values
    iter_num_values := s.buffered_values.length
    iter_valueno := 0 }

/-- The round that decodes an item. -/
def toItem (s : IntegerSet) (item : leaf_item) : IntegerSet :=
  { s with
    iter_itemno := s.iter_itemno + 1
    iter_values_buf := itemValues item
    iter_num_values := (itemValues item).length
    iter_valueno := 0 }

/-- The round that goes on to the next leaf. -/
def toLeaf (s : IntegerSet) (p : Nat) : IntegerSet :=
  { s with
    iter_node := p
    iter_itemno := 0 }

/-- A round that goes on, and then a call on what it leaves. -/
theorem Next.of_round {rest : List Nat} {fuel fuel' : Nat}
    (hrun : intset_iterate_next fuel' s = intset_iterate_next fuel t) (hsame : SameSet s t) (h : Next t fuel rest) :
    Next s fuel' rest := by
  cases rest with
  | nil =>
      obtain ⟨u, hu, hact, hsame'⟩ := h
      exact ⟨u, hrun.trans hu, hact, hsame.trans hsame'⟩
  | cons v rest =>
      obtain ⟨u, hu, hcur, hsame'⟩ := h
      exact ⟨u, hrun.trans hu, hcur, hsame.trans hsame'⟩

/-- At the end of the array, in the buffer: the iteration ends. -/
theorem next_end (arr : s.iter_values = .buffered_values) (node : s.iter_node = NULL)
    (hnum : ¬ s.iter_valueno < s.iter_num_values) (fuel : Nat) : Next s (fuel + 1) [] := by
  refine ⟨{ s with iter_active := false }, ?_, rfl, ⟨rfl, rfl, rfl, rfl, rfl, rfl⟩, rfl, rfl, rfl⟩
  rw [intset_iterate_next]
  dsimp only
  rw [if_neg hnum, if_neg fun h => h.1 node, if_neg fun h => h node, if_neg (by rw [arr]; decide)]

/-- At the end of the tree: on to the buffer. -/
theorem next_switch (arr : s.iter_values = .iter_values_buf) (node : s.iter_node = NULL)
    (hnum : ¬ s.iter_valueno < s.iter_num_values) (fuel : Nat) : Next s (fuel + 2) s.buffered_values := by
  have hrun : intset_iterate_next (fuel + 2) s = intset_iterate_next (fuel + 1) (toBuffer s) := by
    rw [intset_iterate_next]
    dsimp only
    rw [if_neg hnum, if_neg fun h => h.1 node, if_neg fun h => h node, if_pos arr]
    rfl
  have hsame : SameSet s (toBuffer s) := ⟨⟨rfl, rfl, rfl, rfl, rfl, rfl⟩, rfl, rfl, rfl⟩
  refine Next.of_round hrun hsame ?_
  by_cases hempty : s.buffered_values.length = 0
  · rw [List.eq_nil_of_length_eq_zero hempty]
    exact next_end (s := toBuffer s) rfl node (by show ¬ 0 < s.buffered_values.length; omega) fuel
  · have hcur : Cursor (toBuffer s) s.buffered_values := .buffer rfl node rfl rfl
    exact hcur.entry (Nat.pos_of_ne_zero hempty) fuel

/-- The next item of a leaf is decoded, and its first value returned. -/
theorem next_decode {p : Nat} {ps : List Nat} (arr : s.iter_values = .iter_values_buf)
    (walk : Walk s s.iter_node (p :: ps)) (some : ∀ q ∈ p :: ps, (s.mem q).items ≠ [])
    (hnum : ¬ s.iter_valueno < s.iter_num_values) (hitem : s.iter_itemno < (s.mem p).items.length) (fuel : Nat) :
    Next s (fuel + 2) (walkValues s s.iter_itemno (p :: ps) ++ s.buffered_values) := by
  obtain ⟨hp, hne, -⟩ := id walk
  have hget : (s.mem p).items.getD s.iter_itemno default = (s.mem p).items[s.iter_itemno] := List.getD_eq_getElem _ _ hitem
  generalize hi : (s.mem p).items[s.iter_itemno] = item at hget
  have hrun : intset_iterate_next (fuel + 2) s = intset_iterate_next (fuel + 1) (toItem s item) := by
    rw [intset_iterate_next]
    dsimp only
    rw [hp, if_neg hnum, if_pos ⟨hne, hitem⟩, hget, ← hp]
    rfl
  have hsame : SameSet s (toItem s item) := ⟨⟨rfl, rfl, rfl, rfl, rfl, rfl⟩, rfl, rfl, rfl⟩
  have hcur : Cursor (toItem s item) (walkValues s s.iter_itemno (p :: ps) ++ s.buffered_values) := by
    refine .tree (p :: ps) arr (walk.frame fun _ _ => rfl) some (Nat.le_refl _) ?_
    show _ = ((itemValues item).take (itemValues item).length).drop 0 ++
      (walkValues s (s.iter_itemno + 1) (p :: ps) ++ s.buffered_values)
    rw [List.take_length, List.drop_zero]
    show ((s.mem p).items.drop _).flatMap itemValues ++ leafValues s ps ++ _ =
      _ ++ (((s.mem p).items.drop _).flatMap itemValues ++ leafValues s ps ++ _)
    rw [List.drop_eq_getElem_cons hitem, List.flatMap_cons, hi]
    simp only [List.append_assoc]
  exact Next.of_round hrun hsame (hcur.entry (Nat.succ_pos _) fuel)

/-- **One call** is one step on the values left. -/
theorem iterate_next_spec {rest : List Nat} (h : Cursor s rest) (fuel : Nat) : Next s (fuel + 3) rest := by
  by_cases hnum : s.iter_valueno < s.iter_num_values
  · exact h.entry hnum (fuel + 2)
  cases h with
  | buffer arr node num left =>
      rw [left, List.drop_eq_nil_of_le (by omega)]
      exact next_end arr node hnum (fuel + 2)
  | tree ps arr walk some num left =>
      have hdone : (s.iter_values_buf.take s.iter_num_values).drop s.iter_valueno = [] :=
        List.drop_eq_nil_of_le (by rw [List.length_take]; omega)
      rw [left, hdone, List.nil_append]
      cases ps with
      | nil => exact next_switch arr walk hnum (fuel + 1)
      | cons p ps =>
          by_cases hitem : s.iter_itemno < (s.mem p).items.length
          · exact next_decode arr walk some hnum hitem (fuel + 1)
          · obtain ⟨hp, hne, hrest⟩ := walk
            have hrun : intset_iterate_next (fuel + 3) s = intset_iterate_next (fuel + 2) (toLeaf s (s.mem p).next) := by
              rw [intset_iterate_next]
              dsimp only
              rw [hp, if_neg hnum, if_neg fun h => hitem h.2, if_pos hne]
              rfl
            have hsame : SameSet s (toLeaf s (s.mem p).next) := ⟨⟨rfl, rfl, rfl, rfl, rfl, rfl⟩, rfl, rfl, rfl⟩
            refine Next.of_round hrun hsame ?_
            have hvals : walkValues s s.iter_itemno (p :: ps) = leafValues s ps := by
              show ((s.mem p).items.drop _).flatMap itemValues ++ leafValues s ps = _
              rw [List.drop_eq_nil_of_le (by omega)]
              rfl
            rw [hvals, ← walkValues_zero]
            cases ps with
            | nil => exact next_switch (s := toLeaf s (s.mem p).next) arr hrest hnum fuel
            | cons q qs =>
                refine next_decode (s := toLeaf s (s.mem p).next) (p := q) arr
                  (hrest.frame fun _ _ => rfl) (fun r hr => some r (List.mem_cons_of_mem p hr)) hnum ?_ fuel
                exact List.length_pos_of_ne_nil (some q (List.mem_cons_of_mem p List.mem_cons_self))

/-- `intset_iterate_next` until it returns false, at most so many times. -/
def iterateAll (fuel : Nat) : Nat → IntegerSet → Option (List Nat × IntegerSet)
  | 0, _ => none
  | n + 1, intset =>
      match intset_iterate_next fuel intset with
      | none => none
      | some (intset, false, _) => some ([], intset)
      | some (intset, true, v) =>
          match iterateAll fuel n intset with
          | none => none
          | some (vs, intset) => some (v :: vs, intset)

/-- **An iteration** returns what is left, and ends. -/
theorem iterateAll_spec (fuel : Nat) : ∀ {rest : List Nat} {s : IntegerSet}, Cursor s rest →
    ∃ t, iterateAll (fuel + 3) (rest.length + 1) s = some (rest, t) ∧ t.iter_active = false ∧ SameSet s t
  | [], s, h => by
      obtain ⟨t, hrun, hact, hsame⟩ := iterate_next_spec h fuel
      refine ⟨t, ?_, hact, hsame⟩
      rw [iterateAll, hrun]
  | v :: rest, s, h => by
      obtain ⟨t, hrun, hcur, hsame⟩ := iterate_next_spec h fuel
      obtain ⟨u, hrest, hact, hsame'⟩ := iterateAll_spec fuel hcur
      refine ⟨u, ?_, hact, hsame.trans hsame'⟩
      rw [List.length_cons, iterateAll, hrun]
      dsimp only
      rw [hrest]

/-- The leaves hold the values packed. -/
theorem Leaves.values {ps : List Nat} (h : Leaves s ps items) : leafValues s ps = items.flatMap itemValues := by
  unfold leafValues
  rw [← h.items]
  exact List.flatMap_assoc.symm

/-- **An iteration begins** with all values of the set. -/
theorem begin_iterate_spec {vs : List Nat} (h : Holds s vs) : Cursor (intset_begin_iterate s) vs := by
  obtain ⟨items, hstored, -, hvals⟩ := h.content
  rcases hstored with ⟨rfl, hblank⟩ | ⟨hne, ⟨lv, key, -, hleaves, hlow⟩, -⟩
  · exact .tree [] rfl hblank.leftmost (fun p hp => absurd hp List.not_mem_nil) (Nat.zero_le _) hvals.symm
  · refine .tree (lv 0) rfl (hleaves.walk.frame fun _ _ => rfl) (fun p hp => ?_) (Nat.zero_le _) ?_
    · obtain ⟨item, rest, hitems, -⟩ := hlow hne p hp
      show (s.mem p).items ≠ []
      rw [hitems]
      exact List.cons_ne_nil _ _
    · show vs = [] ++ (walkValues s 0 (lv 0) ++ s.buffered_values)
      rw [walkValues_zero, hleaves.values, hvals]
      rfl

/-! ## 4. The set -/

/-- **Integer set.** For every strictly increasing sequence of words every add succeeds; the lookup is true for the
    values added and no others; the counter is their number; an iteration returns them in order, then false, and
    leaves the set as it was; a value out of order raises its error and changes nothing. The counter is a `uint64`:
    it and the order check behind it are exact as long as not all `2 ^ 64` words have been added. -/
theorem integer_set (fuel : Nat) (vs : List Nat) (hs : vs.Pairwise (· < ·)) (hw : ∀ v ∈ vs, v < 2 ^ 64) :
    ∃ s, addAll intset_create vs = .ok s ∧
      (∀ x, x < 2 ^ 64 → (intset_is_member s x = true ↔ x ∈ vs)) ∧
      (vs.length < 2 ^ 64 → intset_num_entries s = vs.length) ∧
      (∃ t, iterateAll (fuel + 3) (vs.length + 1) (intset_begin_iterate s) = some (vs, t) ∧
        t.iter_active = false ∧ Holds t vs) ∧
      (vs.length < 2 ^ 64 → ∀ v ∈ vs, ∀ x ≤ v,
        intset_add_member s x = .error ("cannot add value to integer set out of order", s)) := by
  obtain ⟨s, hrun, h, hact⟩ := addAll_create hs hw
  refine ⟨s, hrun, fun x hx => is_member_spec h hx, fun hlt => ?_, ?_, fun hlt v hv x hx =>
    add_out_of_order h hact hlt hv hx⟩
  · exact h.entries.trans (Nat.mod_eq_of_lt hlt)
  · obtain ⟨t, hall, hact', hsame⟩ := iterateAll_spec fuel (begin_iterate_spec h)
    refine ⟨t, hall, hact', h.congr ((?_ : SameSet s (intset_begin_iterate s)).trans hsame)⟩
    exact ⟨⟨rfl, rfl, rfl, rfl, rfl, rfl⟩, rfl, rfl, rfl⟩

/-- **Sixteen thousand values in a row**, packed 241 to an item: more than a leaf and the buffer take, so there
    is a tree above the leaves. -/
theorem integer_set_tall : ∃ s t, addAll intset_create (List.range 16000) = .ok s ∧
    2 ≤ s.num_levels ∧ s.buffered_values.length ≤ MAX_BUFFERED_VALUES ∧
    (∀ x, x < 2 ^ 64 → (intset_is_member s x = true ↔ x ∈ List.range 16000)) ∧
    intset_num_entries s = 16000 ∧
    iterateAll 3 16001 (intset_begin_iterate s) = some (List.range 16000, t) ∧
    intset_add_member s 7 = .error ("cannot add value to integer set out of order", s) := by
  have hlen : (List.range 16000).length = 16000 := List.length_range
  have hword : ∀ v ∈ List.range 16000, v < 2 ^ 64 := fun v hv => (List.mem_range.mp hv).trans (by decide)
  have hsorted : (List.range 16000).Pairwise (· < ·) := List.pairwise_lt_range
  obtain ⟨s, hrun, hmem, hnum, ⟨t, hall, -⟩, horder⟩ := integer_set 0 (List.range 16000) hsorted hword
  obtain ⟨s', hrun', hholds, -⟩ := addAll_create hsorted hword
  obtain rfl : s = s' := Except.ok.inj (hrun.symm.trans hrun')
  rw [hlen] at hnum hall horder
  have hcap : MAX_VALUES_PER_LEAF_ITEM * MAX_LEAF_ITEMS + MAX_BUFFERED_VALUES = 15906 := rfl
  refine ⟨s, t, hrun, hholds.tall ?_, hholds.buffer, hmem, hnum (by omega), hall,
    horder (by omega) 8 (List.mem_range.mpr (by omega)) 7 (by omega)⟩
  rw [hlen, hcap]
  omega

/-- With as many values as there are words the counter is zero, and the order is no longer checked. -/
theorem full_set {vs : List Nat} (hs : vs.Pairwise (· < ·)) (hw : ∀ v ∈ vs, v < 2 ^ 64) (hlen : vs.length = 2 ^ 64)
    (x : Nat) : ∃ s t, addAll intset_create vs = .ok s ∧ intset_num_entries s = 0 ∧ intset_add_member s x = .ok t := by
  obtain ⟨s, hrun, h, hact⟩ := addAll_create hs hw
  have hzero : s.num_entries = 0 := by
    rw [h.entries, hlen, Nat.mod_self]
  obtain ⟨u, hroom, -⟩ := makeRoom_spec h
  have hadd : ∃ t, intset_add_member s x = .ok t := by
    unfold intset_add_member
    rw [if_neg (by rw [hact]; decide), if_neg fun hor => by rw [hzero] at hor; exact Nat.lt_irrefl 0 hor.2, hroom]
    exact ⟨_, rfl⟩
  obtain ⟨t, ht⟩ := hadd
  exact ⟨s, t, hrun, hzero, ht⟩

/-- **With all words added** the counter is back at zero, and a value out of order is taken. -/
theorem num_entries_wraps : ∃ s t, addAll intset_create (List.range (2 ^ 64)) = .ok s ∧
    intset_num_entries s ≠ (List.range (2 ^ 64)).length ∧ intset_add_member s 0 = .ok t := by
  have hsorted : (List.range (2 ^ 64)).Pairwise (· < ·) := List.pairwise_lt_range
  have hw : ∀ v ∈ List.range (2 ^ 64), v < 2 ^ 64 := fun v hv => List.mem_range.mp hv
  have hlen : (List.range (2 ^ 64)).length = 2 ^ 64 := List.length_range
  generalize List.range (2 ^ 64) = vs at hsorted hw hlen ⊢
  obtain ⟨s, t, hrun, hzero, hadd⟩ := full_set hsorted hw hlen 0
  refine ⟨s, t, hrun, ?_, hadd⟩
  rw [hzero, hlen]
  exact (Nat.two_pow_pos 64).ne

end Pgvec.Intset
