/-
  File:      Pgvec/Nbtree/DedupFacts.lean
  Subject:   DEDUPLICATION KEEPS THE INDEX CONTENTS, AND ITS REPLAY MAKES THE SAME PAGE.

  A pass cuts the data items into groups of neighbours (`Group`): one tuple that stays, or several of one key
  that become a posting list (`Group.final`). The log record names the groups of more than one item
  (`intervalsOf`), and the replay cuts at the same places: its limit on posting lists is larger, but it asks
  the record, not the keys.

  * `keep_natts_fast_iff` -- the comparison is equality of the key classes;
  * `Group.final_phys` -- a group takes no more room than its members;
  * `dedupItem_spec`, `dedup_run` -- one item of the pass, and all of them;
  * `redoItem_spec`, `redo_run` -- the replay along given groups;
  * **`dedup_pass_spec`**.
-/
import Pgvec.Nbtree.Dedup

namespace Pgvec.Nbtree

open Pgvec.Storage
open Pgvec.Hnsw (ItemPointer)

variable {K D : Type}

/-! ## 1. Key classes -/

/-- The class of a key: the images of its key attributes. -/
def Relation.keyClass (rel : Relation K D) (k : K) : List (Option D) :=
  (List.range' 1 rel.nkeyatts).map (rel.index_getattr k)

theorem equalAtts_spec [DecidableEq D] (rel : Relation K D) (a b : K) (n : Nat) : ∀ attnum : Nat,
    rel.equalAtts a b n attnum ≤ n ∧ (rel.equalAtts a b n attnum = n ↔
      (List.range' attnum n).map (rel.index_getattr a) = (List.range' attnum n).map (rel.index_getattr b)) := by
  induction n with
  | zero => exact fun _ => ⟨Nat.le_refl _, iff_of_true rfl rfl⟩
  | succ n ih =>
      intro attnum
      obtain ⟨h1, h2⟩ := ih (attnum + 1)
      rw [Relation.equalAtts, List.range'_succ, List.map_cons, List.map_cons, List.cons.injEq, ← h2]
      split
      · rename_i heq
        exact ⟨Nat.succ_le_succ h1, fun e => ⟨heq, Nat.succ.inj e⟩, fun e => congrArg Nat.succ e.2⟩
      · rename_i hne
        exact ⟨Nat.zero_le _, fun e => (Nat.succ_ne_zero n e.symm).elim, fun e => (hne e.1).elim⟩

/-- **`_bt_keep_natts_fast` gets past the key attributes exactly on keys of one class.** -/
theorem keep_natts_fast_iff [DecidableEq D] (rel : Relation K D) (s t : IndexTuple K) :
    rel.nkeyatts < bt_keep_natts_fast rel s t ↔ rel.keyClass s.key = rel.keyClass t.key := by
  obtain ⟨h1, h2⟩ := equalAtts_spec rel s.key t.key rel.nkeyatts 1
  unfold bt_keep_natts_fast
  rw [Relation.keyClass, Relation.keyClass, ← h2]
  omega

/-- A tuple as entries of the index: its key class with each of its heap TIDs. -/
def IndexTuple.entries (rel : Relation K D) (t : IndexTuple K) : List (List (Option D) × ItemPointer) :=
  t.htids.map fun tid => (rel.keyClass t.key, tid)

/-! ## 2. Sizes -/

/-- `Min(BTMaxItemSize / 2, INDEX_SIZE_MASK)`, `BTMaxItemSize` and the room of a page as numbers. -/
theorem size_constants : min (BTMaxItemSize / 2) INDEX_SIZE_MASK = 1352 ∧ BTMaxItemSize = 2704 ∧
    BLCKSZ - MAXALIGN sizeofBTPageOpaqueData = 8176 := by
  decide

/-- A tuple has heap TIDs, and takes at least the room of its key and of its heap TIDs. -/
theorem IndexTuple.size_bounds (t : IndexTuple K) : 1 ≤ t.htids.length ∧ MAXALIGN t.size = t.size ∧
    t.keysize + t.htids.length * sizeofItemPointerData ≤ t.size + 6 ∧
    t.htids.length * sizeofItemPointerData + 10 ≤ t.size := by
  have hk := t.keysize_ge
  have ha := t.aligned
  have hp := t.posting_length
  unfold htids size sizeofItemPointerData
  split
  · exact ⟨Nat.le_refl 1, ha, by simp, by simp only [List.length_singleton]; omega⟩
  · rename_i l hl
    have := hp l hl
    have hle := le_maxalign (t.keysize + l.length * 6)
    exact ⟨by omega, maxalign_maxalign _, by omega, by omega⟩

theorem form_posting_htids {base : IndexTuple K} {htids : List ItemPointer} (h : 1 < htids.length) :
    (bt_form_posting base htids).htids = htids ∧ (bt_form_posting base htids).key = base.key ∧
    (bt_form_posting base htids).size = MAXALIGN (base.keysize + htids.length * sizeofItemPointerData) := by
  unfold bt_form_posting
  rw [dif_pos h]
  exact ⟨rfl, rfl, rfl⟩

/-! ## 3. Groups -/

/-- Neighbours on the page that become one tuple. -/
structure Group (K : Type) where
  base : IndexTuple K
  rest : List (IndexTuple K)

def Group.members (g : Group K) : List (IndexTuple K) := g.base :: g.rest

def Group.htids (g : Group K) : List ItemPointer := g.members.flatMap IndexTuple.htids

/-- The tuple a group becomes. -/
def Group.final (g : Group K) : IndexTuple K :=
  if g.rest = [] then g.base else bt_form_posting g.base g.htids

/-- A group of one key class, whose posting list stays below the limit of the pass. -/
structure Group.Ok (rel : Relation K D) (g : Group K) : Prop where
  same : ∀ t ∈ g.rest, rel.keyClass t.key = rel.keyClass g.base.key
  size : g.rest ≠ [] →
    MAXALIGN (g.base.keysize + g.htids.length * sizeofItemPointerData) ≤ min (BTMaxItemSize / 2) INDEX_SIZE_MASK

/-- The physical size of tuples on the page, line pointers included. -/
def physSum (l : List (IndexTuple K)) : Nat := (l.map IndexTuple.physSize).sum

theorem physSum_append (l l' : List (IndexTuple K)) : physSum (l ++ l') = physSum l + physSum l' := by
  rw [physSum, List.map_append, List.sum_append, physSum, physSum]

theorem physSum_cons (t : IndexTuple K) (l : List (IndexTuple K)) : physSum (t :: l) = t.physSize + physSum l := by
  rw [physSum, List.map_cons, List.sum_cons, physSum]

theorem length_htids_cons (t : IndexTuple K) (l : List (IndexTuple K)) :
    ((t :: l).flatMap IndexTuple.htids).length = t.htids.length + (l.flatMap IndexTuple.htids).length := by
  rw [List.flatMap_cons, List.length_append]

/-- Each tuple costs fourteen bytes more than its heap TIDs. -/
theorem rest_phys (l : List (IndexTuple K)) : l.length ≤ (l.flatMap IndexTuple.htids).length ∧
    (l.flatMap IndexTuple.htids).length * sizeofItemPointerData + 14 * l.length ≤ physSum l := by
  induction l with
  | nil => exact ⟨Nat.le_refl _, Nat.le_refl _⟩
  | cons t l ih =>
      obtain ⟨h1, h2, h3, h4⟩ := t.size_bounds
      rw [length_htids_cons, physSum_cons, List.length_cons, IndexTuple.physSize, h2]
      unfold sizeofItemPointerData sizeofItemIdData at *
      omega

theorem Group.length_htids (g : Group K) :
    g.htids.length = g.base.htids.length + (g.rest.flatMap IndexTuple.htids).length :=
  length_htids_cons g.base g.rest

theorem Group.one_lt_htids {g : Group K} (h : g.rest ≠ []) : 1 < g.htids.length := by
  have h1 := g.base.size_bounds.1
  have h2 := (rest_phys g.rest).1
  have h3 := List.length_pos_of_ne_nil h
  rw [g.length_htids]
  omega

/-- **A group takes no more room than its members did.** -/
theorem Group.final_phys (g : Group K) : g.final.physSize ≤ physSum g.members := by
  rw [Group.members, physSum_cons]
  by_cases h : g.rest = []
  · rw [Group.final, if_pos h]
    exact Nat.le_add_right _ _
  · have hlen := g.one_lt_htids h
    obtain ⟨h1, h2, h3, h4⟩ := g.base.size_bounds
    obtain ⟨h5, h6⟩ := rest_phys g.rest
    have h7 := List.length_pos_of_ne_nil h
    rw [Group.final, if_neg h, IndexTuple.physSize, (form_posting_htids hlen).2.2, maxalign_maxalign, g.length_htids,
      IndexTuple.physSize, h2]
    unfold sizeofItemPointerData sizeofItemIdData MAXALIGN at *
    omega

/-- **A group says the same as its members.** -/
theorem Group.Ok.entries {rel : Relation K D} {g : Group K} (h : g.Ok rel) :
    g.final.entries rel = g.members.flatMap (IndexTuple.entries rel) := by
  by_cases hr : g.rest = []
  · rw [Group.final, if_pos hr, Group.members, hr, List.flatMap_singleton]
  · obtain ⟨h1, h2, _⟩ := form_posting_htids (g.one_lt_htids hr)
    rw [Group.final, if_neg hr, IndexTuple.entries, h1, h2, Group.htids, List.map_flatMap]
    refine List.flatMap_congr fun t ht => ?_
    rcases List.mem_cons.mp ht with rfl | ht
    · rfl
    · rw [IndexTuple.entries, h.same t ht]

theorem Group.Ok.size_le {rel : Relation K D} {g : Group K} (h : g.Ok rel) (hb : g.base.size ≤ BTMaxItemSize) :
    g.final.size ≤ BTMaxItemSize := by
  by_cases hr : g.rest = []
  · rw [Group.final, if_pos hr]
    exact hb
  · rw [Group.final, if_neg hr, (form_posting_htids (g.one_lt_htids hr)).2.2]
    have := h.size hr
    rw [size_constants.1] at this
    rw [size_constants.2.1]
    omega

/-- The members of groups, in the order of the page. -/
def membersOf (gs : List (Group K)) : List (IndexTuple K) := gs.flatMap Group.members

theorem membersOf_cons (g : Group K) (gs : List (Group K)) : membersOf (g :: gs) = g.members ++ membersOf gs :=
  List.flatMap_cons

theorem membersOf_concat (gs : List (Group K)) (g : Group K) : membersOf (gs ++ [g]) = membersOf gs ++ g.members := by
  rw [membersOf, List.flatMap_append, List.flatMap_singleton, membersOf]

theorem final_physSum (gs : List (Group K)) : physSum (gs.map Group.final) ≤ physSum (membersOf gs) := by
  induction gs with
  | nil => exact Nat.le_refl _
  | cons g gs ih =>
      have := g.final_phys
      rw [List.map_cons, physSum_cons, membersOf_cons, physSum_append]
      omega

/-- The intervals of the log record: where groups of more than one item start, and how many they are. -/
def intervalsOf : Nat → List (Group K) → List BTDedupInterval
  | _, [] => []
  | off, g :: gs =>
      (if g.rest = [] then [] else [⟨off, g.rest.length + 1⟩]) ++ intervalsOf (off + g.members.length) gs

theorem intervalsOf_append (gs gs' : List (Group K)) : ∀ off : Nat,
    intervalsOf off (gs ++ gs') = intervalsOf off gs ++ intervalsOf (off + (membersOf gs).length) gs' := by
  induction gs with
  | nil => exact fun _ => rfl
  | cons g gs ih =>
      intro off
      rw [List.cons_append, intervalsOf, intervalsOf, ih, List.append_assoc, membersOf_cons, List.length_append,
        ← Nat.add_assoc]

theorem le_baseoff {gs : List (Group K)} : ∀ {off : Nat} {i : BTDedupInterval}, i ∈ intervalsOf off gs →
    off ≤ i.baseoff := by
  induction gs with
  | nil => exact fun hi => absurd hi List.not_mem_nil
  | cons g gs ih =>
      intro off i hi
      rw [intervalsOf, List.mem_append] at hi
      rcases hi with hi | hi
      · split at hi
        · exact absurd hi List.not_mem_nil
        · rw [List.mem_singleton.mp hi]
      · exact (Nat.le_add_right _ _).trans (ih hi)

/-! ## 4. The pending posting list and the new page -/

/-- A tuple as an item of a page. -/
def IndexTuple.pageItem (t : IndexTuple K) : PageItem (IndexTuple K) := ⟨t, t.size⟩

/-- The items of a page of the index: the high key, and the data items. -/
structure Items (hk : List (PageItem (IndexTuple K))) (data : List (IndexTuple K)) (page : Page (IndexTuple K)) :
    Prop where
  items : page.items = hk ++ data.map IndexTuple.pageItem
  special : page.pd_special = BLCKSZ - MAXALIGN sizeofBTPageOpaqueData

/-- The room of the high key and the data items. -/
def roomOf (hk : List (PageItem (IndexTuple K))) (data : List (IndexTuple K)) : Nat :=
  SizeOfPageHeaderData + (sizeofItemIdData * hk.length + usedSpace hk) + physSum data

variable {hk : List (PageItem (IndexTuple K))} {page q : Page (IndexTuple K)} {data : List (IndexTuple K)}

theorem usedSpace_data (data : List (IndexTuple K)) :
    sizeofItemIdData * (data.map IndexTuple.pageItem).length + usedSpace (data.map IndexTuple.pageItem) =
      physSum data := by
  induction data with
  | nil => rfl
  | cons t l ih =>
      rw [physSum_cons, ← ih, List.map_cons, List.length_cons, IndexTuple.physSize]
      simp only [usedSpace, List.map_cons, List.sum_cons, IndexTuple.pageItem]
      rw [Nat.mul_succ]
      omega

theorem Items.room_eq (h : Items hk data page) :
    SizeOfPageHeaderData + sizeofItemIdData * page.items.length + usedSpace page.items = roomOf hk data := by
  have := usedSpace_data data
  rw [h.items, usedSpace_append, List.length_append, roomOf, Nat.mul_add]
  omega

/-- **A tuple is added** when there is room for it. -/
theorem Items.add {t : IndexTuple K} (h : Items hk data page)
    (hroom : roomOf hk (data ++ [t]) ≤ BLCKSZ - MAXALIGN sizeofBTPageOpaqueData) :
    ∃ q off, PageAddItem page t t.size = some (q, off) ∧ Items hk (data ++ [t]) q := by
  have h1 := h.room_eq
  have h2 : roomOf hk (data ++ [t]) = roomOf hk data + t.physSize := by
    rw [roomOf, physSum_append, physSum_cons, roomOf]
    exact (Nat.add_assoc _ _ _).symm
  have h3 : page.pd_lower + sizeofItemIdData + MAXALIGN t.size ≤ page.pd_upper := by
    unfold Page.pd_lower Page.pd_upper
    rw [h.special]
    rw [h2, IndexTuple.physSize] at hroom
    omega
  obtain ⟨r, hr⟩ : ∃ r, PageAddItem page t t.size = some r := by
    unfold PageAddItem
    rw [dif_pos h3]
    exact ⟨_, rfl⟩
  obtain ⟨k1, k2, _⟩ := pageAddItem_eq (q := r.1) hr
  refine ⟨r.1, r.2, hr, ?_, k2.trans h.special⟩
  rw [k1, h.items, List.map_append, List.append_assoc]
  rfl

/-- The pending posting list holds a group that starts at `off`. -/
structure Pending (g : Group K) (off : Nat) (state : BTDedupState K) : Prop where
  base : state.base = some g.base
  baseoff : state.baseoff = off
  basetupsize : state.basetupsize = g.base.keysize
  htids : state.htids = g.htids
  nitems : state.nitems = g.members.length
  phystupsize : state.phystupsize = physSum g.members

/-- What the pending posting list has nothing to do with. -/
def BTDedupState.limits (state : BTDedupState K) : Bool × Nat × Nat × List BTDedupInterval :=
  (state.deduplicate, state.maxpostingsize, state.palloced, state.intervals)

theorem limits_eq {st st' : BTDedupState K} (h : st.limits = st'.limits) : st.deduplicate = st'.deduplicate ∧
    st.maxpostingsize = st'.maxpostingsize ∧ st.palloced = st'.palloced ∧ st.intervals = st'.intervals := by
  simpa only [BTDedupState.limits, Prod.mk.injEq] using h

variable {state : BTDedupState K} {g : Group K} {gs : List (Group K)} {t : IndexTuple K} {off minoff : Nat}

/-- A tuple whose heap TIDs fit into `htids` starts a pending posting list. -/
theorem start_pending_spec (state : BTDedupState K)
    (hfit : t.htids.length * sizeofItemPointerData ≤ state.palloced) (off : Nat) :
    ∃ st, bt_dedup_start_pending state t off = .ok st ∧ Pending ⟨t, []⟩ off st ∧ st.limits = state.limits := by
  unfold bt_dedup_start_pending BTDedupState.saveTids
  rw [List.length_nil, Nat.zero_add, if_pos hfit]
  refine ⟨_, rfl, ⟨rfl, rfl, rfl, ?_, rfl, ?_⟩, rfl⟩
  · rw [Group.htids, Group.members, List.flatMap_singleton]
    rfl
  · rw [Group.members, physSum_cons]
    rfl

/-- A group with one more member. -/
def Group.push (g : Group K) (t : IndexTuple K) : Group K := ⟨g.base, g.rest ++ [t]⟩

theorem Group.members_push (g : Group K) (t : IndexTuple K) : (g.push t).members = g.members ++ [t] := rfl

theorem Group.htids_push (g : Group K) (t : IndexTuple K) : (g.push t).htids = g.htids ++ t.htids := by
  rw [Group.htids, Group.members_push, List.flatMap_append, List.flatMap_singleton, Group.htids]

/-- The size of the posting list of a group, as `_bt_dedup_save_htid` computes it. -/
def Group.mergedSize (g : Group K) : Nat := MAXALIGN (g.base.keysize + g.htids.length * sizeofItemPointerData)

/-- **The heap TIDs of one more tuple are saved** if the posting list stays below the limit; else the pending
    list stays as it is. -/
theorem save_htid_spec (hp : Pending g off state) (hcap : state.maxpostingsize ≤ state.palloced) :
    ∃ st, bt_dedup_save_htid state t = .ok (decide ((g.push t).mergedSize ≤ state.maxpostingsize), st) ∧
      Pending (if (g.push t).mergedSize ≤ state.maxpostingsize then g.push t else g) off st ∧
      st.limits = state.limits := by
  have hsz : MAXALIGN (state.basetupsize + (state.htids.length + t.htids.length) * sizeofItemPointerData) =
      (g.push t).mergedSize := by
    rw [Group.mergedSize, Group.htids_push, List.length_append, hp.basetupsize, hp.htids]
    rfl
  unfold bt_dedup_save_htid
  simp only [hsz]
  by_cases hle : (g.push t).mergedSize ≤ state.maxpostingsize
  · have hle' : (state.htids.length + t.htids.length) * sizeofItemPointerData ≤ state.palloced := by
      have h1 := le_maxalign
        (state.basetupsize + (state.htids.length + t.htids.length) * sizeofItemPointerData)
      rw [hsz] at h1
      omega
    rw [if_neg (Nat.not_lt.mpr hle), BTDedupState.saveTids, if_pos hle', if_pos hle, decide_eq_true hle]
    refine ⟨_, rfl, ⟨hp.base, hp.baseoff, hp.basetupsize, ?_, ?_, ?_⟩, rfl⟩
    · rw [Group.htids_push, ← hp.htids]
    · rw [Group.members_push, List.length_append, ← hp.nitems]
      rfl
    · rw [Group.members_push, physSum_append, ← hp.phystupsize]
      rfl
  · rw [if_pos (Nat.lt_of_not_le hle), if_neg hle, decide_eq_false hle]
    refine ⟨_, rfl, ?_, ?_⟩
    · split
      · exact ⟨hp.base, hp.baseoff, hp.basetupsize, hp.htids, hp.nitems, hp.phystupsize⟩
      · exact hp
    · split
      · rfl
      · rfl

theorem forItems_append {σ : Type} (f : Nat → IndexTuple K → σ → Except String σ) (l l' : List (IndexTuple K)) :
    ∀ (off : Nat) (s : σ), forItems f off (l ++ l') s =
      (forItems f off l s).bind (forItems f (off + l.length) l') := by
  induction l with
  | nil => exact fun _ _ => rfl
  | cons t l ih =>
      intro off s
      rw [List.cons_append, forItems, forItems]
      cases f off t s with
      | error e => rfl
      | ok s' =>
          rw [List.length_cons, Nat.add_comm l.length, ← Nat.add_assoc]
          exact ih (off + 1) s'

/-- What has been done with the members of `gs`, which start at `minoff`. -/
structure Done (hk : List (PageItem (IndexTuple K))) (minoff : Nat) (gs : List (Group K))
    (newpage : Page (IndexTuple K)) (state : BTDedupState K) : Prop where
  page : Items hk (gs.map Group.final) newpage
  intervals : state.intervals = intervalsOf minoff gs

theorem finals_room (gs : List (Group K)) (l : List (IndexTuple K)) :
    roomOf hk (gs.map Group.final) ≤ roomOf hk (membersOf gs ++ l) := by
  have := final_physSum gs
  rw [roomOf, roomOf, physSum_append]
  omega

/-- **The pending posting list is finished**: the tuple of its group goes to the new page. -/
theorem finish_pending_spec (hd : Done hk minoff gs page state) (hp : Pending g (minoff + (membersOf gs).length) state)
    (hroom : roomOf hk (membersOf (gs ++ [g])) ≤ BLCKSZ - MAXALIGN sizeofBTPageOpaqueData) :
    ∃ q st saving, bt_dedup_finish_pending page state = .ok (q, st, saving) ∧ Done hk minoff (gs ++ [g]) q st ∧
      st.deduplicate = state.deduplicate ∧ st.maxpostingsize = state.maxpostingsize ∧
      st.palloced = state.palloced := by
  have hfin : roomOf hk (gs.map Group.final ++ [g.final]) ≤ BLCKSZ - MAXALIGN sizeofBTPageOpaqueData := by
    have : roomOf hk ((gs ++ [g]).map Group.final) ≤ roomOf hk (membersOf (gs ++ [g]) ++ []) :=
      finals_room (gs ++ [g]) []
    rw [List.append_nil, List.map_append] at this
    exact this.trans hroom
  obtain ⟨q, o, hq, hit⟩ := hd.page.add hfin
  have hmap : (gs ++ [g]).map Group.final = gs.map Group.final ++ [g.final] := by rw [List.map_append]; rfl
  have hivs := intervalsOf_append gs [g] minoff
  rw [intervalsOf, intervalsOf, List.append_nil] at hivs
  unfold bt_dedup_finish_pending
  rw [hp.base]
  simp only
  by_cases hr : g.rest = []
  · have h1 : state.nitems = 1 := by rw [hp.nitems, Group.members, hr]; rfl
    rw [Group.final, if_pos hr] at hq
    rw [if_pos h1, hq]
    refine ⟨q, _, 0, rfl, ⟨hmap ▸ hit, ?_⟩, rfl, rfl, rfl⟩
    rw [hivs, if_pos hr, List.append_nil]
    exact hd.intervals
  · have h1 : state.nitems ≠ 1 := by
      have := List.length_pos_of_ne_nil hr
      rw [hp.nitems, Group.members, List.length_cons]
      omega
    rw [Group.final, if_neg hr] at hq
    rw [if_neg h1, hp.htids, hq]
    refine ⟨q, _, _, rfl, ⟨hmap ▸ hit, ?_⟩, rfl, rfl, rfl⟩
    rw [hivs, if_neg hr, ← hd.intervals, hp.baseoff, hp.nitems]
    rfl

/-! ## 5. The pass -/

/-- **The invariant of the pass**: the items so far are the members of finished groups and of the pending one. -/
structure PassInv (rel : Relation K D) (hk : List (PageItem (IndexTuple K))) (minoff : Nat)
    (gs : List (Group K)) (g : Group K) (s : PassState K) : Prop where
  done : Done hk minoff gs s.newpage s.state
  pending : Pending g (minoff + (membersOf gs).length) s.state
  ok : ∀ x ∈ gs ++ [g], x.Ok rel
  limit : s.state.maxpostingsize ≤ min (BTMaxItemSize / 2) INDEX_SIZE_MASK
  palloced : s.state.palloced = min (BTMaxItemSize / 2) INDEX_SIZE_MASK

variable {rel : Relation K D}

theorem group_single_ok (t : IndexTuple K) : (⟨t, []⟩ : Group K).Ok rel :=
  ⟨fun _ h => absurd h List.not_mem_nil, fun h => absurd rfl h⟩

theorem Group.Ok.push (h : g.Ok rel) (hsame : rel.keyClass g.base.key = rel.keyClass t.key)
    (hsize : (g.push t).mergedSize ≤ min (BTMaxItemSize / 2) INDEX_SIZE_MASK) : (g.push t).Ok rel := by
  refine ⟨fun x hx => ?_, fun _ => hsize⟩
  rcases List.mem_append.mp hx with hx | hx
  · exact h.same x hx
  · rw [List.mem_singleton.mp hx]
    exact hsame.symm

/-- The single value strategy only ever lowers the limit. -/
theorem singleValueSteps_spec (newitemsz : Nat) (strat : Bool) (state : BTDedupState K) :
    ∃ st strat', singleValueSteps newitemsz strat state = (st, strat') ∧ st.maxpostingsize ≤ state.maxpostingsize ∧
      st.palloced = state.palloced ∧ st.intervals = state.intervals := by
  unfold singleValueSteps bt_singleval_fillfactor
  split
  · split
    · refine ⟨_, _, rfl, ?_, rfl, rfl⟩
      simp only
      split
      · exact Nat.sub_le _ _
      · exact Nat.zero_le _
    · split
      · exact ⟨_, _, rfl, Nat.le_refl _, rfl, rfl⟩
      · exact ⟨_, _, rfl, Nat.le_refl _, rfl, rfl⟩
  · exact ⟨_, _, rfl, Nat.le_refl _, rfl, rfl⟩

/-- The item does not join the pending posting list, which is finished. -/
theorem new_group_spec {s : PassState K} {newitemsz : Nat} (hi : PassInv rel hk minoff gs g s)
    (hroom : roomOf hk (membersOf (gs ++ [g])) ≤ BLCKSZ - MAXALIGN sizeofBTPageOpaqueData)
    (hfit : t.htids.length * sizeofItemPointerData ≤ min (BTMaxItemSize / 2) INDEX_SIZE_MASK)
    (hoff : off = minoff + (membersOf (gs ++ [g])).length) :
    ∃ s', (do
        let (newpage, state, saving) ← bt_dedup_finish_pending s.newpage s.state
        let (state, singlevalstrat) := singleValueSteps newitemsz s.singlevalstrat state
        let state ← bt_dedup_start_pending state t off
        return (⟨newpage, state, s.pagesaving + saving, singlevalstrat⟩ : PassState K)) = Except.ok (ε := String) s' ∧
      PassInv rel hk minoff (gs ++ [g]) ⟨t, []⟩ s' := by
  obtain ⟨q, st, saving, h1, h2, _, h4, h5⟩ := finish_pending_spec hi.done hi.pending hroom
  obtain ⟨st', strat, k1, k2, k3, k4⟩ := singleValueSteps_spec newitemsz s.singlevalstrat st
  obtain ⟨st'', j1, j2, j3⟩ := start_pending_spec st' (t := t) (by rw [k3, h5, hi.palloced]; exact hfit) off
  obtain ⟨_, e2, e3, e4⟩ := limits_eq j3
  rw [h1]
  simp only [bind, Except.bind, k1, j1]
  refine ⟨_, rfl, ⟨h2.page, ?_⟩, hoff ▸ j2, ?_, ?_, ?_⟩
  · rw [e4, k4, h2.intervals]
  · intro x hx
    rcases List.mem_append.mp hx with hx | hx
    · exact hi.ok x hx
    · rw [List.mem_singleton.mp hx]
      exact group_single_ok t
  · rw [e2]
    exact k2.trans (h4.trans_le hi.limit)
  · rw [e3, k3, h5, hi.palloced]

/-- **One item of the pass.** -/
theorem dedupItem_spec [DecidableEq D] {s : PassState K} {newitemsz : Nat} (hi : PassInv rel hk minoff gs g s)
    (hroom : roomOf hk (membersOf (gs ++ [g])) ≤ BLCKSZ - MAXALIGN sizeofBTPageOpaqueData)
    (hfit : t.htids.length * sizeofItemPointerData ≤ min (BTMaxItemSize / 2) INDEX_SIZE_MASK)
    (hoff : off = minoff + (membersOf (gs ++ [g])).length) :
    ∃ s' gs' g', dedupItem rel newitemsz minoff off t s = .ok s' ∧ PassInv rel hk minoff gs' g' s' ∧
      membersOf (gs' ++ [g']) = membersOf (gs ++ [g]) ++ [t] := by
  have hne : off ≠ minoff := by
    rw [hoff, membersOf_concat, List.length_append, Group.members, List.length_cons]
    omega
  have hnew : membersOf (gs ++ [g] ++ [⟨t, []⟩]) = membersOf (gs ++ [g]) ++ [t] := membersOf_concat _ _
  unfold dedupItem
  rw [if_neg hne, hi.pending.base]
  simp only [Option.any_some, decide_eq_true_eq]
  by_cases hcond : s.state.deduplicate = true ∧ rel.nkeyatts < bt_keep_natts_fast rel g.base t
  · rw [if_pos hcond]
    have hsame := (keep_natts_fast_iff rel g.base t).mp hcond.2
    obtain ⟨st, h1, h2, h3⟩ := save_htid_spec (t := t) hi.pending (hi.palloced ▸ hi.limit)
    obtain ⟨_, e2, e3, e4⟩ := limits_eq h3
    rw [h1]
    have hdone : Done hk minoff gs s.newpage st := ⟨hi.done.page, e4.trans hi.done.intervals⟩
    by_cases hle : (g.push t).mergedSize ≤ s.state.maxpostingsize
    · rw [if_pos hle] at h2
      rw [decide_eq_true hle]
      refine ⟨{ s with state := st }, gs, g.push t, rfl, ⟨hdone, h2, ?_, e2 ▸ hi.limit, e3.trans hi.palloced⟩, ?_⟩
      · intro x hx
        rcases List.mem_append.mp hx with hx | hx
        · exact hi.ok x (List.mem_append_left _ hx)
        · rw [List.mem_singleton.mp hx]
          exact (hi.ok g (List.mem_append_right _ List.mem_cons_self)).push hsame (hle.trans hi.limit)
      · rw [membersOf_concat, membersOf_concat, Group.members_push, List.append_assoc]
    · rw [if_neg hle] at h2
      rw [decide_eq_false hle]
      have hi' : PassInv rel hk minoff gs g { s with state := st } :=
        ⟨hdone, h2, hi.ok, e2 ▸ hi.limit, e3.trans hi.palloced⟩
      obtain ⟨s', k1, k2⟩ := new_group_spec hi' hroom hfit hoff
      exact ⟨s', gs ++ [g], ⟨t, []⟩, k1, k2, hnew⟩
  · rw [if_neg hcond]
    obtain ⟨s', k1, k2⟩ := new_group_spec hi hroom hfit hoff
    exact ⟨s', gs ++ [g], ⟨t, []⟩, k1, k2, hnew⟩

/-- **All items of the pass.** -/
theorem dedup_run [DecidableEq D] {newitemsz : Nat} (l : List (IndexTuple K))
    (hfit : ∀ t ∈ l, t.htids.length * sizeofItemPointerData ≤ min (BTMaxItemSize / 2) INDEX_SIZE_MASK) :
    ∀ {gs : List (Group K)} {g : Group K} {s : PassState K} {off : Nat}, PassInv rel hk minoff gs g s →
      roomOf hk (membersOf (gs ++ [g]) ++ l) ≤ BLCKSZ - MAXALIGN sizeofBTPageOpaqueData →
      off = minoff + (membersOf (gs ++ [g])).length →
      ∃ s' gs' g', forItems (dedupItem rel newitemsz minoff) off l s = .ok s' ∧ PassInv rel hk minoff gs' g' s' ∧
        membersOf (gs' ++ [g']) = membersOf (gs ++ [g]) ++ l := by
  induction l with
  | nil => exact fun hi _ _ => ⟨_, _, _, rfl, hi, (List.append_nil _).symm⟩
  | cons t l ih =>
      intro gs g s off hi hroom hoff
      have hroom' : roomOf hk (membersOf (gs ++ [g])) ≤ BLCKSZ - MAXALIGN sizeofBTPageOpaqueData := by
        refine le_trans ?_ hroom
        rw [roomOf, roomOf, physSum_append]
        omega
      obtain ⟨s1, gs1, g1, h1, h2, h3⟩ := dedupItem_spec hi hroom'
        (hfit t List.mem_cons_self) hoff
      have hlist : membersOf (gs1 ++ [g1]) ++ l = membersOf (gs ++ [g]) ++ t :: l := by
        rw [h3, List.append_assoc]
        rfl
      have hoff' : off + 1 = minoff + (membersOf (gs1 ++ [g1])).length := by
        rw [h3, hoff, List.length_append, List.length_singleton, Nat.add_assoc]
      obtain ⟨s2, gs2, g2, k1, k2, k3⟩ := ih (fun x hx => hfit x (List.mem_cons_of_mem _ hx)) h2 (hlist ▸ hroom) hoff'
      refine ⟨s2, gs2, g2, ?_, k2, k3.trans hlist⟩
      rw [forItems, h1]
      exact k1

/-! ## 6. The replay -/

/-- The invariant of the replay: as in the pass, but the pending group need not be complete. -/
structure RedoInv (hk : List (PageItem (IndexTuple K))) (minoff : Nat) (gs : List (Group K)) (g : Group K)
    (s : Page (IndexTuple K) × BTDedupState K) : Prop where
  done : Done hk minoff gs s.1 s.2
  pending : Pending g (minoff + (membersOf gs).length) s.2
  limit : s.2.maxpostingsize = BTMaxItemSize
  palloced : s.2.palloced = BTMaxItemSize

/-- The members of a group, as far as the replay has seen them. -/
theorem mergedSize_mono (b : IndexTuple K) (r r' : List (IndexTuple K)) :
    (⟨b, r⟩ : Group K).mergedSize ≤ (⟨b, r ++ r'⟩ : Group K).mergedSize := by
  have h : (⟨b, r ++ r'⟩ : Group K).htids = (⟨b, r⟩ : Group K).htids ++ r'.flatMap IndexTuple.htids := by
    rw [Group.htids, Group.members, List.flatMap_cons, List.flatMap_append, ← List.append_assoc, Group.htids,
      Group.members, List.flatMap_cons]
  have hlen : (⟨b, r⟩ : Group K).htids.length ≤ (⟨b, r ++ r'⟩ : Group K).htids.length := by
    rw [h, List.length_append]
    exact Nat.le_add_right _ _
  have hmul := Nat.mul_le_mul_right sizeofItemPointerData hlen
  simp only [Group.mergedSize, MAXALIGN]
  omega

/-- **The record says whether the next item belongs to the pending group.** -/
theorem redo_more {b : IndexTuple K} {r1 : List (IndexTuple K)} (r : List (IndexTuple K)) (gsr : List (Group K))
    {s : Page (IndexTuple K) × BTDedupState K} (hi : RedoInv hk minoff gs ⟨b, r1⟩ s) :
    (((intervalsOf minoff (gs ++ ⟨b, r⟩ :: gsr))[s.2.intervals.length]?).any fun i =>
      s.2.baseoff = i.baseoff ∧ s.2.nitems < i.nitems) = decide (r1.length < r.length) := by
  rw [intervalsOf_append, hi.done.intervals, List.getElem?_append_right (Nat.le_refl _), Nat.sub_self, intervalsOf,
    hi.pending.baseoff, hi.pending.nitems]
  by_cases hr : r = []
  · rw [if_pos hr, List.nil_append, hr, List.length_nil, decide_eq_false (Nat.not_lt_zero _)]
    -- the next interval starts behind the pending tuple
    rw [Option.any_eq_false]
    intro i hi'
    have hoff := le_baseoff (List.mem_of_getElem? hi')
    rw [Group.members, List.length_cons] at hoff
    refine decide_eq_false fun h => ?_
    have := h.1
    omega
  · rw [if_neg hr, List.cons_append, List.getElem?_cons_zero, Option.any_some, Group.members, List.length_cons]
    exact decide_eq_decide.mpr ⟨fun h => Nat.lt_of_succ_lt_succ h.2, fun h => ⟨rfl, Nat.succ_lt_succ h⟩⟩

/-- The members of a group are saved one after the other. -/
theorem redo_group {b : IndexTuple K} {gsr : List (Group K)} (r2 : List (IndexTuple K)) :
    ∀ {r1 : List (IndexTuple K)} {s : Page (IndexTuple K) × BTDedupState K} (off : Nat),
      RedoInv hk minoff gs ⟨b, r1⟩ s → off = minoff + (membersOf gs).length + (r1.length + 1) →
      (r2 ≠ [] → (⟨b, r1 ++ r2⟩ : Group K).mergedSize ≤ BTMaxItemSize) →
      ∃ s', forItems (redoItem (intervalsOf minoff (gs ++ ⟨b, r1 ++ r2⟩ :: gsr)) minoff) off r2 s = .ok s' ∧
        RedoInv hk minoff gs ⟨b, r1 ++ r2⟩ s' := by
  induction r2 with
  | nil =>
      intro r1 s off hi _ _
      rw [List.append_nil]
      exact ⟨s, rfl, hi⟩
  | cons t r2 ih =>
      intro r1 s off hi hoff hsize
      have hlist : r1 ++ t :: r2 = r1 ++ [t] ++ r2 := by rw [List.append_assoc]; rfl
      have hmore := redo_more (r1 ++ t :: r2) gsr hi
      rw [decide_eq_true (by rw [List.length_append, List.length_cons]; omega)] at hmore
      have hpush : ((⟨b, r1⟩ : Group K).push t).mergedSize ≤ s.2.maxpostingsize := by
        rw [hi.limit]
        exact (mergedSize_mono b (r1 ++ [t]) r2).trans (hlist ▸ hsize nofun)
      obtain ⟨st, h1, h2, h3⟩ := save_htid_spec (t := t) hi.pending (by rw [hi.limit, hi.palloced])
      rw [if_pos hpush] at h2
      rw [decide_eq_true hpush] at h1
      obtain ⟨_, e2, e3, e4⟩ := limits_eq h3
      have hi' : RedoInv hk minoff gs ⟨b, r1 ++ [t]⟩ (s.1, st) :=
        ⟨⟨hi.done.page, e4.trans hi.done.intervals⟩, h2, e2.trans hi.limit, e3.trans hi.palloced⟩
      obtain ⟨s', k1, k2⟩ := ih (off + 1) hi'
        (by rw [hoff, List.length_append, List.length_singleton]; rfl) (fun _ => hlist ▸ hsize nofun)
      refine ⟨s', ?_, hlist ▸ k2⟩
      rw [forItems, redoItem, if_neg (by omega), if_pos hmore, h1]
      rw [← hlist] at k1
      exact k1

/-- **The replay makes the groups of the record.** -/
theorem redo_run (gsr : List (Group K))
    (hsize : ∀ x ∈ gsr, x.rest ≠ [] → x.mergedSize ≤ BTMaxItemSize)
    (hfit : ∀ x ∈ gsr, x.base.htids.length * sizeofItemPointerData ≤ BTMaxItemSize) :
    ∀ {gs : List (Group K)} {g : Group K} {s : Page (IndexTuple K) × BTDedupState K} (off : Nat),
      RedoInv hk minoff gs g s → off = minoff + (membersOf (gs ++ [g])).length →
      roomOf hk (membersOf (gs ++ g :: gsr)) ≤ BLCKSZ - MAXALIGN sizeofBTPageOpaqueData →
      ∃ s' gs' g', forItems (redoItem (intervalsOf minoff (gs ++ g :: gsr)) minoff) off (membersOf gsr) s = .ok s' ∧
        RedoInv hk minoff gs' g' s' ∧ gs' ++ [g'] = gs ++ g :: gsr := by
  induction gsr with
  | nil => exact fun _ hi _ _ => ⟨_, _, _, rfl, hi, rfl⟩
  | cons x gsr ih =>
      intro gs g s off hi hoff hroom
      have hlist : gs ++ g :: x :: gsr = gs ++ [g] ++ x :: gsr := by rw [List.append_assoc]; rfl
      have hmore := redo_more g.rest (x :: gsr) hi
      rw [decide_eq_false (Nat.lt_irrefl _)] at hmore
      have hroom' : roomOf hk (membersOf (gs ++ [g])) ≤ BLCKSZ - MAXALIGN sizeofBTPageOpaqueData := by
        refine le_trans ?_ hroom
        have happ : membersOf (gs ++ [g] ++ x :: gsr) = membersOf (gs ++ [g]) ++ membersOf (x :: gsr) :=
          List.flatMap_append
        rw [hlist, happ, roomOf, roomOf, physSum_append]
        omega
      obtain ⟨q, st, saving, h1, h2, _, h4, h5⟩ := finish_pending_spec hi.done hi.pending hroom'
      obtain ⟨st', j1, j2, j3⟩ := start_pending_spec st (t := x.base)
        (by rw [h5, hi.palloced]; exact hfit x List.mem_cons_self) off
      obtain ⟨_, e2, e3, e4⟩ := limits_eq j3
      have hi' : RedoInv hk minoff (gs ++ [g]) ⟨x.base, []⟩ (q, st') :=
        ⟨⟨h2.page, e4.trans h2.intervals⟩, hoff ▸ j2, e2.trans (h4.trans hi.limit), e3.trans (h5.trans hi.palloced)⟩
      obtain ⟨s1, k1, k2⟩ := redo_group x.rest (off + 1) hi' (by rw [hoff]; rfl)
        (hsize x List.mem_cons_self)
      rw [List.nil_append] at k1 k2
      obtain ⟨s2, gs2, g2, l1, l2, l3⟩ := ih (fun y hy => hsize y (List.mem_cons_of_mem _ hy))
        (fun y hy => hfit y (List.mem_cons_of_mem _ hy)) (off + 1 + x.rest.length) k2
        (by simp only [membersOf_concat _ (⟨x.base, x.rest⟩ : Group K), List.length_append, hoff, Group.members,
              List.length_cons]; omega) (hlist ▸ hroom)
      refine ⟨s2, gs2, g2, ?_, l2, l3.trans hlist.symm⟩
      have hne : off ≠ minoff := by
        rw [hoff, membersOf_concat, List.length_append, Group.members, List.length_cons]
        omega
      have hfirst : redoItem (intervalsOf minoff (gs ++ g :: x :: gsr)) minoff off x.base s = .ok (q, st') := by
        rw [redoItem, if_neg hne, if_neg (by rw [hmore]; exact Bool.false_ne_true), h1]
        simp only [bind, Except.bind, j1]
        rfl
      rw [membersOf_cons, Group.members, List.cons_append, forItems, hfirst, hlist]
      exact (forItems_append _ x.rest (membersOf gsr) (off + 1) _).trans (by rw [k1]; exact l1)

/-! ## 7. The pass and its replay -/

/-- A leaf page: the high key unless it is the rightmost one, and the data items. -/
structure LeafPage (p : BTPage K) (hk : List (PageItem (IndexTuple K))) (data : List (IndexTuple K)) : Prop where
  page : Items hk data p.page
  hikey : hk.length = if p.opq.P_RIGHTMOST then 0 else 1

/-- `ItemPointerCompare(a, b) < 0`. -/
def tidLt (a b : ItemPointer) : Prop := a.blkno < b.blkno ∨ a.blkno = b.blkno ∧ a.offno < b.offno

/-- The order of the entries of an index: the keys first, then the heap TIDs. -/
def entryLt {C O : Type} [LT O] (rank : C → O) (a b : C × ItemPointer) : Prop :=
  rank a.1 < rank b.1 ∨ rank a.1 = rank b.1 ∧ tidLt a.2 b.2

/-- **The pages a deduplication pass is given**: leaf pages of an index whose keys are ordered by `rank`. -/
structure DedupPage {O : Type} [LinearOrder O] (rel : Relation K D) (rank : List (Option D) → O) (p : BTPage K)
    (hk : List (PageItem (IndexTuple K))) (data : List (IndexTuple K)) : Prop where
  leaf : LeafPage p hk data
  nonempty : data ≠ []
  size_le : ∀ t ∈ data, t.size ≤ BTMaxItemSize
  posting_le : ∀ t ∈ data, ∀ l, t.tids = .posting l → t.size ≤ min (BTMaxItemSize / 2) INDEX_SIZE_MASK
  sorted : (data.flatMap (IndexTuple.entries rel)).Pairwise (entryLt rank)

variable {p : BTPage K} {O : Type} [LinearOrder O] {rank : List (Option D) → O}

theorem LeafPage.room (h : LeafPage p hk data) : roomOf hk data ≤ BLCKSZ - MAXALIGN sizeofBTPageOpaqueData := by
  rw [← h.page.room_eq, ← h.page.special]
  exact p.page.fits

/-- The new page starts with the high key. -/
theorem copyHighKey_spec (h : LeafPage p hk data) :
    ∃ q, copyHighKey p PageGetTempPageCopySpecial = .ok q ∧ Items hk [] q := by
  have hroom := h.room
  unfold copyHighKey
  by_cases hr : p.opq.P_RIGHTMOST = true
  · have hhk := h.hikey
    rw [if_pos hr] at hhk ⊢
    rw [List.length_eq_zero_iff.mp hhk]
    exact ⟨_, rfl, rfl, rfl⟩
  · have hhk := h.hikey
    rw [if_neg hr] at hhk ⊢
    obtain ⟨x, rfl⟩ := List.length_eq_one_iff.mp hhk
    rw [h.page.items, List.cons_append]
    have hadd : (PageGetTempPageCopySpecial : Page (IndexTuple K)).pd_lower + sizeofItemIdData + MAXALIGN x.lp_len ≤
        (PageGetTempPageCopySpecial : Page (IndexTuple K)).pd_upper := by
      have h1 : usedSpace [x] = MAXALIGN x.lp_len := by simp [usedSpace]
      rw [roomOf, List.length_singleton, Nat.mul_one, h1] at hroom
      show SizeOfPageHeaderData + 0 + sizeofItemIdData + MAXALIGN x.lp_len ≤
        BLCKSZ - MAXALIGN sizeofBTPageOpaqueData - 0
      omega
    simp only [PageAddItem, dif_pos hadd]
    exact ⟨_, rfl, rfl, rfl⟩

theorem LeafPage.firstDataKey (h : LeafPage p hk data) : p.opq.P_FIRSTDATAKEY = hk.length + 1 := by
  rw [BTPageOpaqueData.P_FIRSTDATAKEY, h.hikey]
  split <;> rfl

theorem LeafPage.itemsFrom (h : LeafPage p hk data) : itemsFrom p.page p.opq.P_FIRSTDATAKEY = data := by
  rw [Nbtree.itemsFrom, h.firstDataKey, Nat.add_sub_cancel, h.page.items, List.drop_left, List.map_map]
  exact (List.map_congr_left fun _ _ => rfl).trans (List.map_id _)

/-- The heap TIDs of every tuple fit into the array. -/
theorem DedupPage.fit (h : DedupPage rel rank p hk data) {t : IndexTuple K} (ht : t ∈ data) :
    t.htids.length * sizeofItemPointerData ≤ min (BTMaxItemSize / 2) INDEX_SIZE_MASK := by
  have hk' := t.size_bounds.2.2.2
  rcases htids : t.tids with tid | l
  · rw [IndexTuple.htids, htids]
    show 1 * sizeofItemPointerData ≤ _
    decide
  · have := h.posting_le t ht l htids
    omega

/-- **A pass cuts the data items into groups.** -/
theorem dedup_groups [DecidableEq D] (h : DedupPage rel rank p hk data) {newpage : Page (IndexTuple K)}
    (hnew : Items hk [] newpage) (newitemsz : Nat) (singlevalstrat : Bool) :
    ∃ s gs g, forItems (dedupItem rel newitemsz p.opq.P_FIRSTDATAKEY) p.opq.P_FIRSTDATAKEY data
        ⟨newpage, .init (min (BTMaxItemSize / 2) INDEX_SIZE_MASK), 0, singlevalstrat⟩ = .ok s ∧
      PassInv rel hk p.opq.P_FIRSTDATAKEY gs g s ∧ membersOf (gs ++ [g]) = data := by
  have hroom := h.leaf.room
  have hfit := fun t => h.fit (t := t)
  have hne := h.nonempty
  clear h
  cases data with
  | nil => exact absurd rfl hne
  | cons t l =>
      obtain ⟨st, h1, h2, h3⟩ := start_pending_spec (.init (min (BTMaxItemSize / 2) INDEX_SIZE_MASK)) (t := t)
        (hfit t List.mem_cons_self) p.opq.P_FIRSTDATAKEY
      obtain ⟨_, e2, e3, e4⟩ := limits_eq h3
      have hi : PassInv rel hk p.opq.P_FIRSTDATAKEY [] ⟨t, []⟩ ⟨newpage, st, 0, singlevalstrat⟩ :=
        ⟨⟨hnew, e4⟩, h2, fun x hx => List.mem_singleton.mp hx ▸ group_single_ok t, e2.le, e3⟩
      obtain ⟨s, gs, g, k1, k2, k3⟩ := dedup_run l
        (fun x hx => hfit x (List.mem_cons_of_mem _ hx)) hi hroom rfl
      refine ⟨s, gs, g, ?_, k2, k3⟩
      rw [forItems, dedupItem, if_pos rfl]
      simp only [bind, Except.bind, h1]
      exact k1

/-- **The replay of the intervals of some groups** makes their page. -/
theorem redo_groups (h : DedupPage rel rank p hk data) {groups : List (Group K)} (hm : membersOf groups = data)
    (hok : ∀ x ∈ groups, x.Ok rel) (lsn : Nat) :
    ∃ q, btree_xlog_dedup p (intervalsOf p.opq.P_FIRSTDATAKEY groups) lsn = .ok q ∧
      Items hk (groups.map Group.final) q.page ∧ q.opq = clearGarbage p.opq ∧ q.pd_lsn = lsn := by
  obtain ⟨newpage, hnew, hit⟩ := copyHighKey_spec h.leaf
  have hroom := h.leaf.room
  have hcap : min (BTMaxItemSize / 2) INDEX_SIZE_MASK ≤ BTMaxItemSize := by decide
  have hsize : ∀ x ∈ groups, x.rest ≠ [] → x.mergedSize ≤ BTMaxItemSize := fun x hx hr =>
    ((hok x hx).size hr).trans hcap
  have hfit : ∀ x ∈ groups, x.base.htids.length * sizeofItemPointerData ≤ BTMaxItemSize := fun x hx =>
    (h.fit (hm ▸ List.mem_flatMap.mpr ⟨x, hx, List.mem_cons_self⟩)).trans hcap
  unfold btree_xlog_dedup
  rw [hnew]
  simp only [bind, Except.bind, h.leaf.itemsFrom]
  cases groups with
  | nil => exact absurd hm.symm h.nonempty
  | cons g gs =>
      obtain ⟨st, h1, h2, h3⟩ := start_pending_spec (.init BTMaxItemSize) (t := g.base)
        (hfit g List.mem_cons_self) p.opq.P_FIRSTDATAKEY
      obtain ⟨_, e2, e3, e4⟩ := limits_eq h3
      have hi : RedoInv hk p.opq.P_FIRSTDATAKEY [] ⟨g.base, []⟩ (newpage, st) := ⟨⟨hit, e4⟩, h2, e2, e3⟩
      obtain ⟨s1, k1, k2⟩ := redo_group g.rest (p.opq.P_FIRSTDATAKEY + 1) hi rfl
        (hsize g List.mem_cons_self)
      have k1' : forItems (redoItem (intervalsOf p.opq.P_FIRSTDATAKEY (g :: gs)) p.opq.P_FIRSTDATAKEY)
          (p.opq.P_FIRSTDATAKEY + 1) g.rest (newpage, st) = .ok s1 := k1
      have k2' : RedoInv hk p.opq.P_FIRSTDATAKEY [] g s1 := k2
      obtain ⟨s2, gs2, g2, l1, l2, l3⟩ := redo_run gs (fun x hx => hsize x (List.mem_cons_of_mem _ hx))
        (fun x hx => hfit x (List.mem_cons_of_mem _ hx)) (p.opq.P_FIRSTDATAKEY + 1 + g.rest.length) k2'
        (by simp only [List.nil_append, membersOf, List.flatMap_singleton, Group.members, List.length_cons]; omega)
        (by rw [List.nil_append, hm]; exact hroom)
      obtain ⟨q, st', saving, j1, j2, _⟩ := finish_pending_spec l2.done l2.pending
        (by rw [l3, List.nil_append, hm]; exact hroom)
      have hrun : forItems (redoItem (intervalsOf p.opq.P_FIRSTDATAKEY (g :: gs)) p.opq.P_FIRSTDATAKEY)
          p.opq.P_FIRSTDATAKEY data (newpage, .init BTMaxItemSize) = .ok s2 := by
        rw [← hm, membersOf_cons, Group.members, List.cons_append, forItems, redoItem, if_pos rfl]
        simp only [bind, Except.bind, h1]
        exact (forItems_append _ g.rest (membersOf gs) _ _).trans (by rw [k1']; exact l1)
      rw [hrun]
      simp only [j1]
      refine ⟨_, rfl, ?_, rfl, rfl⟩
      rw [l3] at j2
      exact j2.page

/-- Entries of an ordered index that belong to one tuple have increasing heap TIDs. -/
theorem htids_increasing {l : List (IndexTuple K)} (hs : (l.flatMap (IndexTuple.entries rel)).Pairwise (entryLt rank))
    {t : IndexTuple K} (ht : t ∈ l) : t.htids.Pairwise tidLt := by
  have h1 : (t.entries rel).Pairwise (entryLt rank) := (List.pairwise_flatMap.mp hs).1 t ht
  exact (List.pairwise_map.mp h1).imp fun h => (h.resolve_left (lt_irrefl _)).2

/-- **Deduplication keeps the contents of a leaf page, and its replay makes the same page.** Whatever the new
    item, its size and the kind of the pass, no error is taken: the page keeps its high key, its data items
    have the same entries in the same order, posting lists are increasing and no tuple is too large; and if a
    record is logged, its replay on the page before the pass makes the page after it, but for the LSN. -/
theorem dedup_pass_spec [DecidableEq D] (h : DedupPage rel rank p hk data) (newitem : IndexTuple K) (newitemsz : Nat)
    (bottomupdedup : Bool) (recptr : Option Nat) :
    ∃ r data', bt_dedup_pass rel p newitem newitemsz bottomupdedup recptr = .ok r ∧ LeafPage r.page hk data' ∧
      data'.flatMap (IndexTuple.entries rel) = data.flatMap (IndexTuple.entries rel) ∧
      (∀ t ∈ data', t.htids.Pairwise tidLt) ∧ (∀ t ∈ data', t.size ≤ BTMaxItemSize) ∧
      ∀ intervals, r.xlrec_dedup = some intervals → ∀ lsn,
        ∃ q, btree_xlog_dedup p intervals lsn = .ok q ∧ q = { r.page with pd_lsn := lsn } := by
  obtain ⟨newpage, hnew, hit⟩ := copyHighKey_spec h.leaf
  obtain ⟨s, gs, g, h1, h2, h3⟩ := dedup_groups h hit (newitemsz + sizeofItemIdData)
    (!bottomupdedup && bt_do_singleval rel p.page p.opq.P_FIRSTDATAKEY newitem)
  obtain ⟨q, st, saving, k1, k2, _⟩ := finish_pending_spec h2.done h2.pending (h3 ▸ h.leaf.room)
  unfold bt_dedup_pass
  rw [hnew]
  simp only [bind, Except.bind, h.leaf.itemsFrom, h1, k1]
  by_cases hivs : st.intervals = []
  · rw [if_pos hivs]
    exact ⟨_, data, rfl, h.leaf, rfl, fun t ht => htids_increasing h.sorted ht, h.size_le, nofun⟩
  · rw [if_neg hivs]
    have hopq : (clearGarbage p.opq).P_RIGHTMOST = p.opq.P_RIGHTMOST := by
      unfold clearGarbage
      split <;> rfl
    have hentries : ((gs ++ [g]).map Group.final).flatMap (IndexTuple.entries rel) =
        data.flatMap (IndexTuple.entries rel) := by
      rw [← h3, membersOf, List.flatMap_assoc, List.flatMap_map]
      exact List.flatMap_congr fun x hx => (h2.ok x hx).entries
    refine ⟨_, _, rfl, ⟨k2.page, ?_⟩, hentries, fun t ht => ?_, fun t ht => ?_, fun intervals hrec lsn => ?_⟩
    · simp only [hopq]
      exact h.leaf.hikey
    · exact htids_increasing (hentries ▸ h.sorted) ht
    · obtain ⟨x, hx, rfl⟩ := List.mem_map.mp ht
      have hb : x.base ∈ data := h3 ▸ List.mem_flatMap.mpr ⟨x, hx, List.mem_cons_self⟩
      exact (h2.ok x hx).size_le (h.size_le _ hb)
    · obtain ⟨_, _, rfl⟩ := Option.map_eq_some_iff.mp hrec
      obtain ⟨r, j1, j2, j3, j4⟩ := redo_groups h h3 h2.ok lsn
      rw [k2.intervals]
      refine ⟨r, j1, ?_⟩
      -- both pages hold the same items
      have hpage : r.page = q := Page.ext (j2.items.trans k2.page.items.symm) (j2.special.trans k2.page.special.symm)
      obtain ⟨rp, ro, rl⟩ := r
      simp only at hpage j3 j4
      rw [hpage, j3, j4]

/-- An index over one attribute whose keys are their own images. -/
def idRelation : Relation Nat Nat := ⟨1, fun k _ => some k⟩

/-- A plain tuple of sixteen bytes. -/
def plainTuple (k offno : Nat) : IndexTuple Nat :=
  ⟨k, 16, .plain ⟨0, offno⟩, by decide, Nat.le_refl 16, nofun⟩

/-- The rightmost page with three tuples, two of them of one key. -/
def threeTuples : BTPage Nat where
  page := ⟨[(plainTuple 5 1).pageItem, (plainTuple 5 2).pageItem, (plainTuple 7 1).pageItem], 8176, by decide⟩
  opq := ⟨0, 0, 0, 0, 0⟩
  pd_lsn := 0

theorem dedup_pass_spec_three : ∃ r data',
    bt_dedup_pass idRelation threeTuples (plainTuple 7 2) 16 false (some 1) = .ok r ∧ LeafPage r.page [] data' ∧
      data'.flatMap (IndexTuple.entries idRelation) =
        [([some 5], ⟨0, 1⟩), ([some 5], ⟨0, 2⟩), ([some 7], ⟨0, 1⟩)] ∧
      (∀ t ∈ data', t.htids.Pairwise tidLt) ∧ (∀ t ∈ data', t.size ≤ BTMaxItemSize) ∧
      ∀ intervals, r.xlrec_dedup = some intervals → ∀ lsn,
        ∃ q, btree_xlog_dedup threeTuples intervals lsn = .ok q ∧ q = { r.page with pd_lsn := lsn } :=
  have h : DedupPage idRelation (fun c => ((c.headD none).getD 0 : Nat)) threeTuples []
      [plainTuple 5 1, plainTuple 5 2, plainTuple 7 1] :=
    { leaf := ⟨⟨rfl, rfl⟩, rfl⟩
      nonempty := nofun
      size_le := by
        intro t ht
        have : t.size = 16 := by
          simp only [List.mem_cons, List.not_mem_nil, or_false] at ht
          rcases ht with rfl | rfl | rfl <;> rfl
        rw [this]
        decide
      posting_le := by
        intro t ht l hl
        simp only [List.mem_cons, List.not_mem_nil, or_false] at ht
        rcases ht with rfl | rfl | rfl <;> cases hl
      sorted := by
        show [(([some 5] : List (Option Nat)), (⟨0, 1⟩ : ItemPointer)), ([some 5], ⟨0, 2⟩), ([some 7], ⟨0, 1⟩)].Pairwise _
        simp [entryLt, tidLt] }
  dedup_pass_spec h (plainTuple 7 2) 16 false (some 1)

end Pgvec.Nbtree
