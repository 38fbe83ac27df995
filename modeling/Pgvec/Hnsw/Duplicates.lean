/-
  File:      Pgvec/Hnsw/Duplicates.lean
  Subject:   WHICH DUPLICATES `FindDuplicateInMemory` AND `FindDuplicateOnDisk` FIND.

  Both go through the layer-0 neighbors of the new element and stop at the first one with another value,
  "since ordered by distance". The list is not always ordered this way: `SelectNeighbors` gives a short
  list back as it came, furthest first, and puts rejected candidates behind the selected ones.

  * `findDuplicateInMemory_eq`, `run_findDuplicateOnDisk` -- both look at the run of equal neighbors the list
    begins with, and take the first one with room;
  * `addsInMemory_iff`, `addsOnDisk_iff`; **`duplicate_found_iff`** -- a duplicate with room is found exactly
    when one stands in that run;
  * `duplicate_missed` -- a new element whose duplicate is missed, in memory and on disk.
-/
import Pgvec.Hnsw.MemoryBuild
import Pgvec.Hnsw.PlacedOnDisk
import Pgvec.Hnsw.ScanComplete

namespace Pgvec.Hnsw

open Conc

variable {V δ : Type} [DecidableEq V]

/-! ## 1. In memory -/

/-- The element has the value. -/
def HnswGraph.sameValue (g : HnswGraph V δ) (value : V) (i : Nat) : Bool :=
  (g.elements[i]?).any fun e => decide (e.value = value)

/-- The element holds fewer than `HNSW_HEAPTIDS` heap TIDs. -/
def HnswGraph.hasRoom (g : HnswGraph V δ) (i : Nat) : Bool :=
  (g.elements[i]?).any fun e => decide (e.heaptids.length < HNSW_HEAPTIDS)

section Memory

variable {g : HnswGraph V δ}

/-- **What `FindDuplicateInMemory` finds**; no element holds more heap TIDs than its array has slots. -/
theorem findDuplicateInMemory_eq (hfull : ∀ e ∈ g.elements, e.heaptids.length ≤ HNSW_HEAPTIDS) (value : V) :
    ∀ l : List Nat, FindDuplicateInMemory g value l = (l.takeWhile (g.sameValue value)).find? g.hasRoom
  | [] => rfl
  | i :: l => by
      unfold FindDuplicateInMemory
      cases he : g.elements[i]? with
      | none =>
          have hsame : g.sameValue value i = false := by
            unfold HnswGraph.sameValue
            rw [he]
            rfl
          rw [List.takeWhile_cons_of_neg (by rw [hsame]; exact Bool.false_ne_true)]
          rfl
      | some e =>
          have hle := hfull e (List.mem_of_getElem? he)
          have hsame : g.sameValue value i = decide (e.value = value) := by
            unfold HnswGraph.sameValue
            rw [he]
            rfl
          have hroom : g.hasRoom i = decide (e.heaptids.length < HNSW_HEAPTIDS) := by
            unfold HnswGraph.hasRoom
            rw [he]
            rfl
          simp only
          split
          · rename_i hne
            rw [List.takeWhile_cons_of_neg (by rw [hsame, decide_eq_true_iff]; exact hne)]
            rfl
          · rename_i heq
            rw [List.takeWhile_cons_of_pos (by rw [hsame, decide_eq_true_iff]; exact not_not.mp heq)]
            split
            · rename_i hx
              rw [List.find?_cons_of_neg (by rw [hroom, decide_eq_true_iff]; omega)]
              exact findDuplicateInMemory_eq hfull value l
            · rename_i hx
              rw [List.find?_cons_of_pos (by rw [hroom, decide_eq_true_iff]; omega)]

variable [LinearOrder δ]

omit [DecidableEq V] in
/-- Connecting an element adds none. -/
theorem updateNeighbors_length (mem : MemSpace) (support : HnswSupport V δ) (m n : Nat) (e : MemElement V δ)
    (g : HnswGraph V δ) :
    (UpdateNeighborsInMemory mem support m n e g).elements.length = g.elements.length := by
  have hinner : ∀ (lc : Nat) (l : List (HnswCandidate Nat δ)) (g : HnswGraph V δ),
      (l.foldl (updateConnectionInMemory mem support m n lc) g).elements.length = g.elements.length := by
    intro lc l
    induction l with
    | nil => exact fun _ => rfl
    | cons hc l ih =>
        intro g
        rw [List.foldl_cons, ih]
        simp only [updateConnectionInMemory, HnswGraph.modify, List.length_modify]
  unfold UpdateNeighborsInMemory
  generalize (List.range (e.level + 1)).reverse = layers
  induction layers generalizing g with
  | nil => rfl
  | cons lc layers ih => rw [List.foldl_cons, ih, hinner]

/-- **The contract of `UpdateGraphInMemory`**: if a layer-0 neighbor has the value and room, the heap TID goes to
    such a neighbor, and that is all that happens. -/
def AddsInMemory (mem : MemSpace) (support : HnswSupport V δ) (m : Nat) (g : HnswGraph V δ)
    (e : MemElement V δ) (heaptid : ItemPointer) : Prop :=
  (∃ i ∈ (e.layer 0).getD [], g.sameValue e.value i = true ∧ g.hasRoom i = true) →
    ∃ i ∈ (e.layer 0).getD [], g.sameValue e.value i = true ∧ g.hasRoom i = true ∧
      UpdateGraphInMemory mem support m g e heaptid = AddDuplicateInMemory g i heaptid

theorem addsInMemory_iff (mem : MemSpace) (support : HnswSupport V δ) (m : Nat)
    (hfull : ∀ e ∈ g.elements, e.heaptids.length ≤ HNSW_HEAPTIDS) (e : MemElement V δ)
    (heaptid : ItemPointer) : AddsInMemory mem support m g e heaptid ↔
      ((∃ i ∈ (e.layer 0).getD [], g.sameValue e.value i = true ∧ g.hasRoom i = true) →
        ∃ i ∈ ((e.layer 0).getD []).takeWhile (g.sameValue e.value), g.hasRoom i = true) := by
  have hfind := findDuplicateInMemory_eq hfull e.value ((e.layer 0).getD [])
  refine imp_congr_right fun _ => ⟨?_, ?_⟩
  · intro h
    obtain ⟨i, _, _, _, hi⟩ := h
    unfold UpdateGraphInMemory at hi
    split at hi
    · rename_i dup hdup
      rw [hfind] at hdup
      exact ⟨dup, List.mem_of_find?_eq_some hdup, List.find?_some hdup⟩
    · -- a new element makes the graph longer
      have hlen := congrArg (fun g : HnswGraph V δ => g.elements.length) hi
      have hnew := updateNeighbors_length mem support m g.elements.length e (AddElementInMemory g e)
      have hsame : (UpdateNeighborsInMemory mem support m g.elements.length e
          (AddElementInMemory g e)).elements.length = g.elements.length := by
        simp only [AddDuplicateInMemory, HnswGraph.modify, List.length_modify] at hlen
        split at hlen <;> exact hlen
      have hadd : (AddElementInMemory g e).elements.length = g.elements.length + 1 := by
        rw [AddElementInMemory, List.length_append]
        rfl
      omega
  · intro h
    obtain ⟨i, hi, hroom⟩ := h
    obtain ⟨dup, hdup⟩ := Option.isSome_iff_exists.mp (List.find?_isSome.mpr ⟨i, hi, hroom⟩)
    have hmem := List.mem_of_find?_eq_some hdup
    refine ⟨dup, List.takeWhile_subset _ hmem, List.mem_takeWhile_imp hmem, List.find?_some hdup, ?_⟩
    unfold UpdateGraphInMemory
    rw [hfind, hdup]

end Memory

/-! ## 2. On disk -/

/-- The copy of the element has the value. -/
def HnswCandidate.sameValue (value : V) (hc : HnswCandidate (HnswElement V) δ) : Bool :=
  decide (hc.element.value = some value)

omit [DecidableEq V] in
/-- The element tuple holds a heap TID, and fewer than `HNSW_HEAPTIDS`. -/
def Index.hasRoom (idx : Index V) (t : ItemPointer) : Bool :=
  (idx.elem? t).any fun e => decide (0 < e.tids.length) && decide (e.tids.length < HNSW_HEAPTIDS)

section Disk

variable {t : Nat} {s : St V}

omit [DecidableEq V] in
theorem tids_length_le (e : HnswElementTuple V) : e.tids.length ≤ HNSW_HEAPTIDS := by
  unfold HnswElementTuple.tids
  rw [← e.hlen]
  exact (List.takeWhile_sublist _).length_le

omit [DecidableEq V] in
/-- **`AddDuplicateOnDisk` succeeds exactly when there is room**, and changes nothing otherwise. -/
theorem addDuplicate_resp (idx : Index V) (tid heaptid : ItemPointer) :
    (execPage (.addDuplicate tid heaptid) idx).resp = idx.hasRoom tid ∧
      (idx.hasRoom tid = false → (execPage (.addDuplicate tid heaptid) idx).commits = []) := by
  unfold Index.hasRoom
  simp only [execPage]
  cases he : idx.elem? tid with
  | none => exact ⟨rfl, fun _ => rfl⟩
  | some e =>
      have hle := tids_length_le e
      simp only [Option.any_some]
      unfold addHeapTid
      simp only
      split
      · rename_i etup' hadd
        split at hadd
        · rename_i hx
          have hroom : (decide (0 < e.tids.length) && decide (e.tids.length < HNSW_HEAPTIDS)) = false := by
            rw [Bool.and_eq_false_iff, decide_eq_false_iff_not, decide_eq_false_iff_not]
            omega
          exact ⟨hroom.symm, fun _ => rfl⟩
        · cases hadd
      · rename_i etup' hadd
        split at hadd
        · cases hadd
        · rename_i hx
          have hroom : (decide (0 < e.tids.length) && decide (e.tids.length < HNSW_HEAPTIDS)) = true := by
            rw [Bool.and_eq_true, decide_eq_true_iff, decide_eq_true_iff]
            omega
          exact ⟨hroom.symm, fun h => by rw [hroom] at h; cases h⟩

/-- **What `FindDuplicateOnDisk` run alone does.** -/
theorem run_findDuplicateOnDisk (value : V) (heaptid : ItemPointer) :
    ∀ l : List (HnswCandidate (HnswElement V) δ),
    run (hnswMachine V) t (FindDuplicateOnDisk value heaptid l) s =
      match (l.takeWhile (HnswCandidate.sameValue value)).find? fun hc => s.index.hasRoom hc.element.tid with
      | some hc => some (true, s.after (.addDuplicate hc.element.tid heaptid))
      | none => some (false, s)
  | [] => rfl
  | hc :: l => by
      unfold FindDuplicateOnDisk
      split
      · rename_i hne
        rw [List.takeWhile_cons_of_neg (by unfold HnswCandidate.sameValue; rw [decide_eq_true_iff]; exact hne)]
        rfl
      · rename_i heq
        rw [List.takeWhile_cons_of_pos
          (by unfold HnswCandidate.sameValue; rw [decide_eq_true_iff]; exact not_not.mp heq), run_section]
        obtain ⟨hresp, hcommits⟩ := addDuplicate_resp s.index hc.element.tid heaptid
        rw [hresp]
        cases hroom : s.index.hasRoom hc.element.tid with
        | true =>
            rw [List.find?_cons_of_pos (p := fun hc : HnswCandidate (HnswElement V) δ => s.index.hasRoom hc.element.tid) hroom]
            rfl
        | false =>
            rw [List.find?_cons_of_neg (p := fun hc : HnswCandidate (HnswElement V) δ => s.index.hasRoom hc.element.tid)
              (by rw [hroom]; exact Bool.false_ne_true)]
            have hafter : s.after (.addDuplicate hc.element.tid heaptid) = s := by
              unfold St.after Sect.final
              rw [hcommits hroom]
              rfl
            rw [hafter]
            exact run_findDuplicateOnDisk value heaptid l

variable [LinearOrder δ]

/-- **The contract of `FindDuplicateOnDisk`** and its caller: if a layer-0 neighbor has the value and room, the
    heap TID goes to such a neighbor, and the insert is over. -/
def AddsOnDisk (rel : HnswRel V δ) (e : LocalElement V δ) (value : V) (heaptid : ItemPointer) (m : Nat)
    (entryPoint : Option EntryPoint) (budget t : Nat) (s : St V) : Prop :=
  (∃ hc ∈ e.layer 0, hc.sameValue value = true ∧ s.index.hasRoom hc.element.tid = true) →
    ∃ hc ∈ e.layer 0, hc.sameValue value = true ∧ s.index.hasRoom hc.element.tid = true ∧
      run (hnswMachine V) t (FindDuplicateOnDisk value heaptid (e.layer 0)) s =
        some (true, s.after (.addDuplicate hc.element.tid heaptid)) ∧
      run (hnswMachine V) t (UpdateGraphOnDisk rel e value heaptid m entryPoint budget) s =
        some ((), s.after (.addDuplicate hc.element.tid heaptid))

theorem addsOnDisk_iff (rel : HnswRel V δ) (e : LocalElement V δ) (value : V) (heaptid : ItemPointer) (m : Nat)
    (entryPoint : Option EntryPoint) (budget t : Nat) (s : St V) :
    AddsOnDisk rel e value heaptid m entryPoint budget t s ↔
      ((∃ hc ∈ e.layer 0, hc.sameValue value = true ∧ s.index.hasRoom hc.element.tid = true) →
        ∃ hc ∈ (e.layer 0).takeWhile (HnswCandidate.sameValue value),
          s.index.hasRoom hc.element.tid = true) := by
  have hrun := run_findDuplicateOnDisk (t := t) (s := s) value heaptid (e.layer 0)
  refine imp_congr_right fun _ => ⟨?_, ?_⟩
  · intro ⟨hc, _, _, _, hfound, _⟩
    rw [hrun] at hfound
    split at hfound
    · rename_i dup hdup
      exact ⟨dup, List.mem_of_find?_eq_some hdup,
        List.find?_some (p := fun hc : HnswCandidate (HnswElement V) δ => s.index.hasRoom hc.element.tid) hdup⟩
    · cases hfound
  · intro ⟨hc, hmem, hroom⟩
    obtain ⟨dup, hdup⟩ := Option.isSome_iff_exists.mp
      (List.find?_isSome (p := fun hc : HnswCandidate (HnswElement V) δ => s.index.hasRoom hc.element.tid) |>.mpr
        ⟨hc, hmem, hroom⟩)
    have hin := List.mem_of_find?_eq_some hdup
    rw [hdup] at hrun
    refine ⟨dup, List.takeWhile_subset _ hin, List.mem_takeWhile_imp hin,
      List.find?_some (p := fun hc : HnswCandidate (HnswElement V) δ => s.index.hasRoom hc.element.tid) hdup, hrun, ?_⟩
    unfold UpdateGraphOnDisk
    rw [run_bind, hrun]
    rfl

end Disk

/-! ## 3. When a duplicate is found -/

/-- **A duplicate with room is found exactly when one stands among the equal neighbors the layer-0 list begins
    with**, in memory and on disk. -/
theorem duplicate_found_iff [LinearOrder δ] (rel : HnswRel V δ) (m : Nat) (heaptid : ItemPointer) :
    (∀ (mem : MemSpace) (g : HnswGraph V δ) (e : MemElement V δ),
      (∀ x ∈ g.elements, x.heaptids.length ≤ HNSW_HEAPTIDS) →
      (AddsInMemory mem rel.support m g e heaptid ↔
        ((∃ i ∈ (e.layer 0).getD [], g.sameValue e.value i = true ∧ g.hasRoom i = true) →
          ∃ i ∈ ((e.layer 0).getD []).takeWhile (g.sameValue e.value), g.hasRoom i = true))) ∧
    ∀ (e : LocalElement V δ) (value : V) (entryPoint : Option EntryPoint) (budget t : Nat) (s : St V),
      AddsOnDisk rel e value heaptid m entryPoint budget t s ↔
        ((∃ hc ∈ e.layer 0, hc.sameValue value = true ∧ s.index.hasRoom hc.element.tid = true) →
          ∃ hc ∈ (e.layer 0).takeWhile (HnswCandidate.sameValue value),
            s.index.hasRoom hc.element.tid = true) :=
  ⟨fun mem _ e hfull => addsInMemory_iff mem rel.support m hfull e heaptid,
    fun e value entryPoint budget t s => addsOnDisk_iff rel e value heaptid m entryPoint budget t s⟩

/-- Another 20 next to the 20 of the graph with two elements, which stands first in its list. -/
theorem duplicate_found_pair : AddsInMemory localMemory numberSupport 2 pairGraph
    ⟨[⟨7, 9⟩], 0, 1, 20, [⟨[⟨1, 0, false⟩, ⟨0, 10, false⟩], false⟩]⟩ ⟨7, 9⟩ :=
  ((duplicate_found_iff numberRel 2 ⟨7, 9⟩).1 localMemory pairGraph _ (by decide)).mpr
    fun _ => ⟨1, by decide, by decide⟩

/-- **A duplicate is missed.** After 0 and 10, the layer-0 list of another 0 is 10, 0: furthest first. The 0
    that is there has room, in memory and on the pages written from it, and is not found. -/
theorem duplicate_missed : ∃ (g : HnswGraph Nat Nat) (r : Option Nat × List (HnswNeighborArray Nat Nat))
    (idx : Index Nat) (locs : List Location) (x : (LocalElement Nat Nat × Option EntryPoint) × St Nat),
    insertAll localMemory numberRel 2 20 [⟨0, ⟨7, 1⟩, 0⟩, ⟨10, ⟨7, 2⟩, 0⟩] InitGraph = some g ∧
    HnswFindElementNeighbors (memFindEnv g localMemory numberSupport 0 2) 0
      (g.entryPoint.map (memEntryCandidate g numberSupport 0)) 64 false 20 = some r ∧
    ¬ AddsInMemory localMemory numberSupport 2 g ⟨[⟨7, 3⟩], 0, 1, 0, r.2⟩ ⟨7, 3⟩ ∧
    FlushPages (fun _ => 8) 2 g = .ok (idx, locs) ∧
    run (hnswMachine Nat) 0 (findNeighborsOnDisk numberRel (HnswInitElement ⟨7, 3⟩ 2 0 0) idx.metap.entry 2
      false 20) idx.atRest = some x ∧
    ¬ AddsOnDisk numberRel x.1.1 0 ⟨7, 3⟩ 2 x.1.2 20 0 x.2 := by
  have hrun : ((insertAll localMemory numberRel 2 20 [⟨0, ⟨7, 1⟩, 0⟩, ⟨10, ⟨7, 2⟩, 0⟩] InitGraph).bind fun g =>
      (HnswFindElementNeighbors (memFindEnv g localMemory numberSupport 0 2) 0
        (g.entryPoint.map (memEntryCandidate g numberSupport 0)) 64 false 20).bind fun r =>
      match FlushPages (fun _ => 8) 2 g with
      | .error _ => none
      | .ok (idx, _) => (run (hnswMachine Nat) 0 (findNeighborsOnDisk numberRel
          (HnswInitElement ⟨7, 3⟩ 2 0 0) idx.metap.entry 2 false 20) idx.atRest).map fun x =>
        let e : MemElement Nat Nat := ⟨[⟨7, 3⟩], 0, 1, 0, r.2⟩
        let l := (e.layer 0).getD []
        (g.elements.all fun e => decide (e.heaptids.length ≤ HNSW_HEAPTIDS)) &&
          (l.any fun i => g.sameValue 0 i && g.hasRoom i) && !(l.takeWhile (g.sameValue 0)).any g.hasRoom &&
          ((x.1.1.layer 0).any fun hc => hc.sameValue 0 && x.2.index.hasRoom hc.element.tid) &&
          !((x.1.1.layer 0).takeWhile (HnswCandidate.sameValue 0)).any fun hc =>
            x.2.index.hasRoom hc.element.tid) = some true := by
    decide +kernel
  obtain ⟨g, hg, hrun⟩ := Option.bind_eq_some_iff.mp hrun
  obtain ⟨r, hr, hrun⟩ := Option.bind_eq_some_iff.mp hrun
  split at hrun
  · cases hrun
  · rename_i idx locs hf
    obtain ⟨x, hx, hcheck⟩ := Option.map_eq_some_iff.mp hrun
    simp only [Bool.and_eq_true, Bool.not_eq_true', List.any_eq_true, List.any_eq_false, List.all_eq_true,
      decide_eq_true_iff] at hcheck
    obtain ⟨⟨⟨⟨hfull, hmem⟩, hmiss⟩, hdisk⟩, hmissDisk⟩ := hcheck
    refine ⟨g, r, idx, locs, x, hg, hr, fun hadds => ?_, hf, hx, fun hadds => ?_⟩
    · obtain ⟨i, hi, hroom⟩ := (addsInMemory_iff localMemory numberSupport 2 hfull _ ⟨7, 3⟩).mp hadds hmem
      exact hmiss i hi hroom
    · obtain ⟨hc, hi, hroom⟩ := (addsOnDisk_iff numberRel x.1.1 0 ⟨7, 3⟩ 2 x.1.2 20 0 x.2).mp hadds hdisk
      exact hmissDisk hc hi hroom

end Pgvec.Hnsw
