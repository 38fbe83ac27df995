/-
  File:      Pgvec/Hnsw/Issued.lean
  Subject:   THE OPERATIONS EACH PROGRAM ISSUES, whatever the index answers.

  * `exec_index`, `exec_keeps` -- what one operation does to the index;
  * `all_findNeighborsOnDisk` -- the search for neighbors only reads;
  * `Repairs` -- the operations of a repair: no page is added, no element is marked, and the insert page
    stays; `Repairs.step` -- what they keep; `RepairsPages` -- those under its lock;
  * `all_updateNeighborsOnDisk`, `all_repairOne`, `all_repairGraphEntryPoint` -- the parts of an insert and
    of `RepairGraph` that issue nothing else; `all_repairGraph` -- the pass;
  * `all_updateGraphOnDisk`, `all_removeHeapTids` -- the rest of an insert, and the first pass of a vacuum.
-/
import Pgvec.Hnsw.Sections
import Pgvec.Hnsw.Segments
import Pgvec.Hnsw.Vacuum

namespace Pgvec.Hnsw

open Conc PairingHeap

variable {V δ : Type} [LinearOrder δ]

/-! ## 1. One operation -/

/-- **An operation does to the index what its section does**; one off the pages leaves it. -/
theorem exec_index {t : Nat} {s : St V} {o : Op V} {r : Outcome (St V) o.Resp} (hx : (hnswMachine V).exec t o s = some r) :
    (∃ p, o = .page p ∧ r.final.index = (execPage p s.index).final s.index ∧
      r.commits = (execPage p s.index).commits.map fun i => { s with index := i }) ∨
    r.final.index = s.index ∧ r.commits = [] := by
  cases o with
  | page p =>
      cases hx
      exact Or.inl ⟨p, rfl, rfl, rfl⟩
  | lockPage lock mode caller =>
      simp only [hnswMachine] at hx
      split at hx
      · cases hx
      · cases hx
        exact Or.inr ⟨rfl, rfl⟩
  | unlockPage lock mode =>
      cases hx
      exact Or.inr ⟨rfl, rfl⟩
  | enter phase =>
      cases hx
      exact Or.inr ⟨rfl, rfl⟩

/-- **What the section keeps of the index, the operation keeps.** -/
theorem exec_keeps {P : Index V → Prop} {t : Nat} {s : St V} {o : Op V} {r : Outcome (St V) o.Resp}
    (hx : (hnswMachine V).exec t o s = some r) (hs : P s.index)
    (hpage : ∀ p, o = .page p → ∀ c ∈ (execPage p s.index).commits, P c) :
    P r.final.index ∧ ∀ c ∈ r.commits, P c.index := by
  rcases exec_index hx with ⟨p, rfl, hf, hc⟩ | ⟨hf, hc⟩
  · rw [hf, hc]
    refine ⟨Sect.final_of_commits hs (hpage p rfl), fun c hm => ?_⟩
    obtain ⟨i, hi, rfl⟩ := List.mem_map.mp hm
    exact hpage p rfl i hi
  · rw [hf, hc]
    exact ⟨hs, fun c hm => absurd hm List.not_mem_nil⟩

/-! ## 2. The search -/

section Search

variable (support : HnswSupport V δ) (q : Option V) (ins skip : Bool) (m ef budget : Nat)

theorem all_searchLoop (lc : Nat) : ∀ (n : Nat) (st : SearchState (HnswElement V) ItemPointer δ),
    All OnlyReads (fun _ => True) (searchLoop (diskEnv support q ins skip m lc) ef lc n st)
  | 0, _ => trivial
  | n + 1, st => by
      unfold searchLoop
      split
      · trivial
      · trivial
      · split
        · trivial
        · refine All.andThen ?_ fun r => All.andThen (All.foldlM _ trivial fun st u _ _ => ?_) fun st' =>
            all_searchLoop lc n st'
          · -- the neighbor tuple of the candidate
            refine ⟨trivial, fun n => ?_⟩
            cases n with
            | none => trivial
            | some n =>
                simp only [Prog.bind]
                split <;> trivial
          · -- the element tuple of one unvisited neighbor
            refine ⟨trivial, fun e => ?_⟩
            cases e <;> trivial

theorem all_searchLayer (ep : List (HnswSearchCandidate (HnswElement V) δ)) (lc : Nat)
    (v : List ItemPointer) : All OnlyReads (fun _ => True)
      (HnswSearchLayer (diskEnv support q ins skip m lc) ep ef lc v none true 0 budget) :=
  All.andThen (all_searchLoop support q ins skip m ef lc budget _) fun _ => trivial

end Search

section Find

variable (rel : HnswRel V δ) (q : Option V) (skip : Option ItemPointer) (m budget : Nat)

theorem all_greedyPhase (level : Nat) : ∀ (lc : Nat) (ep : List (HnswSearchCandidate (HnswElement V) δ)),
    All OnlyReads (fun _ => True) (greedyPhase (diskFindEnv rel q skip m) level budget lc ep)
  | 0, _ => trivial
  | lc + 1, ep => by
      unfold greedyPhase
      split
      · exact All.andThen (all_searchLayer rel.support q true skip.isSome m 1 budget ep (lc + 1) [])
          fun r => all_greedyPhase level lc r.w
      · trivial

theorem all_connectPhase (ef : Nat) : ∀ (lc : Nat) (ep : List (HnswSearchCandidate (HnswElement V) δ)),
    All OnlyReads (fun _ => True) (connectPhase (diskFindEnv rel q skip m) ef budget lc ep)
  | 0, ep => All.andThen (all_searchLayer rel.support q true skip.isSome m ef budget ep 0 []) fun _ => trivial
  | lc + 1, ep =>
      All.andThen (all_searchLayer rel.support q true skip.isSome m ef budget ep (lc + 1) []) fun r =>
        All.andThen (all_connectPhase ef lc r.w) fun _ => trivial

/-- **`HnswFindElementNeighbors` on disk only reads.** -/
theorem all_findNeighborsOnDisk (element : HnswElement V) (entryPoint : Option EntryPoint)
    (existing : Bool) : All OnlyReads (fun r : LocalElement V δ × Option EntryPoint => r.1.element = element)
      (findNeighborsOnDisk rel element entryPoint m existing budget) := by
  unfold findNeighborsOnDisk
  refine All.andThen ?_ fun r => rfl
  cases entryPoint with
  | none => trivial
  | some ep =>
      refine All.andThen ?_ fun c => All.andThen (all_greedyPhase _ _ _ _ _ _ _ _) fun w =>
        All.andThen (all_connectPhase _ _ _ _ _ _ _ _) fun _ => trivial
      -- the entry point is loaded
      refine ⟨trivial, fun e => ?_⟩
      cases e <;> trivial

end Find

/-! ## 3. Repairs -/

/-- **The operations of a repair.** -/
def Repairs : Op V → Prop
  | .page .getMetaPageInfo => True
  | .page (.updateMetaPage _ _ insertPage) => insertPage = none
  | .page (.loadElement _ _) => True
  | .page (.readNeighborTuple _) => True
  | .page (.updateNeighbor _) => True
  | .page (.overwriteNeighborTuple _ _ _) => True
  | .page _ => False
  | .lockPage _ _ _ => True
  | .unlockPage _ _ => True
  | .enter _ => True

/-- An operation that takes no page lock and gives none back. -/
def NoLock : Op V → Prop
  | .lockPage _ _ _ => False
  | .unlockPage _ _ => False
  | _ => True

/-- The operations of a repair while it holds its lock. -/
def RepairsPages (o : Op V) : Prop := Repairs o ∧ NoLock o

theorem OnlyReads.repairs {o : Op V} (h : OnlyReads o) : RepairsPages o := by
  cases o with
  | page o =>
      cases o with
      | loadElement tid l => exact ⟨trivial, trivial⟩
      | readNeighborTuple ntid => exact ⟨trivial, trivial⟩
      | _ => exact h.elim
  | _ => exact h.elim

theorem all_repairs {α : Type} {Q : α → Prop} {p : HnswProg V α} (h : All RepairsPages Q p) :
    All Repairs Q p := h.mono (fun _ ho => ho.1) fun _ h => h

/-- What an operation of a repair keeps: the pages, the insert page, and that nothing is marked. -/
structure RepairStep (idx idx' : Index V) : Prop where
  kept : Kept idx idx'
  length : idx'.pages.length = idx.pages.length
  insertPage : idx'.metap.insertPage = idx.metap.insertPage

theorem RepairStep.refl (idx : Index V) : RepairStep idx idx := ⟨.refl idx, rfl, rfl⟩

theorem RepairStep.trans {a b c : Index V} (h : RepairStep a b) (h' : RepairStep b c) : RepairStep a c :=
  ⟨h.kept.trans h'.kept, h'.length.trans h.length, h'.insertPage.trans h.insertPage⟩

/-- A section of a repair. -/
theorem execPage_repaired {o : PageOp V} (h : Repairs (.page o)) (idx : Index V) :
    ∀ c ∈ (execPage o idx).commits, RepairStep idx c := by
  have hkept := execPage_kept o (fun hm => by cases o <;> first | exact h.elim | exact hm.elim) idx
  by_cases ho : o.OnItems
  · intro c hc
    have hs := execPage_same o ho idx c hc
    exact ⟨hkept c hc, hs.length, by rw [hs.metap]⟩
  · cases o with
    | updateMetaPage ue ep ip =>
        intro c hc
        refine ⟨hkept c hc, ?_, ?_⟩ <;> rw [List.mem_singleton.mp hc]
        have hip : ip = none := h
        rw [hip]
        rfl
    | addElement e b nip => exact h.elim
    | _ => exact absurd trivial ho

/-- **An operation of a repair.** -/
theorem Repairs.step {o : Op V} (h : Repairs o) {t : Nat} {s : St V} {r : Outcome (St V) o.Resp}
    (hx : (hnswMachine V).exec t o s = some r) :
    RepairStep s.index r.final.index ∧ ∀ c ∈ r.commits, RepairStep s.index c.index :=
  exec_keeps hx (.refl _) fun _ hp => execPage_repaired (hp ▸ h) s.index

/-- The operations that connect an element: some read, the others put a TID into a slot. -/
def Links (o : Op V) : Prop := OnlyReads o ∨ ∃ u, o = .page (.updateNeighbor u)

theorem Links.repairs {o : Op V} (h : Links o) : RepairsPages o := by
  rcases h with h | ⟨u, rfl⟩
  · exact h.repairs
  · exact ⟨trivial, trivial⟩

/-- **`HnswUpdateNeighborsOnDisk`.** -/
theorem all_updateNeighborsOnDisk (rel : HnswRel V δ) (e : LocalElement V δ) (m : Nat)
    (checkExisting : Bool) :
    All Links (fun _ => True) (HnswUpdateNeighborsOnDisk rel e m checkExisting) := by
  refine All.foldlM _ trivial fun _ lc _ _ => All.foldlM _ trivial fun _ hc _ _ => ?_
  unfold updateOneNeighbor
  refine All.bind ((all_getUpdateIndex rel hc.element e.element hc.distance m _ lc).mono
    (fun _ ho => Or.inl ho) fun i _ => ?_)
  split
  · trivial
  · exact ⟨Or.inr ⟨_, rfl⟩, fun _ => trivial⟩

theorem all_lockPage (lock : PageLock) (mode : LockMode) (caller : Caller) :
    All Repairs (fun _ => True) (LockPage lock mode caller : HnswProg V Unit) := ⟨trivial, fun _ => trivial⟩

theorem all_unlockPage (lock : PageLock) (mode : LockMode) :
    All Repairs (fun _ => True) (UnlockPage lock mode : HnswProg V Unit) := ⟨trivial, fun _ => trivial⟩

theorem all_enter (phase : VacuumPhase) :
    All RepairsPages (fun _ => True) (enter phase : HnswProg V Unit) := ⟨⟨trivial, trivial⟩, fun _ => trivial⟩

theorem all_section (o : PageOp V) (h : Repairs (.page o)) :
    All RepairsPages (fun _ => True) (section_ o) := ⟨⟨h, trivial⟩, fun _ => trivial⟩

section Repair

variable (rel : HnswRel V δ) (m : Nat) (deleted : List ItemPointer) (budget : Nat)

theorem all_repairGraphElement (element : HnswElement V) (entryPoint : Option EntryPoint) :
    All RepairsPages (fun _ => True) (RepairGraphElement rel m element entryPoint budget) := by
  unfold RepairGraphElement
  split
  · trivial
  · refine All.bind ((all_findNeighborsOnDisk rel m budget _ entryPoint true).mono
      (fun _ ho => ho.repairs) fun r _ => ⟨⟨trivial, trivial⟩, fun ok => ?_⟩)
    show All _ _ (if ok = true then _ else _)
    split
    · exact All.andThen ((all_updateNeighborsOnDisk rel r.1 m true).mono (fun _ ho => ho.repairs)
        fun _ h => h) fun _ => trivial
    · trivial

theorem all_needsUpdated (element : HnswElement V) :
    All RepairsPages (fun _ => True) (NeedsUpdated deleted element) := by
  refine ⟨⟨trivial, trivial⟩, fun n => ?_⟩
  cases n <;> trivial

theorem all_loadElement (tid : ItemPointer) :
    All RepairsPages (fun _ => True) (HnswLoadElement tid : HnswProg V _) := by
  refine ⟨⟨trivial, trivial⟩, fun e => ?_⟩
  cases e <;> trivial

theorem all_getEntryPoint : All RepairsPages (fun _ => True) (HnswGetEntryPoint : HnswProg V _) :=
  ⟨⟨trivial, trivial⟩, fun _ => trivial⟩

theorem all_repairConnections (element : HnswElement V) (entryPoint : Option EntryPoint)
    (lockmode : LockMode) :
    All Repairs (fun _ => True) (repairConnections rel m element entryPoint lockmode budget) := by
  refine All.andThen (all_repairs (all_repairGraphElement rel m budget element entryPoint)) fun ep => ?_
  split
  · exact All.andThen (all_repairs (all_section _ rfl)) fun _ => all_unlockPage _ _
  · exact all_unlockPage _ _

/-- **One element of `RepairGraph`.** -/
theorem all_repairOne (element : HnswElement V) :
    All Repairs (fun _ => True) (repairOne rel m deleted budget element) := by
  refine All.andThen (all_repairs (all_needsUpdated deleted element)) fun needed => ?_
  split
  · refine All.andThen (all_lockPage _ _ _) fun _ => All.andThen (all_repairs all_getEntryPoint) fun ep => ?_
    split
    · exact All.andThen (all_unlockPage _ _) fun _ => All.andThen (all_lockPage _ _ _) fun _ =>
        All.andThen (all_repairs all_getEntryPoint) fun ep => all_repairConnections rel m budget element ep _
    · exact all_repairConnections rel m budget element ep _
  · trivial

/-- The entry point a repair gives back is not used. -/
theorem all_discardRepair (element : HnswElement V) (entryPoint : Option EntryPoint) :
    All RepairsPages (fun _ => True) (discard <| RepairGraphElement rel m element entryPoint budget) :=
  All.andThen (all_repairGraphElement rel m budget element entryPoint) fun _ => trivial

theorem all_repairHighestPoint (highestPoint : Option EntryPoint) :
    All Repairs (fun _ => True) (repairHighestPoint rel m deleted highestPoint budget) := by
  unfold repairHighestPoint
  cases highestPoint with
  | none => trivial
  | some p =>
      refine All.andThen (all_lockPage _ _ _) fun _ => All.andThen (all_repairs (all_loadElement p.tid))
        fun element => All.andThen (all_repairs (all_needsUpdated deleted element)) fun needed => ?_
      split
      · exact All.andThen (all_repairs all_getEntryPoint) fun ep => All.andThen
          (all_repairs (all_discardRepair rel m budget element ep)) fun _ =>
          All.andThen (all_unlockPage _ _) fun _ => trivial
      · exact All.andThen (all_unlockPage _ _) fun _ => trivial

theorem all_repairEntryPoint (highestPoint : Option EntryPoint) :
    All RepairsPages (fun _ => True) (repairEntryPoint rel m deleted highestPoint budget) := by
  unfold repairEntryPoint
  refine All.andThen all_getEntryPoint fun ep => ?_
  cases ep with
  | none => trivial
  | some ep =>
      simp only
      split
      · exact all_section _ rfl
      · refine All.andThen (all_loadElement ep.tid) fun element =>
          All.andThen (all_needsUpdated deleted element) fun needed => ?_
        split
        · exact all_discardRepair rel m budget element highestPoint
        · trivial

/-- **`RepairGraphEntryPoint`.** -/
theorem all_repairGraphEntryPoint (highestPoint : Option EntryPoint) :
    All Repairs (fun _ => True) (RepairGraphEntryPoint rel m deleted highestPoint budget) :=
  All.andThen (all_repairHighestPoint rel m deleted budget highestPoint) fun hp =>
    All.andThen (all_lockPage _ _ _) fun _ =>
      All.andThen (all_repairs (all_repairEntryPoint rel m deleted budget hp)) fun _ =>
        All.andThen (all_repairs (all_enter _)) fun _ => all_unlockPage _ _

/-- **`RepairGraph`** reads pages beside that. -/
theorem all_repairGraph {ok : Op V → Prop} (hok : ∀ o, Repairs o → ok o)
    (hlive : ∀ b, ok (.page (.liveElements b))) (vs : VacuumState) :
    All ok (fun _ => True) (RepairGraph rel m vs budget) := by
  have hrepairs : ∀ {α : Type} {p : HnswProg V α}, All Repairs (fun _ => True) p → All ok (fun _ => True) p :=
    fun h => h.mono hok fun _ h => h
  have hloop : ∀ (n : Nat) (b : Option Nat), All ok (fun _ => True)
      (repairGraphLoop rel m vs.deleted budget n b) := by
    intro n
    induction n with
    | zero => intro b; cases b <;> trivial
    | succ n ih =>
        intro b
        cases b with
        | none => trivial
        | some b =>
            unfold repairGraphLoop
            refine All.bind ⟨hlive b, fun r => ?_⟩
            cases r with
            | none => trivial
            | some r =>
                have hrepair : All ok (fun _ => True)
                    (r.elements.foldlM (fun _ element => repairOne rel m vs.deleted budget element) ()) :=
                  All.foldlM _ trivial fun _ element _ _ =>
                    hrepairs (all_repairOne rel m vs.deleted budget element)
                exact All.andThen hrepair fun _ => ih _
  exact All.andThen (hrepairs (all_lockPage _ _ _)) fun _ =>
    All.andThen (hrepairs (all_repairs (all_enter _))) fun _ => All.andThen (hrepairs (all_unlockPage _ _)) fun _ =>
      All.andThen (hrepairs (all_repairGraphEntryPoint rel m vs.deleted budget vs.highestPoint)) fun _ =>
        hloop budget _

end Repair

/-! ## 4. An insert, and the first pass of a vacuum -/

section Others

variable {ok : Op V → Prop}

omit [LinearOrder δ] in
/-- **`FindDuplicateOnDisk`** issues nothing but `AddDuplicateOnDisk`. -/
theorem all_findDuplicate [DecidableEq V] (value : V) (heaptid : ItemPointer)
    (hok : ∀ tid, ok (.page (.addDuplicate tid heaptid))) : ∀ l : List (HnswCandidate (HnswElement V) δ),
    All ok (fun _ => True) (FindDuplicateOnDisk value heaptid l)
  | [] => trivial
  | hc :: l => by
      unfold FindDuplicateOnDisk
      split
      · trivial
      · refine ⟨hok _, fun found => ?_⟩
        show All _ _ (if found = true then _ else _)
        split
        · trivial
        · exact all_findDuplicate value heaptid hok l

omit [LinearOrder δ] in
/-- **`AddElementOnDisk`** issues the rounds of its page loop. -/
theorem all_addElementOnDisk (rel : HnswRel V δ) (e : LocalElement V δ) (m : Nat) (value : V)
    (insertPage : Option Nat) (budget : Nat) (hok : ∀ e b nip, ok (.page (.addElement e b nip))) :
    All ok (fun _ => True) (AddElementOnDisk rel e m value insertPage budget) := by
  have hloop : ∀ (ne : NewElement V) (n b : Nat) (nip : Option Nat),
      All ok (fun _ => True) (addElementLoop ne n b nip) := by
    intro ne n
    induction n with
    | zero => exact fun _ _ => trivial
    | succ n ih =>
        intro b nip
        refine ⟨hok ne b nip, fun r => ?_⟩
        cases r with
        | next b' nip' => exact ih b' nip'
        | placed tid ntid nip' => trivial
        | failed msg => trivial
  unfold AddElementOnDisk
  cases insertPage with
  | none => trivial
  | some b => exact All.andThen (hloop _ budget b none) fun _ => trivial

/-- **`UpdateGraphOnDisk`** does one or the other, connects the element and writes the metapage. -/
theorem all_updateGraphOnDisk [DecidableEq V] (rel : HnswRel V δ) (e : LocalElement V δ) (value : V)
    (heaptid : ItemPointer) (m : Nat) (entryPoint : Option EntryPoint) (budget : Nat)
    (hdup : ∀ tid, ok (.page (.addDuplicate tid heaptid)))
    (hadd : ∀ e b nip, ok (.page (.addElement e b nip))) (hlinks : ∀ o, Links o → ok o)
    (hget : ok (.page .getMetaPageInfo)) (hmeta : ∀ ue ep ip, ok (.page (.updateMetaPage ue ep ip))) :
    All ok (fun _ => True) (UpdateGraphOnDisk rel e value heaptid m entryPoint budget) := by
  have hrest : ∀ (e : LocalElement V δ), All ok (fun _ => True) (do
      HnswUpdateNeighborsOnDisk rel e m false
      if levelAbove e.element.level entryPoint then
        section_ (.updateMetaPage .greater (some e.element.asEntryPoint) none) : HnswProg V Unit) := by
    intro e
    refine All.andThen ((all_updateNeighborsOnDisk rel e m false).mono hlinks fun _ h => h) fun _ => ?_
    split
    · exact ⟨hmeta _ _ _, fun _ => trivial⟩
    · trivial
  unfold UpdateGraphOnDisk
  refine All.andThen (all_findDuplicate value heaptid hdup (e.layer 0)) fun found => ?_
  split
  · trivial
  · refine All.bind ⟨hget, fun metap =>
      All.andThen (all_addElementOnDisk rel e m value _ budget hadd) fun r => ?_⟩
    simp only
    split
    · exact ⟨hmeta _ _ _, fun _ => hrest r.1⟩
    · exact hrest r.1

omit [LinearOrder δ] in
/-- **`RemoveHeapTids`** reads the metapage and works on pages. -/
theorem all_removeHeapTids (stats : IndexBulkDeleteResult) (callback : ItemPointer → Bool) (budget : Nat)
    (hmeta : ok (.page .getMetaPageInfo)) (hok : ∀ b, ok (.page (.removeHeapTids b callback))) :
    All ok (fun _ => True) (RemoveHeapTids stats callback budget : HnswProg V VacuumState) := by
  have hloop : ∀ (ep : Option EntryPoint) (n : Nat) (b : Option Nat) (vs : VacuumState),
      All ok (fun _ => True) (removeHeapTidsLoop callback ep n b vs : HnswProg V VacuumState) := by
    intro ep n
    induction n with
    | zero => intro b vs; cases b <;> trivial
    | succ n ih =>
        intro b vs
        cases b with
        | none => trivial
        | some b =>
            refine ⟨hok b, fun r => ?_⟩
            cases r with
            | none => trivial
            | some r => exact ih _ _
  exact All.bind ⟨hmeta, fun _ => hloop _ budget _ _⟩

end Others

end Pgvec.Hnsw
