/-
  File:      Pgvec/Hnsw/PageLoops.lean
  Subject:   THE LOOPS THAT FOLLOW THE PAGE CHAIN: the blocks they visit, and that they end.

  * `chained_alone` -- any program run alone keeps the chain;
  * `Index.walk`, `Index.Chained.walk_eq` -- following `nextblkno` passes every block once;
  * `removeHeapTids_loop`, `repairGraph_loop`, `markDeleted_loop`, `addElement_loop` -- the blocks each page
    loop visits;
  * `repairGraphLoop_ends`, `repairGraph_ends` -- `RepairGraph` ends with all its repairs;
  * `LoopsEnd`, **`loopsEnd_of_chained`** -- all of it, on a chain.
-/
import Pgvec.Hnsw.RepairEnds
import Pgvec.Machine.Alone

namespace Pgvec.Hnsw

open Conc Storage

variable {V δ : Type}

/-! ## 1. Any program -/

/-- What a section keeps, over one operation of the machine. -/
theorem chained_step {o : Op V} {t : Nat} {s : St V} {r : Outcome (St V) o.Resp}
    (hx : (hnswMachine V).exec t o s = some r) (hs : s.index.Chained) :
    r.final.index.Chained ∧ ∀ c ∈ r.commits, c.index.Chained :=
  exec_keeps hx hs fun p _ c hm => (execPage_chained p s.index c hm).1 hs

/-- Every program is one whose operations are any. -/
theorem all_any {α : Type} (p : HnswProg V α) : All (fun _ => True) (fun _ => True) p := by
  induction p with
  | ret a => trivial
  | op o k ih => exact ⟨trivial, ih⟩
  | error msg => trivial
  | cut => trivial

/-- **Any program run alone** passes chains only and leaves one. -/
theorem chained_alone {α : Type} (p : HnswProg V α) (t : Nat) {s : St V} (hs : s.index.Chained) :
    (∀ c ∈ commits (hnswMachine V) t p s, c.index.Chained) ∧
      ∀ s', leaves (hnswMachine V) t p s = some s' → s'.index.Chained :=
  ⟨((all_any p).alone (I := fun s => s.index.Chained) (C := fun s => s.index.Chained)
      (fun _ _ _ h _ hx => chained_step hx h) hs).2,
    fun _ hl => (all_any p).leaves (I := fun s => s.index.Chained)
      (fun _ _ _ h _ hx => (chained_step hx h).1) (fun _ h => h) hs hl⟩

/-! ## 2. Following the chain -/

/-- Follow `nextblkno` from a block, for at most the given number of pages. -/
def Index.walk (idx : Index V) : Nat → Option Nat → List Nat
  | _, none => []
  | 0, some _ => []
  | n + 1, some b =>
      match idx.page? b with
      | none => []
      | some p => b :: idx.walk n p.nextblkno

section Walk

variable {idx : Index V}

/-- Where a loop goes from block `b`: on to the next block, or it is over. -/
theorem Index.Chained.next_cases (h : idx.Chained) {b : Nat} {p : HnswPage V} (hp : idx.page? b = some p) :
    p.nextblkno = some (b + 1) ∧ b < idx.pages.length ∨ p.nextblkno = none ∧ b = idx.pages.length := by
  have hb := Index.page?_pos hp
  have hn := h.next hp
  split at hn
  · rename_i hlt
    exact Or.inl ⟨hn, hlt⟩
  · exact Or.inr ⟨hn, by omega⟩

theorem Index.Chained.walk_from (h : idx.Chained) : ∀ (n b : Nat), idx.HasPage b →
    idx.pages.length + 1 - b ≤ n → idx.walk n (some b) = List.range' b (idx.pages.length + 1 - b)
  | 0, b, hb, hn => by
      have := hb.2
      omega
  | n + 1, b, hb, hn => by
      obtain ⟨p, hp⟩ := Index.hasPage_iff.mp hb
      unfold Index.walk
      rw [hp]
      simp only
      rcases h.next_cases hp with ⟨hnext, hlt⟩ | ⟨hnext, rfl⟩
      · rw [hnext, h.walk_from n (b + 1) ⟨by omega, hlt⟩ (by omega),
          show idx.pages.length + 1 - b = idx.pages.length + 1 - (b + 1) + 1 by omega, List.range'_succ]
      · rw [hnext, show idx.pages.length + 1 - idx.pages.length = 1 by omega]
        cases n <;> rfl

/-- **Every block but the metapage is passed once**, and the walk ends. -/
theorem Index.Chained.walk_eq (h : idx.Chained) {n : Nat} (hn : idx.pages.length ≤ n) :
    idx.walk n (some HNSW_HEAD_BLKNO) = List.range' 1 idx.pages.length :=
  h.walk_from n 1 ⟨Nat.le_refl 1, h.pos⟩ (by omega)

end Walk

/-! ## 3. The page loops -/

/-- The block a round of a page loop works on. -/
def pageBlock : Op V → Option Nat
  | .page (.addElement _ b _) => some b
  | .page (.removeHeapTids b _) => some b
  | .page (.liveElements b) => some b
  | .page (.markDeleted _ b _) => some b
  | _ => none

section Loops

variable {s : St V} {b : Nat}

/-- The state after a section. -/
def St.after (s : St V) (o : PageOp V) : St V := { s with index := (execPage o s.index).final s.index }

theorem issued_section {α : Type} (t : Nat) (o : PageOp V) (f : o.Resp → HnswProg V α) (s : St V) :
    issued (hnswMachine V) t pageBlock (section_ o >>= f) s = (pageBlock (.page o)).toList ++
      issued (hnswMachine V) t pageBlock (f (execPage o s.index).resp) (s.after o) := rfl

theorem ends_section {α : Type} {t : Nat} {o : PageOp V} {f : o.Resp → HnswProg V α} {s : St V}
    (h : Ends (hnswMachine V) t (f (execPage o s.index).resp) (s.after o)) :
    Ends (hnswMachine V) t (section_ o >>= f) s := ⟨_, exec_page t o s, h⟩

theorem run_section {α : Type} (t : Nat) (o : PageOp V) (f : o.Resp → HnswProg V α) (s : St V) :
    run (hnswMachine V) t (section_ o >>= f) s =
      run (hnswMachine V) t (f (execPage o s.index).resp) (s.after o) := rfl

/-- A section on items leaves a chain of as many pages. -/
theorem onItems_step {o : PageOp V} (ho : o.OnItems) (hc : s.index.Chained) :
    (s.after o).index.Chained ∧ (s.after o).index.pages.length = s.index.pages.length := by
  have hs : Same s.index ((execPage o s.index).final s.index) :=
    Sect.final_of_commits (.refl _) (execPage_same o ho s.index)
  exact ⟨hc.same hs, hs.length⟩

/-- **A page loop whose rounds are one section on items each**: from block `b` on, it visits the blocks in
    order, and ends. -/
theorem pageLoop {α γ : Type} (t : Nat) (loop : Nat → Option Nat → γ → HnswProg V α) (op : Nat → γ → PageOp V)
    (hend : ∀ n g, ∃ a, loop n none g = .ret a)
    (hround : ∀ n b g (s : St V) p, s.index.page? b = some p → ∃ f g',
      loop (n + 1) (some b) g = section_ (op b g) >>= f ∧
      f (execPage (op b g) s.index).resp = loop n p.nextblkno g')
    (hitems : ∀ b g, (op b g).OnItems) (hblock : ∀ b g, pageBlock (.page (op b g)) = some b) :
    ∀ (n b : Nat) (g : γ) (s : St V), s.index.Chained → s.index.HasPage b →
      s.index.pages.length + 1 - b ≤ n →
      Ends (hnswMachine V) t (loop n (some b) g) s ∧
      issued (hnswMachine V) t pageBlock (loop n (some b) g) s =
        List.range' b (s.index.pages.length + 1 - b)
  | 0, b, _, s, _, hb, hn => by
      have := hb.2
      omega
  | n + 1, b, g, s, hc, hb, hn => by
      obtain ⟨p, hp⟩ := Index.hasPage_iff.mp hb
      obtain ⟨hc', hlen⟩ := onItems_step (s := s) (hitems b g) hc
      obtain ⟨f, g', heq, hf⟩ := hround n b g s p hp
      have hrest : Ends (hnswMachine V) t (loop n p.nextblkno g') (s.after (op b g)) ∧
          issued (hnswMachine V) t pageBlock (loop n p.nextblkno g') (s.after (op b g)) =
            List.range' (b + 1) (s.index.pages.length - b) := by
        rcases hc.next_cases hp with ⟨hn', hlt⟩ | ⟨hn', rfl⟩
        · have ih := pageLoop t loop op hend hround hitems hblock n (b + 1) g' (s.after (op b g)) hc'
            ⟨by omega, by rw [hlen]; exact hlt⟩ (by rw [hlen]; omega)
          rw [hlen, Nat.add_sub_add_right] at ih
          rw [hn']
          exact ih
        · obtain ⟨a, ha⟩ := hend n g'
          rw [hn', ha, Nat.sub_self]
          exact ⟨trivial, rfl⟩
      have hcount : s.index.pages.length + 1 - b = s.index.pages.length - b + 1 := by
        have := hb.2
        omega
      rw [heq, issued_section, hf, hrest.2, hblock, hcount, List.range'_succ]
      exact ⟨ends_section (by rw [hf]; exact hrest.1), rfl⟩

/-- **The page loop of `RemoveHeapTids`** from block `b` on. -/
theorem removeHeapTids_loop (t : Nat) (callback : ItemPointer → Bool) (entryPoint : Option EntryPoint)
    (n b : Nat) (vs : VacuumState) (hc : s.index.Chained) (hb : s.index.HasPage b)
    (hn : s.index.pages.length + 1 - b ≤ n) :
    Ends (hnswMachine V) t (removeHeapTidsLoop callback entryPoint n (some b) vs) s ∧
    issued (hnswMachine V) t pageBlock (removeHeapTidsLoop callback entryPoint n (some b) vs) s =
      List.range' b (s.index.pages.length + 1 - b) := by
  refine pageLoop t (removeHeapTidsLoop callback entryPoint) (fun b _ => .removeHeapTids b callback)
    (fun n g => ⟨g, by cases n <;> rfl⟩) (fun n b vs s p hp => ?_) (fun _ _ => trivial) (fun _ _ => rfl)
    n b vs s hc hb hn
  have hr : ∃ r, (execPage (.removeHeapTids b callback) s.index).resp = some r ∧
      r.nextblkno = p.nextblkno := by
    simp only [execPage, removeHeapTids, hp]
    exact ⟨_, rfl, rfl⟩
  obtain ⟨r, hr, hnext⟩ := hr
  refine ⟨_, notePage entryPoint b vs r, rfl, ?_⟩
  rw [hr, ← hnext]

/-- **The page loop of `MarkDeleted`** from block `b` on. -/
theorem markDeleted_loop (t : Nat) (zeroDatum : V) (n b : Nat) (ip : Option Nat) (hc : s.index.Chained)
    (hb : s.index.HasPage b) (hn : s.index.pages.length + 1 - b ≤ n) :
    Ends (hnswMachine V) t (markDeletedLoop zeroDatum n (some b) ip) s ∧
    issued (hnswMachine V) t pageBlock (markDeletedLoop zeroDatum n (some b) ip) s =
      List.range' b (s.index.pages.length + 1 - b) := by
  refine pageLoop t (markDeletedLoop zeroDatum) (fun b ip => .markDeleted zeroDatum b ip)
    (fun n g => ⟨g, by cases n <;> rfl⟩) (fun n b ip s p hp => ?_) (fun _ _ => trivial) (fun _ _ => rfl)
    n b ip s hc hb hn
  have hr : ∃ r, (execPage (.markDeleted zeroDatum b ip) s.index).resp = some r ∧
      r.nextblkno = p.nextblkno := by
    simp only [execPage, markDeleted, hp]
    exact ⟨_, rfl, rfl⟩
  obtain ⟨r, hr, hnext⟩ := hr
  refine ⟨_, r.insertPage, rfl, ?_⟩
  rw [hr, ← hnext]

theorem finishAdd_ne_next {before : List (Index V)} {nip nip' : Option Nat} {nb : Nat}
    {placed : Option (Index V × ItemPointer × ItemPointer)} :
    (finishAdd before nip placed).resp ≠ .next nb nip' := by
  unfold finishAdd
  split <;> exact fun h => by cases h

/-- A round of `AddElementOnDisk` that goes on has written nothing and goes to the next page. -/
theorem addElement_next {idx : Index V} {e : NewElement V} {b nb : Nat} {nip nip' : Option Nat}
    (h : (addElement idx e b nip).resp = .next nb nip') :
    (addElement idx e b nip).commits = [] ∧ ∃ p, idx.page? b = some p ∧ p.nextblkno = some nb := by
  revert h
  unfold addElement
  split
  · exact fun h => by cases h
  · rename_i page hpage
    simp only
    split
    · exact fun h => absurd h finishAdd_ne_next
    · split
      · exact fun h => absurd h finishAdd_ne_next
      · split
        · exact fun h => absurd h finishAdd_ne_next
        · split
          · rename_i nextblkno hnext
            intro h
            cases h
            exact ⟨rfl, page, hpage, hnext⟩
          · split
            · exact fun h => by cases h
            · split <;> exact fun h => absurd h finishAdd_ne_next

/-- **The page loop of `AddElementOnDisk`** from a block of the index on: it visits blocks in order, and
    ends. -/
theorem addElement_loop (t : Nat) (e : NewElement V) : ∀ (n b : Nat) (nip : Option Nat) (s : St V),
    s.index.Chained → s.index.HasPage b →
    (∃ k ≤ s.index.pages.length + 1 - b,
      issued (hnswMachine V) t pageBlock (addElementLoop e n b nip) s = List.range' b k) ∧
    (s.index.pages.length + 1 - b ≤ n → Ends (hnswMachine V) t (addElementLoop e n b nip) s)
  | 0, b, nip, s, _, hb => ⟨⟨0, Nat.zero_le _, rfl⟩, fun hn => by have := hb.2; omega⟩
  | n + 1, b, nip, s, hc, hb => by
      have h1 : 1 ≤ s.index.pages.length + 1 - b := by
        have := hb.2
        omega
      unfold addElementLoop
      rw [issued_section]
      cases hr : (execPage (.addElement e b nip) s.index).resp with
      | placed tid ntid nip' => exact ⟨⟨1, h1, rfl⟩, fun _ => ends_section (by rw [hr]; trivial)⟩
      | failed msg => exact ⟨⟨1, h1, rfl⟩, fun _ => ends_section (by rw [hr]; trivial)⟩
      | next nb nip' =>
          obtain ⟨hcommits, p, hp, hnext⟩ := addElement_next (e := e) hr
          have hafter : s.after (.addElement e b nip) = s := by
            unfold St.after Sect.final
            rw [show (execPage (.addElement e b nip) s.index).commits = [] from hcommits]
            rfl
          rcases hc.next_cases hp with ⟨hn', hlt⟩ | ⟨hn', _⟩
          · rw [hnext] at hn'
            cases hn'
            obtain ⟨⟨k, hk, hi⟩, hends⟩ := addElement_loop t e n (b + 1) nip' s hc ⟨by omega, hlt⟩
            refine ⟨⟨k + 1, by omega, ?_⟩, fun hn => ends_section ?_⟩
            · rw [hafter, List.range'_succ]
              exact congrArg (b :: ·) hi
            · rw [hafter, hr]
              exact hends (by omega)
          · rw [hnext] at hn'
            cases hn'

/-- What repairs leave: a chain of as many pages. -/
theorem repairs_alone {α : Type} {p : HnswProg V α} (h : All Repairs (fun _ => True) p) (t : Nat)
    (hc : s.index.Chained) {r : α × St V} (hr : run (hnswMachine V) t p s = some r) :
    r.2.index.Chained ∧ r.2.index.pages.length = s.index.pages.length := by
  have h := (h.alone (M := hnswMachine V) (t := t)
    (I := fun s' => RepairStep s.index s'.index) (C := fun _ => True)
    (fun o ho s' hs x hx => ⟨hs.trans (ho.step hx).1, fun _ _ => trivial⟩) (RepairStep.refl s.index)).1 r hr
  exact ⟨h.2.kept.chained hc, h.2.length⟩

/-- **The page loop of `RepairGraph`** from block `b` on: whatever the repairs of a page do, the blocks are
    visited in order, and every one if the loop returns. -/
theorem repairGraph_loop [LinearOrder δ] (rel : HnswRel V δ) (m : Nat)
    (deleted : List ItemPointer) (budget t : Nat) : ∀ (n b : Nat) (s : St V), s.index.Chained →
    s.index.HasPage b →
    (∃ k ≤ s.index.pages.length + 1 - b,
      issued (hnswMachine V) t pageBlock (repairGraphLoop rel m deleted budget n (some b)) s =
        List.range' b k ∧
      (∀ r, run (hnswMachine V) t (repairGraphLoop rel m deleted budget n (some b)) s = some r →
        k = s.index.pages.length + 1 - b))
  | 0, b, s, _, _ => ⟨0, Nat.zero_le _, rfl, fun r hr => by cases hr⟩
  | n + 1, b, s, hc, hb => by
      obtain ⟨p, hp⟩ := Index.hasPage_iff.mp hb
      have h1 : 1 ≤ s.index.pages.length + 1 - b := by
        have := hb.2
        omega
      obtain ⟨r, hr, hnext⟩ : ∃ r, (execPage (.liveElements b) s.index).resp = some r ∧
          r.nextblkno = p.nextblkno := by
        simp only [execPage, liveElements, hp]
        exact ⟨_, rfl, rfl⟩
      have hafter : s.after (.liveElements b) = s := rfl
      have hall : All Repairs (fun _ => True)
          (r.elements.foldlM (fun _ element => repairOne rel m deleted budget element) ()) :=
        All.foldlM _ trivial fun _ element _ _ => all_repairOne rel m deleted budget element
      have hnone : issued (hnswMachine V) t pageBlock
          (r.elements.foldlM (fun _ element => repairOne rel m deleted budget element) ()) s = [] := by
        refine hall.issued (fun o ho => ?_) s
        cases o with
        | page o => cases o <;> first | rfl | exact ho.elim
        | _ => rfl
      unfold repairGraphLoop
      rw [issued_section, run_section, hr, hafter]
      simp only
      rw [issued_bind, run_bind, hnone, List.nil_append]
      cases hbody : run (hnswMachine V) t
          (r.elements.foldlM (fun _ element => repairOne rel m deleted budget element) ()) s with
      | none => exact ⟨1, h1, rfl, fun r hr => by cases hr⟩
      | some x =>
          obtain ⟨hc', hlen⟩ := repairs_alone hall t hc hbody
          simp only [Option.bind_some]
          rw [hnext]
          rcases hc.next_cases hp with ⟨hn', hlt⟩ | ⟨hn', hlast⟩
          · obtain ⟨k, hk, hi, hrun⟩ := repairGraph_loop rel m deleted budget t n (b + 1) x.2 hc'
              ⟨by omega, by rw [hlen]; exact hlt⟩
            rw [hlen] at hk hrun
            refine ⟨k + 1, by omega, ?_, fun y hy => ?_⟩
            · rw [hn', hi, List.range'_succ]
              rfl
            · rw [hn'] at hy
              have := hrun y hy
              omega
          · refine ⟨1, h1, ?_, fun y hy => by omega⟩
            rw [hn']
            cases n <;> rfl

section RepairEnds

variable {F : Finset ItemPointer} {budget t : Nat}

/-- A repair and what comes after it. -/
theorem ends_repairing {α β : Type} {p : HnswProg V α} {f : α → HnswProg V β} (h : Repairing t F p s)
    (hall : All Repairs (fun _ => True) p) (hc : s.index.Chained) (hs : Room t F s)
    (hf : ∀ a s', s'.index.Chained → s'.index.pages.length = s.index.pages.length → Room t F s' →
      Ends (hnswMachine V) t (f a) s') : Ends (hnswMachine V) t (p >>= f) s := by
  obtain ⟨hends, hroom⟩ := h.ends hs
  refine ends_bind hends fun r hr => ?_
  obtain ⟨hc', hlen⟩ := repairs_alone hall t hc hr
  exact hf r.1 r.2 hc' hlen (hroom r hr)

variable [LinearOrder δ] (hb : 2 * F.card < budget)
include hb

/-- **The page loop of `RepairGraph` ends**, from block `b` on, if no other backend makes it wait: the
    rounds follow the chain, and each repair ends. -/
theorem repairGraphLoop_ends (rel : HnswRel V δ) (m : Nat) (deleted : List ItemPointer) :
    ∀ (n b : Nat) (s : St V), s.index.Chained → Room t F s → s.index.HasPage b →
      s.index.pages.length + 1 - b ≤ n →
      Ends (hnswMachine V) t (repairGraphLoop rel m deleted budget n (some b)) s
  | 0, b, s, _, _, hp, hn => by
      have := hp.2
      omega
  | n + 1, b, s, hc, hs, hp, hn => by
      obtain ⟨p, hp⟩ := Index.hasPage_iff.mp hp
      obtain ⟨r, hr, hnext⟩ : ∃ r, (execPage (.liveElements b) s.index).resp = some r ∧
          r.nextblkno = p.nextblkno := by
        simp only [execPage, liveElements, hp]
        exact ⟨_, rfl, rfl⟩
      unfold repairGraphLoop
      refine ends_section ?_
      rw [hr]
      refine ends_repairing (F := F) (s := s)
        (Valid.foldlM (I := fun _ s => Room t F s) _ hs fun _ element _ _ _ =>
          repairing_repairOne rel m deleted hb element)
        (All.foldlM _ trivial fun _ element _ _ => all_repairOne rel m deleted budget element) hc hs
        fun _ s' hc' hlen hs' => ?_
      rw [hnext]
      rcases hc.next_cases hp with ⟨hn', hlt⟩ | ⟨hn', _⟩
      · rw [hn']
        exact repairGraphLoop_ends rel m deleted n (b + 1) s' hc' hs' ⟨by omega, by omega⟩ (by omega)
      · rw [hn']
        cases n <;> trivial

/-- **`RepairGraph` ends.** -/
theorem repairGraph_ends (rel : HnswRel V δ) (m : Nat) (vs : VacuumState) (hc : s.index.Chained)
    (hs : Room t F s) (hn : s.index.pages.length ≤ budget) :
    Ends (hnswMachine V) t (RepairGraph rel m vs budget) s := by
  refine ends_repairing (repairing_lock _ _) (all_lockPage _ _ _) hc hs fun _ s1 hc1 hl1 hs1 => ?_
  refine ends_repairing (repairing_enter _) (all_repairs (all_enter _)) hc1 hs1 fun _ s2 hc2 hl2 hs2 => ?_
  refine ends_repairing (repairing_unlock _) (all_unlockPage _ _) hc2 hs2 fun _ s3 hc3 hl3 hs3 => ?_
  refine ends_repairing (repairing_repairGraphEntryPoint rel m vs.deleted hb vs.highestPoint hs3)
    (all_repairGraphEntryPoint rel m vs.deleted budget vs.highestPoint) hc3 hs3
    fun _ s4 hc4 hl4 hs4 => ?_
  exact repairGraphLoop_ends hb rel m vs.deleted budget 1 s4 hc4 hs4 ⟨Nat.le_refl 1, hc4.pos⟩ (by omega)

end RepairEnds

end Loops

/-! ## 4. All of them -/

section Every

variable [LinearOrder δ]

/-- **The page loops end**, started by backend `t` on a state: as soon as they may go over as many pages as
    there are, they are not cut off, and the blocks they work on are consecutive. `RepairGraph` takes the
    update lock for each element, so nobody else may hold it, and each of its searches has a budget of twice
    the number of tuples. -/
structure LoopsEnd (δ : Type) [LinearOrder δ] (t : Nat) (s : St V) : Prop where
  removeHeapTids : ∀ (callback : ItemPointer → Bool) (entryPoint : Option EntryPoint) (vs : VacuumState)
    (n : Nat), s.index.pages.length ≤ n →
    Ends (hnswMachine V) t (removeHeapTidsLoop callback entryPoint n (some HNSW_HEAD_BLKNO) vs) s ∧
    issued (hnswMachine V) t pageBlock
      (removeHeapTidsLoop callback entryPoint n (some HNSW_HEAD_BLKNO) vs) s =
        List.range' 1 s.index.pages.length
  repairGraph : ∀ (rel : HnswRel V δ) (m : Nat) (deleted : List ItemPointer) (budget n : Nat),
    ∃ k ≤ s.index.pages.length,
      issued (hnswMachine V) t pageBlock
        (repairGraphLoop rel m deleted budget n (some HNSW_HEAD_BLKNO)) s = List.range' 1 k ∧
      ∀ r, run (hnswMachine V) t (repairGraphLoop rel m deleted budget n (some HNSW_HEAD_BLKNO)) s =
        some r → k = s.index.pages.length
  repairGraph_ends : (∀ h ∈ s.holders, h.lock = .HNSW_UPDATE_LOCK → h.backend = t) →
    ∀ (rel : HnswRel V δ) (m budget : Nat), 2 * s.index.tids.length < budget →
    (∀ (deleted : List ItemPointer) (n : Nat), s.index.pages.length ≤ n →
      Ends (hnswMachine V) t (repairGraphLoop rel m deleted budget n (some HNSW_HEAD_BLKNO)) s) ∧
    ∀ (vs : VacuumState), s.index.pages.length ≤ budget →
      Ends (hnswMachine V) t (RepairGraph rel m vs budget) s
  markDeleted : ∀ (zeroDatum : V) (n : Nat), s.index.pages.length ≤ n →
    Ends (hnswMachine V) t (markDeletedLoop zeroDatum n (some HNSW_HEAD_BLKNO) none) s ∧
    issued (hnswMachine V) t pageBlock (markDeletedLoop zeroDatum n (some HNSW_HEAD_BLKNO) none) s =
      List.range' 1 s.index.pages.length
  addElement : ∀ (e : NewElement V) (n b : Nat), s.index.HasPage b →
    (∃ k ≤ s.index.pages.length + 1 - b,
      issued (hnswMachine V) t pageBlock (addElementLoop e n b none) s = List.range' b k) ∧
    (s.index.pages.length ≤ n → Ends (hnswMachine V) t (addElementLoop e n b none) s)

theorem loopsEnd_of_chained (t : Nat) {s : St V} (hc : s.index.Chained) : LoopsEnd δ t s where
  removeHeapTids callback entryPoint vs n hn :=
    removeHeapTids_loop t callback entryPoint n 1 vs hc ⟨Nat.le_refl 1, hc.pos⟩ (by omega)
  repairGraph rel m deleted budget n :=
    repairGraph_loop rel m deleted budget t n 1 s hc ⟨Nat.le_refl 1, hc.pos⟩
  repairGraph_ends halone rel m budget hb := by
    have hb' : 2 * s.index.tids.toFinset.card < budget := by
      have := List.toFinset_card_le s.index.tids
      omega
    exact ⟨fun deleted n hn => repairGraphLoop_ends hb' rel m deleted n 1 s hc (room_tids halone)
      ⟨Nat.le_refl 1, hc.pos⟩ (by omega), fun vs hn => Hnsw.repairGraph_ends hb' rel m vs hc
        (room_tids halone) hn⟩
  markDeleted zeroDatum n hn :=
    markDeleted_loop t zeroDatum n 1 none hc ⟨Nat.le_refl 1, hc.pos⟩ (by omega)
  addElement e n b hb := by
    obtain ⟨h1, h2⟩ := addElement_loop t e n b none s hc hb
    exact ⟨h1, fun hn => h2 (by have := hb.1; omega)⟩

end Every

end Pgvec.Hnsw
