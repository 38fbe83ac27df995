/-
  File:      Pgvec/Nodes/TidBitmapExact.lean
  Subject:   FAMILIES OF TID BITMAPS, and the processes that iterate one of them.

  * `runOps` -- a sequence of additions, unions and intersections over a family of bitmaps, and `sets` -- the
    same on plain sets;
  * `SharedScan`, `sharedStep` -- the processes of a joint iteration: one takes the lock, reads the shared
    members, writes them, gives the lock back;
  * `sharedRun_inv` -- the INVARIANT of a joint iteration: whoever holds the lock has what is in shared memory;
  * **`tid_bitmap_exact`**.
-/
import Pgvec.Nodes.TidBitmapScan
import Pgvec.Nodes.TidBitmapTable
import Pgvec.Machine.LWLock

namespace Pgvec.Tbm

open Pgvec.Hnsw (ItemPointer InvalidBlockNumber)

variable {H : Type} {T : PageTable H}

/-! ## 1. Families of bitmaps -/

/-- An operation on a family of bitmaps. -/
inductive TbmOp where
  | tbm_add_tuples (i : Nat) (tids : List ItemPointer) (recheck : Bool)
  | tbm_add_page (i : Nat) (pageno : Nat)
  | tbm_union (a b : Nat)
  | tbm_intersect (a b : Nat)

/-- The operation on the family. -/
def TbmOp.run (T : PageTable H) (op : TbmOp) (s : Nat → TIDBitmap H) : Except String (Nat → TIDBitmap H) :=
  match op with
  | .tbm_add_tuples i tids recheck => do return Function.update s i (← Tbm.tbm_add_tuples T (s i) tids recheck)
  | .tbm_add_page i pageno => .ok (Function.update s i (Tbm.tbm_add_page T (s i) pageno))
  | .tbm_union a b => .ok (Function.update s a (Tbm.tbm_union T (s a) (s b)))
  | .tbm_intersect a b => .ok (Function.update s a (Tbm.tbm_intersect T (s a) (s b)))

/-- A sequence of operations. -/
def runOps (T : PageTable H) : List TbmOp → (Nat → TIDBitmap H) → Except String (Nat → TIDBitmap H)
  | [], s => .ok s
  | op :: ops, s => do runOps T ops (← op.run T s)

/-- The operation on plain sets of TIDs. -/
def TbmOp.onSets (op : TbmOp) (M : Nat → Set ItemPointer) : Nat → Set ItemPointer :=
  match op with
  | .tbm_add_tuples i tids _ => Function.update M i (M i ∪ {t | t ∈ tids})
  | .tbm_add_page i pageno => Function.update M i (M i ∪ {t | t.blkno = pageno})
  | .tbm_union a b => Function.update M a (M a ∪ M b)
  | .tbm_intersect a b => Function.update M a (M a ∩ M b)

/-- The sets after a sequence of operations. -/
def sets (ops : List TbmOp) : Nat → Set ItemPointer := ops.foldl (fun M op => op.onSets M) fun _ => ∅

/-- The TIDs are of blocks, and a bitmap is not united or intersected with itself. -/
def TbmOp.Valid : TbmOp → Prop
  | .tbm_add_tuples _ tids _ => ∀ t ∈ tids, t.blkno ≠ InvalidBlockNumber
  | .tbm_add_page _ _ => True
  | .tbm_union a b => a ≠ b
  | .tbm_intersect a b => a ≠ b

/-- The offsets are those of heap pages. -/
def TbmOp.InRange : TbmOp → Prop
  | .tbm_add_tuples _ tids _ => ∀ t ∈ tids, 1 ≤ t.offno ∧ t.offno ≤ TBM_MAX_TUPLES_PER_PAGE
  | _ => True

/-- Every bitmap is well-formed and stands for its set. -/
def Represents (T : PageTable H) (s : Nat → TIDBitmap H) (M : Nat → Set ItemPointer) : Prop :=
  ∀ i, Wf T (s i) ∧ Bounds ((s i).find T) (M i) (M i)

theorem Represents.update {s : Nat → TIDBitmap H} {M : Nat → Set ItemPointer} (h : Represents T s M) {i : Nat}
    {tbm : TIDBitmap H} {N : Set ItemPointer} (hi : Wf T tbm ∧ Bounds (tbm.find T) N N) :
    Represents T (Function.update s i tbm) (Function.update M i N) := by
  intro j
  by_cases hj : j = i
  · subst hj
    rw [Function.update_self, Function.update_self]
    exact hi
  · rw [Function.update_of_ne hj, Function.update_of_ne hj]
    exact h j

/-- A new bitmap. -/
theorem wf_create (maxbytes : Nat) : Wf T (tbm_create maxbytes : TIDBitmap H) := by
  have hcount : ∀ kind, count kind ((tbm_create maxbytes : TIDBitmap H).find T) = 0 := fun kind =>
    (congrArg Set.ncard (Set.eq_empty_of_forall_notMem fun _ hk => Bool.false_ne_true hk)).trans (Set.ncard_empty _)
  exact {
    table := {
      key := nofun
      header := nofun
      offsets := nofun
      apart := nofun
      finite := Set.finite_empty.subset fun _ hk => Bool.false_ne_true hk }
    npages := (hcount _).symm
    nchunks := (hcount _).symm
    nentries := rfl
    hash := fun hne => absurd rfl hne }

theorem represents_create (maxbytes : Nat → Nat) :
    Represents T (fun i => (tbm_create (maxbytes i) : TIDBitmap H)) fun _ => ∅ := by
  refine fun i => ⟨wf_create _, fun _ ht => absurd ht (Set.notMem_empty _), ?_⟩
  rintro p e ⟨he, _⟩
  cases he

/-- An offset that is out of range is an error. -/
theorem addTuples_in_range {recheck : Bool} (tids : List ItemPointer) : ∀ {s s' : AddState H},
    addTuples T recheck tids s = .ok s' → ∀ t ∈ tids, 1 ≤ t.offno ∧ t.offno ≤ TBM_MAX_TUPLES_PER_PAGE := by
  induction tids with
  | nil => exact fun _ t ht => absurd ht List.not_mem_nil
  | cons tid tids ih =>
      intro s s' h t ht
      rw [addTuples] at h
      rcases hs : addTuple T recheck s tid with e | s1
      · rw [hs] at h
        cases h
      · rw [hs] at h
        rcases List.mem_cons.mp ht with rfl | ht
        · unfold addTuple at hs
          by_cases hoff : t.offno < 1 ∨ TBM_MAX_TUPLES_PER_PAGE < t.offno
          · rw [if_pos hoff] at hs
            cases hs
          · omega
        · exact ih h t ht

/-- **One operation**: it fails on an offset out of range only, and does what it does on sets. -/
theorem TbmOp.run_spec {op : TbmOp} (hop : op.Valid) {s : Nat → TIDBitmap H} {M : Nat → Set ItemPointer}
    (h : Represents T s M) :
    (op.InRange → ∃ s', op.run T s = .ok s' ∧ Represents T s' (op.onSets M)) ∧
      (¬op.InRange → ∀ s', op.run T s ≠ .ok s') := by
  cases op with
  | tbm_add_tuples i tids recheck =>
      constructor
      · intro hrange
        obtain ⟨tbm', h1, h2, h3⟩ := (h i).1.add_tuples (h i).2 recheck fun t ht => ⟨hop t ht, hrange t ht⟩
        refine ⟨Function.update s i tbm', ?_, h.update ⟨h2, h3⟩⟩
        rw [TbmOp.run, h1]
        rfl
      · intro hrange s' hs'
        refine hrange ?_
        rcases hadd : addTuples T recheck tids ⟨s i, InvalidBlockNumber, none⟩ with e | s1
        · rw [TbmOp.run, Tbm.tbm_add_tuples, hadd] at hs'
          cases hs'
        · exact addTuples_in_range tids hadd
  | tbm_add_page i pageno =>
      have hsub : Bounds ((s i).find T) (M i) (M i ∪ {t | t.blkno = pageno}) :=
        (h i).2.mono (fun _ ht => ht) Set.subset_union_left
      exact ⟨fun _ => ⟨_, rfl, h.update ((h i).1.add_page hsub pageno)⟩, fun hbad => absurd trivial hbad⟩
  | tbm_union a b =>
      exact ⟨fun _ => ⟨_, rfl, h.update ((h a).1.union (h a).2 (h b).1 (h b).2)⟩, fun hbad => absurd trivial hbad⟩
  | tbm_intersect a b =>
      exact ⟨fun _ => ⟨_, rfl, h.update ((h a).1.intersect (h a).2 (h b).1 (h b).2)⟩, fun hbad => absurd trivial hbad⟩

/-- **A sequence of operations.** -/
theorem runOps_spec (ops : List TbmOp) : ∀ {s : Nat → TIDBitmap H} {M : Nat → Set ItemPointer},
    (∀ op ∈ ops, op.Valid) → Represents T s M →
    ((∃ s', runOps T ops s = .ok s') ↔ ∀ op ∈ ops, op.InRange) ∧
      ∀ s', runOps T ops s = .ok s' → Represents T s' (ops.foldl (fun M op => op.onSets M) M) := by
  induction ops with
  | nil =>
      intro s M _ h
      refine ⟨⟨fun _ op hop => absurd hop List.not_mem_nil, fun _ => ⟨s, rfl⟩⟩, fun s' hs' => ?_⟩
      cases hs'
      exact h
  | cons op ops ih =>
      intro s M hvalid h
      have hstep := TbmOp.run_spec (hvalid op List.mem_cons_self) h
      by_cases hrange : op.InRange
      · obtain ⟨s1, hs1, h1⟩ := hstep.1 hrange
        obtain ⟨k1, k2⟩ := ih (fun o ho => hvalid o (List.mem_cons_of_mem _ ho)) h1
        have heq : runOps T (op :: ops) s = runOps T ops s1 := by
          rw [runOps, hs1]
          rfl
        rw [heq, List.forall_mem_cons]
        exact ⟨k1.trans (and_iff_right hrange).symm, k2⟩
      · have herr : ∀ s', runOps T (op :: ops) s ≠ .ok s' := by
          intro s' hs'
          rw [runOps] at hs'
          rcases hr : op.run T s with e | s1
          · rw [hr] at hs'
            cases hs'
          · exact hstep.2 hrange s1 hr
        refine ⟨⟨fun ⟨s', hs'⟩ => absurd hs' (herr s'), fun hall => ?_⟩, fun s' hs' => absurd hs' (herr s')⟩
        exact absurd (hall op List.mem_cons_self) hrange

/-! ## 2. Calls of a private iterator -/

/-- The answers of a number of calls, one after another. -/
def privateRun (tbm : TIDBitmap H) (arrays : PrivateArrays) : Nat → IterState → List (Option TBMIterateResult)
  | 0, _ => []
  | n + 1, it =>
      (tbm_private_iterate tbm arrays it).1 :: privateRun tbm arrays n (tbm_private_iterate tbm arrays it).2

/-- **A private iterator returns the answers of the bitmap**, and `false` from then on. -/
theorem Wf.privateRun_eq {tbm : TIDBitmap H} (h : Wf T tbm) (n : Nat) :
    privateRun tbm (tbm_begin_private_iterate T tbm) n .init =
      (List.range n).map fun k => (scanAnswers T tbm)[k]? := by
  have hrun : ∀ n it, privateRun tbm (tbm_begin_private_iterate T tbm) n it =
      (List.range n).map fun k => (remaining (sortedPages T tbm) (sortedChunks T tbm) it)[k]? := by
    intro n
    induction n with
    | zero => exact fun _ => rfl
    | succ n ih =>
        intro it
        obtain ⟨h1, h2⟩ := h.private_iterate it
        rw [privateRun, ih, h1, h2, List.range_succ_eq_map, List.map_cons, List.map_map, List.head?_eq_getElem?]
        refine congrArg _ (List.map_congr_left fun k _ => ?_)
        exact List.getElem?_tail
  rw [hrun, remaining_init]

/-! ## 3. A joint iteration -/

open LWLock (Held Compatible mustWait release mem_release)

/-- Where a process is in `tbm_shared_iterate`. -/
inductive Place where
  | outside
  /-- It holds the lock. -/
  | locked
  /-- It has read the shared members. -/
  | read (it : IterState)
  /-- It has written them, and is about to give the lock back. -/
  | written (tbmres : Option TBMIterateResult)

/-- The processes of a joint iteration, and what their calls returned so far. -/
structure SharedScan where
  istate : TBMSharedIteratorState
  locks : List (Held Unit)
  place : Nat → Place
  returned : List (Nat × Option TBMIterateResult)

/-- A step of process `p`; `none` while it waits for the lock. -/
def sharedStep (s : SharedScan) (p : Nat) : Option SharedScan :=
  match s.place p with
  | .outside =>
      if mustWait s.locks () .LW_EXCLUSIVE then none
      else some { s with locks := ⟨p, (), .LW_EXCLUSIVE⟩ :: s.locks, place := Function.update s.place p .locked }
  | .locked => some { s with place := Function.update s.place p (.read s.istate.it) }
  | .read it =>
      some { s with
        istate := (tbm_shared_iterate { s.istate with it := it }).2
        place := Function.update s.place p (.written (tbm_shared_iterate { s.istate with it := it }).1) }
  | .written tbmres =>
      some { s with
        locks := release s.locks p ()
        place := Function.update s.place p .outside
        returned := s.returned ++ [(p, tbmres)] }

/-- Any interleaving: the processes in the order in which they are given a turn. -/
def sharedRun (s : SharedScan) (schedule : List Nat) : SharedScan :=
  schedule.foldl (fun s p => (sharedStep s p).getD s) s

/-- The processes have attached to the state that one of them prepared. -/
def SharedScan.init (T : PageTable H) (tbm : TIDBitmap H) : SharedScan :=
  ⟨tbm_prepare_shared_iterate T tbm, [], fun _ => .outside, []⟩

/-- What the process that is at a place may rely on, when `n` calls have returned. -/
def PlaceInv (L rest : List TBMIterateResult) (it : IterState) (n : Nat) : Place → Prop
  | .outside => True
  | .locked => rest = L.drop n
  | .read it' => it' = it ∧ rest = L.drop n
  | .written tbmres => tbmres = L[n]? ∧ rest = L.drop (n + 1)

/-- **The invariant of a joint iteration.** -/
structure SharedInv (T : PageTable H) (tbm : TIDBitmap H) (s : SharedScan) : Prop where
  arrays : s.istate = { tbm_prepare_shared_iterate T tbm with it := s.istate.it }
  compatible : Compatible s.locks
  holds : ∀ p, s.place p ≠ .outside ↔ (⟨p, (), .LW_EXCLUSIVE⟩ : Held Unit) ∈ s.locks
  place : ∀ p, PlaceInv (scanAnswers T tbm) (remaining (sortedPages T tbm) (sortedChunks T tbm) s.istate.it) s.istate.it
    s.returned.length (s.place p)
  free : s.locks = [] →
    remaining (sortedPages T tbm) (sortedChunks T tbm) s.istate.it = (scanAnswers T tbm).drop s.returned.length
  returned : s.returned.map Prod.snd = (List.range s.returned.length).map fun k => (scanAnswers T tbm)[k]?

variable {tbm : TIDBitmap H} {s : SharedScan} {p : Nat}

theorem sharedInv_init (T : PageTable H) (tbm : TIDBitmap H) : SharedInv T tbm (.init T tbm) where
  arrays := rfl
  compatible := List.Pairwise.nil
  holds _ := ⟨fun h => absurd rfl h, fun h => absurd h List.not_mem_nil⟩
  place _ := trivial
  free _ := remaining_init
  returned := rfl

/-- **Only one process is in a call.** -/
theorem SharedInv.alone (h : SharedInv T tbm s) (hp : s.place p ≠ .outside) {q : Nat} (hq : q ≠ p) :
    s.place q = .outside := by
  by_contra hne
  have := h.compatible.alone ((h.holds p).mp hp) _ ((h.holds q).mp hne) rfl
  exact hq (congrArg Held.proc this)

/-- A process inside moves on, and keeps the lock. -/
theorem SharedInv.move (h : SharedInv T tbm s) (hp : s.place p ≠ .outside) (place : Place) (hpl : place ≠ .outside)
    (istate : TBMSharedIteratorState) (harr : istate = { tbm_prepare_shared_iterate T tbm with it := istate.it })
    (hinv : PlaceInv (scanAnswers T tbm) (remaining (sortedPages T tbm) (sortedChunks T tbm) istate.it) istate.it
      s.returned.length place) :
    SharedInv T tbm { s with istate := istate, place := Function.update s.place p place } where
  arrays := harr
  compatible := h.compatible
  holds q := by
    by_cases hq : q = p
    · subst hq
      simp only [Function.update_self]
      exact ⟨fun _ => (h.holds q).mp hp, fun _ => hpl⟩
    · simp only [Function.update_of_ne hq]
      exact h.holds q
  place q := by
    by_cases hq : q = p
    · subst hq
      simp only [Function.update_self]
      exact hinv
    · simp only [Function.update_of_ne hq, h.alone hp hq]
      trivial
  free hnil := by
    have := (h.holds p).mp hp
    rw [hnil] at this
    exact absurd this List.not_mem_nil
  returned := h.returned

/-- **One step.** -/
theorem SharedInv.step (hwf : Wf T tbm) (h : SharedInv T tbm s) {s' : SharedScan} (hs : sharedStep s p = some s') :
    SharedInv T tbm s' := by
  unfold sharedStep at hs
  have hpi := h.place p
  rcases hp : s.place p with _ | _ | it | tbmres
  · rw [hp] at hs
    simp only at hs
    split at hs
    · cases hs
    rename_i hwait
    rw [Bool.not_eq_true] at hwait
    obtain rfl := Option.some.inj hs
    have hnil : s.locks = [] := by
      refine List.eq_nil_iff_forall_not_mem.mpr fun a ha => ?_
      have := (LWLock.mustWait_false hwait a ha rfl).2
      cases this
    exact {
      arrays := h.arrays
      compatible := h.compatible.cons hwait
      holds := fun q => by
        by_cases hq : q = p
        · subst hq
          simp only [Function.update_self]
          exact ⟨fun _ => List.mem_cons_self, fun _ => nofun⟩
        · simp only [Function.update_of_ne hq, h.holds q, List.mem_cons]
          refine ⟨Or.inr, fun hm => hm.resolve_left fun heq => hq (congrArg Held.proc heq)⟩
      place := fun q => by
        by_cases hq : q = p
        · subst hq
          simp only [Function.update_self]
          exact h.free hnil
        · simp only [Function.update_of_ne hq]
          exact h.place q
      free := fun hbad => absurd hbad (List.cons_ne_nil _ _)
      returned := h.returned }
  · rw [hp] at hs hpi
    obtain rfl := Option.some.inj hs
    have hpo : s.place p ≠ .outside := by
      rw [hp]
      exact nofun
    exact h.move hpo (.read s.istate.it) nofun s.istate h.arrays ⟨rfl, hpi⟩
  · rw [hp] at hs hpi
    obtain rfl := Option.some.inj hs
    obtain ⟨rfl, hrest⟩ := hpi
    obtain ⟨h1, it', h2, h3⟩ := hwf.shared_iterate s.istate.it
    rw [← h.arrays] at h1 h2
    have hpo : s.place p ≠ .outside := by
      rw [hp]
      exact nofun
    refine h.move hpo (.written (tbm_shared_iterate s.istate).1) nofun (tbm_shared_iterate s.istate).2 (by rw [h2]) ⟨?_, ?_⟩
    · rw [h1, hrest, List.head?_drop]
    · rw [h2, h3, hrest, List.tail_drop]
  · rw [hp] at hs hpi
    obtain rfl := Option.some.inj hs
    obtain ⟨hres, hrest⟩ := hpi
    have hpo : s.place p ≠ .outside := by
      rw [hp]
      exact nofun
    exact {
      arrays := h.arrays
      compatible := h.compatible.release p ()
      holds := fun q => by
        by_cases hq : q = p
        · subst hq
          simp only [Function.update_self, mem_release]
          exact ⟨fun hne => absurd rfl hne, fun hm => absurd ⟨trivial, trivial⟩ hm.2⟩
        · simp only [Function.update_of_ne hq, mem_release, h.holds q]
          exact ⟨fun hm => ⟨hm, fun heq => hq heq.1⟩, fun hm => hm.1⟩
      place := fun q => by
        by_cases hq : q = p
        · subst hq
          simp only [Function.update_self]
          trivial
        · simp only [Function.update_of_ne hq, h.alone hpo hq]
          trivial
      free := fun _ => by
        simp only [List.length_append, List.length_singleton]
        exact hrest
      returned := by
        simp only [List.map_append, List.map_cons, List.map_nil, List.length_append, List.length_singleton,
          List.range_succ, h.returned, hres] }

/-- **Any interleaving.** -/
theorem SharedInv.run (hwf : Wf T tbm) (schedule : List Nat) : ∀ {s : SharedScan}, SharedInv T tbm s →
    SharedInv T tbm (sharedRun s schedule) := by
  induction schedule with
  | nil => exact fun h => h
  | cons p schedule ih =>
      intro s h
      have hstep : SharedInv T tbm ((sharedStep s p).getD s) := by
        rcases hs : sharedStep s p with _ | s'
        · exact h
        · exact h.step hwf hs
      exact ih hstep

/-! ## 4. The theorem -/

/-- **TID bitmaps miss no row, and are exact where they say so.** -/
theorem tid_bitmap_exact (T : PageTable H) (maxbytes : Nat → Nat) (ops : List TbmOp) (hvalid : ∀ op ∈ ops, op.Valid) :
    ((∃ s, runOps T ops (fun i => tbm_create (maxbytes i)) = .ok s) ↔ ∀ op ∈ ops, op.InRange) ∧
    ∀ s, runOps T ops (fun i => tbm_create (maxbytes i)) = .ok s → ∀ i, ∃ L, Returns (sets ops i) L ∧
      (∀ n, privateRun (s i) (tbm_begin_private_iterate T (s i)) n .init = (List.range n).map fun k => L[k]?) ∧
      ∀ schedule, (sharedRun (.init T (s i)) schedule).returned.map Prod.snd =
        (List.range (sharedRun (.init T (s i)) schedule).returned.length).map fun k => L[k]? := by
  obtain ⟨h1, h2⟩ := runOps_spec ops hvalid (represents_create maxbytes)
  refine ⟨h1, fun s hs i => ?_⟩
  obtain ⟨hwf, hb⟩ := h2 s hs i
  exact ⟨scanAnswers T (s i), hwf.scan_returns hb, hwf.privateRun_eq, fun schedule =>
    ((sharedInv_init T (s i)).run hwf schedule).returned⟩

/-- Two tuples of a page and one of another, of which an intersection with a lossy page leaves those of the page. -/
def tupleOps : List TbmOp :=
  [.tbm_add_tuples 0 [⟨1, 1⟩, ⟨1, 2⟩, ⟨7, 3⟩] false, .tbm_add_page 1 1, .tbm_intersect 0 1]

/-- The bitmaps of `tupleOps`, over the hash table of the source. -/
theorem tid_bitmap_exact_tuples : ∃ s, runOps simplehashTable tupleOps (fun _ => tbm_create 4096) = .ok s ∧
    ∃ L, Returns (sets tupleOps 0) L ∧
      (∀ n, privateRun (s 0) (tbm_begin_private_iterate simplehashTable (s 0)) n .init =
        (List.range n).map fun k => L[k]?) ∧
      ∀ schedule, (sharedRun (.init simplehashTable (s 0)) schedule).returned.map Prod.snd =
        (List.range (sharedRun (.init simplehashTable (s 0)) schedule).returned.length).map fun k => L[k]? := by
  have hvalid : ∀ op ∈ tupleOps, op.Valid := by
    intro op hop
    simp only [tupleOps, List.mem_cons, List.not_mem_nil, or_false] at hop
    rcases hop with rfl | rfl | rfl
    · intro t ht
      simp only [List.mem_cons, List.not_mem_nil, or_false] at ht
      rcases ht with rfl | rfl | rfl <;> decide
    · trivial
    · exact Nat.zero_ne_one
  have hrange : ∀ op ∈ tupleOps, op.InRange := by
    intro op hop
    simp only [tupleOps, List.mem_cons, List.not_mem_nil, or_false] at hop
    rcases hop with rfl | rfl | rfl
    · intro t ht
      simp only [List.mem_cons, List.not_mem_nil, or_false] at ht
      rcases ht with rfl | rfl | rfl <;> decide
    · trivial
    · trivial
  obtain ⟨h1, h2⟩ := tid_bitmap_exact simplehashTable (fun _ => 4096) tupleOps hvalid
  obtain ⟨s, hs⟩ := h1.mpr hrange
  obtain ⟨L, k1, k2, k3⟩ := h2 s hs 0
  exact ⟨s, hs, L, k1, k2, k3⟩

end Pgvec.Tbm
