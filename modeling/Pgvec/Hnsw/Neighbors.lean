/-
  File:      Pgvec/Hnsw/Neighbors.lean
  Subject:   CHOOSING AND UPDATING NEIGHBORS (`SelectNeighbors`, algorithm 4; `HnswUpdateConnection`;
             `HnswFindElementNeighbors`, algorithm 1), once for memory and disk.

  A candidate refers to an element `E`; `ptr` is its address (the tie-break of the sort and the
  identity the source compares), `pairDistance` the distance between two elements' values, narrowed
  to `float`. The lists of the source grow at the end and are taken from the end, so the working
  list `w` is kept nearest first here.

  * `select_sub`, `select_length` -- what is selected comes from the candidates, in at most `lm`
    places; `select_nodup` -- distinct candidates stay distinct;
  * `HnswFindElementNeighbors` -- one neighbor array for each layer of the element;
  * `updateConnection_length`, `updateConnection_mem`, `updateConnection_nodup` -- what `HnswUpdateConnection`
    leaves in an array.
-/
import Mathlib.Data.List.Sort
import Pgvec.Hnsw.Search

namespace Pgvec.Hnsw

/-- `HnswCandidate`. -/
structure HnswCandidate (E δ : Type) where
  element : E
  distance : δ
  closer : Bool
  deriving DecidableEq, Repr

/-- `HnswNeighborArray`. -/
structure HnswNeighborArray (E δ : Type) where
  items : List (HnswCandidate E δ)
  closerSet : Bool
  deriving DecidableEq, Repr

/-- `HnswInitNeighborArray`. -/
def HnswInitNeighborArray {E δ : Type} : HnswNeighborArray E δ := ⟨[], false⟩

section Select

variable {E δ : Type} [LinearOrder δ]

/-- `CompareCandidateDistances(Offset)`: descending distance, then descending address; `a` may
    stand before `b`. -/
def sortsBefore (ptr : E → Nat) (a b : HnswCandidate E δ) : Bool :=
  if a.distance < b.distance then false
  else if b.distance < a.distance then true
  else decide (ptr b.element ≤ ptr a.element)

/-- `CheckElementCloser`: the element is closer to the base than to any element of `r`. -/
def CheckElementCloser (pairDistance : E → E → δ) (e : HnswCandidate E δ)
    (r : List (HnswCandidate E δ)) : Bool :=
  r.all fun ri => !decide (pairDistance e.element ri.element ≤ e.distance)

/-- The local variables of the selection loop. -/
structure SelectState (E δ : Type) where
  r : List (HnswCandidate E δ)
  wd : List (HnswCandidate E δ)
  added : List (HnswCandidate E δ)
  removedAny : Bool

/-- Set `e->closer`, using the previous state of `r` and `wd` to skip work when possible. -/
def setCloser (pairDistance : E → E → δ) (mustCalculate : Bool) (isNew : E → Bool)
    (s : SelectState E δ) (e : HnswCandidate E δ) : HnswCandidate E δ × SelectState E δ :=
  if mustCalculate then ({ e with closer := CheckElementCloser pairDistance e s.r }, s)
  else if !s.added.isEmpty then
    if e.closer then
      -- only the candidates added since can be nearer to it
      let c := CheckElementCloser pairDistance e s.added
      ({ e with closer := c }, { s with removedAny := s.removedAny || !c })
    else if s.removedAny then
      let c := CheckElementCloser pairDistance e s.r
      let e : HnswCandidate E δ := { e with closer := c }
      (e, if c then { s with added := s.added ++ [e] } else s)
    else (e, s)
  else if isNew e.element then
    let c := CheckElementCloser pairDistance e s.r
    let e : HnswCandidate E δ := { e with closer := c }
    (e, if c then { s with added := s.added ++ [e] } else s)
  else (e, s)

/-- The selection loop: the state it ends in and the candidates it did not look at. -/
def selectLoop (pairDistance : E → E → δ) (lm : Nat) (mustCalculate : Bool) (isNew : E → Bool) :
    List (HnswCandidate E δ) → SelectState E δ → SelectState E δ × List (HnswCandidate E δ)
  | [], s => (s, [])
  | e :: w, s =>
      if s.r.length < lm then
        let (e, s) := setCloser pairDistance mustCalculate isNew s e
        if e.closer then selectLoop pairDistance lm mustCalculate isNew w { s with r := s.r ++ [e] }
        else selectLoop pairDistance lm mustCalculate isNew w { s with wd := s.wd ++ [e] }
      else (s, e :: w)

/-- What `SelectNeighbors` gives back: the selection, the first pruned candidate, the new
    `closerSet`, and the candidates with the `closer` flags it left in them. -/
structure SelectResult (E δ : Type) where
  r : List (HnswCandidate E δ)
  pruned : Option (HnswCandidate E δ)
  closerSet : Bool
  flags : List (HnswCandidate E δ)

/-- **`SelectNeighbors`**; `c` is in the order of the source (furthest first where it is ordered). -/
def SelectNeighbors (ptr : E → Nat) (pairDistance : E → E → δ) (c : List (HnswCandidate E δ))
    (lm : Nat) (closerSet : Bool) (isNew : E → Bool) (sortCandidates : Bool) :
    SelectResult E δ :=
  if c.length ≤ lm then ⟨c, none, closerSet, c⟩
  else
    let w := if sortCandidates then c.insertionSort fun a b => sortsBefore ptr a b else c
    let (s, rest) := selectLoop pairDistance lm (!closerSet) isNew w.reverse ⟨[], [], [], false⟩
    -- keep pruned connections
    let keep := lm - s.r.length
    { r := s.r ++ s.wd.take keep
      pruned := match s.wd.drop keep with
        | p :: _ => some p
        | [] => rest.getLast?
      closerSet := sortCandidates
      flags := s.r ++ s.wd ++ rest }

/-- **`HnswUpdateConnection`**: the new array, and the tracked index (-2 for an appended entry, -1
    when the new element was not selected). -/
def HnswUpdateConnection (ptr : E → Nat) (pairDistance : E → E → δ)
    (neighbors : HnswNeighborArray E δ) (newElement : E) (distance : δ) (lm : Nat) :
    HnswNeighborArray E δ × Int :=
  let newHc : HnswCandidate E δ := ⟨newElement, distance, false⟩
  if neighbors.items.length < lm then
    ({ neighbors with items := neighbors.items ++ [newHc] }, -2)
  else
    let res := SelectNeighbors ptr pairDistance (neighbors.items ++ [newHc]) lm neighbors.closerSet
      (fun e => ptr e == ptr newElement) true
    -- the flags were set in the array's own entries
    let flagged (hc : HnswCandidate E δ) : HnswCandidate E δ :=
      match res.flags.find? fun x => ptr x.element == ptr hc.element with
      | some x => { hc with closer := x.closer }
      | none => hc
    let items := neighbors.items.map flagged
    match res.pruned with
    | none => (⟨items, res.closerSet⟩, -1)
    | some pruned =>
        -- find and replace the pruned element
        match items.findIdx? fun x => ptr x.element == ptr pruned.element with
        | some i => (⟨items.set i (flagged newHc), res.closerSet⟩, i)
        | none => (⟨items, res.closerSet⟩, -1)

end Select

/-! ## 1. Algorithm 1 -/

section Find

variable {M : Type → Type} [Monad M] [Budget M] {E U K δ : Type} [LinearOrder δ] [DecidableEq K]

/-- What `HnswFindElementNeighbors` asks of the graph. -/
structure FindEnv (M : Type → Type) (E U K δ : Type) where
  /-- The branches of the search of each layer. -/
  layer : Nat → SearchEnv M E U K δ
  /-- `RemoveElements` on disk, nothing in memory. -/
  removeElements : List (HnswCandidate E δ) → List (HnswCandidate E δ)
  ptr : E → Nat
  pairDistance : E → E → δ
  toFloat : δ → δ
  m : Nat

/-- First phase: greedy search from layer `lc` down to the layer above `level`. -/
def greedyPhase (env : FindEnv M E U K δ) (level budget : Nat) :
    Nat → List (HnswSearchCandidate E δ) → M (List (HnswSearchCandidate E δ))
  | 0, ep => pure ep
  | lc + 1, ep =>
      if level < lc + 1 then do
        let r ← HnswSearchLayer (env.layer (lc + 1)) ep 1 (lc + 1) [] none true 0 budget
        greedyPhase env level budget lc r.w
      else pure ep

/-- The neighbors chosen from the list `w` of one layer. -/
def layerNeighbors (env : FindEnv M E U K δ) (lc : Nat) (w : List (HnswSearchCandidate E δ)) :
    HnswNeighborArray E δ :=
  let lw := w.map fun sc => (⟨sc.element, env.toFloat sc.distance, false⟩ : HnswCandidate E δ)
  let res := SelectNeighbors env.ptr env.pairDistance (env.removeElements lw)
    (HnswGetLayerM env.m lc) false (fun _ => false) false
  ⟨res.r, res.closerSet⟩

/-- Second phase: the arrays of the layers 0, …, `lc`, filled from the top one down. -/
def connectPhase (env : FindEnv M E U K δ) (efConstruction budget : Nat) :
    Nat → List (HnswSearchCandidate E δ) → M (List (HnswNeighborArray E δ))
  | 0, ep => do
      let r ← HnswSearchLayer (env.layer 0) ep efConstruction 0 [] none true 0 budget
      return [layerNeighbors env 0 r.w]
  | lc + 1, ep => do
      let r ← HnswSearchLayer (env.layer (lc + 1)) ep efConstruction (lc + 1) [] none true 0 budget
      let lower ← connectPhase env efConstruction budget lc r.w
      return lower ++ [layerNeighbors env (lc + 1) r.w]

/-- **`HnswFindElementNeighbors`**: the neighbor arrays of an element of the given level, found from
    the entry candidate (`none`: no entry point). The entry point comes back as it was loaded, since
    the callers look at its level afterwards. -/
def HnswFindElementNeighbors (env : FindEnv M E U K δ) (level : Nat)
    (entryCandidate : Option (M (HnswSearchCandidate E δ))) (efConstruction : Nat)
    (existing : Bool) (budget : Nat) : M (Option E × List (HnswNeighborArray E δ)) :=
  match entryCandidate with
  | none => pure (none, List.replicate (level + 1) HnswInitNeighborArray)
  | some entryCandidate => do
      let entry ← entryCandidate
      let entryLevel := (env.layer 0).level entry.element
      let ep ← greedyPhase env level budget entryLevel [entry]
      -- add one for existing element
      let ef := if existing then efConstruction + 1 else efConstruction
      let arrays ← connectPhase env ef budget (min level entryLevel) ep
      return (some entry.element, arrays ++ List.replicate (level - entryLevel) HnswInitNeighborArray)

end Find

/-! ## 2. What is selected -/

section Facts

variable {E δ : Type} [LinearOrder δ] {ptr : E → Nat} {pd : E → E → δ}

/-- Setting the flag keeps the element, its distance, and the two lists. -/
theorem setCloser_facts (mc : Bool) (isNew : E → Bool) (s : SelectState E δ)
    (e : HnswCandidate E δ) :
    (setCloser pd mc isNew s e).1.element = e.element ∧
      (setCloser pd mc isNew s e).2.r = s.r ∧ (setCloser pd mc isNew s e).2.wd = s.wd := by
  simp only [setCloser]
  split
  · exact ⟨rfl, rfl, rfl⟩
  · split
    · split
      · exact ⟨rfl, rfl, rfl⟩
      · split
        · refine ⟨rfl, ?_, ?_⟩ <;> split <;> rfl
        · exact ⟨rfl, rfl, rfl⟩
    · split
      · refine ⟨rfl, ?_, ?_⟩ <;> split <;> rfl
      · exact ⟨rfl, rfl, rfl⟩

/-- **The loop loses and invents nothing**: accepted, rejected and unseen candidates together are
    the old lists and the input, up to order and flags; at most `lm` are accepted. -/
theorem selectLoop_perm (pd : E → E → δ) (lm : Nat) (mc : Bool) (isNew : E → Bool) :
    ∀ (w : List (HnswCandidate E δ)) (s : SelectState E δ), s.r.length ≤ lm →
    let out := selectLoop pd lm mc isNew w s
    ((out.1.r ++ out.1.wd ++ out.2).map (·.element)).Perm
      ((s.r ++ s.wd ++ w).map (·.element)) ∧ out.1.r.length ≤ lm
  | [], s, h => by
      simp only [selectLoop]
      exact ⟨.refl _, h⟩
  | e :: w, s, h => by
      obtain ⟨h1, h2, h3⟩ := setCloser_facts mc isNew s e
      simp only [selectLoop]
      split
      · rename_i hlt
        generalize setCloser pd mc isNew s e = x at h1 h2 h3
        obtain ⟨e', s'⟩ := x
        simp only at h1 h2 h3
        split
        · have ih := selectLoop_perm pd lm mc isNew w { s' with r := s'.r ++ [e'] } (by
            simp only [List.length_append, List.length_singleton, h2]
            omega)
          refine ⟨ih.1.trans ?_, ih.2⟩
          simp only [h2, h3, List.map_append, List.map_cons, List.map_nil, h1]
          simp only [List.append_assoc]
          refine List.Perm.append_left _ ?_
          exact List.perm_append_comm_assoc [e.element] _ _
        · have ih := selectLoop_perm pd lm mc isNew w { s' with wd := s'.wd ++ [e'] } (by
            simp only [h2]
            omega)
          refine ⟨ih.1.trans ?_, ih.2⟩
          simp only [h2, h3, List.map_append, List.map_cons, List.map_nil, h1]
          simp only [List.append_assoc, List.singleton_append]
          exact .refl _
      · exact ⟨.refl _, h⟩

/-- The selection, and what is left over, as a list of elements: the candidates up to order. -/
theorem select_perm (c : List (HnswCandidate E δ)) (lm : Nat) (cs : Bool) (isNew : E → Bool)
    (sc : Bool) : ∃ rest : List E,
    ((SelectNeighbors ptr pd c lm cs isNew sc).r.map (·.element) ++ rest).Perm
      (c.map (·.element)) := by
  unfold SelectNeighbors
  split
  · exact ⟨[], by simp⟩
  · generalize hw : (if sc = true then c.insertionSort fun a b => sortsBefore ptr a b else c) = w
    have hperm : w.Perm c := by
      rw [← hw]
      split
      · exact List.perm_insertionSort _ _
      · exact .refl _
    have h := (selectLoop_perm pd lm (!cs) isNew w.reverse ⟨[], [], [], false⟩
      (Nat.zero_le _)).1
    generalize hs : selectLoop pd lm (!cs) isNew w.reverse ⟨[], [], [], false⟩ = out at h
    obtain ⟨s, rest⟩ := out
    simp only [List.nil_append] at h
    refine ⟨(s.wd.drop (lm - s.r.length) ++ rest).map (·.element), ?_⟩
    have h2 : (w.reverse.map (·.element)).Perm (c.map (·.element)) :=
      ((List.reverse_perm w).trans hperm).map _
    refine List.Perm.trans ?_ (h.trans h2)
    simp only [hs, List.map_append, List.append_assoc]
    refine List.Perm.append_left _ ?_
    rw [← List.append_assoc, ← List.map_append, List.take_append_drop]

/-- Selected elements are candidates. -/
theorem select_sub {c : List (HnswCandidate E δ)} {lm : Nat} {cs : Bool} {isNew : E → Bool}
    {sc : Bool} {x : HnswCandidate E δ} (h : x ∈ (SelectNeighbors ptr pd c lm cs isNew sc).r) :
    ∃ y ∈ c, y.element = x.element := by
  obtain ⟨rest, hp⟩ := select_perm c lm cs isNew sc
  have h1 : x.element ∈ (SelectNeighbors ptr pd c lm cs isNew sc).r.map (·.element) ++ rest :=
    List.mem_append_left _ (List.mem_map_of_mem h)
  obtain ⟨y, hy, e⟩ := List.mem_map.mp (hp.mem_iff.mp h1)
  exact ⟨y, hy, e⟩

/-- At most `lm` candidates are selected. -/
theorem select_length (c : List (HnswCandidate E δ)) (lm : Nat) (cs : Bool) (isNew : E → Bool)
    (sc : Bool) : (SelectNeighbors ptr pd c lm cs isNew sc).r.length ≤ lm := by
  unfold SelectNeighbors
  split
  · assumption
  · generalize (if sc = true then c.insertionSort fun a b => sortsBefore ptr a b else c) = w
    have h := (selectLoop_perm pd lm (!cs) isNew w.reverse ⟨[], [], [], false⟩
      (Nat.zero_le _)).2
    simp only [List.length_append, List.length_take]
    omega

/-- What is distinct about the candidates stays distinct. -/
theorem select_nodup {β : Type} (g : E → β) {c : List (HnswCandidate E δ)}
    (hc : (c.map fun x => g x.element).Nodup) (lm : Nat) (cs : Bool) (isNew : E → Bool) (sc : Bool) :
    ((SelectNeighbors ptr pd c lm cs isNew sc).r.map fun x => g x.element).Nodup := by
  obtain ⟨rest, hp⟩ := select_perm c lm cs isNew sc
  have h1 := (hp.map g).symm.nodup (by simpa [List.map_map, Function.comp_def] using hc)
  rw [List.map_append, List.map_map] at h1
  exact (List.nodup_append.mp h1).1

end Facts

/-! ## 3. What an update leaves -/

section Connection

variable {E δ : Type} [LinearOrder δ] {ptr : E → Nat} {pd : E → E → δ} {a : HnswNeighborArray E δ} {e : E}
  {d : δ} {lm : Nat}

/-- The array that comes back: the new entry behind the old ones, or the old ones with new flags, one of
    which may have been replaced by the new entry. -/
theorem updateConnection_cases (ptr : E → Nat) (pd : E → E → δ) (a : HnswNeighborArray E δ) (e : E) (d : δ)
    (lm : Nat) :
    (a.items.length < lm ∧
      ((HnswUpdateConnection ptr pd a e d lm).1.items.map (·.element)) = a.items.map (·.element) ++ [e]) ∨
    (HnswUpdateConnection ptr pd a e d lm).1.items.map (·.element) = a.items.map (·.element) ∨
    ∃ i, (HnswUpdateConnection ptr pd a e d lm).1.items.map (·.element) =
      (a.items.map (·.element)).set i e := by
  unfold HnswUpdateConnection
  simp only
  split
  · rename_i hlt
    exact Or.inl ⟨hlt, by simp⟩
  · have hmap : ∀ f : HnswCandidate E δ → HnswCandidate E δ, (∀ hc, (f hc).element = hc.element) →
        (a.items.map f).map (·.element) = a.items.map (·.element) := by
      intro f hf
      rw [List.map_map]
      exact List.map_congr_left fun hc _ => hf hc
    split
    · exact Or.inr (Or.inl (hmap _ fun hc => by split <;> rfl))
    · split
      · rename_i i _
        refine Or.inr (Or.inr ⟨i, ?_⟩)
        rw [List.map_set]
        exact congrArg₂ (fun l x => List.set l i x) (hmap _ fun hc => by split <;> rfl) (by split <;> rfl)
      · exact Or.inr (Or.inl (hmap _ fun hc => by split <;> rfl))

theorem updateConnection_length (h : a.items.length ≤ lm) :
    a.items.length ≤ (HnswUpdateConnection ptr pd a e d lm).1.items.length ∧
      (HnswUpdateConnection ptr pd a e d lm).1.items.length ≤ lm := by
  have hlen : ∀ l : List (HnswCandidate E δ), l.length = (l.map (·.element)).length := fun l =>
    (List.length_map _).symm
  rw [hlen (HnswUpdateConnection ptr pd a e d lm).1.items]
  rcases updateConnection_cases ptr pd a e d lm with ⟨hlt, hc⟩ | hc | ⟨i, hc⟩
  · rw [hc, List.length_append, List.length_map, List.length_singleton]
    omega
  · rw [hc, List.length_map]
    exact ⟨Nat.le_refl _, h⟩
  · rw [hc, List.length_set, List.length_map]
    exact ⟨Nat.le_refl _, h⟩

theorem updateConnection_mem {x : HnswCandidate E δ}
    (hx : x ∈ (HnswUpdateConnection ptr pd a e d lm).1.items) :
    x.element = e ∨ ∃ y ∈ a.items, y.element = x.element := by
  have hx' := List.mem_map_of_mem (f := fun c : HnswCandidate E δ => c.element) hx
  have hold : x.element ∈ a.items.map (·.element) → ∃ y ∈ a.items, y.element = x.element :=
    fun h => List.mem_map.mp h
  rcases updateConnection_cases ptr pd a e d lm with ⟨_, hc⟩ | hc | ⟨i, hc⟩
  · rw [hc, List.mem_append, List.mem_singleton] at hx'
    exact hx'.symm.imp id hold
  · rw [hc] at hx'
    exact Or.inr (hold hx')
  · rw [hc] at hx'
    exact (List.mem_or_eq_of_mem_set hx').symm.imp id hold

theorem updateConnection_nodup (h : (a.items.map (·.element)).Nodup)
    (he : ∀ x ∈ a.items, x.element ≠ e) :
    ((HnswUpdateConnection ptr pd a e d lm).1.items.map (·.element)).Nodup := by
  have hnot : e ∉ a.items.map (·.element) := by
    intro hm
    obtain ⟨x, hx, hxe⟩ := List.mem_map.mp hm
    exact he x hx hxe
  rcases updateConnection_cases ptr pd a e d lm with ⟨_, hc⟩ | hc | ⟨i, hc⟩
  · rw [hc]
    exact List.nodup_append.mpr ⟨h, List.nodup_singleton e, fun x hx y hy hxy => by
      rw [List.mem_singleton.mp hy] at hxy
      exact hnot (hxy ▸ hx)⟩
  · rw [hc]
    exact h
  · rw [hc]
    exact h.set hnot

end Connection

end Pgvec.Hnsw
