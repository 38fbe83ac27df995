/-
  File:      Pgvec/Hnsw/SearchLogic.lean
  Subject:   THE SEARCH WHILE OTHERS WORK ON THE INDEX: rely and guarantee for `HnswSearchLayer` and
             `HnswFindElementNeighbors` on disk.

  The others may change the index between any two sections. What a backend may still count on is given by
  two predicates that they keep: `T s u` for a TID it has read but not loaded, `P s e` for a copy it has
  loaded.

  * `valid_section`, `valid_read`, `valid_lock`, `valid_unlock`, `valid_enter` -- one operation;
  * `Reads` -- what `T` and `P` have to do with each other and with the index;
  * `valid_searchLoop` -- an invariant of one visit and one expansion is one of the search;
  * **`valid_searchLayer`** -- the candidates found are `P`, on the layer, distinct, and there is one;
  * `Found`, **`valid_findNeighbors`** -- so are the neighbors chosen for an element, and these have heap
    TIDs.
-/
import Pgvec.Hnsw.Insert
import Pgvec.Hnsw.SearchFacts

namespace Pgvec.Hnsw

open Conc PairingHeap

variable {V δ : Type}

/-! ## 1. One operation -/

section Operations

variable {S : Spec (Op V) (St V)} {t : Nat} {s : St V}

theorem exec_page (t : Nat) (o : PageOp V) (s : St V) :
    (hnswMachine V).exec t (.page o) s =
      some ⟨(execPage o s.index).commits.map fun i => { s with index := i },
        { s with index := (execPage o s.index).final s.index }, (execPage o s.index).resp⟩ := rfl

/-- **A section.** -/
theorem valid_section {o : PageOp V} {Q : o.Resp → St V → Prop}
    (h : ∀ s', S.rely s s' → S.inv s' → S.allow s' (.page o) →
      S.safe s' (.page o) ∧ S.inv { s' with index := (execPage o s'.index).final s'.index } ∧
      S.guar s' { s' with index := (execPage o s'.index).final s'.index } ∧
      (∀ c ∈ (execPage o s'.index).commits, S.commit { s' with index := c }) ∧
      Q (execPage o s'.index).resp { s' with index := (execPage o s'.index).final s'.index }) :
    Valid (hnswMachine V) t S (section_ o) Q s := by
  intro s' hr hi ha
  obtain ⟨h1, h2, h3, h4, h5⟩ := h s' hr hi ha
  refine ⟨h1, fun r hx => ?_⟩
  rw [exec_page] at hx
  cases hx
  refine ⟨h2, h3, fun c hc => ?_, h5⟩
  obtain ⟨i, hm, rfl⟩ := List.mem_map.mp hc
  exact h4 i hm

/-- A section that only reads. -/
theorem valid_read {o : PageOp V} {Q : o.Resp → St V → Prop}
    (ho : ∀ i, (execPage o i).commits = []) (hg : ∀ s, S.guar s s)
    (h : ∀ s', S.rely s s' → S.inv s' → S.allow s' (.page o) →
      S.safe s' (.page o) ∧ Q (execPage o s'.index).resp s') :
    Valid (hnswMachine V) t S (section_ o) Q s := by
  refine valid_section fun s' hr hi ha => ?_
  obtain ⟨h1, h2⟩ := h s' hr hi ha
  have hf : (execPage o s'.index).final s'.index = s'.index := by
    unfold Sect.final
    rw [ho]
    rfl
  rw [hf, ho]
  exact ⟨h1, hi, hg s', fun c hc => absurd hc List.not_mem_nil, h2⟩

/-- `LockPage`: when it goes through, nobody else holds the lock in a conflicting mode. -/
theorem valid_lock {lock : PageLock} {mode : LockMode} {caller : Caller} {Q : Unit → St V → Prop}
    (h : ∀ s', S.rely s s' → S.inv s' → S.allow s' (.lockPage lock mode caller) →
      S.safe s' (.lockPage lock mode caller) ∧ (mustWait s'.holders t lock mode = false →
        S.inv { s' with holders := ⟨t, lock, mode⟩ :: s'.holders } ∧
        S.guar s' { s' with holders := ⟨t, lock, mode⟩ :: s'.holders } ∧
        Q () { s' with holders := ⟨t, lock, mode⟩ :: s'.holders })) :
    Valid (hnswMachine V) t S (LockPage lock mode caller) Q s := by
  intro s' hr hi ha
  obtain ⟨h1, h2⟩ := h s' hr hi ha
  refine ⟨h1, fun r hx => ?_⟩
  simp only [hnswMachine] at hx
  split at hx
  · cases hx
  · rename_i hw
    cases hx
    obtain ⟨h3, h4, h5⟩ := h2 (by simpa using hw)
    exact ⟨h3, h4, fun c hc => absurd hc List.not_mem_nil, h5⟩

/-- `UnlockPage`. -/
theorem valid_unlock {lock : PageLock} {mode : LockMode} {Q : Unit → St V → Prop}
    (h : ∀ s', S.rely s s' → S.inv s' → S.allow s' (.unlockPage lock mode) →
      S.safe s' (.unlockPage lock mode) ∧
      S.inv { s' with holders := s'.holders.erase ⟨t, lock, mode⟩ } ∧
      S.guar s' { s' with holders := s'.holders.erase ⟨t, lock, mode⟩ } ∧
      Q () { s' with holders := s'.holders.erase ⟨t, lock, mode⟩ }) :
    Valid (hnswMachine V) t S (UnlockPage lock mode) Q s := by
  intro s' hr hi ha
  obtain ⟨h1, h2, h3, h4⟩ := h s' hr hi ha
  refine ⟨h1, fun r hx => ?_⟩
  cases hx
  exact ⟨h2, h3, fun c hc => absurd hc List.not_mem_nil, h4⟩

/-- The record of the vacuum's progress. -/
theorem valid_enter {phase : VacuumPhase} {Q : Unit → St V → Prop}
    (h : ∀ s', S.rely s s' → S.inv s' → S.allow s' (.enter phase) →
      S.safe s' (.enter phase) ∧ S.inv { s' with phase := phase } ∧
      S.guar s' { s' with phase := phase } ∧ Q () { s' with phase := phase }) :
    Valid (hnswMachine V) t S (.op (.enter phase) .ret) Q s := by
  intro s' hr hi ha
  obtain ⟨h1, h2, h3, h4⟩ := h s' hr hi ha
  refine ⟨h1, fun r hx => ?_⟩
  cases hx
  exact ⟨h2, h3, fun c hc => absurd hc List.not_mem_nil, h4⟩

end Operations

/-! ## 2. What a search may count on -/

/-- A backend may fail here: it then gives back what it holds. -/
def MayFail (S : Spec (Op V) (St V)) (s : St V) : Prop :=
  S.errors ∧ ∀ t s', S.rely s s' → S.inv s' →
    S.inv ((hnswMachine V).abort t s') ∧ S.guar s' ((hnswMachine V).abort t s')

theorem MayFail.valid {S : Spec (Op V) (St V)} {s : St V} (h : MayFail S s) {α : Type} (t : Nat)
    (msg : String) (Q : α → St V → Prop) : Valid (hnswMachine V) t S (.error msg) Q s := ⟨h.1, h.2 t⟩

/-- **The predicates of a search.** `H` is what has to hold throughout (a lock that is held), `T` is
    about TIDs read, `P` about copies loaded; the others keep all three. A tuple is there, or the search
    may fail. -/
structure Reads (S : Spec (Op V) (St V)) (m : Nat) (ins : Bool) (H : St V → Prop)
    (T : St V → ItemPointer → Prop) (P : St V → HnswElement V → Prop) : Prop where
  refl : ∀ s, S.rely s s
  trans : ∀ {a b c}, S.rely a b → S.rely b c → S.rely a c
  guar : ∀ s, S.guar s s
  held : ∀ {s s'}, H s → S.rely s s' → S.inv s' → H s'
  stableT : ∀ {s s' u}, H s → S.rely s s' → S.inv s' → T s u → T s' u
  stableP : ∀ {s s' e}, H s → S.rely s s' → S.inv s' → P s e → P s' e
  load : ∀ {s u}, H s → S.inv s → T s u → (∃ e, s.index.elem? u = some e ∧
    P s (HnswLoadElementFromTuple (HnswInitElementFromBlock u 0) e true ins)) ∨
      s.index.elem? u = none ∧ MayFail S s
  safeLoad : ∀ {s u l}, H s → S.inv s → T s u → S.safe s (.page (.loadElement u l))
  tids : ∀ {s e}, H s → S.inv s → P s e → (∃ n, s.index.neigh? e.neighbortid = some n ∧
    ∀ lm lc l, neighborTids n e.level e.version m lm lc = some l → ∀ u ∈ validPrefix l, T s u) ∨
      s.index.neigh? e.neighbortid = none ∧ MayFail S s
  safeRead : ∀ {s n}, S.safe s (.page (.readNeighborTuple n))

section Search

variable {S : Spec (Op V) (St V)} {t m : Nat} {ins : Bool} {H : St V → Prop}
  {T : St V → ItemPointer → Prop} {P : St V → HnswElement V → Prop}

/-- `HnswLoadUnvisitedFromDisk`. -/
theorem valid_loadUnvisited (R : Reads S m ins H T P) {s : St V} (hH : H s)
    {e : HnswElement V} (hP : P s e) (lc : Nat) (v : List ItemPointer) :
    Valid (hnswMachine V) t S (HnswLoadUnvisitedFromDisk m lc e v) (fun r s' => S.rely s s' ∧
      S.inv s' ∧ ∃ l, r = unvisitedOf id l v ∧ ∀ u ∈ l, T s' u) s := by
  refine Valid.bind ?_
  show Valid _ t S (section_ (.readNeighborTuple e.neighbortid) >>= fun r => _) _ s
  refine Valid.bind (valid_read (fun _ => rfl) R.guar fun s' hr hi _ => ⟨R.safeRead, ?_⟩)
  rcases R.tids (R.held hH hr hi) hi (R.stableP hH hr hi hP) with ⟨n, hn, hT⟩ | ⟨hn, hfail⟩
  case inr =>
    simp only [execPage, hn]
    exact hfail.valid t _ _
  simp only [execPage, hn]
  cases hl : neighborTids n e.level e.version m (HnswGetLayerM m lc) lc with
  | none => exact ⟨hr, hi, [], rfl, fun u hu => absurd hu List.not_mem_nil⟩
  | some l => exact ⟨hr, hi, _, rfl, hT _ _ l hl⟩

variable [LT δ] [DecidableLT δ]

/-- `HnswLoadElementImpl`. -/
theorem valid_loadElement (R : Reads S m ins H T P) {s : St V} (hH : H s) {u : ItemPointer}
    (hT : T s u) (support : HnswSupport V δ) (q : Option V) (l : Loader) (md : Option δ) :
    Valid (hnswMachine V) t S (HnswLoadElementImpl support q ins l u md) (fun r s' => S.rely s s' ∧
      S.inv s' ∧ T s' u ∧ ∃ e, s'.index.elem? u = some e ∧
        r = loadWithDistance support q ins md u e ∧
        P s' (HnswLoadElementFromTuple (HnswInitElementFromBlock u 0) e true ins)) s := by
  show Valid _ t S (section_ (.loadElement u l) >>= fun r => _) _ s
  refine Valid.bind (valid_read (fun _ => rfl) R.guar fun s' hr hi _ => ?_)
  have hH' := R.held hH hr hi
  have hT' := R.stableT hH hr hi hT
  refine ⟨R.safeLoad hH' hi hT', ?_⟩
  rcases R.load hH' hi hT' with ⟨e, he, hPe⟩ | ⟨he, hfail⟩
  · simp only [execPage, he]
    exact ⟨hr, hi, hT', e, he, rfl, hPe⟩
  · simp only [execPage, he]
    exact hfail.valid t _ _

end Search

/-! ## 3. The loops -/

section Loops

variable [LinearOrder δ] {S : Spec (Op V) (St V)} {t m : Nat} {ins : Bool} {H : St V → Prop}
  {T : St V → ItemPointer → Prop} {P : St V → HnswElement V → Prop}

/-- What a search may still do: candidates to expand, entries of `F` to visit, TIDs of `F` not visited. -/
def cost (F : Finset ItemPointer) (us : List ItemPointer)
    (st : SearchState (HnswElement V) ItemPointer δ) : Nat :=
  (toList st.C).length + (us.filter fun u => decide (u ∈ F)).length + (F \ st.v.toFinset).card

/-- Visiting an entry of `F` does not raise the cost. -/
theorem cost_visit {F : Finset ItemPointer} {u : ItemPointer} (hu : u ∈ F) (us : List ItemPointer)
    {M : Type → Type} (env : SearchEnv M (HnswElement V) ItemPointer ItemPointer δ) (ef lc : Nat)
    (st : SearchState (HnswElement V) ItemPointer δ) (eo : Option (HnswElement V)) (d : δ) :
    cost F us (visit env ef lc st eo d) ≤ cost F (u :: us) st := by
  unfold cost
  rw [List.filter_cons_of_pos (p := fun u => decide (u ∈ F)) (decide_eq_true hu), List.length_cons]
  rcases visit_or env ef lc st eo d with h | ⟨e, f, _, h⟩
  · rw [h]
    omega
  · have h1 := h.C_length
    rw [h.v_eq]
    omega

/-- Expanding a candidate lowers the cost, whatever its neighbors are. -/
theorem cost_expand {F : Finset ItemPointer} {l : List ItemPointer}
    {st : SearchState (HnswElement V) ItemPointer δ} {c : HnswSearchCandidate (HnswElement V) δ}
    {C : Heap (HnswSearchCandidate (HnswElement V) δ)}
    (hC : removeFirst CompareNearestCandidates st.C = some (c, C)) (tuples : Nat) :
    cost F (unvisitedOf id l st.v).1
      { st with C := C, v := (unvisitedOf id l st.v).2, tuples := tuples } < cost F [] st := by
  have h1 := (removeFirst_perm _ hC).length_eq
  have h2 := card_unvisited_filter id l st.v F
  unfold cost
  simp only [List.length_cons, List.filter_nil, List.length_nil, id_eq] at h1 h2 ⊢
  omega

/-- **The search**: an invariant kept by the others, by each visit and by each expansion; the loop ends
    before its budget when everything loaded is in `F`. -/
theorem valid_searchLoop (R : Reads S m ins H T P) (support : HnswSupport V δ) (q : Option V)
    (skip : Bool) (ef lc : Nat) (F : Finset ItemPointer)
    (hF : S.cuts ∨ ∀ s e, H s → S.inv s → P s e → e.tid ∈ F)
    {I : List ItemPointer → SearchState (HnswElement V) ItemPointer δ → St V → Prop}
    (stable : ∀ us st s s', H s → S.rely s s' → S.inv s' → I us st s → I us st s')
    (named : ∀ u us st s, I (u :: us) st s → T s u)
    (skipped : ∀ u us st s, I (u :: us) st s → I us st s)
    (visited : ∀ u us st s e d, I (u :: us) st s → P s e → e.tid = u →
      I us (visit (diskEnv support q ins skip m lc) ef lc st (some e) d) s)
    (copies : ∀ st s c C, I [] st s → removeFirst CompareNearestCandidates st.C = some (c, C) →
      P s c.element)
    (expand : ∀ st s c C l, I [] st s → removeFirst CompareNearestCandidates st.C = some (c, C) →
      (∀ u ∈ l, T s u) → I (unvisitedOf id l st.v).1 { st with
        C := C, v := (unvisitedOf id l st.v).2
        tuples := st.tuples + (unvisitedOf id l st.v).1.length } s)
    (drop : ∀ st s c C, I [] st s → removeFirst CompareNearestCandidates st.C = some (c, C) →
      I [] { st with C := C } s) :
    ∀ (n : Nat) (st : SearchState (HnswElement V) ItemPointer δ) (s : St V), H s → S.inv s →
      I [] st s → S.cuts ∨ cost F [] st < n →
      Valid (hnswMachine V) t S (searchLoop (diskEnv support q ins skip m lc) ef lc n st)
        (fun st' s' => S.rely s s' ∧ S.inv s' ∧ I [] st' s') s
  | 0, _, _, _, _, _, hn => hn.resolve_right (Nat.not_lt_zero _)
  | n + 1, st, s, hH, hi, hI, hn => by
      have hrefl := R.refl s
      unfold searchLoop
      cases hr : removeFirst CompareNearestCandidates st.C with
      | none => exact ⟨hrefl, hi, hI⟩
      | some x =>
          obtain ⟨c, C⟩ := x
          cases hf : first st.W with
          | none => exact ⟨hrefl, hi, hI⟩
          | some f =>
              simp only
              split
              · exact ⟨hrefl, hi, drop st s c C hI hr⟩
              · refine Valid.bind (Valid.mono
                  (valid_loadUnvisited R hH (copies st s c C hI hr) lc st.v) ?_)
                rintro r s1 ⟨hr1, hi1, l, rfl, hl⟩
                have hH1 := R.held hH hr1 hi1
                have hI1 := expand st s1 c C l (stable _ _ _ _ hH hr1 hi1 hI) hr hl
                -- each entry is loaded and visited in turn
                refine Valid.bind (Valid.mono (Valid.foldlM_rest
                  (I := fun us st' s' => H s' ∧ S.rely s s' ∧ S.inv s' ∧ I us st' s' ∧
                    (S.cuts ∨ cost F us st' < n)) (unvisitedOf id l st.v).1
                  ⟨hH1, hr1, hi1, hI1, ?_⟩ ?_) ?_)
                · rcases hn with hn | hn
                  · exact Or.inl hn
                  · have := cost_expand (F := F) (l := l) hr
                      (st.tuples + (unvisitedOf id l st.v).1.length)
                    exact Or.inr (by omega)
                · rintro u us st1 s2 ⟨hH2, hr2, hi2, hI2, hc2⟩
                  refine Valid.bind (Valid.mono (valid_loadElement R hH2 (named u us st1 s2 hI2)
                    support q _ _) ?_)
                  rintro x s3 ⟨hr3, hi3, _, e, he, rfl, hPe⟩
                  have hI3 := stable _ _ _ _ hH2 hr3 hi3 hI2
                  have hspec := (loadWithDistance_spec support q ins (maxDistance ef st1) u e).2
                  generalize loadWithDistance support q ins (maxDistance ef st1) u e = x at hspec
                  obtain ⟨eo, d⟩ := x
                  have hH3 := R.held hH2 hr3 hi3
                  refine ⟨hH3, R.trans hr2 hr3, hi3, ?_, hc2.elim Or.inl fun hc => hF.imp id fun hF =>
                    Nat.lt_of_le_of_lt (cost_visit (hF s3 _ hH3 hi3 hPe) us _ ef lc st1 eo d) hc⟩
                  cases eo with
                  | none =>
                      rw [visit_none]
                      exact skipped u us st1 s3 hI3
                  | some e' =>
                      obtain rfl := hspec e' rfl
                      exact visited u us st1 s3 _ d hI3 hPe rfl
                · rintro st2 s4 ⟨hH4, hr4, hi4, hI4, hc4⟩
                  refine Valid.mono (valid_searchLoop R support q skip ef lc F hF stable named skipped
                    visited copies expand drop n st2 s4 hH4 hi4 hI4 hc4) ?_
                  rintro st3 s5 ⟨hr5, hi5, hI5⟩
                  exact ⟨R.trans hr4 hr5, hi5, hI5⟩

/-- The budget is enough for every search, or the search may be cut off. -/
def Enough (S : Spec (Op V) (St V)) (H : St V → Prop) (P : St V → HnswElement V → Prop)
    (F : Finset ItemPointer) (budget : Nat) : Prop :=
  S.cuts ∨ (∀ s e, H s → S.inv s → P s e → e.tid ∈ F) ∧ 2 * F.card < budget

/-- Candidates to start a layer with, or found on it. -/
structure Candidates (P : St V → HnswElement V → Prop) (lc : Nat)
    (w : List (HnswSearchCandidate (HnswElement V) δ)) (s : St V) : Prop where
  ne : w ≠ []
  good : ∀ c ∈ w, P s c.element ∧ lc ≤ c.element.level
  nodup : (w.map fun c => c.element.tid).Nodup

omit [LinearOrder δ] in
theorem Candidates.lower {lc lc' : Nat} {w : List (HnswSearchCandidate (HnswElement V) δ)} {s : St V}
    (h : Candidates P lc w s) (hl : lc' ≤ lc) : Candidates P lc' w s :=
  ⟨h.ne, fun c hc => ⟨(h.good c hc).1, hl.trans (h.good c hc).2⟩, h.nodup⟩

omit [LinearOrder δ] in
theorem Candidates.stable (R : Reads S m ins H T P) {lc : Nat}
    {w : List (HnswSearchCandidate (HnswElement V) δ)} {s s' : St V} (h : Candidates P lc w s)
    (hH : H s) (hr : S.rely s s') (hi : S.inv s') : Candidates P lc w s' :=
  ⟨h.ne, fun c hc => ⟨R.stableP hH hr hi (h.good c hc).1, (h.good c hc).2⟩, h.nodup⟩

/-- **`HnswSearchLayer`**: what it finds can be counted on, is on the layer, and is distinct. -/
theorem valid_searchLayer (R : Reads S m ins H T P) {F : Finset ItemPointer} {n : Nat}
    (hF : Enough S H P F n) (support : HnswSupport V δ) (q : Option V) (skip : Bool) (ef lc : Nat)
    {ep : List (HnswSearchCandidate (HnswElement V) δ)} {s : St V} (hH : H s) (hi : S.inv s)
    (hep : Candidates P lc ep s) :
    Valid (hnswMachine V) t S
      (HnswSearchLayer (diskEnv support q ins skip m lc) ep ef lc [] none true 0 n)
      (fun r s' => S.rely s s' ∧ S.inv s' ∧ Candidates P lc r.w s') s := by
  let Good (s : St V) (c : HnswSearchCandidate (HnswElement V) δ) : Prop :=
    P s c.element ∧ lc ≤ c.element.level
  have h0 : LayerInv (Good s) (diskEnv support q ins skip m lc).visitedKey id ([] : List ItemPointer)
      (searchStart (diskEnv support q ins skip m lc) ep [] none true 0) :=
    layerInv_start hep.ne hep.good hep.nodup
  refine Valid.bind (Valid.mono (valid_searchLoop R support q skip ef lc F (hF.imp id fun h => h.1)
    (I := fun us st s => LayerInv (Good s) HnswElement.tid id us st ∧ ∀ u ∈ us, T s u)
    ?_ ?_ ?_ ?_ ?_ ?_ ?_ n _ s hH hi ⟨h0, fun u hu => absurd hu List.not_mem_nil⟩ ?_) ?_)
  · rintro us st s s' hH hr hi ⟨h1, h2⟩
    exact ⟨h1.mono fun c hc => ⟨R.stableP hH hr hi hc.1, hc.2⟩,
      fun u hu => R.stableT hH hr hi (h2 u hu)⟩
  · exact fun u us st s h => h.2 u List.mem_cons_self
  · exact fun u us st s h => ⟨h.1.forget, fun x hx => h.2 x (List.mem_cons_of_mem _ hx)⟩
  · rintro u us st s e d ⟨h1, h2⟩ hP he
    exact ⟨h1.visit he fun hl => ⟨hP, hl⟩, fun x hx => h2 x (List.mem_cons_of_mem _ hx)⟩
  · rintro st s c C ⟨h1, _⟩ hC
    exact (h1.goodC c ((removeFirst_perm _ hC).mem_iff.mpr List.mem_cons_self)).1
  · rintro st s c C l ⟨h1, _⟩ hC hl
    exact ⟨h1.expand _ hC, fun u hu => hl u ((unvisitedOf_spec id l st.v).2.2.2.1 u hu)⟩
  · rintro st s c C ⟨h1, h2⟩ hC
    exact ⟨{ h1 with
      heapC := removeFirst_heaped nearest_preorder h1.heapC hC
      goodC := fun x hx => h1.goodC x
        ((removeFirst_perm _ hC).mem_iff.mpr (List.mem_cons_of_mem _ hx)) }, h2⟩
  · refine hF.imp id fun ⟨hP, hn⟩ => ?_
    have hlen := (searchStart_perm (diskEnv support q ins skip m lc) ep [] none true 0).1.length_eq
    have hep' : ep.length ≤ F.card := by
      have hmap : (ep.map fun c => c.element.tid).length = ep.length := List.length_map _
      rw [← hmap, ← List.toFinset_card_of_nodup hep.nodup]
      refine Finset.card_le_card fun u hu => ?_
      obtain ⟨c, hc, rfl⟩ := List.mem_map.mp (List.mem_toFinset.mp hu)
      exact hP s _ hH hi (hep.good c hc).1
    have hcard := Finset.card_le_card (Finset.sdiff_subset (s := F)
      (t := (searchStart (diskEnv support q ins skip m lc) ep [] none true 0).v.toFinset))
    unfold cost
    rw [List.filter_nil, List.length_nil]
    omega
  · rintro st s' ⟨hr, hi', h1, _⟩
    obtain ⟨h2, h3, h4⟩ := h1.result
    exact ⟨hr, hi', h2, h3, h4⟩

end Loops

/-! ## 4. Choosing neighbors -/

section Find

variable [LinearOrder δ] {S : Spec (Op V) (St V)} {t m : Nat} {H : St V → Prop}
  {T : St V → ItemPointer → Prop} {P : St V → HnswElement V → Prop} {F : Finset ItemPointer}
  {budget : Nat}

/-- The first phase of `HnswFindElementNeighbors`. -/
theorem valid_greedyPhase (R : Reads S m true H T P) (hF : Enough S H P F budget)
    (rel : HnswRel V δ) (q : Option V) (skip : Option ItemPointer) (level : Nat) :
    ∀ (lc : Nat) {ep : List (HnswSearchCandidate (HnswElement V) δ)} {s : St V}, H s → S.inv s →
      Candidates P lc ep s →
      Valid (hnswMachine V) t S (greedyPhase (diskFindEnv rel q skip m) level budget lc ep)
        (fun w s' => S.rely s s' ∧ S.inv s' ∧ Candidates P (min level lc) w s') s
  | 0, ep, s, _, hi, hep => ⟨R.refl s, hi, by rw [Nat.min_zero]; exact hep⟩
  | lc + 1, ep, s, hH, hi, hep => by
      unfold greedyPhase
      split
      · rename_i hlt
        refine Valid.bind (Valid.mono (valid_searchLayer R hF rel.support q _ 1 (lc + 1) hH hi hep) ?_)
        rintro r s' ⟨hr, hi', hc⟩
        refine Valid.mono (valid_greedyPhase R hF rel q skip level lc (R.held hH hr hi') hi'
          (hc.lower (Nat.le_succ lc))) ?_
        rintro w s'' ⟨hr2, hi2, hc2⟩
        refine ⟨R.trans hr hr2, hi2, hc2.lower ?_⟩
        omega
      · rename_i hle
        exact ⟨R.refl s, hi, hep.lower (Nat.min_le_right _ _)⟩

/-- The neighbors chosen for one layer: not too many, distinct, on the layer, with heap TIDs, and not
    the element itself. -/
structure FoundLayer (P : St V → HnswElement V → Prop) (m : Nat) (skip : Option ItemPointer) (s : St V)
    (lc : Nat) (a : HnswNeighborArray (HnswElement V) δ) : Prop where
  length : a.items.length ≤ HnswGetLayerM m lc
  nodup : (a.items.map fun hc => hc.element.tid).Nodup
  mem : ∀ hc ∈ a.items, P s hc.element ∧ lc ≤ hc.element.level ∧ hc.element.heaptids ≠ [] ∧
    skip ≠ some hc.element.tid

/-- **The neighbors chosen for an element**, one array for each of its layers. -/
structure Found (P : St V → HnswElement V → Prop) (m : Nat) (skip : Option ItemPointer) (level : Nat)
    (s : St V) (arrays : List (HnswNeighborArray (HnswElement V) δ)) : Prop where
  length : arrays.length = level + 1
  layer : ∀ {lc a}, arrays[lc]? = some a → FoundLayer P m skip s lc a

omit [LinearOrder δ] in
theorem FoundLayer.stable (R : Reads S m true H T P) {skip : Option ItemPointer} {s s' : St V} {lc : Nat}
    {a : HnswNeighborArray (HnswElement V) δ} (h : FoundLayer P m skip s lc a) (hH : H s)
    (hr : S.rely s s') (hi : S.inv s') : FoundLayer P m skip s' lc a :=
  ⟨h.length, h.nodup, fun hc hm => ⟨R.stableP hH hr hi (h.mem hc hm).1, (h.mem hc hm).2⟩⟩

omit [LinearOrder δ] in
theorem Found.stable (R : Reads S m true H T P) {skip : Option ItemPointer} {level : Nat} {s s' : St V}
    {arrays : List (HnswNeighborArray (HnswElement V) δ)} (h : Found P m skip level s arrays) (hH : H s)
    (hr : S.rely s s') (hi : S.inv s') : Found P m skip level s' arrays :=
  ⟨h.length, fun ha => (h.layer ha).stable R hH hr hi⟩

/-- The neighbors selected from what a layer's search found. -/
theorem foundLayer_select (rel : HnswRel V δ) (q : Option V) (skip : Option ItemPointer) {lc : Nat}
    {w : List (HnswSearchCandidate (HnswElement V) δ)} {s : St V} (h : Candidates P lc w s) :
    FoundLayer P m skip s lc (layerNeighbors (diskFindEnv rel q skip m) lc w) := by
  unfold layerNeighbors
  simp only [diskFindEnv]
  generalize hlw : (w.map fun sc =>
    (⟨sc.element, rel.support.toFloat sc.distance, false⟩ : HnswCandidate (HnswElement V) δ)) = lw
  have hmem : ∀ y ∈ RemoveElements skip lw, P s y.element ∧ lc ≤ y.element.level ∧
      y.element.heaptids ≠ [] ∧ skip ≠ some y.element.tid := by
    intro y hy
    obtain ⟨hy, hf⟩ := List.mem_filter.mp hy
    rw [← hlw] at hy
    obtain ⟨sc, hsc, rfl⟩ := List.mem_map.mp hy
    simp only [Bool.and_eq_true, Bool.not_eq_true', decide_eq_false_iff_not, List.isEmpty_eq_false_iff]
      at hf
    exact ⟨(h.good sc hsc).1, (h.good sc hsc).2, hf.2, hf.1⟩
  have hnd : ((RemoveElements skip lw).map fun x => x.element.tid).Nodup := by
    refine List.Nodup.sublist (List.Sublist.map _ List.filter_sublist) ?_
    rw [← hlw, List.map_map]
    exact h.nodup
  refine ⟨select_length _ _ _ _ _, ?_, fun hc hm => ?_⟩
  · exact select_nodup HnswElement.tid hnd _ _ _ _
  · obtain ⟨y, hy, he⟩ := select_sub hm
    rw [← he]
    exact hmem y hy

/-- The second phase. -/
theorem valid_connectPhase (R : Reads S m true H T P) (hF : Enough S H P F budget)
    (rel : HnswRel V δ) (q : Option V) (skip : Option ItemPointer) (ef : Nat) :
    ∀ (lc : Nat) {ep : List (HnswSearchCandidate (HnswElement V) δ)} {s : St V}, H s → S.inv s →
      Candidates P lc ep s →
      Valid (hnswMachine V) t S (connectPhase (diskFindEnv rel q skip m) ef budget lc ep)
        (fun arrays s' => S.rely s s' ∧ S.inv s' ∧ Found P m skip lc s' arrays) s
  | 0, ep, s, hH, hi, hep => by
      unfold connectPhase
      refine Valid.bind (Valid.mono (valid_searchLayer R hF rel.support q _ ef 0 hH hi hep) ?_)
      rintro r s' ⟨hr, hi', hc⟩
      refine ⟨hr, hi', rfl, fun {lc a} ha => ?_⟩
      cases lc with
      | zero =>
          cases ha
          exact foundLayer_select rel q skip hc
      | succ lc => cases ha
  | lc + 1, ep, s, hH, hi, hep => by
      unfold connectPhase
      refine Valid.bind (Valid.mono (valid_searchLayer R hF rel.support q _ ef (lc + 1) hH hi hep) ?_)
      rintro r s' ⟨hr, hi', hc⟩
      have hH' := R.held hH hr hi'
      refine Valid.bind (Valid.mono (valid_connectPhase R hF rel q skip ef lc hH' hi'
        (hc.lower (Nat.le_succ lc))) ?_)
      rintro lower s'' ⟨hr2, hi2, hlow⟩
      refine ⟨R.trans hr hr2, hi2, ?_, fun {k a} ha => ?_⟩
      · rw [List.length_append, hlow.length]
        rfl
      · rcases Nat.lt_or_ge k (lc + 1) with hk | hk
        · rw [List.getElem?_append_left (by rw [hlow.length]; exact hk)] at ha
          exact hlow.layer ha
        · rw [List.getElem?_append_right (by rw [hlow.length]; exact hk), hlow.length] at ha
          cases hd : k - (lc + 1) with
          | zero =>
              rw [hd] at ha
              cases ha
              have hkl : k = lc + 1 := by omega
              subst hkl
              exact (foundLayer_select rel q skip hc).stable R hH' hr2 hi2
          | succ j =>
              rw [hd] at ha
              cases ha

/-- `HnswEntryCandidate`. -/
theorem valid_entryCandidate {ins : Bool} (R : Reads S m ins H T P) {s : St V} (hH : H s)
    {u : ItemPointer} (hT : T s u) (support : HnswSupport V δ) (q : Option V) :
    Valid (hnswMachine V) t S (HnswEntryCandidate support q ins u) (fun c s' => S.rely s s' ∧
      S.inv s' ∧ P s' c.element ∧ c.element.tid = u ∧
      ∃ e, s'.index.elem? u = some e ∧ c.element.level = e.level) s := by
  refine Valid.bind (Valid.mono (valid_loadElement R hH hT support q _ none) ?_)
  rintro r s' ⟨hr, hi, _, e, he, rfl, hPe⟩
  exact ⟨hr, hi, hPe, rfl, e, he, rfl⟩

/-- **`HnswFindElementNeighbors` on disk.** The entry point comes back as it was loaded. -/
theorem valid_findNeighbors (R : Reads S m true H T P) (hF : Enough S H P F budget)
    (rel : HnswRel V δ) (element : HnswElement V) {entryPoint : Option EntryPoint} (existing : Bool)
    {s : St V} (hH : H s) (hi : S.inv s) (hT : ∀ ep, entryPoint = some ep → T s ep.tid) :
    Valid (hnswMachine V) t S (findNeighborsOnDisk rel element entryPoint m existing budget)
      (fun r s' => S.rely s s' ∧ S.inv s' ∧ r.1.element = element ∧
        Found P m (if existing then some element.tid else none) element.level s' r.1.neighbors ∧
        ∀ ep', r.2 = some ep' → ∃ ep e, entryPoint = some ep ∧ ep'.tid = ep.tid ∧
          P s' e ∧ e.tid = ep.tid ∧ ep'.level = e.level) s := by
  generalize hskip : (if existing then some element.tid else none) = skip
  have hinit : ∀ (s' : St V) (lc : Nat),
      FoundLayer P m skip s' lc (HnswInitNeighborArray : HnswNeighborArray (HnswElement V) δ) :=
    fun s' lc => ⟨Nat.zero_le _, List.nodup_nil, fun hc hm => absurd hm List.not_mem_nil⟩
  unfold findNeighborsOnDisk HnswFindElementNeighbors
  simp only [hskip]
  cases entryPoint with
  | none =>
      refine ⟨R.refl s, hi, rfl, ⟨List.length_replicate, fun {lc a} ha => ?_⟩, fun ep' h => by cases h⟩
      rw [(List.mem_replicate.mp (List.mem_of_getElem? ha)).2]
      exact hinit s lc
  | some ep =>
      refine Valid.bind (Valid.bind (Valid.mono
        (valid_entryCandidate R hH (hT ep rfl) rel.support element.value) ?_))
      rintro c s1 ⟨hr1, hi1, hP1, htid, _⟩
      have hH1 := R.held hH hr1 hi1
      refine Valid.bind (Valid.mono (valid_greedyPhase R hF rel element.value skip element.level
        c.element.level hH1 hi1 ⟨by simp, fun x hx => ?_, by simp⟩) ?_)
      · rw [List.mem_singleton.mp hx]
        exact ⟨hP1, Nat.le_refl _⟩
      rintro w s2 ⟨hr2, hi2, hc2⟩
      refine Valid.bind (Valid.mono (valid_connectPhase R hF rel element.value skip _ _
        (R.held hH1 hr2 hi2) hi2 hc2) ?_)
      rintro arrays s3 ⟨hr3, hi3, hfound⟩
      have hr13 := R.trans hr2 hr3
      refine ⟨R.trans hr1 hr13, hi3, rfl, ⟨?_, fun {lc a} ha => ?_⟩, fun ep' h => ?_⟩
      · simp only [List.length_append, List.length_replicate, hfound.length, diskFindEnv, diskEnv]
        omega
      · rcases Nat.lt_or_ge lc arrays.length with hl | hl
        · rw [List.getElem?_append_left hl] at ha
          exact hfound.layer ha
        · rw [List.getElem?_append_right hl] at ha
          rw [(List.mem_replicate.mp (List.mem_of_getElem? ha)).2]
          exact hinit s3 lc
      · cases h
        exact ⟨ep, c.element, rfl, htid, R.stableP hH1 hr13 hi3 hP1, htid, rfl⟩

/-! ## 5. The slot to update -/

omit [LinearOrder δ] in
/-- `HnswUpdateConnection` answers with a free slot, with nothing, or with a slot of the array. -/
theorem updateConnection_index [LinearOrder δ] {E : Type} (ptr : E → Nat) (pd : E → E → δ)
    (a : HnswNeighborArray E δ) (e : E) (d : δ) (lm : Nat) :
    (HnswUpdateConnection ptr pd a e d lm).2 = -2 ∨ (HnswUpdateConnection ptr pd a e d lm).2 = -1 ∨
      ∃ i : Nat, i < a.items.length ∧ (HnswUpdateConnection ptr pd a e d lm).2 = i := by
  unfold HnswUpdateConnection
  simp only
  split
  · exact Or.inl rfl
  · split
    · exact Or.inr (Or.inl rfl)
    · split
      · rename_i i hi
        refine Or.inr (Or.inr ⟨i, ?_, rfl⟩)
        have := List.findIdx?_eq_some_iff_findIdx_eq.mp hi
        simpa using this.1
      · exact Or.inr (Or.inl rfl)

/-- `LoadElementsForInsert`: everything is loaded, or the index of an element being deleted comes back. -/
theorem valid_loadElementsForInsert (R : Reads S m true H T P) (rel : HnswRel V δ) (q : Option V)
    (addr : Nat → Nat) : ∀ (tids : List ItemPointer) (i : Nat)
    (loaded : List (HnswCandidate (HnswElement V) δ)) {s : St V}, H s → S.inv s → (∀ u ∈ tids, T s u) →
    Valid (hnswMachine V) t S (LoadElementsForInsert rel q addr tids i loaded) (fun r s' =>
      S.rely s s' ∧ S.inv s' ∧ (r.1 = -1 ∧ r.2.length = loaded.length + tids.length ∨
        ∃ j : Nat, r.1 = j ∧ j < i + tids.length)) s
  | [], i, loaded, s, _, hi, _ => ⟨R.refl s, hi, Or.inl ⟨rfl, rfl⟩⟩
  | u :: tids, i, loaded, s, hH, hi, hT => by
      unfold LoadElementsForInsert
      refine Valid.bind (Valid.mono
        (valid_loadElement R hH (hT u List.mem_cons_self) rel.support q _ none) ?_)
      rintro r s1 ⟨hr1, hi1, _, e, _, rfl, _⟩
      have hH1 := R.held hH hr1 hi1
      simp only [loadWithDistance]
      split
      · refine ⟨hr1, hi1, Or.inr ⟨i, rfl, ?_⟩⟩
        simp only [List.length_cons]
        omega
      · refine Valid.mono (valid_loadElementsForInsert R rel q addr tids (i + 1) _ hH1 hi1
          fun x hx => R.stableT hH hr1 hi1 (hT x (List.mem_cons_of_mem _ hx))) ?_
        rintro r s2 ⟨hr2, hi2, h⟩
        refine ⟨R.trans hr1 hr2, hi2, h.imp ?_ ?_⟩
        · rintro ⟨h1, h2⟩
          refine ⟨h1, h2.trans ?_⟩
          simp only [List.length_append, List.length_cons, List.length_nil]
          omega
        · rintro ⟨j, h1, h2⟩
          refine ⟨j, h1, ?_⟩
          simp only [List.length_cons]
          omega

theorem length_neighborTids {n : HnswNeighborTuple} {level version m lm lc : Nat} {l : List ItemPointer}
    (h : neighborTids n level version m lm lc = some l) : l.length ≤ lm := by
  unfold neighborTids at h
  split at h
  · cases h
  · cases h
    exact List.length_take_le _ _

/-- The part of `GetUpdateIndex` after the TIDs of the layer were read. -/
theorem valid_chooseSlot (R : Reads S m true H T P) (rel : HnswRel V δ) (element newElement : HnswElement V)
    (distance : δ) (lm lc : Nat) {Full : St V → Prop}
    (hst : ∀ s s', H s → S.rely s s' → S.inv s' → Full s → Full s')
    {tids : List ItemPointer} {s : St V} (hH : H s) (hi : S.inv s) (hT : ∀ u ∈ tids, T s u)
    (hle : tids.length ≤ lm) (hfull : lm ≤ tids.length → 0 < lm → Full s) :
    Valid (hnswMachine V) t S (if tids.length < lm then pure (-2) else do
        let (idx, loaded) ← LoadElementsForInsert rel element.value
          (rel.palloc element.tid newElement.tid lc) tids 0 []
        if idx ≠ -1 then return idx
        else
          return (HnswUpdateConnection HnswElement.ptr
            (fun a b => valueDistance rel.support a.value b.value) ⟨loaded, false⟩
            { newElement with ptr := rel.palloc element.tid newElement.tid lc 0 } distance lm).2)
      (fun i s' => S.rely s s' ∧ S.inv s' ∧ (i = -2 ∨ i = -1 ∨ ∃ j : Nat, i = j ∧ j < lm ∧ Full s'))
      s := by
  split
  · exact ⟨R.refl s, hi, Or.inl rfl⟩
  · rename_i hlen
    refine Valid.bind (Valid.mono (valid_loadElementsForInsert R rel element.value _ tids 0 [] hH hi hT)
      ?_)
    rintro ⟨i, loaded⟩ s2 ⟨hr2, hi2, h⟩
    have hF2 : 0 < lm → Full s2 := fun h0 => hst s s2 hH hr2 hi2 (hfull (by omega) h0)
    simp only at h ⊢
    split
    · rename_i hne
      rcases h with ⟨h1, _⟩ | ⟨j, h1, h2⟩
      · exact absurd h1 hne
      · exact ⟨hr2, hi2, Or.inr (Or.inr ⟨j, h1, by omega, hF2 (by omega)⟩)⟩
    · rename_i he
      have he' : i = -1 := not_not.mp he
      have hll : loaded.length ≤ lm := by
        rcases h with ⟨_, h2⟩ | ⟨j, h1, _⟩
        · simp only [List.length_nil] at h2
          omega
        · omega
      refine ⟨hr2, hi2, ?_⟩
      rcases updateConnection_index HnswElement.ptr
        (fun a b => valueDistance rel.support a.value b.value) ⟨loaded, false⟩
        { newElement with ptr := rel.palloc element.tid newElement.tid lc 0 } distance lm with
        h | h | ⟨j, hj, h⟩
      · exact Or.inl h
      · exact Or.inr (Or.inl h)
      · have hjl : j < lm := Nat.lt_of_lt_of_le hj hll
        exact Or.inr (Or.inr ⟨j, h, hjl, hF2 (by omega)⟩)

/-- **`GetUpdateIndex`**: a free slot is wanted, the element is not, or a slot of a full layer is given;
    `F` says what being full means as long as the others keep it. -/
theorem valid_getUpdateIndex (R : Reads S m true H T P) (rel : HnswRel V δ)
    {element : HnswElement V} (newElement : HnswElement V) (distance : δ) (lm lc : Nat)
    {F : St V → Prop}
    (hfull : ∀ s n l, H s → S.inv s → P s element → s.index.neigh? element.neighbortid = some n →
      neighborTids n element.level element.version m lm lc = some l → lm ≤ (validPrefix l).length →
      F s)
    (hst : ∀ s s', H s → S.rely s s' → S.inv s' → F s → F s')
    {s : St V} (hH : H s) (hP : P s element) :
    Valid (hnswMachine V) t S (GetUpdateIndex rel element newElement distance m lm lc) (fun i s' =>
      S.rely s s' ∧ S.inv s' ∧ (i = -2 ∨ i = -1 ∨ ∃ j : Nat, i = j ∧ j < lm ∧ F s')) s := by
  unfold GetUpdateIndex
  refine Valid.bind ?_
  show Valid _ t S (section_ (.readNeighborTuple element.neighbortid) >>= fun r => _) _ s
  refine Valid.bind (valid_read (fun _ => rfl) R.guar fun s1 hr1 hi1 _ => ⟨R.safeRead, ?_⟩)
  have hH1 := R.held hH hr1 hi1
  have hP1 := R.stableP hH hr1 hi1 hP
  rcases R.tids hH1 hi1 hP1 with ⟨n, hn, hT⟩ | ⟨hn, hfail⟩
  case inr =>
    simp only [execPage, hn]
    exact hfail.valid t _ _
  simp only [execPage, hn]
  have hpost : ∀ (i : Int) (s' : St V), (S.rely s1 s' ∧ S.inv s' ∧
      (i = -2 ∨ i = -1 ∨ ∃ j : Nat, i = j ∧ j < lm ∧ F s')) →
      S.rely s s' ∧ S.inv s' ∧ (i = -2 ∨ i = -1 ∨ ∃ j : Nat, i = j ∧ j < lm ∧ F s') :=
    fun i s' h => ⟨R.trans hr1 h.1, h.2⟩
  cases hl : neighborTids n element.level element.version m lm lc with
  | none =>
      have h := Valid.mono (valid_chooseSlot (t := t) R rel element newElement distance lm lc hst hH1 hi1
        (fun u hu => absurd hu List.not_mem_nil) (Nat.zero_le lm) fun h h0 => by
          simp only [List.length_nil] at h
          omega) hpost
      exact h
  | some l =>
      have h := Valid.mono (valid_chooseSlot (t := t) R rel element newElement distance lm lc hst hH1 hi1
        (hT _ _ l hl) ((List.Sublist.length_le (List.takeWhile_sublist _)).trans
          (length_neighborTids hl)) fun h _ => hfull s1 n l hH1 hi1 hP1 hn hl h) hpost
      exact h

end Find

end Pgvec.Hnsw
