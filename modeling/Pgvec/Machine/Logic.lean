/-
  File:      Pgvec/Machine/Logic.lean
  Subject:   RELY AND GUARANTEE FOR PROGRAMS OF ATOMIC SECTIONS. Names nothing of any program.

  `Valid M t S p Q s` says: process `t` may run `p` from `s`. Before each of its operations the
  other processes move the shared state along `S.rely`; the operation then keeps `S.inv`, moves
  the state along `S.guar`, is itself `S.safe`, and every state it makes durable is a `S.commit`;
  where the program returns, `Q` holds. `S.allow` restricts the runs considered (a step is only
  taken where it is allowed); `S.errors` and `S.cuts` say whether the program may fail or run out
  of a loop budget (`False` makes `Valid` a statement of total correctness).

  * `Valid.bind`, `Valid.mono`, `Valid.op`, `Valid.plain`, `Valid.look`, `Valid.foldlM_rest`, `Valid.foldlM` -- the rules;
  * `Valid.rely_trans` -- validity survives the steps of the others;
  * **`valid_run`** -- processes whose guarantees meet each other's relies keep `inv` along every
    interleaving and take only safe steps;
  * **`valid_alone`** -- a program run alone (`rely` is equality) returns with its
    postcondition, and every state it makes durable is a `commit`;
  * `Looks`, `valid_of_looks` -- a program all of whose operations only look keeps what is stable;
  * `All`, `All.alone`, `valid_of_all` -- what holds of a program whatever its operations answer;
  * `Ends`, `ends_of_valid` -- a program run alone neither waits nor runs out of a loop budget.
-/
import Pgvec.Machine.Prog

namespace Conc

variable {O : Type} {R : O → Type} {σ α β : Type}

/-- What a process may assume and has to deliver. -/
structure Spec (O σ : Type) where
  inv : σ → Prop
  rely : σ → σ → Prop
  guar : σ → σ → Prop
  allow : σ → O → Prop
  safe : σ → O → Prop
  commit : σ → Prop
  errors : Prop
  cuts : Prop

/-- **Process `t` may run the program from `s`.** By recursion on the tree. -/
def Valid (M : Machine O R σ) (t : Nat) (S : Spec O σ) :
    Prog O R α → (α → σ → Prop) → σ → Prop
  | .ret a, Q, s => Q a s
  | .op o k, Q, s => ∀ s', S.rely s s' → S.inv s' → S.allow s' o →
      S.safe s' o ∧ ∀ r, M.exec t o s' = some r →
        S.inv r.final ∧ S.guar s' r.final ∧ (∀ c ∈ r.commits, S.commit c) ∧
          Valid M t S (k r.resp) Q r.final
  | .error _, _, s => S.errors ∧ ∀ s', S.rely s s' → S.inv s' →
      S.inv (M.abort t s') ∧ S.guar s' (M.abort t s')
  | .cut, _, _ => S.cuts

namespace Valid

variable {M : Machine O R σ} {t : Nat} {S : Spec O σ}

theorem mono {p : Prog O R α} {Q Q' : α → σ → Prop} {s : σ} (h : Valid M t S p Q s)
    (hQ : ∀ a s', Q a s' → Q' a s') : Valid M t S p Q' s := by
  induction p generalizing s with
  | ret a => exact hQ a s h
  | op o k ih =>
      intro s' hr hi ha
      obtain ⟨hsafe, hk⟩ := h s' hr hi ha
      refine ⟨hsafe, fun r hx => ?_⟩
      obtain ⟨h1, h2, h3, h4⟩ := hk r hx
      exact ⟨h1, h2, h3, ih r.resp h4⟩
  | error msg => exact h
  | cut => exact h

/-- **Sequencing.** The second program is valid wherever the first one returns. -/
theorem bind {p : Prog O R α} {f : α → Prog O R β} {Q : β → σ → Prop} {s : σ}
    (h : Valid M t S p (fun a s' => Valid M t S (f a) Q s') s) : Valid M t S (p >>= f) Q s := by
  induction p generalizing s with
  | ret a => exact h
  | op o k ih =>
      intro s' hr hi ha
      obtain ⟨hsafe, hk⟩ := h s' hr hi ha
      refine ⟨hsafe, fun r hx => ?_⟩
      obtain ⟨h1, h2, h3, h4⟩ := hk r hx
      exact ⟨h1, h2, h3, ih r.resp h4⟩
  | error msg => exact h
  | cut => exact h

/-- **One operation under a stable assertion `P`.** -/
theorem op {o : O} {k : R o → Prog O R α} {Q : α → σ → Prop} {s : σ} (P : σ → Prop)
    (hP : ∀ s', S.rely s s' → P s')
    (h : ∀ s', P s' → S.inv s' → S.allow s' o → S.safe s' o ∧ ∀ r, M.exec t o s' = some r →
      S.inv r.final ∧ S.guar s' r.final ∧ (∀ c ∈ r.commits, S.commit c) ∧
        Valid M t S (k r.resp) Q r.final) : Valid M t S (.op o k) Q s :=
  fun s' hr hi ha => h s' (hP s' hr) hi ha

/-- One operation of a plain machine under a stable assertion `P`. -/
theorem plain {exec : Nat → (o : O) → σ → Option (σ × R o)} {o : O} {Q : R o → σ → Prop} {s : σ}
    (P : σ → Prop) (hs : P s) (hP : ∀ {a b}, P a → S.rely a b → P b)
    (h : ∀ a, P a → S.inv a → S.safe a o ∧ ∀ b r, exec t o a = some (b, r) →
      S.inv b ∧ S.guar a b ∧ Q r b) : Valid (Machine.plain exec) t S (.op o .ret) Q s := by
  intro a hr hi _
  obtain ⟨hsafe, hx⟩ := h a (hP hs hr) hi
  refine ⟨hsafe, fun r hxr => ?_⟩
  obtain ⟨⟨b, resp⟩, hb, rfl⟩ := Option.map_eq_some_iff.mp hxr
  obtain ⟨h1, h2, h3⟩ := hx b resp hb
  exact ⟨h1, h2, fun _ hc => absurd hc List.not_mem_nil, h3⟩

/-- One operation of a plain machine that only looks. -/
theorem look {exec : Nat → (o : O) → σ → Option (σ × R o)} {o : O} {Q : R o → σ → Prop} {s : σ}
    (P : σ → Prop) (hs : P s) (hP : ∀ {a b}, P a → S.rely a b → P b) (hg : ∀ a, S.guar a a)
    (h : ∀ a, P a → S.inv a → S.safe a o ∧ ∀ b r, exec t o a = some (b, r) → b = a ∧ Q r a) :
    Valid (Machine.plain exec) t S (.op o .ret) Q s := by
  refine plain P hs hP fun a ha hi => ?_
  obtain ⟨hsafe, hx⟩ := h a ha hi
  refine ⟨hsafe, fun b r hb => ?_⟩
  obtain ⟨rfl, hq⟩ := hx b r hb
  exact ⟨hi, hg b, hq⟩

/-- A loop over a list: `I` says what holds with the rest of the list still to go. -/
theorem foldlM_rest {f : β → α → Prog O R β} {I : List α → β → σ → Prop} :
    ∀ (l : List α) {b : β} {s : σ}, I l b s →
      (∀ a l b s, I (a :: l) b s → Valid M t S (f b a) (I l) s) →
      Valid M t S (l.foldlM f b) (I []) s
  | [], _, _, hI, _ => hI
  | a :: l, b, s, hI, h => by
      rw [List.foldlM_cons]
      exact bind (mono (h a l b s hI) fun b' s' hI' => foldlM_rest l hI' h)

/-- A loop over a list: `I` holds before every round. -/
theorem foldlM {f : β → α → Prog O R β} {I : β → σ → Prop} (l : List α) {b : β} {s : σ} (hI : I b s)
    (h : ∀ b a s, a ∈ l → I b s → Valid M t S (f b a) I s) : Valid M t S (l.foldlM f b) I s := by
  refine mono (foldlM_rest (I := fun r b s => (∀ a ∈ r, a ∈ l) ∧ I b s) l ⟨fun _ ha => ha, hI⟩ ?_)
    fun _ _ hx => hx.2
  intro a r b s ⟨hr, hb⟩
  exact mono (h b a s (hr a List.mem_cons_self) hb) fun _ _ hb' =>
    ⟨fun x hx => hr x (List.mem_cons_of_mem _ hx), hb'⟩

/-- The steps of the other processes keep a program valid, if they keep its postcondition. -/
theorem rely_trans {p : Prog O R α} {Q : α → σ → Prop} {s s' : σ} (h : Valid M t S p Q s)
    (htr : ∀ a b c, S.rely a b → S.rely b c → S.rely a c)
    (hQ : ∀ a s s', Q a s → S.rely s s' → Q a s') (hr : S.rely s s') : Valid M t S p Q s' := by
  cases p with
  | ret a => exact hQ a s s' h hr
  | op o k => exact fun u hu hi ha => h u (htr s s' u hr hu) hi ha
  | error msg => exact ⟨h.1, fun u hu hi => h.2 u (htr s s' u hr hu) hi⟩
  | cut => exact h

end Valid

/-! ## 1. Interleavings -/

/-- The shared invariant holds and every process is valid from here. -/
structure Good (M : Machine O R σ) (S : Nat → Spec O σ) (c : Config O R σ) : Prop where
  inv : ∀ t, (S t).inv c.shared
  valid : ∀ t p, c.threads[t]? = some p → Valid M t (S t) p (fun _ _ => True) c.shared

section Interleaving

variable {M : Machine O R σ} {S : Nat → Spec O σ} {inv : σ → Prop}
  {cond : σ → Nat → O → Prop}

/-- The process that moved is valid after its step, the others by their relies. -/
theorem good_set {c : Config O R σ} {t : Nat} {p : Prog O R Unit} {s' : σ}
    (hinv : ∀ t s, (S t).inv s ↔ inv s)
    (htr : ∀ t a b c, (S t).rely a b → (S t).rely b c → (S t).rely a c)
    (hgr : ∀ t u, t ≠ u → ∀ a b, (S t).guar a b → (S u).rely a b)
    (h : Good M S c) (hi : (S t).inv s') (hg : (S t).guar c.shared s')
    (hp : Valid M t (S t) p (fun _ _ => True) s') : Good M S ⟨s', c.threads.set t p⟩ where
  inv u := (hinv u s').mpr ((hinv t s').mp hi)
  valid u q hq := by
    by_cases e : t = u
    · subst e
      rw [List.getElem?_set] at hq
      simp only [if_true] at hq
      split at hq
      · cases hq
        exact hp
      · cases hq
    · have hq' : c.threads[u]? = some q := by
        rw [← hq]
        exact (List.getElem?_set_ne e).symm
      exact (h.valid u q hq').rely_trans (htr u) (fun _ _ _ _ _ => trivial) (hgr t u e _ _ hg)

/-- **Every interleaving keeps the invariant and takes only safe steps**, when each process's
    guarantee implies every other process's rely. -/
theorem valid_run {c0 c : Config O R σ}
    (hinv : ∀ t s, (S t).inv s ↔ inv s) (hrefl : ∀ t s, (S t).rely s s)
    (htr : ∀ t a b c, (S t).rely a b → (S t).rely b c → (S t).rely a c)
    (hgr : ∀ t u, t ≠ u → ∀ a b, (S t).guar a b → (S u).rely a b)
    (hcond : ∀ s t o, cond s t o → (S t).allow s o)
    (h0 : Good M S c0) (h : Run M cond c0 c) :
    Good M S c := by
  induction h with
  | start => exact h0
  | step c c' t _ hc hs ih =>
      rcases step_cases hs with ⟨o, k, r, hk, hr, rfl⟩ | ⟨msg, hk, rfl⟩
      · have hn : c.next t = some o := by simp only [Config.next, hk]
        obtain ⟨h1, h2, _, h4⟩ := (ih.valid t _ hk c.shared (hrefl t _) (ih.inv t)
          (hcond _ _ _ (hc o hn))).2 r hr
        exact good_set hinv htr hgr ih h1 h2 h4
      · obtain ⟨h1, h2⟩ := (ih.valid t _ hk).2 c.shared (hrefl t _) (ih.inv t)
        exact good_set hinv htr hgr ih h1 h2 trivial

/-- A step that is allowed in a good configuration is safe. -/
theorem Good.safe {c : Config O R σ} (h : Good M S c) (hrefl : ∀ t s, (S t).rely s s) {t : Nat}
    {o : O} (hn : c.next t = some o) (ha : (S t).allow c.shared o) : (S t).safe c.shared o := by
  unfold Config.next at hn
  split at hn
  · rename_i o' k hk
    cases hn
    exact (h.valid t _ hk c.shared (hrefl t _) (h.inv t) ha).1
  · cases hn

end Interleaving

/-! ## 2. One program alone -/

/-- **A valid program run alone** returns with its postcondition and makes only `commit` states
    durable. -/
theorem valid_alone {M : Machine O R σ} {t : Nat} {S : Spec O σ} {p : Prog O R α}
    {Q : α → σ → Prop} {s : σ} (hrefl : ∀ s, S.rely s s) (hall : ∀ s o, S.allow s o)
    (hi : S.inv s) (h : Valid M t S p Q s) :
    (∀ r, run M t p s = some r → Q r.1 r.2 ∧ S.inv r.2) ∧ ∀ c ∈ commits M t p s, S.commit c := by
  induction p generalizing s with
  | ret a =>
      refine ⟨fun r hr => ?_, fun c hc => absurd hc List.not_mem_nil⟩
      cases hr
      exact ⟨h, hi⟩
  | op o k ih =>
      have hv := (h s (hrefl s) hi (hall s o)).2
      simp only [run, commits]
      cases hx : M.exec t o s with
      | none => exact ⟨fun r hr => absurd hr (by simp), fun c hc => absurd hc List.not_mem_nil⟩
      | some x =>
          obtain ⟨h1, _, h3, h4⟩ := hv x hx
          obtain ⟨hq, hc⟩ := ih x.resp h1 h4
          refine ⟨hq, fun c hcm => ?_⟩
          rcases List.mem_append.mp hcm with h' | h'
          · exact h3 c h'
          · exact hc c h'
  | error msg =>
      exact ⟨fun r hr => absurd hr (by simp [run]), fun c hc => absurd hc List.not_mem_nil⟩
  | cut => exact ⟨fun r hr => absurd hr (by simp [run]), fun c hc => absurd hc List.not_mem_nil⟩

/-! ## 3. Programs that only look -/

/-- Every operation of the tree is `ok`, it does not fail, and every value it may return is a `Q`. -/
def Looks (ok : O → Prop) (Q : α → Prop) : Prog O R α → Prop
  | .ret a => Q a
  | .op o k => ok o ∧ ∀ r, Looks ok Q (k r)
  | .error _ => False
  | .cut => True

namespace Looks

variable {ok : O → Prop}

theorem mono {p : Prog O R α} {Q Q' : α → Prop} (h : Looks ok Q p) (hQ : ∀ a, Q a → Q' a) :
    Looks ok Q' p := by
  induction p with
  | ret a => exact hQ a h
  | op o k ih => exact ⟨h.1, fun r => ih r (h.2 r)⟩
  | error msg => exact h
  | cut => trivial

theorem bind {p : Prog O R α} {f : α → Prog O R β} {Q : β → Prop}
    (h : Looks ok (fun a => Looks ok Q (f a)) p) : Looks ok Q (p >>= f) := by
  induction p with
  | ret a => exact h
  | op o k ih => exact ⟨h.1, fun r => ih r (h.2 r)⟩
  | error msg => exact h
  | cut => trivial

theorem foldlM {f : β → α → Prog O R β} {Q : β → Prop} :
    ∀ (l : List α) {b : β}, Q b → (∀ b a, Q b → Looks ok Q (f b a)) → Looks ok Q (l.foldlM f b)
  | [], _, hb, _ => hb
  | a :: l, b, hb, h => by
      rw [List.foldlM_cons]
      exact bind (mono (h b a hb) fun b' hb' => foldlM l hb' h)

end Looks

/-- **A program that only looks** returns with what the others keep of `P`. -/
theorem valid_of_looks {M : Machine O R σ} {t : Nat} {S : Spec O σ} {ok : O → Prop} {P : σ → Prop}
    (hP : ∀ {a b}, P a → S.rely a b → S.inv b → P b) (hg : ∀ s, S.guar s s)
    (hop : ∀ o, ok o → ∀ s, P s → S.inv s → S.safe s o ∧
      ∀ r, M.exec t o s = some r → r.commits = [] ∧ r.final = s)
    (hcut : S.cuts) {p : Prog O R α} {Q : α → Prop} (h : Looks ok Q p) {s : σ} (hs : P s) :
    Valid M t S p (fun a s => Q a ∧ P s) s := by
  induction p generalizing s with
  | ret a => exact ⟨h, hs⟩
  | op o k ih =>
      intro s' hr hi _
      have hs' := hP hs hr hi
      obtain ⟨h1, h2⟩ := hop o h.1 s' hs' hi
      refine ⟨h1, fun r hx => ?_⟩
      obtain ⟨hc, hf⟩ := h2 r hx
      rw [hf, hc]
      exact ⟨hi, hg s', fun c hm => absurd hm List.not_mem_nil, ih r.resp (h.2 r.resp) hs'⟩
  | error msg => exact h.elim
  | cut => exact hcut

/-! ## 4. Whatever the operations answer -/

/-- Every operation of the tree is `ok`, and every value it may return is a `Q`; it may fail. -/
def All (ok : O → Prop) (Q : α → Prop) : Prog O R α → Prop
  | .ret a => Q a
  | .op o k => ok o ∧ ∀ r, All ok Q (k r)
  | .error _ => True
  | .cut => True

namespace All

variable {ok ok' : O → Prop} {Q Q' : α → Prop}

theorem mono {p : Prog O R α} (h : All ok Q p) (hok : ∀ o, ok o → ok' o) (hQ : ∀ a, Q a → Q' a) :
    All ok' Q' p := by
  induction p with
  | ret a => exact hQ a h
  | op o k ih => exact ⟨hok o h.1, fun r => ih r (h.2 r)⟩
  | error msg => trivial
  | cut => trivial

theorem bind {p : Prog O R α} {f : α → Prog O R β} {Q : β → Prop}
    (h : All ok (fun a => All ok Q (f a)) p) : All ok Q (p >>= f) := by
  induction p with
  | ret a => exact h
  | op o k ih => exact ⟨h.1, fun r => ih r (h.2 r)⟩
  | error msg => trivial
  | cut => trivial

/-- Sequencing when nothing is asked of the answer in between. -/
theorem andThen {p : Prog O R α} {f : α → Prog O R β} {Q : β → Prop} (h : All ok (fun _ => True) p)
    (hf : ∀ a, All ok Q (f a)) : All ok Q (p >>= f) :=
  bind (h.mono (fun _ ho => ho) fun a _ => hf a)

theorem foldlM {f : β → α → Prog O R β} {Q : β → Prop} :
    ∀ (l : List α) {b : β}, Q b → (∀ b, ∀ a ∈ l, Q b → All ok Q (f b a)) → All ok Q (l.foldlM f b)
  | [], _, hb, _ => hb
  | a :: l, b, hb, h => by
      rw [List.foldlM_cons]
      exact bind ((h b a List.mem_cons_self hb).mono (fun _ ho => ho) fun b' hb' =>
        foldlM l hb' fun b a ha => h b a (List.mem_cons_of_mem _ ha))

/-- **A program run alone** keeps what its operations keep. -/
theorem alone {M : Machine O R σ} {t : Nat} {I C : σ → Prop} {p : Prog O R α} (h : All ok Q p)
    (hop : ∀ o, ok o → ∀ s, I s → ∀ r, M.exec t o s = some r → I r.final ∧ ∀ c ∈ r.commits, C c) {s : σ}
    (hs : I s) : (∀ r, run M t p s = some r → Q r.1 ∧ I r.2) ∧ ∀ c ∈ commits M t p s, C c := by
  induction p generalizing s with
  | ret a =>
      refine ⟨fun r hr => ?_, fun c hc => absurd hc List.not_mem_nil⟩
      cases hr
      exact ⟨h, hs⟩
  | op o k ih =>
      simp only [run, commits]
      cases hx : M.exec t o s with
      | none => exact ⟨fun r hr => absurd hr (by simp), fun c hc => absurd hc List.not_mem_nil⟩
      | some x =>
          obtain ⟨h1, h2⟩ := hop o h.1 s hs x hx
          obtain ⟨h3, h4⟩ := ih x.resp (h.2 x.resp) h1
          refine ⟨h3, fun c hc => ?_⟩
          rcases List.mem_append.mp hc with hc | hc
          · exact h2 c hc
          · exact h4 c hc
  | error msg =>
      exact ⟨fun r hr => absurd hr (by simp [run]), fun c hc => absurd hc List.not_mem_nil⟩
  | cut => exact ⟨fun r hr => absurd hr (by simp [run]), fun c hc => absurd hc List.not_mem_nil⟩

end All

/-- **A program whose operations keep the invariant and a stable `P`, whatever they answer.** -/
theorem valid_of_all {M : Machine O R σ} {t : Nat} {S : Spec O σ} {ok : O → Prop} {P : σ → Prop}
    (hP : ∀ {a b}, P a → S.rely a b → S.inv b → P b)
    (hop : ∀ o, ok o → ∀ s, P s → S.inv s → S.safe s o ∧ ∀ r, M.exec t o s = some r →
      S.inv r.final ∧ S.guar s r.final ∧ (∀ c ∈ r.commits, S.commit c) ∧ P r.final)
    (hab : ∀ s, S.inv s → S.inv (M.abort t s) ∧ S.guar s (M.abort t s))
    (herr : S.errors) (hcut : S.cuts) {p : Prog O R α} {Q : α → Prop} (h : All ok Q p) {s : σ} (hs : P s) :
    Valid M t S p (fun a s => Q a ∧ P s) s := by
  induction p generalizing s with
  | ret a => exact ⟨h, hs⟩
  | op o k ih =>
      intro s' hr hi _
      obtain ⟨h1, h2⟩ := hop o h.1 s' (hP hs hr hi) hi
      refine ⟨h1, fun r hx => ?_⟩
      obtain ⟨h3, h4, h5, h6⟩ := h2 r hx
      exact ⟨h3, h4, h5, ih r.resp (h.2 r.resp) h6⟩
  | error msg => exact ⟨herr, fun s' _ hi => hab s' hi⟩
  | cut => exact hcut

/-! ## 5. Programs that come to an end -/

/-- **Run alone, the program returns or fails**: it never waits, and no loop runs out of its budget. -/
def Ends (M : Machine O R σ) (t : Nat) : Prog O R α → σ → Prop
  | .ret _, _ => True
  | .op o k, s => ∃ r, M.exec t o s = some r ∧ Ends M t (k r.resp) r.final
  | .error _, _ => True
  | .cut, _ => False

theorem ends_bind {M : Machine O R σ} {t : Nat} {p : Prog O R α} {f : α → Prog O R β} {s : σ}
    (h : Ends M t p s) (hf : ∀ r, run M t p s = some r → Ends M t (f r.1) r.2) : Ends M t (p >>= f) s := by
  induction p generalizing s with
  | ret a => exact hf _ rfl
  | op o k ih =>
      obtain ⟨r, hr, hk⟩ := h
      refine ⟨r, hr, ih r.resp hk fun x hx => hf x ?_⟩
      rw [run_op M t hr]
      exact hx
  | error msg => trivial
  | cut => exact h

/-- A valid program that is never made to wait and may not be cut off **comes to an end**; it may fail. -/
theorem ends_of_valid {M : Machine O R σ} {t : Nat} {S : Spec O σ} {p : Prog O R α} {Q : α → σ → Prop}
    {s : σ} (hrefl : ∀ s, S.rely s s) (hall : ∀ s o, S.allow s o) (hcut : ¬ S.cuts)
    (hwait : ∀ s o, S.safe s o → ∃ r, M.exec t o s = some r) (hi : S.inv s) (h : Valid M t S p Q s) :
    Ends M t p s := by
  induction p generalizing s with
  | ret a => trivial
  | op o k ih =>
      obtain ⟨hs, hv⟩ := h s (hrefl s) hi (hall s o)
      obtain ⟨r, hr⟩ := hwait s o hs
      obtain ⟨h1, _, _, h4⟩ := hv r hr
      exact ⟨r, hr, ih r.resp h1 h4⟩
  | error msg => trivial
  | cut => exact hcut h

end Conc
