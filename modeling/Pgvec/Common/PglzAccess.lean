/-
  File:      Pgvec/Common/PglzAccess.lean
  Subject:   THE MEMORY THAT `pglz_decompress` TOUCHES ON CORRUPT INPUT (`src/common/pg_lzcompress.c`).

  The decoder reads the two or three bytes of a tag first and asks afterwards whether it "fell off the end of
  the source". So where the end of the source cuts a tag off, it has read past the end before it returns -1; and
  this is the only thing that goes wrong. Here the decoder runs on a memory that goes on behind the source, and
  each access is written down.

  * `decompressAccess` -- the function with its accesses; `decompressAccess_of_decompress` -- it is the function;
  * `OutputSafe` -- what a list of accesses reads of the output is written by then, and it writes inside;
  * `Parse.Step`, `NoTagCut` -- the format: how a reader comes from one item to the next; no tag is cut off;
  * **`safe_iff_no_tag_cut`**, `safe_not_always`.
-/
import Pgvec.Common.PglzFacts
import Mathlib.Order.Interval.Set.Basic
import Mathlib.Logic.Relation

namespace Pgvec.Pglz

/-! ## 1. The decoder with its accesses -/

/-- An access to memory: a byte of the source, by its index; a byte written to the destination; and
    `memcpy(dest + dp, dest + from, n)`. -/
inductive Access where
  | fetch (sp : Nat)
  | store (dp : Nat)
  | memcpy (dp : Nat) (from_ : Int) (n : Nat)

/-- The copy of a match. -/
def copyAccess : Nat → List UInt8 → Nat → Nat → Option (List Access × List UInt8)
  | 0, _, _, _ => none
  | fuel + 1, out, off, len =>
      if off < len then
        (copyAccess fuel (copyBack out off off) (off + off) (len - off)).map fun (t, out') =>
          (.memcpy out.length (out.length - off) off :: t, out')
      else some ([.memcpy out.length (out.length - off) len], copyBack out off len)

section Decoder

variable (source : List UInt8) (beyond : Nat → UInt8) (rawsize : Nat)

/-- The byte at this distance from the start of the source, whether or not it still belongs to it. -/
def byteAt (i : Nat) : Nat := ((source[i]?).getD (beyond i)).toNat

def tagAccess (sp : Nat) (out : List UInt8) : Option (List Access × Option (Nat × List UInt8)) :=
  let len := (byteAt source beyond sp &&& 0x0f) + 3
  let off := ((byteAt source beyond sp &&& 0xf0) <<< 4) ||| byteAt source beyond (sp + 1)
  let reads := if len = 18 then [.fetch sp, .fetch (sp + 1), .fetch (sp + 2)] else [.fetch sp, .fetch (sp + 1)]
  let sp' := if len = 18 then sp + 3 else sp + 2
  let len := if len = 18 then len + byteAt source beyond (sp + 2) else len
  if source.length < sp' ∨ off = 0 ∨ out.length < off then some (reads, none)
  else
    let len := min len (rawsize - out.length)
    (copyAccess (len + 1) out off len).map fun (t, out') => (reads ++ t, some (sp', out'))

/-- What comes after some accesses. -/
def andThen (t : List Access) (r : Option (List Access × Option (Nat × List UInt8))) :
    Option (List Access × Option (Nat × List UInt8)) :=
  r.map fun (t', next) => (t ++ t', next)

def groupAccess : Nat → Nat → Nat → List UInt8 → Option (List Access × Option (Nat × List UInt8))
  | 0, _, sp, out => some ([], some (sp, out))
  | n + 1, ctrl, sp, out =>
      if sp < source.length ∧ out.length < rawsize then
        if ctrl &&& 1 ≠ 0 then do
          match ← tagAccess source beyond rawsize sp out with
          | (t, none) => return (t, none)
          | (t, some (sp, out)) => andThen t (groupAccess n (ctrl >>> 1) sp out)
        else
          andThen [.fetch sp, .store out.length]
            (groupAccess n (ctrl >>> 1) (sp + 1) (out ++ [(source[sp]?).getD (beyond sp)]))
      else some ([], some (sp, out))

def loopAccess : Nat → Nat → List UInt8 → Option (List Access × Option (Nat × List UInt8))
  | 0, _, _ => none
  | fuel + 1, sp, out =>
      if sp < source.length ∧ out.length < rawsize then do
        match ← groupAccess source beyond rawsize 8 (byteAt source beyond sp) (sp + 1) out with
        | (t, none) => return (.fetch sp :: t, none)
        | (t, some (sp', out')) => andThen (.fetch sp :: t) (loopAccess fuel sp' out')
      else some ([], some (sp, out))

/-- **`pglz_decompress`** with its accesses: these, and the return value. -/
def decompressAccess (check_complete : Bool) : Option (List Access × Int) := do
  match ← loopAccess source beyond rawsize (source.length + 1) 0 [] with
  | (t, none) => return (t, -1)
  | (t, some (sp, out)) =>
      return (t, if check_complete ∧ (out.length ≠ rawsize ∨ sp ≠ source.length) then -1 else out.length)

end Decoder

variable {source : List UInt8} {beyond : Nat → UInt8} {rawsize sp n : Nat} {out : List UInt8}

/-! ## 2. It is the decoder -/

theorem copyAccess_map (fuel : Nat) : ∀ (out : List UInt8) (off len : Nat),
    (copyAccess fuel out off len).map Prod.snd = copyMatch fuel out off len := by
  induction fuel with
  | zero => exact fun _ _ _ => rfl
  | succ fuel ih =>
      intro out off len
      rw [copyAccess, copyMatch]
      split
      · rw [← ih, Option.map_map]
        rfl
      · rfl

theorem byteAt_of_some {i : Nat} {b : UInt8} (h : source[i]? = some b) : byteAt source beyond i = b.toNat := by
  rw [byteAt, h, Option.getD_some]

/-- The end of the two, where the tag is decoded. -/
theorem tag_end {reads : List Access} {sp' off len : Nat} {r : Option (Nat × List UInt8)}
    (h : (if source.length < sp' ∨ off = 0 ∨ out.length < off then some none
      else (copyMatch (len + 1) out off len).bind fun out' => some (some (sp', out'))) = some r) :
    ∃ t, (if source.length < sp' ∨ off = 0 ∨ out.length < off then some (reads, none)
      else (copyAccess (len + 1) out off len).map fun (t, out') => (reads ++ t, some (sp', out'))) = some (t, r) := by
  split_ifs at h ⊢ with hbad
  · exact ⟨reads, by rw [Option.some.inj h]⟩
  · obtain ⟨out', hcopy, hr⟩ := Option.bind_eq_some_iff.mp h
    rw [← copyAccess_map] at hcopy
    obtain ⟨⟨t, out''⟩, hrun, rfl⟩ := Option.map_eq_some_iff.mp hcopy
    exact ⟨reads ++ t, by rw [hrun, ← Option.some.inj hr]; rfl⟩

variable (beyond) in
theorem tagAccess_of_decodeTag {r : Option (Nat × List UInt8)} (h : decodeTag source rawsize sp out = some r) :
    ∃ t, tagAccess source beyond rawsize sp out = some (t, r) := by
  unfold decodeTag at h
  cases h0 : source[sp]? with
  | none => simp [h0] at h
  | some b0 =>
    cases h1 : source[sp + 1]? with
    | none => simp [h0, h1] at h
    | some b1 =>
      unfold tagAccess
      rw [byteAt_of_some h0, byteAt_of_some h1]
      simp only [h0, h1, Option.bind_eq_bind, Option.bind_some] at h ⊢
      by_cases h18 : (b0.toNat &&& 0x0f) + 3 = 18
      · simp only [if_pos h18] at h ⊢
        cases h2 : source[sp + 2]? with
        | none => simp [h2] at h
        | some b2 =>
          rw [byteAt_of_some h2]
          simp only [h2, Option.map_some, Option.bind_some] at h
          exact tag_end h
      · simp only [if_neg h18] at h ⊢
        exact tag_end h

variable (beyond) in
theorem groupAccess_of_decodeGroup (n : Nat) : ∀ {ctrl sp : Nat} {out : List UInt8} {r : Option (Nat × List UInt8)},
    decodeGroup source rawsize n ctrl sp out = some r →
    ∃ t, groupAccess source beyond rawsize n ctrl sp out = some (t, r) := by
  induction n with
  | zero => exact fun h => ⟨[], by rw [groupAccess]; exact congrArg (fun r => some ([], r)) (Option.some.inj h)⟩
  | succ n ih =>
      intro ctrl sp out r h
      rw [decodeGroup] at h
      rw [groupAccess]
      split_ifs at h ⊢ with hin hbit
      · obtain ⟨r', htag, h⟩ := Option.bind_eq_some_iff.mp h
        obtain ⟨t, ht⟩ := tagAccess_of_decodeTag beyond htag
        rw [ht]
        cases r' with
        | none => exact ⟨t, by rw [← Option.some.inj h]; rfl⟩
        | some r' =>
            obtain ⟨t', ht'⟩ := ih h
            exact ⟨t ++ t', by simp only [Option.bind_eq_bind, Option.bind_some, ht', andThen, Option.map_some]⟩
      · obtain ⟨b, hb, h⟩ := Option.bind_eq_some_iff.mp h
        obtain ⟨t', ht'⟩ := ih h
        exact ⟨_, by rw [hb, Option.getD_some, ht', andThen, Option.map_some]⟩
      · exact ⟨[], by rw [Option.some.inj h]⟩

variable (beyond) in
theorem loopAccess_of_decompressLoop (fuel : Nat) : ∀ {sp : Nat} {out : List UInt8} {r : Option (Nat × List UInt8)},
    decompressLoop source rawsize fuel sp out = some r →
    ∃ t, loopAccess source beyond rawsize fuel sp out = some (t, r) := by
  induction fuel with
  | zero => exact nofun
  | succ fuel ih =>
      intro sp out r h
      rw [decompressLoop] at h
      rw [loopAccess]
      split_ifs at h ⊢ with hin
      · obtain ⟨b, hb, h⟩ := Option.bind_eq_some_iff.mp h
        obtain ⟨r', hgroup, h⟩ := Option.bind_eq_some_iff.mp h
        obtain ⟨t, ht⟩ := groupAccess_of_decodeGroup beyond 8 hgroup
        rw [byteAt_of_some hb, ht]
        cases r' with
        | none => exact ⟨.fetch sp :: t, by rw [← Option.some.inj h]; rfl⟩
        | some r' =>
            obtain ⟨t', ht'⟩ := ih h
            exact ⟨.fetch sp :: t ++ t', by
              simp only [Option.bind_eq_bind, Option.bind_some, ht', andThen, Option.map_some]⟩
      · exact ⟨[], by rw [Option.some.inj h]⟩

/-- **Where the function stays inside the source**, this is the function: -1, or the number of bytes. -/
theorem decompressAccess_of_decompress {check_complete : Bool} {r : Option (List UInt8)} (beyond : Nat → UInt8)
    (h : pglz_decompress source rawsize check_complete = some r) :
    ∃ t, decompressAccess source beyond rawsize check_complete = some (t, (r.map fun out => (out.length : Int)).getD (-1)) := by
  unfold pglz_decompress at h
  unfold decompressAccess
  obtain ⟨r', hloop, h⟩ := Option.bind_eq_some_iff.mp h
  obtain ⟨t, ht⟩ := loopAccess_of_decompressLoop beyond _ hloop
  rw [ht]
  cases r' with
  | none => exact ⟨t, by rw [← Option.some.inj h]; rfl⟩
  | some r' =>
      refine ⟨t, ?_⟩
      rw [← Option.some.inj h]
      simp only [Option.bind_eq_bind, Option.bind_some]
      split <;> rfl

/-! ## 3. What is safe -/

/-- The bytes of the destination that are read, by their distance from its start. -/
def Access.reads : Access → Set Int
  | .memcpy _ from_ n => Set.Ico from_ (from_ + n)
  | _ => ∅

/-- The bytes of the destination that are written. -/
def Access.writes : Access → Set Nat
  | .fetch _ => ∅
  | .store dp => {dp}
  | .memcpy dp _ n => Set.Ico dp (dp + n)

/-- Of the destination, only bytes are read that have been written, and only bytes inside are written. -/
def OutputSafe (rawsize : Nat) : Set Nat → List Access → Prop
  | _, [] => True
  | written, a :: t => (∀ i ∈ a.reads, ∃ j ∈ written, i = (j : Int)) ∧ (∀ i ∈ a.writes, i < rawsize) ∧
      OutputSafe rawsize (written ∪ a.writes) t

/-- What has been written in the end. -/
def writtenBy : Set Nat → List Access → Set Nat
  | written, [] => written
  | written, a :: t => writtenBy (written ∪ a.writes) t

/-- Of the source, only its bytes are read. -/
def SourceSafe (source : List UInt8) (t : List Access) : Prop := ∀ sp, .fetch sp ∈ t → sp < source.length

theorem outputSafe_append {t' : List Access} (t : List Access) : ∀ written : Set Nat,
    OutputSafe rawsize written (t ++ t') ↔
      OutputSafe rawsize written t ∧ OutputSafe rawsize (writtenBy written t) t' := by
  induction t with
  | nil => exact fun _ => ⟨fun h => ⟨trivial, h⟩, fun h => h.2⟩
  | cons a t ih =>
      intro written
      rw [List.cons_append, OutputSafe, OutputSafe, ih, writtenBy]
      simp only [and_assoc]

theorem writtenBy_append {t' : List Access} (t : List Access) : ∀ written : Set Nat,
    writtenBy written (t ++ t') = writtenBy (writtenBy written t) t' := by
  induction t with
  | nil => exact fun _ => rfl
  | cons a t ih => exact fun _ => ih _

theorem sourceSafe_append {t t' : List Access} : SourceSafe source (t ++ t') ↔ SourceSafe source t ∧ SourceSafe source t' := by
  unfold SourceSafe
  simp only [List.mem_append, or_imp, forall_and]

/-- **The destination fills from the front**: the accesses take it from its first `n` bytes to its first `m`. -/
structure Fills (rawsize n : Nat) (t : List Access) (m : Nat) : Prop where
  safe : OutputSafe rawsize (Set.Iio n) t
  written : writtenBy (Set.Iio n) t = Set.Iio m
  le : n ≤ m
  inside : m ≤ rawsize

theorem Fills.append {m k : Nat} {t t' : List Access} (h : Fills rawsize n t m) (h' : Fills rawsize m t' k) :
    Fills rawsize n (t ++ t') k where
  safe := (outputSafe_append t _).mpr ⟨h.safe, h.written.symm ▸ h'.safe⟩
  written := by rw [writtenBy_append, h.written, h'.written]
  le := Nat.le_trans h.le h'.le
  inside := h'.inside

theorem Fills.nil (h : n ≤ rawsize) : Fills rawsize n [] n := ⟨trivial, rfl, Nat.le_refl n, h⟩

/-- Reading the source leaves the destination alone. -/
theorem Fills.fetches {t : List Access} (ht : ∀ a ∈ t, ∃ sp, a = .fetch sp) (h : n ≤ rawsize) : Fills rawsize n t n := by
  induction t with
  | nil => exact .nil h
  | cons a t ih =>
      obtain ⟨sp, rfl⟩ := ht a List.mem_cons_self
      have hrest := ih fun a ha => ht a (List.mem_cons_of_mem _ ha)
      refine Fills.append (t := [.fetch sp]) ⟨⟨nofun, nofun, trivial⟩, ?_, Nat.le_refl n, h⟩ hrest
      exact Set.union_empty _

theorem Fills.store (h : n < rawsize) : Fills rawsize n [.store n] (n + 1) where
  safe := ⟨nofun, fun i hi => Set.mem_singleton_iff.mp hi ▸ h, trivial⟩
  written := by
    show Set.Iio n ∪ {n} = Set.Iio (n + 1)
    ext i
    simp only [Set.mem_union, Set.mem_Iio, Set.mem_singleton_iff]
    omega
  le := Nat.le_succ n
  inside := h

theorem Fills.memcpy {off k : Nat} (hk : k ≤ off) (hoff : off ≤ n) (h : n + k ≤ rawsize) :
    Fills rawsize n [.memcpy n (n - off) k] (n + k) where
  safe := by
    refine ⟨fun i hi => ?_, fun i hi => ?_, trivial⟩
    · have hi' : (n : Int) - off ≤ i ∧ i < (n : Int) - off + k := hi
      exact ⟨i.toNat, Set.mem_Iio.mpr (by omega), by omega⟩
    · have hi' : n ≤ i ∧ i < n + k := hi
      omega
  written := Set.Iio_union_Ico_eq_Iio (Nat.le_add_right n k)
  le := Nat.le_add_right n k
  inside := h

theorem length_copyBack {off k : Nat} (hk : k ≤ off) (hoff : off ≤ out.length) :
    (copyBack out off k).length = out.length + k := by
  rw [copyBack, List.length_append, List.length_take, List.length_drop]
  omega

/-- **The doubling copy** reads what it has written, by at most the offset at a time, and ends. -/
theorem copyAccess_spec (fuel : Nat) : ∀ {out : List UInt8} {off len : Nat}, 0 < off → off ≤ out.length →
    out.length + len ≤ rawsize → len < fuel → ∃ t out', copyAccess fuel out off len = some (t, out') ∧
      out'.length = out.length + len ∧ Fills rawsize out.length t out'.length ∧ ∀ sp, .fetch sp ∉ t := by
  induction fuel with
  | zero => exact fun _ _ _ h => absurd h (Nat.not_lt_zero _)
  | succ fuel ih =>
      intro out off len hpos hoff hin hfuel
      rw [copyAccess]
      by_cases hlt : off < len
      · have hlen := length_copyBack (Nat.le_refl off) hoff
        obtain ⟨t, out', hrun, hlen', hfill, hno⟩ := ih (show 0 < off + off by omega)
          (show off + off ≤ (copyBack out off off).length by omega)
          (show (copyBack out off off).length + (len - off) ≤ rawsize by omega) (by omega)
        rw [hlen] at hfill
        refine ⟨.memcpy out.length (out.length - off) off :: t, out', ?_, by omega, ?_, fun sp => ?_⟩
        · rw [if_pos hlt, hrun]
          rfl
        · exact (Fills.memcpy (Nat.le_refl off) hoff (by omega)).append hfill
        · exact List.not_mem_cons_of_ne_of_not_mem nofun (hno sp)
      · have hlen := length_copyBack (Nat.le_of_not_lt hlt) hoff
        refine ⟨[.memcpy out.length (out.length - off) len], copyBack out off len, if_neg hlt, hlen, ?_, fun sp => ?_⟩
        · rw [hlen]
          exact Fills.memcpy (Nat.le_of_not_lt hlt) hoff hin
        · exact List.not_mem_cons_of_ne_of_not_mem nofun List.not_mem_nil

/-! ## 4. The format -/

section Format

variable (source : List UInt8) (rawsize : Nat)

/-- Where a reader of the compressed format stands, with `n` bytes of output: before a control byte, or before the
    item of the lowest bit of `ctrl`, with `left` items left for it. -/
inductive Parse where
  | ctrl (sp n : Nat)
  | item (left ctrl sp n : Nat)

/-- The size of the tag that starts with this byte. -/
def tagSize (b0 : UInt8) : Nat := if b0.toNat &&& 0x0f = 15 then 3 else 2

def tagLen (sp : Nat) : Nat :=
  let len := ((source.getD sp 0).toNat &&& 0x0f) + 3
  if len = 18 then len + (source.getD (sp + 2) 0).toNat else len

def tagOff (sp : Nat) : Nat := (((source.getD sp 0).toNat &&& 0xf0) <<< 4) ||| (source.getD (sp + 1) 0).toNat

/-- The reader goes on, as long as there is source and less than `rawsize` bytes of output. -/
inductive Parse.Step : Parse → Parse → Prop
  | ctrl {sp n : Nat} {b : UInt8} (hb : source[sp]? = some b) (hn : n < rawsize) :
      Step (.ctrl sp n) (.item 8 b.toNat (sp + 1) n)
  | literal {left ctrl sp n : Nat} (hsp : sp < source.length) (hn : n < rawsize) (hbit : ctrl % 2 = 0) :
      Step (.item (left + 1) ctrl sp n) (.item left (ctrl / 2) (sp + 1) (n + 1))
  | tag {left ctrl sp n : Nat} {b0 : UInt8} (hb : source[sp]? = some b0) (hn : n < rawsize) (hbit : ctrl % 2 = 1)
      (hin : sp + tagSize b0 ≤ source.length) (hpos : 0 < tagOff source sp) (hle : tagOff source sp ≤ n) :
      Step (.item (left + 1) ctrl sp n)
        (.item left (ctrl / 2) (sp + tagSize b0) (min (n + tagLen source sp) rawsize))
  | group {ctrl sp n : Nat} : Step (.item 0 ctrl sp n) (.ctrl sp n)

/-- The reader stands before a tag that the end of the source cuts off. -/
def Parse.TagCut : Parse → Prop
  | .item (_ + 1) bits sp n =>
      n < rawsize ∧ bits % 2 = 1 ∧ ∃ b0, source[sp]? = some b0 ∧ source.length < sp + tagSize b0
  | _ => False

/-- The reader never comes to such a tag from here. -/
def NoTagCutFrom (σ : Parse) : Prop :=
  ∀ σ', Relation.ReflTransGen (Parse.Step source rawsize) σ σ' → ¬ σ'.TagCut source rawsize

/-- **No tag that the reader comes to is cut off.** -/
def NoTagCut : Prop := NoTagCutFrom source rawsize (.ctrl 0 0)

end Format

theorem noTagCutFrom_step {σ σ' : Parse} (hcut : ¬ σ.TagCut source rawsize) (hstep : σ.Step source rawsize σ')
    (huniq : ∀ σ'', σ.Step source rawsize σ'' → σ'' = σ') :
    NoTagCutFrom source rawsize σ ↔ NoTagCutFrom source rawsize σ' := by
  refine ⟨fun h τ hτ => h τ (.head hstep hτ), fun h τ hτ => ?_⟩
  rcases Relation.ReflTransGen.cases_head hτ with rfl | ⟨σ'', h1, h2⟩
  · exact hcut
  · exact h τ (huniq σ'' h1 ▸ h2)

theorem noTagCutFrom_end {σ : Parse} (hcut : ¬ σ.TagCut source rawsize) (hend : ∀ σ', ¬ σ.Step source rawsize σ') :
    NoTagCutFrom source rawsize σ := by
  intro τ hτ
  rcases Relation.ReflTransGen.cases_head hτ with rfl | ⟨σ', h1, -⟩
  · exact hcut
  · exact absurd h1 (hend σ')

/-! ## 5. The run -/

/-- What the rest of a group, or of the run, does from where the reader stands, with `n` bytes of output. -/
structure Outcome (source : List UInt8) (rawsize : Nat) (σ : Parse) (sp n : Nat) (t : List Access)
    (r : Option (Nat × List UInt8)) : Prop where
  source_safe : NoTagCutFrom source rawsize σ ↔ SourceSafe source t ∧
    ∀ sp' out', r = some (sp', out') → NoTagCutFrom source rawsize (.ctrl sp' out'.length)
  output_safe : OutputSafe rawsize (Set.Iio n) t
  next : ∀ sp' out', r = some (sp', out') → sp ≤ sp' ∧ Fills rawsize n t out'.length

theorem Outcome.prepend {σ τ : Parse} {sp' m : Nat} {t t' : List Access} {r : Option (Nat × List UInt8)}
    (h : Outcome source rawsize τ sp' m t' r)
    (hstep : NoTagCutFrom source rawsize σ ↔ NoTagCutFrom source rawsize τ) (hsp : sp ≤ sp')
    (hsrc : SourceSafe source t) (hfill : Fills rawsize n t m) : Outcome source rawsize σ sp n (t ++ t') r where
  source_safe := by
    rw [hstep, h.source_safe, sourceSafe_append]
    exact ⟨fun hs => ⟨⟨hsrc, hs.1⟩, hs.2⟩, fun hs => ⟨hs.1.2, hs.2⟩⟩
  output_safe := (outputSafe_append t _).mpr ⟨hfill.safe, hfill.written.symm ▸ h.output_safe⟩
  next := by
    intro sp'' out' hr
    obtain ⟨h1, h2⟩ := h.next sp'' out' hr
    exact ⟨Nat.le_trans hsp h1, hfill.append h2⟩

/-- The bytes of a tag. -/
def tagReads (sp : Nat) (b0 : UInt8) : List Access := (List.range (tagSize b0)).map fun i => .fetch (sp + i)

theorem two_le_tagSize (b0 : UInt8) : 2 ≤ tagSize b0 := by
  unfold tagSize
  split <;> omega

theorem sourceSafe_tagReads {b0 : UInt8} : SourceSafe source (tagReads sp b0) ↔ sp + tagSize b0 ≤ source.length := by
  have hsize := two_le_tagSize b0
  unfold SourceSafe tagReads
  simp only [List.mem_map, List.mem_range, Access.fetch.injEq]
  refine ⟨fun h => ?_, fun h i ⟨j, hj, hi⟩ => by omega⟩
  have := h (sp + (tagSize b0 - 1)) ⟨tagSize b0 - 1, by omega, rfl⟩
  omega

theorem Fills.tagReads (sp : Nat) (b0 : UInt8) (h : n ≤ rawsize) : Fills rawsize n (tagReads sp b0) n := by
  refine .fetches (fun a ha => ?_) h
  obtain ⟨i, -, rfl⟩ := List.mem_map.mp ha
  exact ⟨sp + i, rfl⟩

variable (beyond) in
theorem byteAt_of_lt {i : Nat} (h : i < source.length) : byteAt source beyond i = (source.getD i 0).toNat := by
  rw [byteAt, List.getD_eq_getElem?_getD, List.getElem?_eq_getElem h, Option.getD_some, Option.getD_some]

/-- The function in the words of the format. -/
theorem tagAccess_eq {b0 : UInt8} (hb : source[sp]? = some b0) : tagAccess source beyond rawsize sp out =
    let off := ((byteAt source beyond sp &&& 0xf0) <<< 4) ||| byteAt source beyond (sp + 1)
    let len := (byteAt source beyond sp &&& 0x0f) + 3
    let len := min (if len = 18 then len + byteAt source beyond (sp + 2) else len) (rawsize - out.length)
    if source.length < sp + tagSize b0 ∨ off = 0 ∨ out.length < off then some (tagReads sp b0, none)
    else (copyAccess (len + 1) out off len).map fun (t, out') => (tagReads sp b0 ++ t, some (sp + tagSize b0, out')) := by
  unfold tagAccess tagReads tagSize
  rw [byteAt_of_some hb]
  by_cases h15 : b0.toNat &&& 0x0f = 15
  · simp only [h15, if_true]
    rfl
  · have h18 : ¬ (b0.toNat &&& 0x0f) + 3 = 18 := by omega
    simp only [if_neg h15, if_neg h18]
    rfl

variable (beyond) in
/-- **One tag**: cut off, and then read past the end; or invalid; or copied. -/
theorem tagAccess_spec {b0 : UInt8} (hb : source[sp]? = some b0) (hn : out.length < rawsize) :
    ∃ t r, tagAccess source beyond rawsize sp out = some (t, r) ∧
      (source.length < sp + tagSize b0 ∧ r = none ∧ ¬ SourceSafe source t ∧ OutputSafe rawsize (Set.Iio out.length) t ∨
      sp + tagSize b0 ≤ source.length ∧ SourceSafe source t ∧
        (¬ (0 < tagOff source sp ∧ tagOff source sp ≤ out.length) ∧ r = none ∧
            OutputSafe rawsize (Set.Iio out.length) t ∨
          (0 < tagOff source sp ∧ tagOff source sp ≤ out.length) ∧ ∃ out', r = some (sp + tagSize b0, out') ∧
            out'.length = min (out.length + tagLen source sp) rawsize ∧ Fills rawsize out.length t out'.length)) := by
  have hreads := Fills.tagReads sp b0 (Nat.le_of_lt hn)
  have hsp : sp < source.length := (List.getElem?_eq_some_iff.mp hb).1
  rw [tagAccess_eq hb]
  by_cases hcut : source.length < sp + tagSize b0
  · exact ⟨tagReads sp b0, none, if_pos (Or.inl hcut), Or.inl ⟨hcut, rfl,
      fun h => Nat.not_lt.mpr (sourceSafe_tagReads.mp h) hcut, hreads.safe⟩⟩
  · have hin : sp + tagSize b0 ≤ source.length := Nat.le_of_not_lt hcut
    have hsize := two_le_tagSize b0
    have hoffEq : (((byteAt source beyond sp &&& 0xf0) <<< 4) ||| byteAt source beyond (sp + 1)) = tagOff source sp := by
      rw [byteAt_of_lt beyond hsp, byteAt_of_lt beyond (by omega), tagOff]
    have hlenEq : (if (byteAt source beyond sp &&& 0x0f) + 3 = 18 then
        (byteAt source beyond sp &&& 0x0f) + 3 + byteAt source beyond (sp + 2)
        else (byteAt source beyond sp &&& 0x0f) + 3) = tagLen source sp := by
      unfold tagLen
      rw [← byteAt_of_lt beyond hsp]
      by_cases h15 : byteAt source beyond sp &&& 0x0f = 15
      · have h3 : tagSize b0 = 3 := by
          rw [byteAt_of_some hb] at h15
          rw [tagSize, if_pos h15]
        rw [byteAt_of_lt beyond (show sp + 2 < source.length by omega)]
      · simp only [if_neg (show ¬ (byteAt source beyond sp &&& 0x0f) + 3 = 18 by omega)]
    simp only [hoffEq, hlenEq]
    have hsafe : SourceSafe source (tagReads sp b0) := sourceSafe_tagReads.mpr hin
    by_cases hoff : 0 < tagOff source sp ∧ tagOff source sp ≤ out.length
    · obtain ⟨t, out', hrun, hlen, hfill, hno⟩ := copyAccess_spec
        (min (tagLen source sp) (rawsize - out.length) + 1) hoff.1 hoff.2
        (show _ + min (tagLen source sp) (rawsize - out.length) ≤ rawsize by omega) (Nat.lt_succ_self _)
      refine ⟨tagReads sp b0 ++ t, some (sp + tagSize b0, out'), ?_, Or.inr ⟨hin, ?_, Or.inr ⟨hoff, out', rfl, ?_, ?_⟩⟩⟩
      · rw [if_neg (by omega), hrun]
        rfl
      · exact sourceSafe_append.mpr ⟨hsafe, fun i hi => absurd hi (hno i)⟩
      · omega
      · exact hreads.append hfill
    · exact ⟨tagReads sp b0, none, if_pos (by omega), Or.inr ⟨hin, hsafe, Or.inl ⟨hoff, rfl, hreads.safe⟩⟩⟩

/-- Where there is no more source, or enough output, the reader stops. -/
theorem noTagCutFrom_done {σ : Parse} (hdone : ¬ (sp < source.length ∧ n < rawsize))
    (hσ : σ = .ctrl sp n ∨ ∃ left ctrl, σ = .item (left + 1) ctrl sp n) : NoTagCutFrom source rawsize σ := by
  have hlt : ∀ {b : UInt8}, source[sp]? = some b → sp < source.length :=
    fun h => (List.getElem?_eq_some_iff.mp h).1
  rcases hσ with rfl | ⟨left, ctrl, rfl⟩
  · refine noTagCutFrom_end id fun σ' hstep => ?_
    cases hstep with
    | ctrl hb hn => exact hdone ⟨hlt hb, hn⟩
  · refine noTagCutFrom_end (fun ⟨hn, _, _, hb, _⟩ => hdone ⟨hlt hb, hn⟩) fun σ' hstep => ?_
    cases hstep with
    | literal hsp hn _ => exact hdone ⟨hsp, hn⟩
    | tag hb hn _ _ _ _ => exact hdone ⟨hlt hb, hn⟩

variable (beyond) in
/-- **The items of one control byte.** -/
theorem groupAccess_spec (left : Nat) : ∀ (ctrl sp : Nat) {out : List UInt8}, out.length ≤ rawsize →
    ∃ t r, groupAccess source beyond rawsize left ctrl sp out = some (t, r) ∧
      Outcome source rawsize (.item left ctrl sp out.length) sp out.length t r := by
  have hstop : ∀ {σ : Parse} {sp : Nat} {out : List UInt8}, out.length ≤ rawsize →
      (NoTagCutFrom source rawsize σ ↔ NoTagCutFrom source rawsize (.ctrl sp out.length)) →
      Outcome source rawsize σ sp out.length [] (some (sp, out)) := by
    intro σ sp out hout hiff
    refine ⟨⟨fun h => ⟨nofun, fun sp' out' he => ?_⟩, fun h => hiff.mpr (h.2 sp out rfl)⟩, trivial, fun sp' out' he => ?_⟩
    · cases he
      exact hiff.mp h
    · cases he
      exact ⟨Nat.le_refl sp, .nil hout⟩
  induction left with
  | zero =>
      intro ctrl sp out hout
      refine ⟨[], some (sp, out), rfl, hstop hout (noTagCutFrom_step id .group fun σ'' h => ?_)⟩
      cases h with
      | group => rfl
  | succ left ih =>
      intro ctrl sp out hout
      rw [groupAccess]
      by_cases hin : sp < source.length ∧ out.length < rawsize
      · rw [if_pos hin]
        obtain ⟨b0, hb⟩ : ∃ b0, source[sp]? = some b0 := ⟨_, List.getElem?_eq_getElem hin.1⟩
        by_cases hbit : ctrl % 2 = 1
        · rw [if_pos (show ctrl &&& 1 ≠ 0 by rw [Nat.and_one_is_mod]; omega)]
          obtain ⟨t, r, hrun, hcases⟩ := tagAccess_spec beyond hb hin.2
          rw [hrun]
          rcases hcases with ⟨hcut, rfl, hbad, hsafe⟩ | ⟨hfit, hsrc, ⟨hoff, rfl, hsafe⟩ | ⟨hoff, out', rfl, hlen, hfill⟩⟩
          · -- the tag is cut off: the reads go past the end
            refine ⟨t, none, rfl, iff_of_false (fun h => ?_) (fun h => hbad h.1), hsafe, nofun⟩
            exact h _ .refl ⟨hin.2, hbit, b0, hb, hcut⟩
          · -- the offset is invalid: the data is reported as corrupt
            refine ⟨t, none, rfl, iff_of_true (noTagCutFrom_end ?_ fun σ' h => ?_) ⟨hsrc, nofun⟩, hsafe, nofun⟩
            · intro ⟨_, _, b0', hb', hcut⟩
              rw [hb] at hb'
              cases hb'
              exact Nat.not_lt.mpr hfit hcut
            · cases h with
              | literal _ _ hbit' => omega
              | tag _ _ _ _ hpos hle => exact hoff ⟨hpos, hle⟩
          · obtain ⟨t', r', hrun', hout'⟩ := ih (ctrl >>> 1) (sp + tagSize b0) hfill.inside
            refine ⟨t ++ t', r', ?_, ?_⟩
            · simp only [Option.bind_eq_bind, Option.bind_some, hrun', andThen, Option.map_some]
            · rw [hlen, Nat.shiftRight_eq_div_pow, Nat.pow_one] at hout'
              rw [hlen] at hfill
              refine hout'.prepend (noTagCutFrom_step ?_ (.tag hb hin.2 hbit hfit hoff.1 hoff.2) fun σ'' h => ?_)
                (Nat.le_add_right _ _) hsrc hfill
              · intro ⟨_, _, b0', hb', hcut⟩
                rw [hb] at hb'
                cases hb'
                exact Nat.not_lt.mpr hfit hcut
              · cases h with
                | literal _ _ hbit' => omega
                | tag hb' _ _ _ _ _ =>
                    rw [hb] at hb'
                    cases hb'
                    rfl
        · rw [if_neg (show ¬ ctrl &&& 1 ≠ 0 by rw [Nat.and_one_is_mod]; omega)]
          have hone : (out ++ [(source[sp]?).getD (beyond sp)]).length ≤ rawsize := by
            rw [List.length_append, List.length_singleton]
            exact hin.2
          obtain ⟨t', r', hrun', hout'⟩ := ih (ctrl >>> 1) (sp + 1) hone
          rw [hrun']
          refine ⟨_, r', rfl, ?_⟩
          rw [List.length_append, List.length_singleton, Nat.shiftRight_eq_div_pow, Nat.pow_one] at hout'
          refine hout'.prepend (noTagCutFrom_step (fun h => hbit h.2.1) (.literal hin.1 hin.2 (by omega)) fun σ'' h => ?_)
            (Nat.le_succ sp) ?_ ?_
          · cases h with
            | literal _ _ _ => rfl
            | tag _ _ hbit' _ _ _ => exact absurd hbit' hbit
          · intro i hi
            simp only [List.mem_cons, Access.fetch.injEq, reduceCtorEq, List.not_mem_nil, or_false] at hi
            exact hi ▸ hin.1
          · exact (Fills.fetches (t := [.fetch sp]) (fun a ha => ⟨sp, List.mem_singleton.mp ha⟩) hout).append (.store hin.2)
      · rw [if_neg hin]
        exact ⟨[], some (sp, out), rfl, hstop hout
          (iff_of_true (noTagCutFrom_done hin (Or.inr ⟨left, ctrl, rfl⟩)) (noTagCutFrom_done hin (Or.inl rfl)))⟩

variable (source beyond) in
/-- **The whole run.** -/
theorem loopAccess_spec (fuel : Nat) : ∀ {sp : Nat} {out : List UInt8}, out.length ≤ rawsize →
    source.length - sp < fuel → ∃ t r, loopAccess source beyond rawsize fuel sp out = some (t, r) ∧
      (NoTagCutFrom source rawsize (.ctrl sp out.length) ↔ SourceSafe source t) ∧
      OutputSafe rawsize (Set.Iio out.length) t ∧
      ∀ sp' out', r = some (sp', out') → Fills rawsize out.length t out'.length := by
  induction fuel with
  | zero => exact fun _ h => absurd h (Nat.not_lt_zero _)
  | succ fuel ih =>
      intro sp out hout hfuel
      rw [loopAccess]
      by_cases hin : sp < source.length ∧ out.length < rawsize
      · rw [if_pos hin]
        obtain ⟨b, hb⟩ : ∃ b, source[sp]? = some b := ⟨_, List.getElem?_eq_getElem hin.1⟩
        obtain ⟨t, r, hrun, hout'⟩ := groupAccess_spec beyond 8 b.toNat (sp + 1) hout
        have hfetch : Fills rawsize out.length [.fetch sp] out.length :=
          .fetches (fun a ha => ⟨sp, List.mem_singleton.mp ha⟩) hout
        have hgroup : Outcome source rawsize (.ctrl sp out.length) sp out.length ([.fetch sp] ++ t) r := by
          refine hout'.prepend (noTagCutFrom_step id (.ctrl hb hin.2) fun σ'' h => ?_) (Nat.le_succ sp) ?_ hfetch
          · cases h with
            | ctrl hb' _ =>
                rw [hb] at hb'
                cases hb'
                rfl
          · intro i hi
            simp only [List.mem_singleton, Access.fetch.injEq] at hi
            exact hi ▸ hin.1
        rw [byteAt_of_some hb, hrun]
        cases r with
        | none =>
            refine ⟨.fetch sp :: t, none, rfl, ?_, hgroup.output_safe, nofun⟩
            rw [hgroup.source_safe]
            exact ⟨fun h => h.1, fun h => ⟨h, nofun⟩⟩
        | some next =>
            obtain ⟨sp', out'⟩ := next
            obtain ⟨-, hfill⟩ := hgroup.next sp' out' rfl
            obtain ⟨hsp, -⟩ := hout'.next sp' out' rfl
            obtain ⟨t', r', hrun', hiff, hsafe, hnext⟩ := ih hfill.inside (show source.length - sp' < fuel by omega)
            refine ⟨.fetch sp :: t ++ t', r', ?_, ?_, ?_, ?_⟩
            · simp only [Option.bind_eq_bind, Option.bind_some, hrun', andThen, Option.map_some]
            · rw [hgroup.source_safe]
              refine Iff.trans ?_ (sourceSafe_append (t := [.fetch sp] ++ t)).symm
              rw [← hiff]
              refine and_congr_right fun _ => ⟨fun h => h sp' out' rfl, fun h _ _ he => ?_⟩
              cases he
              exact h
            · exact (outputSafe_append _ _).mpr ⟨hgroup.output_safe, hfill.written.symm ▸ hsafe⟩
            · exact fun sp'' out'' he => hfill.append (hnext sp'' out'' he)
      · rw [if_neg hin]
        refine ⟨[], some (sp, out), rfl, iff_of_true (noTagCutFrom_done hin (Or.inl rfl)) nofun, trivial, fun _ _ he => ?_⟩
        cases he
        exact .nil hout

/-! ## 6. Safety -/

/-- What a run leaves alone and returns, source apart: the destination is safe, and the return value is -1 or the
    number of bytes written, which are the first ones. -/
structure Returns (rawsize : Nat) (t : List Access) (result : Int) : Prop where
  output_safe : OutputSafe rawsize ∅ t
  result : result = -1 ∨ ∃ n : Nat, result = n ∧ n ≤ rawsize ∧ writtenBy ∅ t = Set.Iio n

/-- **The run is safe**: it ends, and reads only the source, and is safe for the destination. -/
def SafeRun (source : List UInt8) (beyond : Nat → UInt8) (rawsize : Nat) (check_complete : Bool) : Prop :=
  ∃ t result, decompressAccess source beyond rawsize check_complete = some (t, result) ∧
    SourceSafe source t ∧ Returns rawsize t result

/-- Whatever the source is, the run ends, the destination is safe, and the return value is right. -/
theorem decompressAccess_spec (source : List UInt8) (beyond : Nat → UInt8) (rawsize : Nat) (check_complete : Bool) :
    ∃ t result, decompressAccess source beyond rawsize check_complete = some (t, result) ∧
      (NoTagCut source rawsize ↔ SourceSafe source t) ∧ Returns rawsize t result := by
  obtain ⟨t, r, hrun, hiff, hsafe, hnext⟩ := loopAccess_spec source beyond (source.length + 1)
    (show ([] : List UInt8).length ≤ rawsize from Nat.zero_le _) (show source.length - 0 < _ from Nat.lt_succ_self _)
  have hempty : Set.Iio ([] : List UInt8).length = (∅ : Set Nat) := Set.Iio_bot
  unfold decompressAccess
  rw [hrun]
  rw [hempty] at hsafe
  cases r with
  | none => exact ⟨t, -1, rfl, hiff, hsafe, Or.inl rfl⟩
  | some next =>
      obtain ⟨sp, out⟩ := next
      have hfill := hnext sp out rfl
      refine ⟨t, _, rfl, hiff, hsafe, ?_⟩
      split
      · exact Or.inl rfl
      · exact Or.inr ⟨out.length, rfl, hfill.inside, hempty ▸ hfill.written⟩

/-- **When `pglz_decompress` is safe**: exactly when no tag that it comes to, while it still wants output, is cut
    off by the end of the source. -/
theorem safe_iff_no_tag_cut (source : List UInt8) (beyond : Nat → UInt8) (rawsize : Nat) (check_complete : Bool) :
    SafeRun source beyond rawsize check_complete ↔ NoTagCut source rawsize := by
  obtain ⟨t, result, hrun, hiff, hret⟩ := decompressAccess_spec source beyond rawsize check_complete
  constructor
  · intro ⟨t', result', hrun', hsrc, _⟩
    rw [hrun] at hrun'
    cases hrun'
    exact hiff.mpr hsrc
  · exact fun h => ⟨t, result, hrun, hiff.mp h, hret⟩

/-- A control byte and the first byte of a tag. -/
theorem safe_not_always : ¬ SafeRun [1, 0] (fun _ => 0) 1 false := by
  intro ⟨t, result, hrun, hsrc, _⟩
  have ht : t = [.fetch 0, .fetch 1, .fetch 2] := (congrArg Prod.fst (Option.some.inj hrun)).symm
  have := hsrc 2 (ht ▸ by simp)
  simp at this

end Pgvec.Pglz
