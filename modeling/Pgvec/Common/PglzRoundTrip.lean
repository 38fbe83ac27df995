/-
  File:      Pgvec/Common/PglzRoundTrip.lean
  Subject:   THE ROUND TRIP OF THE BUILT-IN LZ COMPRESSOR.

  The output is a list of groups of eight items behind a control byte (`encodeGroup`), the last group still
  open while the compressor runs (`Emitted`). The items are a parse of the source (`Parses`), and the decoder
  follows them, the doubling copy of overlapping matches included.

  * `compressLoop_eq` -- the compressor without its history arrays;
  * `Emitted.item` -- the control bits; `absLoop_spec` -- a run of the compressor;
  * `copyMatch_spec`, `decodeTag_spec`, `decodeGroup_spec` -- the decoder;
  * **`pglz_round_trip`**.
-/
import Pgvec.Common.PglzFacts

namespace Pgvec.Pglz

/-! ## 1. The compressor without its arrays -/

/-- The loop of `pglz_compress` with `findSpec` for the search: the return value and the bytes written. -/
def absLoop (source : List UInt8) (p : Params) (result_max mask : Nat) :
    Nat → Nat → Bool → Output → Option (Option Nat × List UInt8)
  | 0, _, _, _ => none
  | fuel + 1, dp, found_match, o =>
      if dp < source.length then
        if result_max ≤ o.buf.length then some (none, o.buf)
        else if found_match = false ∧ p.first_success_by ≤ o.buf.length then some (none, o.buf)
        else
          match findSpec source p.good_match p.good_drop mask dp with
          | some (len, off) => absLoop source p result_max mask fuel (dp + len) true (pglz_out_tag o len off)
          | none => absLoop source p result_max mask fuel (dp + 1) found_match (pglz_out_literal o (source.getD dp 0))
      else some (if result_max ≤ o.storeCtrl.length then none else some o.storeCtrl.length, o.storeCtrl)

variable {source : List UInt8} {mask hashsz n : Nat} {st : HistState} {p : Params} {result_max : Nat}

/-- The positions of a match enter the history one after the other. -/
theorem HistInv.add_range (hh : ∀ p, pglz_hist_idx source p mask < hashsz) (len : Nat) :
    ∀ {n : Nat} {st : HistState}, HistInv (fun p => pglz_hist_idx source p mask) hashsz n st →
      HistInv (fun p => pglz_hist_idx source p mask) hashsz (n + len)
        ((List.range' n len).foldl (pglz_hist_add source mask) st) := by
  induction len with
  | zero => exact fun hi => hi
  | succ len ih =>
      intro n st hi
      rw [List.range'_succ, List.foldl_cons, Nat.add_comm len 1, ← Nat.add_assoc]
      exact ih (hi.add hh rfl)

/-- **The history arrays decide nothing**: what the loop returns and writes is a function of the source. -/
theorem compressLoop_eq (hh : ∀ p, pglz_hist_idx source p mask < hashsz) (fuel : Nat) :
    ∀ {dp : Nat} {found_match : Bool} {o : Output} {st : HistState},
      HistInv (fun p => pglz_hist_idx source p mask) hashsz dp st →
      (compressLoop source p result_max mask fuel dp found_match o st).map (fun c => (c.result, c.buf)) =
        absLoop source p result_max mask fuel dp found_match o := by
  induction fuel with
  | zero => exact fun _ => rfl
  | succ fuel ih =>
      intro dp found_match o st hi
      rw [compressLoop, absLoop, find_match_eq hi hh]
      by_cases hend : dp < source.length
      · rw [if_pos hend, if_pos hend]
        by_cases hmax : result_max ≤ o.buf.length
        · rw [if_pos hmax, if_pos hmax]
          rfl
        · rw [if_neg hmax, if_neg hmax]
          by_cases hfirst : found_match = false ∧ p.first_success_by ≤ o.buf.length
          · rw [if_pos hfirst, if_pos hfirst]
            rfl
          · rw [if_neg hfirst, if_neg hfirst]
            rcases findSpec source p.good_match p.good_drop mask dp with _ | ⟨len, off⟩
            · exact ih (hi.add hh rfl)
            · exact ih (hi.add_range hh len)
      · rw [if_neg hend, if_neg hend]
        rfl

/-! ## 2. The items of the output -/

/-- What a control bit stands for. -/
inductive Item where
  | literal (byte : UInt8)
  | tag (len off : Nat)

def Item.bytes : Item → List UInt8
  | .literal byte => [byte]
  | .tag len off => tagBytes len off

def Item.bit : Item → Nat
  | .literal _ => 0
  | .tag _ _ => 1

theorem Item.bit_le (i : Item) : i.bit ≤ 1 := by
  cases i
  · exact Nat.zero_le _
  · exact Nat.le_refl _

theorem Item.length_bytes (i : Item) : 1 ≤ i.bytes.length ∧ i.bytes.length ≤ 3 := by
  cases i with
  | literal byte => exact ⟨Nat.le_refl 1, Nat.le_add_left 1 2⟩
  | tag len off =>
      rw [Item.bytes, tagBytes]
      split
      · exact ⟨Nat.le_add_left 1 2, Nat.le_refl 3⟩
      · exact ⟨Nat.le_add_left 1 1, Nat.le_add_left 2 1⟩

/-- `pglz_out_literal` or `pglz_out_tag`. -/
def Output.emit (o : Output) : Item → Output
  | .literal byte => pglz_out_literal o byte
  | .tag len off => pglz_out_tag o len off

/-- The control byte of a group: the first item has the lowest bit. -/
def ctrlByte : List Item → Nat
  | [] => 0
  | i :: l => i.bit + 2 * ctrlByte l

/-- A control byte and the items it speaks of. -/
def encodeGroup (g : List Item) : List UInt8 := UInt8.ofNat (ctrlByte g) :: g.flatMap Item.bytes

theorem ctrlByte_lt (g : List Item) : ctrlByte g < 2 ^ g.length := by
  induction g with
  | nil => exact Nat.one_pos
  | cons i l ih =>
      have := i.bit_le
      rw [ctrlByte, List.length_cons, Nat.pow_succ]
      omega

theorem ctrlByte_concat (g : List Item) (i : Item) : ctrlByte (g ++ [i]) = ctrlByte g + 2 ^ g.length * i.bit := by
  induction g with
  | nil => simp [ctrlByte]
  | cons j l ih =>
      rw [List.cons_append, ctrlByte, ih, ctrlByte, List.length_cons, Nat.pow_succ]
      ring

/-- The bit of a tag is set above those of the group so far. -/
theorem ctrlByte_or (g : List Item) : ctrlByte g ||| 2 ^ g.length = ctrlByte g + 2 ^ g.length := by
  have := Nat.two_pow_add_eq_or_of_lt (ctrlByte_lt g) 1
  rw [Nat.mul_one] at this
  rw [Nat.or_comm, ← this, Nat.add_comm]

/-- **The output so far**: full groups, and one that takes further items. -/
structure Emitted (o : Output) (gs : List (List Item)) (g : List Item) : Prop where
  full : ∀ x ∈ gs, x.length = 8
  room : g.length ≤ 8
  buf : o.buf = gs.flatMap encodeGroup ++ 0 :: g.flatMap Item.bytes
  ctrlp : o.ctrlp = some (gs.flatMap encodeGroup).length
  ctrlb : o.ctrlb = ctrlByte g
  ctrl : o.ctrl = 2 ^ g.length % 256

variable {o : Output} {gs : List (List Item)} {g : List Item}

/-- `*ctrlp = ctrlb` completes the group. -/
theorem Emitted.store (h : Emitted o gs g) : o.storeCtrl = (gs ++ [g]).flatMap encodeGroup := by
  unfold Output.storeCtrl
  rw [h.ctrlp, h.buf, h.ctrlb, List.flatMap_append, List.flatMap_singleton]
  simp only
  rw [List.set_append_right _ _ (Nat.le_refl _), Nat.sub_self, List.set_cons_zero, encodeGroup]

theorem Emitted.length_store (h : Emitted o gs g) : o.storeCtrl.length = o.buf.length := by
  unfold Output.storeCtrl
  rw [h.ctrlp]
  exact List.length_set

theorem ctrl_full {k : Nat} (hk : k ≤ 8) : 2 ^ k % 256 &&& 0xff = 0 ↔ k = 8 := by
  interval_cases k <;> decide

/-- Into a group with room left, an item goes as it is. -/
theorem Emitted.into (h : Emitted o gs g) (hroom : g.length < 8) (i : Item) :
    Emitted (o.emit i) gs (g ++ [i]) ∧ (o.emit i).buf.length = o.buf.length + i.bytes.length := by
  have hctrl : pglz_out_ctrl o = o := by
    unfold pglz_out_ctrl
    rw [if_neg]
    rw [h.ctrl, ctrl_full h.room]
    exact Nat.ne_of_lt hroom
  have hpow : 2 ^ g.length % 256 = 2 ^ g.length :=
    Nat.mod_eq_of_lt (Nat.pow_lt_pow_right (by decide) hroom)
  have hnext : (o.ctrl <<< 1) % 256 = 2 ^ (g ++ [i]).length % 256 := by
    rw [h.ctrl, hpow, Nat.shiftLeft_eq, List.length_append, List.length_singleton, ← Nat.pow_add]
  have hroom' : (g ++ [i]).length ≤ 8 := by
    rw [List.length_append, List.length_singleton]
    exact hroom
  have hbuf : o.buf ++ i.bytes = gs.flatMap encodeGroup ++ 0 :: (g ++ [i]).flatMap Item.bytes := by
    rw [h.buf, List.flatMap_append, List.flatMap_singleton, List.append_assoc, List.cons_append]
  have hbyte := ctrlByte_concat g i
  cases i with
  | literal byte =>
      simp only [Output.emit, pglz_out_literal, hctrl]
      rw [Item.bit, Nat.mul_zero, Nat.add_zero] at hbyte
      exact ⟨⟨h.full, hroom', hbuf, h.ctrlp, h.ctrlb.trans hbyte.symm, hnext⟩, List.length_append⟩
  | tag len off =>
      simp only [Output.emit, pglz_out_tag, hctrl]
      rw [Item.bit, Nat.mul_one, ← ctrlByte_or] at hbyte
      refine ⟨⟨h.full, hroom', hbuf, h.ctrlp, ?_, hnext⟩, List.length_append⟩
      show o.ctrlb ||| o.ctrl = _
      rw [h.ctrlb, h.ctrl, hpow, hbyte]

/-- A full output starts a new group; the rest is as if it had been there. -/
theorem emit_full (hctrl : o.ctrl &&& 0xff = 0) (i : Item) :
    o.emit i = (pglz_out_ctrl o).emit i ∧
      pglz_out_ctrl o = ⟨o.storeCtrl ++ [0], some o.buf.length, 0, 1⟩ := by
  have hout : pglz_out_ctrl o = ⟨o.storeCtrl ++ [0], some o.buf.length, 0, 1⟩ := if_pos hctrl
  have hidem : pglz_out_ctrl (pglz_out_ctrl o) = pglz_out_ctrl o := by
    rw [hout]
    exact if_neg (show ¬(1 &&& 0xff = 0) by decide)
  refine ⟨?_, hout⟩
  cases i with
  | literal byte => rw [Output.emit, Output.emit, pglz_out_literal, pglz_out_literal, hidem]
  | tag len off => rw [Output.emit, Output.emit, pglz_out_tag, pglz_out_tag, hidem]

/-- The first item: the buffer is empty. -/
theorem emitted_first (i : Item) : Emitted ((⟨[], none, 0, 0⟩ : Output).emit i) [] [i] ∧
    ((⟨[], none, 0, 0⟩ : Output).emit i).buf.length = 1 + i.bytes.length := by
  obtain ⟨h1, h2⟩ := emit_full (o := ⟨[], none, 0, 0⟩) (by decide) i
  rw [h1, h2]
  have hnew : Emitted (⟨(⟨[], none, 0, 0⟩ : Output).storeCtrl ++ [0], some 0, 0, 1⟩ : Output) [] [] :=
    ⟨nofun, Nat.zero_le _, rfl, rfl, rfl, rfl⟩
  exact hnew.into (by decide) i

/-- **An item more**: the parse grows by it, the buffer by its bytes and at most one control byte. -/
theorem Emitted.item (h : Emitted o gs g) (i : Item) :
    ∃ gs' g', Emitted (o.emit i) gs' g' ∧ g' ≠ [] ∧ gs'.flatten ++ g' = gs.flatten ++ g ++ [i] ∧
      (o.emit i).buf.length ≤ o.buf.length + 4 := by
  have hi := i.length_bytes
  rcases Nat.lt_or_eq_of_le h.room with hroom | hfull
  · obtain ⟨h1, h2⟩ := h.into hroom i
    refine ⟨gs, g ++ [i], h1, List.append_ne_nil_of_right_ne_nil _ nofun, (List.append_assoc _ _ _).symm, ?_⟩
    omega
  · obtain ⟨h1, h2⟩ := emit_full (o := o) (by rw [h.ctrl, ctrl_full h.room]; exact hfull) i
    rw [h1, h2]
    have hlen := h.length_store
    have hnew : Emitted (⟨o.storeCtrl ++ [0], some o.buf.length, 0, 1⟩ : Output) (gs ++ [g]) [] := by
      refine ⟨fun x hx => ?_, Nat.zero_le _, ?_, ?_, rfl, rfl⟩
      · rcases List.mem_append.mp hx with hx | hx
        · exact h.full x hx
        · rw [List.mem_singleton.mp hx, hfull]
      · rw [h.store]
        rfl
      · rw [← hlen, h.store]
    obtain ⟨k1, k2⟩ := hnew.into (by decide) i
    refine ⟨gs ++ [g], [i], k1, nofun, ?_, ?_⟩
    · rw [List.flatten_append, List.flatten_singleton]
    · rw [k2, List.length_append, List.length_singleton, hlen]
      omega

/-! ## 3. A run of the compressor -/

/-- The items stand for the source from one position to another. -/
inductive Parses (source : List UInt8) : Nat → List Item → Nat → Prop
  | nil {dp : Nat} : Parses source dp [] dp
  | literal {dp q : Nat} {l : List Item} (hlt : dp < source.length) (h : Parses source (dp + 1) l q) :
      Parses source dp (.literal (source.getD dp 0) :: l) q
  | tag {dp q len off : Nat} {l : List Item} (hm : Match source dp off len) (hlen : 2 < len)
      (h : Parses source (dp + len) l q) : Parses source dp (.tag len off :: l) q

theorem Parses.append {dp m q : Nat} {l l' : List Item} (h : Parses source dp l m) (h' : Parses source m l' q) :
    Parses source dp (l ++ l') q := by
  induction h with
  | nil => exact h'
  | literal hlt _ ih => exact .literal hlt (ih h')
  | tag hm hlen _ ih => exact .tag hm hlen (ih h')

theorem Parses.split {l l' : List Item} : ∀ {dp q : Nat}, Parses source dp (l ++ l') q →
    ∃ m, Parses source dp l m ∧ Parses source m l' q := by
  induction l with
  | nil => exact fun {dp _} h => ⟨dp, .nil, h⟩
  | cons i l ih =>
      intro dp q h
      cases h with
      | literal hlt h =>
          obtain ⟨m, h1, h2⟩ := ih h
          exact ⟨m, .literal hlt h1, h2⟩
      | tag hm hlen h =>
          obtain ⟨m, h1, h2⟩ := ih h
          exact ⟨m, .tag hm hlen h1, h2⟩

theorem Parses.length_le {dp q : Nat} {l : List Item} (h : Parses source dp l q) : dp + l.length ≤ q := by
  induction h with
  | nil => exact Nat.le_refl _
  | literal _ _ ih =>
      rw [List.length_cons]
      omega
  | tag _ hlen _ ih =>
      rw [List.length_cons]
      omega

theorem Parses.le {dp q : Nat} {l : List Item} (h : Parses source dp l q) (hdp : dp ≤ source.length) :
    q ≤ source.length := by
  induction h with
  | nil => exact hdp
  | literal hlt _ ih => exact ih hlt
  | tag hm _ _ ih => exact ih hm.inside

/-- Groups of eight items; only the last one may be smaller. -/
inductive Grouped : List (List Item) → Prop
  | nil : Grouped []
  | last {g : List Item} (hne : g ≠ []) (hg : g.length ≤ 8) : Grouped [g]
  | cons {g : List Item} {gs : List (List Item)} (hg : g.length = 8) (h : Grouped gs) : Grouped (g :: gs)

theorem grouped_concat (hfull : ∀ x ∈ gs, x.length = 8) (hne : g ≠ []) (hg : g.length ≤ 8) :
    Grouped (gs ++ [g]) := by
  induction gs with
  | nil => exact .last hne hg
  | cons x gs ih =>
      exact .cons (hfull x List.mem_cons_self) (ih fun y hy => hfull y (List.mem_cons_of_mem _ hy))

/-- **What has been written at the position `dp`**: nothing yet, or a parse of the source up to there. -/
inductive Written (source : List UInt8) (dp : Nat) (o : Output) : Prop
  | start (hdp : dp = 0) (ho : o = ⟨[], none, 0, 0⟩)
  | items (gs : List (List Item)) (g : List Item) (he : Emitted o gs g) (hne : g ≠ [])
      (hp : Parses source 0 (gs.flatten ++ g) dp)

theorem Written.item {dp dp' : Nat} {i : Item} (h : Written source dp o) (hi : Parses source dp [i] dp') :
    Written source dp' (o.emit i) ∧ (o.emit i).buf.length ≤ o.buf.length + 4 := by
  cases h with
  | start hdp ho =>
      subst hdp ho
      obtain ⟨h1, h2⟩ := emitted_first i
      have := i.length_bytes
      refine ⟨.items [] [i] h1 nofun hi, ?_⟩
      rw [h2, List.length_nil]
      omega
  | items gs g he hne hp =>
      obtain ⟨gs', g', h1, h2, h3, h4⟩ := he.item i
      refine ⟨.items gs' g' h1 h2 ?_, h4⟩
      rw [h3]
      exact hp.append hi

theorem Written.finish {dp : Nat} (h : Written source dp o) :
    o.storeCtrl.length = o.buf.length ∧ ∃ groups, o.storeCtrl = groups.flatMap encodeGroup ∧ Grouped groups ∧
      Parses source 0 groups.flatten dp := by
  cases h with
  | start hdp ho =>
      subst hdp ho
      exact ⟨rfl, [], rfl, .nil, .nil⟩
  | items gs g he hne hp =>
      refine ⟨he.length_store, gs ++ [g], he.store, grouped_concat he.full hne he.room, ?_⟩
      rw [List.flatten_append, List.flatten_singleton]
      exact hp

/-- **A run of the compressor**: it ends, within its buffer, and what it returns as compressed is a parse of
    the whole source. -/
theorem absLoop_spec (hmax : result_max ≤ source.length) (fuel : Nat) :
    ∀ {dp : Nat} {found_match : Bool} {o : Output}, Written source dp o → dp ≤ source.length →
      source.length - dp < fuel → o.buf.length ≤ source.length + 4 →
      ∃ r buf, absLoop source p result_max mask fuel dp found_match o = some (r, buf) ∧
        buf.length ≤ source.length + 4 ∧ ∀ n, r = some n → n < source.length ∧ buf.length = n ∧
          ∃ groups, buf = groups.flatMap encodeGroup ∧ Grouped groups ∧
            Parses source 0 groups.flatten source.length := by
  induction fuel with
  | zero => exact fun _ _ h => absurd h (Nat.not_lt_zero _)
  | succ fuel ih =>
      intro dp found_match o hw hdp hfuel hbuf
      rw [absLoop]
      by_cases hend : dp < source.length
      · rw [if_pos hend]
        by_cases hfull : result_max ≤ o.buf.length
        · rw [if_pos hfull]
          exact ⟨none, o.buf, rfl, hbuf, nofun⟩
        · rw [if_neg hfull]
          by_cases hfirst : found_match = false ∧ p.first_success_by ≤ o.buf.length
          · rw [if_pos hfirst]
            exact ⟨none, o.buf, rfl, hbuf, nofun⟩
          · rw [if_neg hfirst]
            rcases hfind : findSpec source p.good_match p.good_drop mask dp with _ | ⟨len, off⟩
            · obtain ⟨h1, h2⟩ := hw.item (.literal hend .nil)
              exact ih h1 hend (by omega) (h2.trans (by omega))
            · obtain ⟨hm, hlen⟩ := findSpec_match hdp hfind
              obtain ⟨h1, h2⟩ := hw.item (.tag hm hlen .nil)
              have := hm.inside
              exact ih h1 hm.inside (by omega) (h2.trans (by omega))
      · rw [if_neg hend]
        obtain ⟨hlen, groups, h1, h2, h3⟩ := hw.finish
        refine ⟨_, _, rfl, hlen ▸ hbuf, fun n hn => ?_⟩
        split at hn
        · cases hn
        · rename_i hlt
          cases hn
          rw [Nat.le_antisymm hdp (Nat.le_of_not_lt hend)] at h3
          exact ⟨by omega, rfl, groups, h1, h2, h3⟩

/-! ## 4. The decoder -/

/-- **Copying with doubled offsets** reproduces a repetition, also one that overlaps itself. -/
theorem copyMatch_spec (fuel : Nat) : ∀ {q off len : Nat}, 0 < off → off ≤ q → q + len ≤ source.length →
    len < fuel → (∀ j, q ≤ j → j < q + len → source.getD j 0 = source.getD (j - off) 0) →
    copyMatch fuel (source.take q) off len = some (source.take (q + len)) := by
  have hcopy : ∀ {q off k : Nat}, k ≤ off → off ≤ q → q + k ≤ source.length →
      (∀ j, q ≤ j → j < q + k → source.getD j 0 = source.getD (j - off) 0) →
      copyBack (source.take q) off k = source.take (q + k) := by
    intro q off k hk hoff hin hsame
    have hq : (source.take q).length = q := List.length_take_of_le (by omega)
    rw [copyBack, hq, List.take_add]
    congr 1
    refine List.ext_getElem? fun j => ?_
    by_cases hj : j < k
    · rw [List.getElem?_take_of_lt hj, List.getElem?_take_of_lt hj, List.getElem?_drop, List.getElem?_drop,
        List.getElem?_take_of_lt (by omega)]
      have := hsame (q + j) (by omega) (by omega)
      rw [show q + j - off = q - off + j by omega] at this
      rw [List.getElem?_eq_getElem (show q - off + j < source.length by omega),
        List.getElem?_eq_getElem (show q + j < source.length by omega)]
      rw [List.getD_eq_getElem _ _ (show q + j < source.length by omega),
        List.getD_eq_getElem _ _ (show q - off + j < source.length by omega)] at this
      exact congrArg some this.symm
    · rw [List.getElem?_take, List.getElem?_take, if_neg hj, if_neg hj]
  induction fuel with
  | zero => exact fun _ _ _ h => absurd h (Nat.not_lt_zero _)
  | succ fuel ih =>
      intro q off len hpos hoff hin hfuel hsame
      rw [copyMatch]
      by_cases hlt : off < len
      · rw [if_pos hlt, hcopy (Nat.le_refl off) hoff (by omega) fun j h1 h2 => hsame j h1 (by omega)]
        rw [ih (by omega) (by omega) (by omega) (by omega), show q + off + (len - off) = q + len by omega]
        -- the repetition goes on: two offsets back stands the same byte
        intro j h1 h2
        rw [hsame j (by omega) (by omega), hsame (j - off) (by omega) (by omega), Nat.sub_sub]
      · rw [if_neg hlt, hcopy (Nat.le_of_not_lt hlt) hoff hin hsame]

/-- The high bits of a number, masked out in place. -/
theorem and_high_bits {x a b : Nat} (hx : x < 2 ^ (a + b)) : x &&& ((2 ^ b - 1) <<< a) = 2 ^ a * (x / 2 ^ a) := by
  refine Nat.eq_of_testBit_eq fun i => ?_
  rw [Nat.testBit_and, Nat.testBit_shiftLeft, Nat.testBit_two_pow_sub_one, Nat.testBit_two_pow_mul,
    Nat.testBit_div_two_pow]
  by_cases ha : a ≤ i
  · rw [Nat.sub_add_cancel ha]
    by_cases hb : i - a < b
    · simp [ha, hb]
    · rw [Nat.testBit_lt_two_pow (hx.trans_le (Nat.pow_le_pow_right (by decide) (by omega)))]
      simp
  · simp [ha]

/-- The first byte of a tag: four bits of the offset above four bits of the length. -/
theorem tag_first {off k : Nat} (hoff : off < 4096) (hk : k < 16) :
    ((off &&& 0xf00) >>> 4) ||| k = 16 * (off / 256) + k := by
  have h1 : off &&& 0xf00 = 256 * (off / 256) := and_high_bits (a := 8) (b := 4) hoff
  have h2 := Nat.two_pow_add_eq_or_of_lt (i := 4) hk (off / 256)
  rw [h1, Nat.shiftRight_eq_div_pow, show 256 * (off / 256) / 2 ^ 4 = 2 ^ 4 * (off / 256) by omega, ← h2]

/-- The fields of a tag, read back. -/
theorem tag_fields {off k : Nat} (hoff : off < 4096) (hk : k < 16) :
    (16 * (off / 256) + k) &&& 0x0f = k ∧
      (((16 * (off / 256) + k) &&& 0xf0) <<< 4) ||| (off &&& 0xff) = off := by
  have hlow : off &&& 0xff = off % 256 := Nat.and_two_pow_sub_one_eq_mod off 8
  refine ⟨(Nat.and_two_pow_sub_one_eq_mod _ 4).trans (by omega), ?_⟩
  have h1 : (16 * (off / 256) + k) &&& 0xf0 = 16 * ((16 * (off / 256) + k) / 16) :=
    and_high_bits (a := 4) (b := 4) (show _ < 256 by omega)
  have h2 := Nat.two_pow_add_eq_or_of_lt (i := 8) (Nat.mod_lt off (by decide : 0 < 256)) (off / 256)
  rw [h1, hlow, Nat.shiftLeft_eq, show 16 * ((16 * (off / 256) + k) / 16) * 2 ^ 4 = 2 ^ 8 * (off / 256) by omega, ← h2]
  omega

variable {src : List UInt8} {sp : Nat}

/-- Reading the next byte. -/
theorem next_byte {b : UInt8} {rest : List UInt8} (h : src.drop sp = b :: rest) :
    src[sp]? = some b ∧ src.drop (sp + 1) = rest ∧ sp < src.length := by
  refine ⟨?_, ?_, ?_⟩
  · have := congrArg (·[0]?) h
    simpa only [List.getElem?_drop, Nat.add_zero, List.getElem?_cons_zero] using this
  · rw [← List.drop_drop, h, List.drop_one, List.tail_cons]
  · have := congrArg List.length h
    rw [List.length_drop, List.length_cons] at this
    omega

theorem toNat_ofNat_lt {k : Nat} (hk : k < 256) : (UInt8.ofNat k).toNat = k := by
  rw [UInt8.toNat_ofNat']
  exact Nat.mod_eq_of_lt hk

/-- A prefix that reaches over the first part. -/
theorem prefix_split {l a b : List UInt8} (h : l <+: a ++ b) (hlen : a.length ≤ l.length) :
    ∃ l', l = a ++ l' ∧ l' <+: b := by
  obtain ⟨l', rfl⟩ := List.prefix_of_prefix_length_le (List.prefix_append a b) h hlen
  exact ⟨l', rfl, (List.prefix_append_right_inj a).mp h⟩

/-- **A tag is decoded** to the repetition it stands for, as far as data is requested. -/
theorem decodeTag_spec {rawsize dp len off : Nat} {rest : List UInt8} (h : src.drop sp = tagBytes len off ++ rest)
    (hm : Match source dp off len) (hlen : 2 < len) (hraw : dp ≤ rawsize) :
    decodeTag src rawsize sp (source.take dp) =
      some (some (sp + (tagBytes len off).length, source.take (min (dp + len) rawsize))) := by
  have hin := hm.inside
  have hmax : len ≤ 273 := hm.len_le
  have hoff : off < 4096 := by
    have := hm.off_lt
    omega
  have hlow : off &&& 0xff < 256 := Nat.lt_succ_of_le Nat.and_le_right
  have hdp : (source.take dp).length = dp := List.length_take_of_le (by omega)
  have hcopy : copyMatch (min len (rawsize - dp) + 1) (source.take dp) off (min len (rawsize - dp)) =
      some (source.take (min (dp + len) rawsize)) := by
    rw [show min (dp + len) rawsize = dp + min len (rawsize - dp) by omega]
    refine copyMatch_spec _ hm.off_pos hm.off_le (by omega) (Nat.lt_succ_self _) fun j h1 h2 => ?_
    have := hm.same (j - dp) (by omega)
    have hle := hm.off_le
    rwa [show dp + (j - dp) = j by omega, show dp - off + (j - dp) = j - off by omega] at this
  have hpos := hm.off_pos
  have hle := hm.off_le
  unfold decodeTag
  by_cases h17 : 17 < len
  · rw [tagBytes, if_pos h17, tag_first hoff (by decide)] at h
    obtain ⟨k1, h, _⟩ := next_byte h
    obtain ⟨k2, h, _⟩ := next_byte h
    obtain ⟨k3, h, hlt⟩ := next_byte h
    obtain ⟨f1, f2⟩ := tag_fields hoff (show 15 < 16 by decide)
    rw [k1, k2, tagBytes, if_pos h17]
    simp only [Option.bind_eq_bind, Option.bind_some, toNat_ofNat_lt (show 16 * (off / 256) + 15 < 256 by omega),
      toNat_ofNat_lt hlow, f1, f2, if_true, k3, Option.map_some, hdp, Nat.reduceAdd,
      toNat_ofNat_lt (show len - 18 < 256 by omega)]
    rw [if_neg (by omega), show 18 + (len - 18) = len by omega, hcopy]
    rfl
  · rw [tagBytes, if_neg h17, tag_first hoff (by omega)] at h
    obtain ⟨k1, h, _⟩ := next_byte h
    obtain ⟨k2, h, hlt⟩ := next_byte h
    obtain ⟨f1, f2⟩ := tag_fields hoff (show len - 3 < 16 by omega)
    rw [k1, k2, tagBytes, if_neg h17]
    simp only [Option.bind_eq_bind, Option.bind_some,
      toNat_ofNat_lt (show 16 * (off / 256) + (len - 3) < 256 by omega), toNat_ofNat_lt hlow, f1, f2, hdp]
    rw [if_neg (show ¬(len - 3 + 3 = 18) by omega)]
    show (if _ then _ else _) = _
    rw [if_neg (by omega), show len - 3 + 3 = len by omega, hcopy]
    rfl

/-- A tag takes fewer bytes than it stands for. -/
theorem length_tagBytes {len : Nat} (off : Nat) (hlen : 2 < len) :
    2 ≤ (tagBytes len off).length ∧ (tagBytes len off).length ≤ 3 ∧ (tagBytes len off).length ≤ len := by
  unfold tagBytes
  split
  · exact ⟨show 2 ≤ 3 by omega, show 3 ≤ 3 by omega, show 3 ≤ len by omega⟩
  · exact ⟨show 2 ≤ 2 by omega, show 2 ≤ 3 by omega, show 2 ≤ len by omega⟩

/-- What the items of `rem` bytes take at most, with `n` items left for the control byte: the bytes themselves,
    two more for a tag at the end, and the control bytes to come. -/
def needed (rem n : Nat) : Nat := if rem = 0 then 0 else rem + 2 + (rem - n + 7) / 8

theorem needed_group {rem : Nat} (h : 0 < rem) : needed rem 0 = needed rem 8 + 1 := by
  unfold needed
  rw [if_neg (Nat.ne_of_gt h), if_neg (Nat.ne_of_gt h)]
  omega

theorem needed_item {rem n len size : Nat} (hrem : 0 < rem) (hpos : 0 < len) (h1 : size ≤ len) (h2 : size ≤ 3) :
    needed (rem - len) n + size ≤ needed rem (n + 1) := by
  unfold needed
  rw [if_neg (Nat.ne_of_gt hrem)]
  split <;> omega

/-- **The items of one control byte are decoded**, from as much of them as is needed for the data requested: all
    of them, and then the group or the input is at its end, or as many as give this data. -/
theorem decodeGroup_spec {rawsize : Nat} (hraw : rawsize ≤ source.length) {rest : List UInt8} (k : Nat) :
    ∀ {g : List Item} {sp dp q : Nat}, g.length ≤ k → (g.length = k ∨ rest = []) →
    src.drop sp <+: g.flatMap Item.bytes ++ rest →
    min (needed (rawsize - dp) k) (g.flatMap Item.bytes ++ rest).length ≤ src.length - sp →
    Parses source dp g q → dp ≤ rawsize →
    ∃ sp', decodeGroup src rawsize k (ctrlByte g) sp (source.take dp) =
        some (some (sp', source.take (min q rawsize))) ∧
      (q ≤ rawsize → sp' = sp + (g.flatMap Item.bytes).length ∧
        min (needed (rawsize - q) 0) rest.length ≤ src.length - sp') := by
  induction k with
  | zero =>
      intro g sp dp q hk _ _ hneed hp hdp
      obtain rfl : g = [] := List.length_eq_zero_iff.mp (Nat.le_zero.mp hk)
      cases hp
      exact ⟨sp, by rw [Nat.min_eq_left hdp]; rfl, fun _ => ⟨rfl, hneed⟩⟩
  | succ k ih =>
      intro g sp dp q hk hend hsrc hneed hp hdp
      have htake : (source.take dp).length = dp := List.length_take_of_le (Nat.le_trans hdp hraw)
      have hgrow := hp.length_le
      by_cases hfull : dp = rawsize
      · -- nothing more is requested
        refine ⟨sp, ?_, fun hq => ?_⟩
        · rw [decodeGroup, if_neg fun h => absurd h.2 (by omega), Nat.min_eq_right (by omega), hfull]
        · obtain rfl : g = [] := List.length_eq_zero_iff.mp (by omega)
          obtain rfl : q = rawsize := by omega
          rw [Nat.sub_self]
          exact ⟨rfl, Nat.le_trans (Nat.min_le_left _ _) (Nat.zero_le _)⟩
      · have hlt : dp < rawsize := by omega
        cases hp with
        | nil =>
            obtain rfl : rest = [] := hend.resolve_left (Nat.succ_ne_zero k).symm
            have hlen : src.length ≤ sp := List.drop_eq_nil_iff.mp (List.prefix_nil.mp hsrc)
            refine ⟨sp, ?_, fun _ => ⟨rfl, Nat.le_trans (Nat.min_le_right _ _) (Nat.zero_le _)⟩⟩
            rw [decodeGroup, if_neg fun h => absurd h.1 (Nat.not_lt.mpr hlen), Nat.min_eq_left hdp]
        | literal hin hp =>
            rename_i l
            have hitem := needed_item (n := k) (show 0 < rawsize - dp by omega) Nat.one_pos
              (Nat.le_refl 1) (show 1 ≤ 3 by omega)
            rw [List.flatMap_cons, List.append_assoc, List.length_append] at hneed
            rw [List.flatMap_cons, List.append_assoc] at hsrc
            have hone : (Item.literal (source.getD dp 0)).bytes.length = 1 := rfl
            obtain ⟨l', hdrop, hpre⟩ := prefix_split hsrc (by rw [List.length_drop]; omega)
            obtain ⟨k1, k2, k3⟩ := next_byte hdrop
            have hbit : ctrlByte (.literal (source.getD dp 0) :: l) = 2 * ctrlByte l := Nat.zero_add _
            have htake' : source.take dp ++ [source.getD dp 0] = source.take (dp + 1) := by
              rw [List.take_add_one, List.getElem?_eq_getElem hin, List.getD_eq_getElem _ _ hin, Option.toList_some]
            obtain ⟨sp', hrun, hdone⟩ := ih (Nat.le_of_succ_le_succ hk) (hend.imp_left Nat.succ.inj)
              (show src.drop (sp + 1) <+: _ from k2 ▸ hpre)
              (by rw [show rawsize - (dp + 1) = rawsize - dp - 1 by omega]; omega) hp hlt
            refine ⟨sp', ?_, fun hq => ?_⟩
            · rw [decodeGroup, if_pos ⟨k3, htake.symm ▸ hlt⟩, hbit, Nat.and_one_is_mod, Nat.mul_mod_right,
                if_neg (not_not_intro rfl), k1, Nat.shiftRight_eq_div_pow, Nat.pow_one,
                Nat.mul_div_cancel_left _ Nat.two_pos]
              show decodeGroup src rawsize k (ctrlByte l) (sp + 1) (source.take dp ++ [source.getD dp 0]) = _
              rw [htake', hrun]
            · obtain ⟨hsp, hneed'⟩ := hdone hq
              rw [List.flatMap_cons, List.length_append, hone]
              exact ⟨by omega, hneed'⟩
        | tag hm hlen hp =>
            rename_i len off l
            obtain ⟨hsize2, hsize3, hsizeLen⟩ := length_tagBytes off hlen
            have hitem := needed_item (n := k) (show 0 < rawsize - dp by omega) (show 0 < len by omega) hsizeLen hsize3
            rw [List.flatMap_cons, List.append_assoc, List.length_append] at hneed
            rw [List.flatMap_cons, List.append_assoc] at hsrc
            have hbytes : (Item.tag len off).bytes = tagBytes len off := rfl
            rw [hbytes] at hneed hsrc
            obtain ⟨l', hdrop, hpre⟩ := prefix_split hsrc (by rw [List.length_drop]; omega)
            have hsp : sp < src.length := by omega
            have hbit : ctrlByte (.tag len off :: l) = 1 + 2 * ctrlByte l := rfl
            have hnext : src.drop (sp + (tagBytes len off).length) = l' := by
              rw [← List.drop_drop, hdrop]
              exact List.drop_left
            have hstep : decodeGroup src rawsize (k + 1) (ctrlByte (.tag len off :: l)) sp (source.take dp) =
                decodeGroup src rawsize k (ctrlByte l) (sp + (tagBytes len off).length)
                  (source.take (min (dp + len) rawsize)) := by
              rw [decodeGroup, if_pos ⟨hsp, by omega⟩, hbit, Nat.and_one_is_mod, Nat.add_mul_mod_self_left,
                if_pos Nat.one_ne_zero, decodeTag_spec hdrop hm hlen hdp, Nat.shiftRight_eq_div_pow, Nat.pow_one,
                show (1 + 2 * ctrlByte l) / 2 = ctrlByte l by omega]
              rfl
            by_cases hover : dp + len ≤ rawsize
            · obtain ⟨sp', hrun, hdone⟩ := ih (Nat.le_of_succ_le_succ hk)
                (hend.imp_left Nat.succ.inj) (show src.drop (sp + (tagBytes len off).length) <+: _ from hnext ▸ hpre)
                (by rw [show rawsize - (dp + len) = rawsize - dp - len by omega]; omega) hp hover
              refine ⟨sp', ?_, fun hq => ?_⟩
              · rw [hstep, Nat.min_eq_left hover, hrun]
              · obtain ⟨hsp', hneed'⟩ := hdone hq
                rw [List.flatMap_cons, List.length_append, hbytes]
                exact ⟨by omega, hneed'⟩
            · -- the tag goes over the end of the data requested
              have hgrow' := hp.length_le
              have hstop : ∀ n ctrl sp', decodeGroup src rawsize n ctrl sp' (source.take rawsize) =
                  some (some (sp', source.take rawsize)) := by
                intro n ctrl sp'
                cases n with
                | zero => rfl
                | succ n =>
                    rw [decodeGroup, if_neg fun h => absurd h.2 (by rw [List.length_take_of_le hraw]; omega)]
              refine ⟨sp + (tagBytes len off).length, ?_, fun hq => absurd hq (by omega)⟩
              rw [hstep, Nat.min_eq_right (by omega), hstop, Nat.min_eq_right (by omega)]

theorem ctrlByte_toNat {g : List Item} (hg : g.length ≤ 8) : (UInt8.ofNat (ctrlByte g)).toNat = ctrlByte g :=
  toNat_ofNat_lt ((ctrlByte_lt g).trans_le (Nat.pow_le_pow_right Nat.two_pos hg))

/-- One control byte and its items. -/
theorem decompressLoop_group {rawsize : Nat} (hraw : rawsize ≤ source.length) {g : List Item} {rest : List UInt8}
    {dp q : Nat} (fuel : Nat) (hg : g.length ≤ 8) (hend : g.length = 8 ∨ rest = []) (hsrc : src.drop sp <+: encodeGroup g ++ rest)
    (hneed : min (needed (rawsize - dp) 0) (encodeGroup g ++ rest).length ≤ src.length - sp)
    (hp : Parses source dp g q) (hdp : dp < rawsize) :
    sp < src.length ∧ ∃ sp', decompressLoop src rawsize (fuel + 1) sp (source.take dp) =
        decompressLoop src rawsize fuel sp' (source.take (min q rawsize)) ∧
      (q ≤ rawsize → sp' = sp + (encodeGroup g).length ∧
        min (needed (rawsize - q) 0) rest.length ≤ src.length - sp') := by
  have htake : (source.take dp).length = dp := List.length_take_of_le (by omega)
  rw [needed_group (by omega)] at hneed
  have hlen : (encodeGroup g).length = (g.flatMap Item.bytes).length + 1 := rfl
  have hsplit : encodeGroup g ++ rest = [UInt8.ofNat (ctrlByte g)] ++ (g.flatMap Item.bytes ++ rest) := rfl
  rw [hsplit, List.length_append, List.length_singleton] at hneed
  rw [hsplit] at hsrc
  obtain ⟨l', hdrop, hpre⟩ := prefix_split hsrc (by rw [List.length_drop, List.length_singleton]; omega)
  obtain ⟨k1, k2, k3⟩ := next_byte hdrop
  have hnext : src.drop (sp + 1) <+: g.flatMap Item.bytes ++ rest := by
    rw [k2]
    exact hpre
  obtain ⟨sp', hrun, hdone⟩ := decodeGroup_spec hraw 8 hg hend hnext (by omega) hp (Nat.le_of_lt hdp)
  refine ⟨k3, sp', ?_, fun hq => ?_⟩
  · rw [decompressLoop, if_pos ⟨k3, htake.symm ▸ hdp⟩, k1]
    simp only [Option.bind_eq_bind, Option.bind_some, ctrlByte_toNat hg, hrun]
  · obtain ⟨hsp, hneed'⟩ := hdone hq
    exact ⟨by omega, hneed'⟩

/-- **The decoder follows the groups** until it has the data requested; for all of it, to the end. -/
theorem decompressLoop_spec {rawsize : Nat} (hraw : rawsize ≤ source.length) {groups : List (List Item)}
    (hg : Grouped groups) : ∀ {sp dp fuel : Nat}, src.drop sp <+: groups.flatMap encodeGroup →
    min (needed (rawsize - dp) 0) (groups.flatMap encodeGroup).length ≤ src.length - sp → dp ≤ rawsize →
    Parses source dp groups.flatten source.length → src.length - sp < fuel →
    ∃ sp', decompressLoop src rawsize fuel sp (source.take dp) = some (some (sp', source.take rawsize)) ∧
      (rawsize = source.length → sp' = sp + (groups.flatMap encodeGroup).length) := by
  have hdone : ∀ {sp fuel : Nat}, 0 < fuel →
      decompressLoop src rawsize fuel sp (source.take rawsize) = some (some (sp, source.take rawsize)) := by
    intro sp fuel hfuel
    obtain ⟨fuel, rfl⟩ := Nat.exists_eq_succ_of_ne_zero (Nat.ne_of_gt hfuel)
    rw [decompressLoop, if_neg fun h => absurd h.2 (by rw [List.length_take_of_le hraw]; omega)]
  induction hg with
  | nil =>
      intro sp dp fuel _ _ hdp hp hfuel
      cases hp
      obtain rfl : rawsize = source.length := Nat.le_antisymm hraw hdp
      exact ⟨sp, hdone (by omega), fun _ => rfl⟩
  | @last g hne hg =>
      intro sp dp fuel hsrc hneed hdp hp hfuel
      rw [List.flatten_singleton] at hp
      rw [List.flatMap_singleton] at hsrc hneed
      have hgrow := hp.length_le
      have hpos := List.length_pos_of_ne_nil hne
      obtain ⟨fuel, rfl⟩ := Nat.exists_eq_succ_of_ne_zero (Nat.ne_zero_of_lt hfuel)
      by_cases hfull : dp = rawsize
      · exact ⟨sp, hfull ▸ hdone (Nat.succ_pos _), fun hall => absurd hall (by omega)⟩
      · rw [← List.append_nil (encodeGroup g)] at hsrc hneed
        obtain ⟨hsp, sp', hrun, hnext⟩ := decompressLoop_group hraw fuel hg (Or.inr rfl) hsrc hneed hp (by omega)
        rw [Nat.min_eq_right hraw] at hrun
        refine ⟨sp', by rw [hrun, hdone (by omega)], fun hall => ?_⟩
        rw [List.flatMap_singleton]
        exact (hnext (by omega)).1
  | @cons g gs hg _ ih =>
      intro sp dp fuel hsrc hneed hdp hp hfuel
      rw [List.flatten_cons] at hp
      obtain ⟨m, h1, h2⟩ := hp.split
      have hgrow := h1.length_le
      have hgrow' := h2.length_le
      obtain ⟨fuel, rfl⟩ := Nat.exists_eq_succ_of_ne_zero (Nat.ne_zero_of_lt hfuel)
      by_cases hfull : dp = rawsize
      · exact ⟨sp, hfull ▸ hdone (Nat.succ_pos _), fun hall => absurd hall (by omega)⟩
      · rw [List.flatMap_cons] at hsrc hneed
        obtain ⟨hsp, sp', hrun, hnext⟩ := decompressLoop_group hraw fuel hg.le (Or.inl hg) hsrc hneed h1 (by omega)
        rw [hrun]
        by_cases hm : m ≤ rawsize
        · obtain ⟨hsp', hneed'⟩ := hnext hm
          have hlen : 0 < (encodeGroup g).length := Nat.succ_pos _
          have hsrc' : src.drop sp' <+: gs.flatMap encodeGroup := by
            rw [hsp', ← List.drop_drop]
            obtain ⟨t, ht⟩ := hsrc
            by_cases hin : (encodeGroup g).length ≤ (src.drop sp).length
            · obtain ⟨l', hl', hpre⟩ := prefix_split ⟨t, ht⟩ hin
              rw [hl', List.drop_left]
              exact hpre
            · rw [List.drop_eq_nil_iff.mpr (by omega)]
              exact List.nil_prefix
          rw [Nat.min_eq_left hm]
          obtain ⟨sp'', hrun', hall⟩ := ih hsrc' hneed' hm h2 (show src.length - sp' < fuel by omega)
          refine ⟨sp'', hrun', fun he => ?_⟩
          rw [hall he, hsp', List.flatMap_cons, List.length_append, Nat.add_assoc]
        · rw [Nat.min_eq_right (by omega)]
          exact ⟨sp', hdone (by omega), fun hall => absurd hall (by omega)⟩

theorem decompress_groups {groups : List (List Item)} (hg : Grouped groups)
    (hp : Parses source 0 groups.flatten source.length) :
    pglz_decompress (groups.flatMap encodeGroup) source.length true = some (some source) := by
  have hsrc : (groups.flatMap encodeGroup).drop 0 <+: groups.flatMap encodeGroup := List.prefix_rfl
  obtain ⟨sp, hrun, hall⟩ := decompressLoop_spec (Nat.le_refl source.length) hg hsrc (Nat.min_le_right _ _)
    (Nat.zero_le _) hp (show _ - 0 < (groups.flatMap encodeGroup).length + 1 from Nat.lt_succ_self _)
  rw [List.take_zero, List.take_length, hall rfl, Nat.zero_add] at hrun
  unfold pglz_decompress
  rw [hrun]
  simp

/-! ## 5. The round trip -/

theorem resultMax_le (slen need_rate : Nat) : resultMax slen need_rate ≤ slen := by
  unfold resultMax
  split
  · calc slen / 100 * (100 - need_rate) ≤ slen / 100 * 100 := Nat.mul_le_mul_left _ (Nat.sub_le _ _)
      _ ≤ slen := Nat.div_mul_le_self _ _
  · refine Nat.div_le_of_le_mul ?_
    rw [Nat.mul_comm 100]
    exact Nat.mul_le_mul_left _ (Nat.sub_le _ _)

theorem hashsz_bounds (slen : Nat) : 0 < Pglz.hashsz slen ∧ Pglz.hashsz slen ≤ 8192 := by
  unfold Pglz.hashsz
  split_ifs <;> decide

/-- The call as a run of the loop without arrays. -/
theorem compress_eq (hist : History) (source : List UInt8) (strategy : Option PGLZ_Strategy) :
    (pglz_compress hist source strategy).map (fun c => (c.result, c.buf)) =
      let s := strategy.getD PGLZ_strategy_default
      if s.match_size_good ≤ 0 ∨ (source.length : Int) < s.min_input_size ∨
          s.max_input_size < (source.length : Int) then some (none, [])
      else absLoop source s.params (resultMax source.length s.params.need_rate) (Pglz.hashsz source.length - 1)
        (source.length + 1) 0 false ⟨[], none, 0, 0⟩ := by
  unfold pglz_compress
  simp only
  split
  · rfl
  · obtain ⟨h1, h2⟩ := hashsz_bounds source.length
    exact compressLoop_eq (fun q => hist_idx_lt source q h1 h2) _ (histInv_start hist)

/-- **What the compressor writes**: groups of items that stand for the source. -/
theorem compress_groups (source : List UInt8) (strategy : Option PGLZ_Strategy) : ∃ r buf,
    (∀ hist, (pglz_compress hist source strategy).map (fun c => (c.result, c.buf)) = some (r, buf)) ∧
      buf.length ≤ PGLZ_MAX_OUTPUT source.length ∧ ∀ n, r = some n → n < source.length ∧ buf.length = n ∧
        ∃ groups, buf = groups.flatMap encodeGroup ∧ Grouped groups ∧ Parses source 0 groups.flatten source.length := by
  have heq := fun hist => compress_eq hist source strategy
  simp only at heq
  split at heq
  · exact ⟨none, [], heq, Nat.zero_le _, nofun⟩
  · obtain ⟨r, buf, h1, h2, h3⟩ := absLoop_spec
      (p := (strategy.getD PGLZ_strategy_default).params)
      (resultMax_le source.length (strategy.getD PGLZ_strategy_default).params.need_rate) (source.length + 1)
      (.start rfl rfl) (Nat.zero_le _) (Nat.lt_succ_self _) (Nat.zero_le _)
    exact ⟨r, buf, fun hist => (heq hist).trans h1, h2, h3⟩

/-- **The round trip of the built-in LZ compressor.** Whatever the source, the strategy and the contents left
    in the static history arrays, `pglz_compress` comes back within `PGLZ_MAX_OUTPUT` bytes; a result it
    returns is smaller than the source and decompresses to it; and another call with other contents of the
    arrays returns and writes the same. -/
theorem pglz_round_trip (source : List UInt8) (strategy : Option PGLZ_Strategy) (hist : History) :
    ∃ c, pglz_compress hist source strategy = some c ∧ c.buf.length ≤ PGLZ_MAX_OUTPUT source.length ∧
      (∀ n, c.result = some n → n < source.length ∧ c.buf.length = n ∧
        pglz_decompress c.buf source.length true = some (some source)) ∧
      ∀ hist', ∃ c', pglz_compress hist' source strategy = some c' ∧ c'.result = c.result ∧ c'.buf = c.buf := by
  obtain ⟨r, buf, hrun, hbuf, hres⟩ := compress_groups source strategy
  have hcall : ∀ hist', ∃ c, pglz_compress hist' source strategy = some c ∧ c.result = r ∧ c.buf = buf := by
    intro hist'
    obtain ⟨c, hc, he⟩ := Option.map_eq_some_iff.mp (hrun hist')
    exact ⟨c, hc, congrArg Prod.fst he, congrArg Prod.snd he⟩
  obtain ⟨c, hc, rfl, rfl⟩ := hcall hist
  refine ⟨c, hc, hbuf, fun n hn => ?_, hcall⟩
  obtain ⟨k1, k2, groups, k3, k4, k5⟩ := hres n hn
  exact ⟨k1, k2, k3 ▸ decompress_groups k4 k5⟩

end Pgvec.Pglz
