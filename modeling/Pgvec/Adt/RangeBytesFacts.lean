/-
  File:      Pgvec/Adt/RangeBytesFacts.lean
  Subject:   THE BYTES OF A RANGE (`src/backend/utils/adt/rangetypes.c`).

  A bound value in memory says itself where it ends, and a reader finds it behind the pad bytes. So the bytes of
  the bounds can be read at any address that is aligned for the element type.

  * `Stored` -- what a bound value in memory looks like; `encode`, `datum_write_eq`, `datum_compute_size_eq`;
  * `boundsBytes`, `image` -- the bytes of a range; `range_serialize_image`;
  * **`walk_eq`, `fetchBounds_eq`** -- reading them at an aligned address.
-/
import Pgvec.Lib.Except
import Pgvec.Adt.MultirangeStorage

namespace Pgvec.Range

open Pgvec.Cells Typalign

variable {ty : ElemType} {m e : List UInt8} {p : Nat}

/-! ## 1. Bound values in memory -/

/-- A varlena that is neither compressed nor a toast pointer. -/
def Varlena (e : List UInt8) : Prop :=
  ∃ h, va_header e 0 = some h ∧ ¬VARATT_IS_1B_E h ∧
    (VARATT_IS_1B h ∧ VARSIZE_1B h = e.length ∨ VARATT_IS_4B_U h ∧ VARSIZE_4B e 0 = some e.length)

/-- A string with the zero byte at its end. -/
def CString (e : List UInt8) : Prop := ∃ s : List UInt8, 0 ∉ s ∧ e = s ++ [0]

/-- **The bytes of a value of the type.** -/
def Stored (ty : ElemType) (e : List UInt8) : Prop :=
  if 0 < ty.typlen then e.length = ty.typlen.toNat else if ty.typlen = -1 then Varlena e else CString e

/-- The datum that stands in these bytes. -/
def datumOf (ty : ElemType) (e : List UInt8) : Datum :=
  if ty.typbyval then .byval ((BitVec.ofNat (8 * ty.typlen.toNat) (leNat e)).signExtend 64) else .pointer e

/-- A datum of the type: a value, or a pointer to one. -/
def DatumOk (ty : ElemType) : Datum → Prop
  | .byval _ => ty.typbyval = true
  | .pointer bytes => ty.typbyval = false ∧ Stored ty bytes

theorem typlen_cases (ty : ElemType) : 0 < ty.typlen ∨ ty.typlen = -1 ∨ ty.typlen = -2 ∧ ty.typalign = TYPALIGN_CHAR := by
  cases h : ty.typbyval with
  | false => exact ty.byref_len h
  | true =>
      have := ty.byval_len h
      exact .inl (by omega)

theorem header_of_at (h : At m p e) {b : Nat} (hb : va_header e 0 = some b) : va_header m p = some b := by
  rw [va_header] at hb ⊢
  have hne : 0 < e.length := by
    by_contra h0
    rw [List.getElem?_eq_none (by omega)] at hb
    cases hb
  have := h.2 0 hne
  rw [Nat.add_zero] at this
  rw [this, hb]

theorem At.take {α : Type} {m xs : List α} {p : Nat} (h : At m p xs) (k : Nat) : At m p (xs.take k) := by
  refine ⟨?_, fun j hj => ?_⟩
  · have := h.1
    rw [List.length_take]
    omega
  · rw [List.length_take] at hj
    rw [h.2 j (by omega), List.getElem?_take, if_pos (by omega)]

theorem readLE_of_at (h : At m p e) {k : Nat} (hk : k ≤ e.length) : readLE m p k = some (leNat (e.take k)) := by
  have := read_eq (At.take h k)
  rw [List.length_take, min_eq_left hk] at this
  rw [readLE, this, Option.map_some]

theorem VARSIZE_4B_of_at (h : At m p e) {n : Nat} (hn : VARSIZE_4B e 0 = some n) : VARSIZE_4B m p = some n := by
  have hlen : 4 ≤ e.length := by
    by_contra hlt
    rw [VARSIZE_4B, readLE, Pgvec.Cells.read, if_neg (by omega)] at hn
    cases hn
  rw [VARSIZE_4B, readLE_of_at at_self hlen] at hn
  rw [VARSIZE_4B, readLE_of_at h hlen, hn]

/-- A header is that of one form only. -/
theorem not_1B {h : Nat} (h4 : VARATT_IS_4B_U h) : ¬VARATT_IS_1B h := by
  intro h1
  rw [VARATT_IS_1B, show (0x01 : Nat) = 2 ^ 1 - 1 from rfl, Nat.and_two_pow_sub_one_eq_mod] at h1
  rw [VARATT_IS_4B_U, show (0x03 : Nat) = 2 ^ 2 - 1 from rfl, Nat.and_two_pow_sub_one_eq_mod] at h4
  omega

theorem VARSIZE_ANY_of_at (h : At m p e) (hv : Varlena e) : VARSIZE_ANY m p = some e.length := by
  obtain ⟨b, hb, hext, hsize⟩ := hv
  rw [VARSIZE_ANY, header_of_at h hb]
  simp only [Option.bind_eq_bind, Option.bind_some, if_neg hext]
  rcases hsize with ⟨h1, hlen⟩ | ⟨h4, hlen⟩
  · rw [if_pos h1, hlen]
    rfl
  · rw [if_neg (not_1B h4), VARSIZE_4B_of_at h hlen]

theorem strlen_of_at {s : List UInt8} (h : At m p (s ++ [0])) (hs : 0 ∉ s) : strlen m p = some s.length := by
  obtain ⟨h1, h2⟩ := at_append.mp h
  have hlt : p + s.length < m.length := by
    have := h2.1
    rw [List.length_singleton] at this
    omega
  rw [strlen, List.findIdx?_eq_some_iff_getElem]
  have hget : ∀ k < s.length + 1, (m.drop p)[k]? = (s ++ [0])[k]? := by
    intro k hk
    rw [List.getElem?_drop, h.2 k (by rw [List.length_append, List.length_singleton]; exact hk)]
  refine ⟨by rw [List.length_drop]; omega, ?_, fun j hj => ?_⟩
  · have := hget s.length (by omega)
    rw [List.getElem?_append_right le_rfl, Nat.sub_self, List.getElem?_eq_getElem (by rw [List.length_drop]; omega)] at this
    rw [Option.some.inj this]
    rfl
  · have := hget j (by omega)
    rw [List.getElem?_append_left hj, List.getElem?_eq_getElem (by rw [List.length_drop]; omega),
      List.getElem?_eq_getElem hj] at this
    rw [Option.some.inj this, Bool.not_eq_true, beq_eq_false_iff_ne]
    exact fun h0 => hs (h0 ▸ List.getElem_mem hj)

/-- **A value says where it ends.** -/
theorem addlength_of_at (h : At m p e) (hs : Stored ty e) :
    att_addlength_pointer ty.typlen m p = some (p + e.length) := by
  rw [att_addlength_pointer]
  rw [Stored] at hs
  split_ifs at hs ⊢ with h1 h2
  · rw [hs]
  · rw [VARSIZE_ANY_of_at h hs, Option.map_some]
  · obtain ⟨s, h0, rfl⟩ := hs
    rw [strlen_of_at h h0, Option.map_some, List.length_append, List.length_singleton]

theorem fetch_of_at (h : At m p e) (hs : Stored ty e) :
    fetch_att m p ty.typbyval ty.typlen = .ok (datumOf ty e) := by
  rw [fetch_att, datumOf]
  split_ifs with hb hlen
  · have hpos : 0 < ty.typlen := by omega
    rw [Stored, if_pos hpos] at hs
    rw [readLE_of_at h hs.ge, ← hs, List.take_length]
    rfl
  · exact absurd (ty.byval_len hb) hlen
  · rw [addlength_of_at h hs]
    simp only [Option.bind_eq_bind, Option.bind_some, Nat.add_sub_cancel_left, read_eq h]
    rfl

theorem Stored.pos (hs : Stored ty e) : 0 < e.length := by
  rw [Stored] at hs
  split_ifs at hs with h1 h2
  · omega
  · obtain ⟨b, hb, -⟩ := hs
    by_contra h0
    rw [va_header, List.getElem?_eq_none (by omega)] at hb
    cases hb
  · obtain ⟨s, -, rfl⟩ := hs
    simp

/-! ## 2. Alignment -/

/-- A varlena with a 1-byte header. -/
def isShort (e : List UInt8) : Bool := (va_header e 0).any fun h => decide (VARATT_IS_1B h)

/-- Where a value goes that comes at this offset. -/
def place (ty : ElemType) (offset : Nat) (e : List UInt8) : Nat :=
  if ty.typlen = -1 ∧ isShort e then offset else att_align_nominal offset ty.typalign

theorem le_align (offset : Nat) (al : Typalign) : offset ≤ att_align_nominal offset al := by
  cases al <;> simp only [att_align_nominal, TYPEALIGN] <;> omega

theorem le_place (ty : ElemType) (offset : Nat) (e : List UInt8) : offset ≤ place ty offset e := by
  rw [place]
  split_ifs
  · exact le_rfl
  · exact le_align offset _

/-- The base address does not matter, if it is aligned. -/
theorem align_shift {base : Nat} (al : Typalign) (hbase : att_align_nominal base al = base) (x : Nat) :
    att_align_nominal (base + x) al = base + (att_align_nominal (8 + x) al - 8) := by
  cases al <;> simp only [att_align_nominal, TYPEALIGN] at hbase ⊢ <;> omega

theorem align_eight (al : Typalign) : att_align_nominal 8 al = 8 := by cases al <;> rfl

theorem align_align (x : Nat) (al : Typalign) : att_align_nominal (att_align_nominal x al) al = att_align_nominal x al := by
  cases al <;> simp only [att_align_nominal, TYPEALIGN] <;> omega

theorem align_add {x y : Nat} {al : Typalign} (hx : att_align_nominal x al = x) (hy : att_align_nominal y al = y) :
    att_align_nominal (x + y) al = x + y := by
  cases al <;> simp only [att_align_nominal, TYPEALIGN] at hx hy ⊢ <;> omega

theorem place_shift {base : Nat} (hbase : att_align_nominal base ty.typalign = base) (x : Nat) (e : List UInt8) :
    place ty (base + x) e = base + (place ty (8 + x) e - 8) := by
  rw [place, place]
  split_ifs
  · omega
  · exact align_shift _ hbase x

/-- **A reader finds the value behind the pad bytes.** -/
theorem align_of_at (hs : Stored ty e) (h : At m p (List.replicate (place ty p e - p) 0 ++ e)) :
    att_align_pointer ty.typalign ty.typlen m p = some (place ty p e) := by
  obtain ⟨hpad, he⟩ := at_append.mp h
  rw [List.length_replicate] at he
  rw [att_align_pointer]
  by_cases h1 : ty.typlen = -1
  · rw [if_pos h1]
    rw [Stored, if_neg (by omega), if_pos h1] at hs
    obtain ⟨b, hb, hext, -⟩ := hs
    by_cases hshort : isShort e
    · -- the header is odd, so that it is no pad byte
      have hplace : place ty p e = p := if_pos ⟨h1, hshort⟩
      rw [hplace, Nat.sub_self, Nat.add_zero] at he
      have hhead := header_of_at he hb
      rw [isShort, hb, Option.any_some, decide_eq_true_eq, VARATT_IS_1B] at hshort
      obtain ⟨v, hv, rfl⟩ := Option.map_eq_some_iff.mp hhead
      have hne : v ≠ 0 := by
        intro h0
        rw [h0] at hshort
        exact absurd hshort (by decide)
      rw [hv, Option.map_some, if_pos hne, hplace]
    · have hplace : place ty p e = att_align_nominal p ty.typalign := if_neg fun hc => hshort hc.2
      have hle := le_align p ty.typalign
      rcases Nat.eq_or_lt_of_le hle with heq | hlt
      · obtain ⟨v, hv, -⟩ : ∃ v, m[p]? = some v ∧ v.toNat = b := by
          rw [hplace, ← heq, Nat.sub_self, Nat.add_zero] at he
          exact Option.map_eq_some_iff.mp (header_of_at he hb)
        rw [hv, Option.map_some, hplace, ← heq, ite_self]
      · have hzero : m[p]? = some 0 := by
          have := hpad.2 0 (by rw [List.length_replicate, hplace]; omega)
          rw [Nat.add_zero, List.getElem?_replicate, hplace, if_pos (by omega)] at this
          exact this
        rw [hzero, Option.map_some, if_neg (by simp), hplace]
  · rw [if_neg h1, place, if_neg fun hc => h1 hc.1]

/-! ## 3. Writing a value -/

/-- The bytes that `datum_write` stores. -/
def encode (ty : ElemType) : Datum → List UInt8
  | .byval value => leBytes ty.typlen.toNat value.toNat
  | .pointer val =>
      match if TYPE_IS_PACKABLE ty then (converted_short_size val).join else none with
      | some size => shortHeader size :: val.drop 4
      | none => val

/-- Only a varlena with a 4-byte header, and not too long a one, is converted. -/
theorem converted_eq {val : List UInt8} (hv : Varlena val) :
    ∃ o, converted_short_size val = some o ∧
      ∀ size, o = some size → isShort val = false ∧ VARSIZE_4B val 0 = some val.length ∧ 4 ≤ val.length ∧
        size = val.length - 3 ∧ size ≤ 0x7F := by
  obtain ⟨h, hh, hext, hsize⟩ := hv
  rw [converted_short_size, hh]
  simp only [Option.bind_eq_bind, Option.bind_some]
  rcases hsize with ⟨h1, -⟩ | ⟨h4, hlen⟩
  · exact ⟨none, if_neg fun h4 => not_1B h4 h1, nofun⟩
  · have hfour : 4 ≤ val.length := by
      by_contra hlt
      rw [VARSIZE_4B, readLE, Pgvec.Cells.read, if_neg (by omega)] at hlen
      cases hlen
    have hodd : isShort val = false := by
      rw [isShort, hh, Option.any_some, decide_eq_false_iff_not]
      exact not_1B h4
    rw [if_pos h4, hlen]
    refine ⟨_, rfl, fun size hs => ?_⟩
    split_ifs at hs with hle
    obtain rfl := Option.some.inj hs
    exact ⟨hodd, rfl, hfour, by omega, hle⟩

theorem shortHeader_toNat {size : Nat} (h : size ≤ 0x7F) : (shortHeader size).toNat = 2 * size + 1 := by
  have hor : (size <<< 1) ||| 0x01 = 2 * size + 1 := by
    rw [Nat.shiftLeft_eq, Nat.mul_comm]
    exact (Nat.two_pow_add_eq_or_of_lt (i := 1) (b := 1) (by decide) size).symm
  rw [shortHeader, hor, UInt8.toNat_ofNat', Nat.mod_eq_of_lt (by omega)]

theorem varlena_short {size : Nat} (bytes : List UInt8) (hpos : 0 < size) (hle : size ≤ 0x7F)
    (hlen : bytes.length + 1 = size) : Varlena (shortHeader size :: bytes) ∧ isShort (shortHeader size :: bytes) = true := by
  have hh : va_header (shortHeader size :: bytes) 0 = some (2 * size + 1) :=
    congrArg some (shortHeader_toNat hle)
  have h1 : VARATT_IS_1B (2 * size + 1) := by
    rw [VARATT_IS_1B, show (0x01 : Nat) = 2 ^ 1 - 1 from rfl, Nat.and_two_pow_sub_one_eq_mod]
    omega
  refine ⟨⟨_, hh, ?_, .inl ⟨h1, ?_⟩⟩, ?_⟩
  · rw [VARATT_IS_1B_E]
    omega
  · rw [VARSIZE_1B, List.length_cons, hlen, Nat.shiftRight_eq_div_pow, show (0x7F : Nat) = 2 ^ 7 - 1 from rfl,
      Nat.and_two_pow_sub_one_eq_mod]
    omega
  · rw [isShort, hh, Option.any_some]
    exact decide_eq_true h1

/-- How a value of the type is stored: a conversion to a short header, or as it is. -/
theorem encode_cases {val : List UInt8} (hs : Stored ty val) :
    (∃ size, convertedSize ty val = .ok (some size) ∧ encode ty (.pointer val) = shortHeader size :: val.drop 4 ∧
      ty.typlen = -1 ∧ isShort val = false ∧ VARSIZE_4B val 0 = some val.length ∧ 4 ≤ val.length ∧
      size = val.length - 3 ∧ size ≤ 0x7F) ∨
    convertedSize ty val = .ok none ∧ encode ty (.pointer val) = val := by
  by_cases hp : TYPE_IS_PACKABLE ty
  · have hv : Varlena val := by
      rw [Stored, if_neg (by rw [hp.1]; decide), if_pos hp.1] at hs
      exact hs
    obtain ⟨o, ho, hconv⟩ := converted_eq hv
    cases o with
    | none => exact .inr ⟨by rw [convertedSize, if_pos hp, ho]; rfl, by rw [encode, if_pos hp, ho]; rfl⟩
    | some size =>
        obtain ⟨h1, h2, h3, h4, h5⟩ := hconv size rfl
        exact .inl ⟨size, by rw [convertedSize, if_pos hp, ho]; rfl, by rw [encode, if_pos hp, ho]; rfl, hp.1, h1, h2,
          h3, h4, h5⟩
  · exact .inr ⟨if_neg hp, by rw [encode, if_neg hp]⟩

theorem stored_encode {d : Datum} (hd : DatumOk ty d) : Stored ty (encode ty d) := by
  cases d with
  | byval value =>
      have hlen := ty.byval_len hd
      rw [Stored, if_pos (by omega), encode, length_leBytes]
  | pointer val =>
      rcases encode_cases hd.2 with ⟨size, -, he, h1, -, -, h4, hsize, hle⟩ | ⟨-, he⟩
      · rw [he, Stored, if_neg (by omega), if_pos h1]
        exact (varlena_short (val.drop 4) (by omega) hle (by rw [List.length_drop]; omega)).1
      · rw [he]
        exact hd.2

theorem read_all (val : List UInt8) : read val 0 val.length = some val := read_eq at_self

theorem align_char {x : Nat} (h : ty.typlen = -2) : att_align_nominal x ty.typalign = x := by
  rcases typlen_cases ty with h1 | h1 | h1
  · omega
  · omega
  · rw [h1.2]
    rfl

/-- **`datum_write`** puts the bytes where they belong. -/
theorem datum_write_eq {d : Datum} (hd : DatumOk ty d) (m : List UInt8) (ptr : Nat) :
    datum_write ty m ptr d = put m (place ty ptr (encode ty d)) (encode ty d) := by
  cases d with
  | byval value =>
      have hlen := ty.byval_len hd
      rw [datum_write, place, if_neg (by omega), encode]
  | pointer val =>
      have hs := hd.2
      rw [datum_write]
      rw [Stored] at hs
      rcases typlen_cases ty with hpos | h1 | h2
      · rw [if_pos hpos] at hs
        rw [if_neg (by omega), if_neg (by omega), ← hs, read_all]
        rcases encode_cases hd.2 with ⟨size, -, -, h, -⟩ | ⟨-, he⟩
        · omega
        · rw [he, place, if_neg (by omega)]
          rfl
      · rw [if_neg (by omega), if_pos h1] at hs
        obtain ⟨h, hh, hext, hsize⟩ := hs
        rw [if_pos h1, hh]
        simp only [access, Option.elim_some, bind, Except.bind, if_neg hext]
        rcases encode_cases hd.2 with ⟨size, hc, he, -, hshort, hlen, hfour, hsz, hle⟩ | ⟨hc, he⟩
        · have hodd : ¬VARATT_IS_1B h := by
            rw [isShort, hh, Option.any_some, decide_eq_false_iff_not] at hshort
            exact hshort
          have hread : read val 4 (size - 1) = some (val.drop 4) := by
            rw [Pgvec.Cells.read, if_pos (by omega), List.take_of_length_le (by rw [List.length_drop]; omega)]
          have hshort' := (varlena_short (val.drop 4) (by omega) hle (by rw [List.length_drop]; omega)).2
          rw [if_neg hodd, hc, he, place, if_pos ⟨h1, hshort'⟩]
          simp only [hread, Option.elim_some]
        · rcases hsize with ⟨hodd, hlen⟩ | ⟨heven, hlen⟩
          · have hshort : isShort val = true := by
              rw [isShort, hh, Option.any_some]
              exact decide_eq_true hodd
            rw [if_pos hodd, he, place, if_pos ⟨h1, hshort⟩, hlen, read_all]
            rfl
          · have hodd : ¬VARATT_IS_1B h := not_1B heven
            have hshort : ¬isShort val = true := by
              rw [isShort, hh, Option.any_some, decide_eq_true_eq]
              exact hodd
            rw [if_neg hodd, hc, he, place, if_neg fun hp => hshort hp.2, hlen]
            simp only [Option.elim_some, read_all]
      · have h2 := h2.1
        rw [if_neg (by omega), if_neg (by omega)] at hs
        obtain ⟨s, h0, rfl⟩ := hs
        rw [if_neg (by omega), if_pos h2]
        rcases encode_cases hd.2 with ⟨size, -, -, h, -⟩ | ⟨-, he⟩
        · omega
        · have hread : read (s ++ [0]) 0 (s.length + 1) = some (s ++ [0]) := by
            have := read_all (s ++ [0])
            rwa [List.length_append, List.length_singleton] at this
          rw [he, place, if_neg (by omega), align_char h2, strlen_of_at at_self h0]
          simp only [access, Option.elim_some, bind, Except.bind, hread]

/-- **`datum_compute_size`** counts them. -/
theorem datum_compute_size_eq {d : Datum} (hd : DatumOk ty d) (n : Nat) :
    datum_compute_size ty n d = .ok (place ty n (encode ty d) + (encode ty d).length) := by
  cases d with
  | byval value =>
      have hlen := ty.byval_len hd
      have hpack : ¬TYPE_IS_PACKABLE ty := fun h => by have := h.1; omega
      rw [datum_compute_size, convertedSize, if_neg hpack, att_align_datum, if_neg (by omega), att_addlength_pointer,
        if_pos (by omega), place, if_neg (by omega), encode, length_leBytes, Nat.zero_add]
      rfl
  | pointer val =>
      have hadd := addlength_of_at (p := 0) at_self hd.2
      rw [datum_compute_size]
      rcases encode_cases hd.2 with ⟨size, hc, he, h1, -, -, hfour, hsz, hle⟩ | ⟨hc, he⟩
      · have hshort' := (varlena_short (val.drop 4) (by omega) hle (by rw [List.length_drop]; omega)).2
        rw [show (Datum.pointer val).bytes = val from rfl, hc, he, place, if_pos ⟨h1, hshort'⟩, List.length_cons,
          List.length_drop]
        show Except.ok (n + size) = Except.ok (n + (val.length - 4 + 1))
        rw [hsz]
        congr 1
        omega
      · have halign : att_align_datum ty n val = .ok (place ty n val) := by
          rw [att_align_datum, place]
          by_cases h1 : ty.typlen = -1
          · obtain ⟨h, hh, -, -⟩ : Varlena val := by
              have hs := hd.2
              rwa [Stored, if_neg (by omega), if_pos h1] at hs
            rw [if_pos h1, hh, isShort, hh, Option.any_some]
            by_cases hodd : VARATT_IS_1B h
            · rw [if_pos ⟨h1, decide_eq_true hodd⟩]
              show Except.ok (if VARATT_IS_1B h then n else _) = _
              rw [if_pos hodd]
            · rw [if_neg fun hc => hodd (of_decide_eq_true hc.2)]
              show Except.ok (if VARATT_IS_1B h then n else _) = _
              rw [if_neg hodd]
          · rw [if_neg h1, if_neg fun hc => h1 hc.1]
        rw [show (Datum.pointer val).bytes = val from rfl, hc, he]
        show (do let data_length ← att_align_datum ty n val; _) = _
        rw [halign, hadd, Nat.zero_add]
        rfl

/-! ## 4. The bytes of a range -/

/-- The pad bytes in front of a value, and the value, if there is one. -/
def padded (ty : ElemType) (offset : Nat) : Option (List UInt8) → List UInt8
  | none => []
  | some e => List.replicate (place ty offset e - offset) 0 ++ e

/-- The bytes between the header of a range and its flags. -/
def boundsBytes (ty : ElemType) (lo hi : Option (List UInt8)) : List UInt8 :=
  padded ty sizeofRangeType lo ++ padded ty (sizeofRangeType + (padded ty sizeofRangeType lo).length) hi

/-- **The bytes of a range.** -/
def image (type_id flags : Nat) (bounds : List UInt8) : List UInt8 :=
  leBytes 4 ((bounds.length + 9) <<< 2) ++ leBytes 4 type_id ++ bounds ++ [UInt8.ofNat flags]

theorem length_image (type_id flags : Nat) (bounds : List UInt8) :
    (image type_id flags bounds).length = bounds.length + 9 := by
  simp only [image, List.length_append, length_leBytes, List.length_singleton]
  omega

/-- The value of a bound, if the flags say that it is there. -/
def boundOf (ty : ElemType) (c : Prop) [Decidable c] (d : Datum) : Option (List UInt8) :=
  if c then some (encode ty d) else none

theorem length_padded (offset : Nat) (e : List UInt8) :
    (padded ty offset (some e)).length = place ty offset e - offset + e.length := by
  rw [padded, List.length_append, List.length_replicate]

theorem boundSize_eq {has : Prop} [Decidable has] {d : Datum} (hd : has → DatumOk ty d) (n : Nat) :
    boundSize ty has n d = .ok (n + (padded ty n (boundOf ty has d)).length) := by
  rw [boundOf, boundSize]
  split_ifs with hc
  · have := le_place ty n (encode ty d)
    rw [datum_compute_size_eq (hd hc), length_padded]
    congr 1
    omega
  · rfl

/-- The bytes come behind those that are written, with zeros behind them. -/
theorem boundWrite_eq {has : Prop} [Decidable has] {d : Datum} (hd : has → DatumOk ty d) (xs : List UInt8) {k : Nat}
    (hk : (padded ty xs.length (boundOf ty has d)).length ≤ k) :
    boundWrite ty has (xs ++ List.replicate k 0) xs.length d =
      .ok (xs ++ padded ty xs.length (boundOf ty has d) ++
        List.replicate (k - (padded ty xs.length (boundOf ty has d)).length) 0,
        (xs ++ padded ty xs.length (boundOf ty has d)).length) := by
  rw [boundOf] at hk ⊢
  rw [boundWrite]
  split_ifs at hk ⊢ with hc
  · have hle := le_place ty xs.length (encode ty d)
    rw [length_padded] at hk
    have hput : poke (xs ++ List.replicate k 0) (xs.length + (place ty xs.length (encode ty d) - xs.length))
        (encode ty d) = _ := poke_blank _ _ _ _ _ hk
    rw [Nat.add_sub_cancel' hle] at hput
    rw [datum_write_eq (hd hc), put, hput, List.length_append, length_padded, padded, List.append_assoc xs, Nat.sub_sub]
    show Except.ok _ = Except.ok _
    rw [← Nat.add_assoc, Nat.add_sub_cancel' hle]
  · rw [padded, List.append_nil, List.length_nil, Nat.sub_zero]

/-- The header of a range, written into new memory. -/
theorem header_written {n : Nat} (h : 8 ≤ n) (len type_id : Nat) :
    setVarsize (List.replicate n 0) len = .ok (leBytes 4 (len <<< 2) ++ List.replicate (n - 4) 0) ∧
    poke (leBytes 4 (len <<< 2) ++ List.replicate (n - 4) 0) 4 (leBytes 4 type_id) =
      some (leBytes 4 (len <<< 2) ++ leBytes 4 type_id ++ List.replicate (n - 8) 0) := by
  have h1 := poke_blank [] (leBytes 4 (len <<< 2)) 0 n 0
    (by rw [length_leBytes]; omega)
  have h2 := poke_blank (leBytes 4 (len <<< 2)) (leBytes 4 type_id) 0 (n - 4) 0
    (by rw [length_leBytes]; omega)
  simp only [length_leBytes, List.nil_append, List.length_nil, Nat.add_zero, List.replicate_zero, List.append_nil,
    Nat.sub_zero] at h1 h2
  refine ⟨by rw [setVarsize, h1]; rfl, ?_⟩
  rw [h2, Nat.sub_sub]

/-- **`range_serialize`** makes the bytes of a range. -/
theorem range_serialize_image {tc : RangeTypeCache} {lower upper : RangeBound} {empty : Bool} {r : List UInt8}
    (h : range_serialize tc lower upper empty = .ok r) :
    ∃ flags, serializeFlags tc lower upper empty = .ok flags ∧
      ((RANGE_HAS_LBOUND flags → DatumOk tc.rngelemtype lower.val) →
        (RANGE_HAS_UBOUND flags → DatumOk tc.rngelemtype upper.val) →
        r = image tc.type_id flags (boundsBytes tc.rngelemtype
          (boundOf tc.rngelemtype (RANGE_HAS_LBOUND flags) lower.val)
          (boundOf tc.rngelemtype (RANGE_HAS_UBOUND flags) upper.val)) ∧ r.length ≤ MaxAllocSize) := by
  rw [range_serialize] at h
  obtain ⟨flags, hflags, h⟩ := Except.bind_eq_ok.mp h
  refine ⟨flags, hflags, fun hlo hhi => ?_⟩
  rw [boundSize_eq hlo] at h
  obtain ⟨n1, h1, h⟩ := Except.bind_eq_ok.mp h
  obtain rfl := Except.ok.inj h1
  rw [boundSize_eq hhi] at h
  obtain ⟨n2, h2, h⟩ := Except.bind_eq_ok.mp h
  obtain rfl := Except.ok.inj h2
  obtain ⟨m0, h0, h⟩ := Except.bind_eq_ok.mp h
  rw [palloc0] at h0
  split_ifs at h0 with hmax
  obtain rfl := Except.ok.inj h0
  rw [boundsBytes]
  generalize hA : padded tc.rngelemtype sizeofRangeType (boundOf tc.rngelemtype (RANGE_HAS_LBOUND flags) lower.val) = A at *
  generalize hB : padded tc.rngelemtype (sizeofRangeType + A.length)
    (boundOf tc.rngelemtype (RANGE_HAS_UBOUND flags) upper.val) = B at *
  obtain ⟨hhdr, hoid⟩ := header_written (n := sizeofRangeType + A.length + B.length + 1) (by rw [sizeofRangeType]; omega)
    (sizeofRangeType + A.length + B.length + 1) tc.type_id
  obtain ⟨m1, h1, h⟩ := Except.bind_eq_ok.mp h
  obtain rfl := Except.ok.inj (h1.symm.trans hhdr)
  rw [hoid] at h
  obtain ⟨m2, h2, h⟩ := Except.bind_eq_ok.mp h
  obtain rfl := Except.ok.inj h2
  generalize hxs : leBytes 4 ((sizeofRangeType + A.length + B.length + 1) <<< 2) ++ leBytes 4 tc.type_id = xs at h
  have hlen : xs.length = sizeofRangeType := by
    rw [← hxs, List.length_append, length_leBytes, length_leBytes]
    rfl
  obtain ⟨p1, h3, h⟩ := Except.bind_eq_ok.mp h
  rw [← hlen] at hA hB h3
  have hroom : xs.length + A.length + B.length + 1 - 8 = A.length + B.length + 1 := by
    rw [hlen, sizeofRangeType]
    omega
  rw [hroom, boundWrite_eq hlo xs (by rw [hA]; omega), hA] at h3
  obtain rfl := Except.ok.inj h3
  obtain ⟨p2, h4, h⟩ := Except.bind_eq_ok.mp h
  have hB' : padded tc.rngelemtype (xs ++ A).length (boundOf tc.rngelemtype (RANGE_HAS_UBOUND flags) upper.val) = B := by
    rw [List.length_append]
    exact hB
  rw [Nat.add_assoc A.length, Nat.add_sub_cancel_left, boundWrite_eq hhi (xs ++ A) (by rw [hB']; omega), hB',
    Nat.add_sub_cancel_left] at h4
  obtain rfl := Except.ok.inj h4
  have hlast : poke (xs ++ A ++ B ++ List.replicate 1 0) ((xs ++ A ++ B).length + 0) [UInt8.ofNat flags] = _ :=
    poke_blank _ _ _ _ _ (by rw [List.length_singleton])
  rw [Nat.add_zero] at hlast
  change access (poke (xs ++ A ++ B ++ List.replicate 1 0) (xs ++ A ++ B).length [UInt8.ofNat flags]) = _ at h
  rw [hlast] at h
  obtain rfl := Except.ok.inj h
  have himage : xs ++ A ++ B ++ [UInt8.ofNat flags] = image tc.type_id flags (A ++ B) := by
    have hsize : sizeofRangeType + A.length + B.length + 1 = (A ++ B).length + 9 := by
      rw [List.length_append, sizeofRangeType]
      omega
    rw [image, ← hsize, hxs, List.append_assoc xs A B]
  have hend : xs ++ A ++ B ++ List.replicate 0 0 ++ [UInt8.ofNat flags] ++
      List.replicate (1 - 0 - [UInt8.ofNat flags].length) 0 = xs ++ A ++ B ++ [UInt8.ofNat flags] := by
    simp
  rw [hend, himage]
  refine ⟨rfl, ?_⟩
  rw [length_image, List.length_append]
  rw [sizeofRangeType] at hmax
  omega

/-- A range type's non-empty range, serialized from bounds of the element type. -/
def IsRange (tc : RangeTypeCache) (r : List UInt8) : Prop :=
  ∃ lower upper flags, serializeFlags tc lower upper false = .ok flags ∧ flags &&& RANGE_EMPTY = 0 ∧
    (RANGE_HAS_LBOUND flags → DatumOk tc.rngelemtype lower.val) ∧
    (RANGE_HAS_UBOUND flags → DatumOk tc.rngelemtype upper.val) ∧ range_serialize tc lower upper false = .ok r

/-- What is in the bytes of a range. -/
structure Parts (tc : RangeTypeCache) (r : List UInt8) where
  flags : Nat
  lo : Option (List UInt8)
  hi : Option (List UInt8)
  flags_lt : flags < 256
  nonempty : flags &&& RANGE_EMPTY = 0
  lo_some : lo.isSome ↔ RANGE_HAS_LBOUND flags
  hi_some : hi.isSome ↔ RANGE_HAS_UBOUND flags
  lo_stored : ∀ e ∈ lo, Stored tc.rngelemtype e
  hi_stored : ∀ e ∈ hi, Stored tc.rngelemtype e
  eq_image : r = image tc.type_id flags (boundsBytes tc.rngelemtype lo hi)
  small : r.length ≤ MaxAllocSize

theorem serializeFlags_lt {tc : RangeTypeCache} {lower upper : RangeBound} {flags : Nat}
    (h : serializeFlags tc lower upper false = .ok flags) : flags < 256 := by
  rw [serializeFlags] at h
  simp only [Bool.false_eq_true, if_false] at h
  split_ifs at h <;> (obtain rfl := Except.ok.inj h; decide)

theorem boundOf_isSome {c : Prop} [Decidable c] {d : Datum} : (boundOf ty c d).isSome ↔ c := by
  rw [boundOf]
  split_ifs with h <;> simp [h]

theorem boundOf_stored {c : Prop} [Decidable c] {d : Datum} (hd : c → DatumOk ty d) :
    ∀ e ∈ boundOf ty c d, Stored ty e := by
  intro e he
  rw [boundOf] at he
  split_ifs at he with hc
  · obtain rfl := Option.some.inj he
    exact stored_encode (hd hc)
  · cases he

theorem IsRange.parts {tc : RangeTypeCache} {r : List UInt8} (h : IsRange tc r) : Nonempty (Parts tc r) := by
  obtain ⟨lower, upper, flags, hflags, hne, hlo, hhi, hr⟩ := h
  obtain ⟨flags', hflags', himage⟩ := range_serialize_image hr
  obtain rfl := Except.ok.inj (hflags.symm.trans hflags')
  obtain ⟨heq, hsmall⟩ := himage hlo hhi
  exact ⟨⟨flags, _, _, serializeFlags_lt hflags, hne, boundOf_isSome, boundOf_isSome, boundOf_stored hlo,
    boundOf_stored hhi, heq, hsmall⟩⟩

/-! ## 5. Reading a range -/

variable {tc : RangeTypeCache} {r : List UInt8}

theorem image_parts (type_id flags : Nat) (bounds : List UInt8) :
    At (image type_id flags bounds) 0 (leBytes 4 ((bounds.length + 9) <<< 2)) ∧
      At (image type_id flags bounds) sizeofRangeType bounds ∧
      At (image type_id flags bounds) (bounds.length + 8) [UInt8.ofNat flags] := by
  obtain ⟨h123, h4⟩ := at_append.mp (at_self : At (image type_id flags bounds) 0 (image type_id flags bounds))
  obtain ⟨h12, h3⟩ := at_append.mp h123
  simp only [List.length_append, length_leBytes, Nat.zero_add] at h3 h4
  refine ⟨(at_append.mp h12).1, h3, ?_⟩
  rwa [Nat.add_comm bounds.length]

theorem Parts.length_eq (P : Parts tc r) : r.length = (boundsBytes tc.rngelemtype P.lo P.hi).length + 9 := by
  have h := length_image tc.type_id P.flags (boundsBytes tc.rngelemtype P.lo P.hi)
  rwa [← P.eq_image] at h

theorem Parts.at_bounds (P : Parts tc r) : At r sizeofRangeType (boundsBytes tc.rngelemtype P.lo P.hi) := by
  have h := (image_parts tc.type_id P.flags (boundsBytes tc.rngelemtype P.lo P.hi)).2.1
  rwa [← P.eq_image] at h

/-- `VARSIZE` is the length: it has room in the header. -/
theorem Parts.varsize (P : Parts tc r) : VARSIZE_4B r 0 = some r.length := by
  have hat := (image_parts tc.type_id P.flags (boundsBytes tc.rngelemtype P.lo P.hi)).1
  rw [← P.eq_image, ← P.length_eq] at hat
  have hsmall := P.small
  rw [MaxAllocSize] at hsmall
  have hread := readLE_of_at hat (k := 4) (by rw [length_leBytes])
  rw [List.take_of_length_le (by rw [length_leBytes]), leNat_leBytes, Nat.shiftLeft_eq, Nat.mod_eq_of_lt (by omega)] at hread
  rw [VARSIZE_4B, hread, Option.map_some, Nat.shiftRight_eq_div_pow, Nat.mul_div_cancel _ (by decide),
    show (0x3FFFFFFF : Nat) = 2 ^ 30 - 1 from rfl, Nat.and_two_pow_sub_one_eq_mod, Nat.mod_eq_of_lt (by omega)]

theorem Parts.last (P : Parts tc r) : r[r.length - 1]? = some (UInt8.ofNat P.flags) := by
  have hat := (image_parts tc.type_id P.flags (boundsBytes tc.rngelemtype P.lo P.hi)).2.2
  rw [← P.eq_image] at hat
  rw [P.length_eq]
  exact hat.head

theorem toNat_flags (P : Parts tc r) : (UInt8.ofNat P.flags).toNat = P.flags := by
  rw [UInt8.toNat_ofNat', Nat.mod_eq_of_lt P.flags_lt]

/-- The bounds, as a reader finds them. -/
def Parts.vals (P : Parts tc r) : Datum × Datum :=
  (P.lo.elim (.byval 0) (datumOf tc.rngelemtype), P.hi.elim (.byval 0) (datumOf tc.rngelemtype))

section Walk

variable (P : Parts tc r) {base : Nat} (hat : At m base (boundsBytes tc.rngelemtype P.lo P.hi))

include hat

/-- The lower bound stands at the base. -/
theorem lower_spec :
    Multirange.walkLower tc.rngelemtype P.flags m base =
        some (base + (padded tc.rngelemtype sizeofRangeType P.lo).length) ∧
      fetchLower tc.rngelemtype P.flags m base =
        .ok (P.vals.1, base + (padded tc.rngelemtype sizeofRangeType P.lo).length) := by
  have h1 := (at_append.mp hat).1
  rw [Multirange.walkLower, fetchLower, Parts.vals]
  cases hlo : P.lo with
  | none =>
      have hno : ¬RANGE_HAS_LBOUND P.flags := by rw [← P.lo_some, hlo]; exact Bool.false_ne_true
      rw [if_neg hno, if_neg hno]
      exact ⟨rfl, rfl⟩
  | some e =>
      have hyes : RANGE_HAS_LBOUND P.flags := by rw [← P.lo_some, hlo]; rfl
      have hpad : padded tc.rngelemtype sizeofRangeType (some e) = e := by
        rw [padded, place, sizeofRangeType, align_eight, ite_self, Nat.sub_self]
        rfl
      rw [hlo, hpad] at h1
      have hs := P.lo_stored e hlo
      rw [if_pos hyes, if_pos hyes, hpad, addlength_of_at h1 hs, fetch_of_at h1 hs]
      exact ⟨rfl, rfl⟩

variable (hbase : att_align_nominal base tc.rngelemtype.typalign = base)

include hbase

/-- The upper bound stands behind it, after pad bytes perhaps. -/
theorem upper_spec :
    Multirange.walkUpper tc.rngelemtype P.flags m (base + (padded tc.rngelemtype sizeofRangeType P.lo).length) =
        some (base + (boundsBytes tc.rngelemtype P.lo P.hi).length) ∧
      fetchUpper tc.rngelemtype P.flags m (base + (padded tc.rngelemtype sizeofRangeType P.lo).length) =
        .ok P.vals.2 := by
  have h2 := (at_append.mp hat).2
  rw [Multirange.walkUpper, fetchUpper, Parts.vals, boundsBytes, List.length_append]
  generalize (padded tc.rngelemtype sizeofRangeType P.lo).length = x at h2 ⊢
  cases hhi : P.hi with
  | none =>
      have hno : ¬RANGE_HAS_UBOUND P.flags := by rw [← P.hi_some, hhi]; exact Bool.false_ne_true
      rw [if_neg hno, if_neg hno]
      exact ⟨rfl, rfl⟩
  | some e =>
      have hyes : RANGE_HAS_UBOUND P.flags := by rw [← P.hi_some, hhi]; rfl
      have hs := P.hi_stored e hhi
      have hplace := place_shift hbase x e
      have hle := le_place tc.rngelemtype (8 + x) e
      have hpad : padded tc.rngelemtype (sizeofRangeType + x) (some e) =
          List.replicate (place tc.rngelemtype (base + x) e - (base + x)) 0 ++ e := by
        rw [padded, sizeofRangeType, hplace]
        congr 2
        omega
      rw [hhi, hpad] at h2
      have halign := align_of_at hs h2
      have he := (at_append.mp h2).2
      have hlast : base + x + (List.replicate (place tc.rngelemtype (base + x) e - (base + x)) (0 : UInt8)).length =
          place tc.rngelemtype (base + x) e := by
        rw [List.length_replicate]
        have := le_place tc.rngelemtype (base + x) e
        omega
      rw [hlast] at he
      rw [if_pos hyes, if_pos hyes, halign, hpad, List.length_append, ← Nat.add_assoc, ← Nat.add_assoc, hlast,
        Option.bind_some, addlength_of_at he hs]
      refine ⟨rfl, ?_⟩
      show fetch_att m (place tc.rngelemtype (base + x) e) _ _ = _
      rw [fetch_of_at he hs]
      rfl

/-- **The bounds are read at any aligned address.** -/
theorem fetchBounds_eq : fetchBounds tc.rngelemtype P.flags m base = .ok P.vals := by
  rw [fetchBounds, (lower_spec P hat).2]
  show (do let ubound ← fetchUpper _ _ _ _; _) = _
  rw [(upper_spec P hat hbase).2]
  rfl

end Walk

/-- **`range_deserialize`** of a non-empty range. -/
theorem range_deserialize_eq (P : Parts tc r) : range_deserialize tc r = .ok (emitBounds P.flags P.vals, false) := by
  have hflags : va_header r (r.length - 1) = some P.flags := by rw [va_header, P.last, Option.map_some, toNat_flags P]
  rw [range_deserialize, P.varsize]
  show (do let flags ← access (va_header r (r.length - 1)); _) = _
  rw [hflags]
  show (do let vals ← fetchBounds _ _ _ _; _) = _
  rw [fetchBounds_eq P P.at_bounds (align_eight _)]
  show Except.ok _ = Except.ok _
  rw [P.nonempty]
  rfl

end Pgvec.Range
