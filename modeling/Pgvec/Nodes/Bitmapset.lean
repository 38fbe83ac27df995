/-
  File:      Pgvec/Nodes/Bitmapset.lean
  Subject:   BITMAPSETS (`src/backend/nodes/bitmapset.c`): the planner's sets of small integers.

  A `Bitmapset *` is NULL or an array of words; `nwords` is the length of the array. An operation that recycles
  an input gives its value back: it reads word `i` of both inputs before it writes word `i`, so it is the same
  whether or not the two are one array. `int` is `Int`, with the wrapping that the build asks for (`-fwrapv`)
  where a value can leave its range.
-/
import Mathlib

namespace Pgvec.Bms

/-- `bitmapword`. -/
abbrev bitmapword := BitVec 64

/-- `Bitmapset *`. -/
abbrev Bitmapset := Option (List bitmapword)

/-- `BITS_PER_BITMAPWORD`. -/
def BITS_PER_BITMAPWORD : Nat := 64

def WORDNUM (x : Int) : Int := x.tdiv BITS_PER_BITMAPWORD

def BITNUM (x : Int) : Int := x.tmod BITS_PER_BITMAPWORD

/-- `INT_MAX`. -/
def INT_MAX : Int := 2 ^ 31 - 1

/-- The value of an `int` after an operation that may leave the range. -/
def int32 (x : Int) : Int := x.bmod (2 ^ 32)

/-- `RIGHTMOST_ONE`. -/
def RIGHTMOST_ONE (x : bitmapword) : bitmapword := x &&& -x

/-- `HAS_MULTIPLE_ONES`. -/
def HAS_MULTIPLE_ONES (x : bitmapword) : Bool := RIGHTMOST_ONE x != x

/-- `bmw_popcount`, which is `__builtin_popcountl`. -/
def bmw_popcount (w : bitmapword) : Nat := w.cpop.toNat

/-- `bmw_rightmost_one_pos`, which is `__builtin_ctzl`. -/
def bmw_rightmost_one_pos (w : bitmapword) : Nat := w.ctz.toNat

/-- `bmw_leftmost_one_pos`, which is `63 - __builtin_clzl`. -/
def bmw_leftmost_one_pos (w : bitmapword) : Nat := 63 - w.clz.toNat

def negative_member : String := "negative bitmapset member not allowed"

/-- `words[i]`. -/
def wordAt (words : List bitmapword) (i : Nat) : bitmapword := words.getD i 0

/-! ## 1. The loops -/

/-- `result->words[i] = f(result->words[i], other->words[i])`, while both have a word `i`. -/
def wordLoop (f : bitmapword → bitmapword → bitmapword) : List bitmapword → List bitmapword → List bitmapword
  | r :: result, o :: other => f r o :: wordLoop f result other
  | result, [] => result
  | [], _ :: _ => []

/-- `if (words[i] != 0) lastnonzero = i`, over the words from `i` on. -/
def lastnonzeroLoop : List bitmapword → Nat → Int → Int
  | [], _, lastnonzero => lastnonzero
  | w :: words, i, lastnonzero => lastnonzeroLoop words (i + 1) (if w ≠ 0 then i else lastnonzero)

def lastnonzero (words : List bitmapword) : Int := lastnonzeroLoop words 0 (-1)

/-- `nwords = n`. -/
def setNwords (words : List bitmapword) (n : Int) : List bitmapword := words.take n.toNat

/-- `repalloc` to `n` words, with the enlarged portion zeroed. -/
def enlarge (words : List bitmapword) (n : Nat) : List bitmapword :=
  words ++ List.replicate (n - words.length) 0

/-- Words enough for word `wordnum`: new ones for NULL, else an array that is enlarged if necessary. -/
def enoughWords : Bitmapset → Nat → List bitmapword
  | none, wordnum => List.replicate (wordnum + 1) 0
  | some a, wordnum => if wordnum ≥ a.length then enlarge a (wordnum + 1) else a

/-! ## 2. Building sets -/

/-- `bms_copy`. -/
def bms_copy (a : Bitmapset) : Bitmapset := a

/-- `bms_make_singleton`. -/
def bms_make_singleton (x : Int) : Except String Bitmapset :=
  if x < 0 then .error negative_member
  else
    let wordnum := (WORDNUM x).toNat
    let bitnum := (BITNUM x).toNat
    .ok (some ((List.replicate (wordnum + 1) 0).set wordnum (1#64 <<< bitnum)))

/-- `bms_union`. -/
def bms_union : Bitmapset → Bitmapset → Bitmapset
  | none, b => bms_copy b
  | some a, none => bms_copy (some a)
  | some a, some b =>
      if a.length ≤ b.length then some (wordLoop (· ||| ·) b a) else some (wordLoop (· ||| ·) a b)

/-- The end of an intersection: NULL for no member, else without trailing zero words. -/
def trimmed (words : List bitmapword) (lastnonzero : Int) : Bitmapset :=
  if lastnonzero = -1 then none else some (setNwords words (lastnonzero + 1))

/-- `bms_intersect`. -/
def bms_intersect : Bitmapset → Bitmapset → Bitmapset
  | some a, some b =>
      let result := if a.length ≤ b.length then wordLoop (· &&& ·) a b else wordLoop (· &&& ·) b a
      trimmed result (lastnonzero result)
  | _, _ => none

/-- `words[i] &= ~other[i]`. -/
def andNot (w other : bitmapword) : bitmapword := w &&& ~~~other

/-- The loop of `bms_nonempty_difference`. -/
def nonemptyDifferenceLoop : List bitmapword → List bitmapword → Bool
  | a :: as, b :: bs => if a &&& ~~~b ≠ 0 then true else nonemptyDifferenceLoop as bs
  | _, _ => false

/-- `bms_nonempty_difference`. -/
def bms_nonempty_difference : Bitmapset → Bitmapset → Bool
  | none, _ => false
  | some _, none => true
  | some a, some b => if a.length > b.length then true else nonemptyDifferenceLoop a b

/-- `bms_difference`. -/
def bms_difference (a b : Bitmapset) : Bitmapset :=
  match a, b with
  | none, _ => none
  | some a, none => bms_copy (some a)
  | some a, some b =>
      if !bms_nonempty_difference (some a) (some b) then none
      else
        let result := wordLoop andNot a b
        if a.length > b.length then some result
        -- the result is not empty, so that nothing asks whether `lastnonzero` is still -1
        else some (setNwords result (lastnonzero result + 1))

/-- `bms_add_member`. -/
def bms_add_member (a : Bitmapset) (x : Int) : Except String Bitmapset :=
  if x < 0 then .error negative_member
  else
    match a with
    | none => bms_make_singleton x
    | some a =>
        let wordnum := (WORDNUM x).toNat
        let bitnum := (BITNUM x).toNat
        let a := enoughWords (some a) wordnum
        .ok (some (a.modify wordnum (· ||| 1#64 <<< bitnum)))

/-- `for (int i = wordnum - 1; i >= 0; i--)` of `bms_del_member`. -/
def delTrimLoop (words : List bitmapword) : Nat → Bitmapset
  | 0 => none
  | i + 1 => if wordAt words i ≠ 0 then some (setNwords words (i + 1)) else delTrimLoop words i

/-- `bms_del_member`. -/
def bms_del_member (a : Bitmapset) (x : Int) : Except String Bitmapset :=
  if x < 0 then .error negative_member
  else
    match a with
    | none => .ok none
    | some a =>
        let wordnum := (WORDNUM x).toNat
        let bitnum := (BITNUM x).toNat
        if wordnum ≥ a.length then .ok (some a)
        else
          let a := a.modify wordnum (· &&& ~~~(1#64 <<< bitnum))
          if wordAt a wordnum = 0 ∧ wordnum = a.length - 1 then .ok (delTrimLoop a wordnum) else .ok (some a)

/-- `bms_add_members`. -/
def bms_add_members : Bitmapset → Bitmapset → Bitmapset
  | none, b => bms_copy b
  | some a, none => some a
  | some a, some b =>
      if a.length < b.length then some (wordLoop (· ||| ·) b a) else some (wordLoop (· ||| ·) a b)

/-- `bms_replace_members`: the words of `b` are written over those of `a`, which is made long enough first. -/
def bms_replace_members : Bitmapset → Bitmapset → Bitmapset
  | none, b => bms_copy b
  | some _, none => none
  | some a, some b =>
      let a := if a.length < b.length then enlarge a b.length else a
      some (setNwords (wordLoop (fun _ w => w) a b) b.length)

/-- `while (wordnum < uwordnum) a->words[wordnum++] = ~(bitmapword) 0`, `n` words. -/
def fillLoop : Nat → Nat → List bitmapword → List bitmapword
  | 0, _, words => words
  | n + 1, wordnum, words => fillLoop n (wordnum + 1) (words.set wordnum (BitVec.allOnes 64))

/-- `bms_add_range`. -/
def bms_add_range (a : Bitmapset) (lower upper : Int) : Except String Bitmapset :=
  if upper < lower then .ok a
  else if lower < 0 then .error negative_member
  else
    let uwordnum := (WORDNUM upper).toNat
    let a := enoughWords a uwordnum
    let lwordnum := (WORDNUM lower).toNat
    let lbitnum := (BITNUM lower).toNat
    let ushiftbits := BITS_PER_BITMAPWORD - ((BITNUM upper).toNat + 1)
    if lwordnum = uwordnum then
      .ok (some (a.modify lwordnum
        (· ||| (~~~((1#64 <<< lbitnum) - 1#64) &&& (BitVec.allOnes 64 >>> ushiftbits)))))
    else
      let a := a.modify lwordnum (· ||| ~~~((1#64 <<< lbitnum) - 1#64))
      let a := fillLoop (uwordnum - (lwordnum + 1)) (lwordnum + 1) a
      .ok (some (a.modify uwordnum (· ||| BitVec.allOnes 64 >>> ushiftbits)))

/-- `bms_int_members`. -/
def bms_int_members : Bitmapset → Bitmapset → Bitmapset
  | some a, some b =>
      let shortlen := min a.length b.length
      let result := wordLoop (· &&& ·) a b
      trimmed result (lastnonzero (result.take shortlen))
  | _, _ => none

/-- `bms_del_members`. -/
def bms_del_members : Bitmapset → Bitmapset → Bitmapset
  | none, _ => none
  | some a, none => some a
  | some a, some b =>
      let result := wordLoop andNot a b
      if a.length > b.length then some result else trimmed result (lastnonzero result)

/-- `bms_join`. -/
def bms_join : Bitmapset → Bitmapset → Bitmapset
  | none, b => b
  | some a, none => some a
  | some a, some b =>
      if a.length < b.length then some (wordLoop (· ||| ·) b a) else some (wordLoop (· ||| ·) a b)

/-! ## 3. Asking about sets -/

/-- The loop of `bms_equal`. -/
def equalLoop : List bitmapword → List bitmapword → Bool
  | a :: as, b :: bs => if a ≠ b then false else equalLoop as bs
  | _, _ => true

/-- `bms_equal`. -/
def bms_equal : Bitmapset → Bitmapset → Bool
  | none, none => true
  | none, some _ => false
  | some _, none => false
  | some a, some b => if a.length ≠ b.length then false else equalLoop a b

/-- The loop of `bms_compare`, from word `i - 1` down. -/
def compareLoop (a b : List bitmapword) : Nat → Int
  | 0 => 0
  | i + 1 =>
      let aw := wordAt a i
      let bw := wordAt b i
      if aw ≠ bw then if aw > bw then 1 else -1 else compareLoop a b i

/-- `bms_compare`. -/
def bms_compare : Bitmapset → Bitmapset → Int
  | none, none => 0
  | none, some _ => -1
  | some _, none => 1
  | some a, some b =>
      if a.length ≠ b.length then if a.length > b.length then 1 else -1 else compareLoop a b a.length

/-- The loop of `bms_is_subset`. -/
def isSubsetLoop : List bitmapword → List bitmapword → Bool
  | a :: as, b :: bs => if a &&& ~~~b ≠ 0 then false else isSubsetLoop as bs
  | _, _ => true

/-- `bms_is_subset`. -/
def bms_is_subset : Bitmapset → Bitmapset → Bool
  | none, _ => true
  | some _, none => false
  | some a, some b => if a.length > b.length then false else isSubsetLoop a b

inductive BMS_Comparison where
  | BMS_EQUAL
  | BMS_SUBSET1
  | BMS_SUBSET2
  | BMS_DIFFERENT
  deriving DecidableEq

open BMS_Comparison

/-- The loop of `bms_subset_compare`: `none` where it returns `BMS_DIFFERENT`. -/
def subsetCompareLoop : List bitmapword → List bitmapword → BMS_Comparison → Option BMS_Comparison
  | aword :: as, bword :: bs, result =>
      if aword &&& ~~~bword ≠ 0 ∧ result = BMS_SUBSET1 then none
      else
        let result := if aword &&& ~~~bword ≠ 0 then BMS_SUBSET2 else result
        if bword &&& ~~~aword ≠ 0 ∧ result = BMS_SUBSET2 then none
        else subsetCompareLoop as bs (if bword &&& ~~~aword ≠ 0 then BMS_SUBSET1 else result)
  | _, _, result => some result

/-- `bms_subset_compare`. -/
def bms_subset_compare : Bitmapset → Bitmapset → BMS_Comparison
  | none, none => BMS_EQUAL
  | none, some _ => BMS_SUBSET1
  | some _, none => BMS_SUBSET2
  | some a, some b =>
      match subsetCompareLoop a b BMS_EQUAL with
      | none => BMS_DIFFERENT
      | some result =>
          if a.length > b.length then if result = BMS_SUBSET1 then BMS_DIFFERENT else BMS_SUBSET2
          else if a.length < b.length then if result = BMS_SUBSET2 then BMS_DIFFERENT else BMS_SUBSET1
          else result

/-- `bms_is_member`. -/
def bms_is_member (x : Int) (a : Bitmapset) : Except String Bool :=
  if x < 0 then .error negative_member
  else
    match a with
    | none => .ok false
    | some a =>
        let wordnum := (WORDNUM x).toNat
        let bitnum := (BITNUM x).toNat
        if wordnum ≥ a.length then .ok false else .ok (wordAt a wordnum &&& (1#64 <<< bitnum) != 0)

/-- `for (i = 0; i < wordnum; i++)` of `bms_member_index`. -/
def popcountLoop : List bitmapword → Nat → Nat
  | [], result => result
  | w :: words, result => popcountLoop words (if w ≠ 0 then result + bmw_popcount w else result)

/-- `bms_member_index`. -/
def bms_member_index (a : Bitmapset) (x : Int) : Except String Int := do
  if !(← bms_is_member x a) then return -1
  let words := a.getD []
  let wordnum := (WORDNUM x).toNat
  let bitnum := (BITNUM x).toNat
  let result := popcountLoop (words.take wordnum) 0
  let mask := (1#64 <<< bitnum) - 1#64
  return int32 (result + bmw_popcount (wordAt words wordnum &&& mask) : Nat)

/-- The loop of `bms_overlap`. -/
def overlapLoop : List bitmapword → List bitmapword → Bool
  | a :: as, b :: bs => if a &&& b ≠ 0 then true else overlapLoop as bs
  | _, _ => false

/-- `bms_overlap`. -/
def bms_overlap : Bitmapset → Bitmapset → Bool
  | some a, some b => overlapLoop a b
  | _, _ => false

inductive BMS_Membership where
  | BMS_EMPTY_SET
  | BMS_SINGLETON
  | BMS_MULTIPLE
  deriving DecidableEq

open BMS_Membership

/-- The loop of `bms_membership`. -/
def membershipLoop : List bitmapword → BMS_Membership → BMS_Membership
  | [], result => result
  | w :: words, result =>
      if w ≠ 0 then
        if result ≠ BMS_EMPTY_SET ∨ HAS_MULTIPLE_ONES w then BMS_MULTIPLE else membershipLoop words BMS_SINGLETON
      else membershipLoop words result

/-- `bms_membership`. -/
def bms_membership : Bitmapset → BMS_Membership
  | none => BMS_EMPTY_SET
  | some a => membershipLoop a BMS_EMPTY_SET

/-- The loop of `bms_next_member`, over the words from `wordnum` on. -/
def nextLoop : List bitmapword → Nat → bitmapword → Int
  | [], _, _ => -2
  | w :: words, wordnum, mask =>
      let w := w &&& mask
      if w ≠ 0 then int32 (wordnum * BITS_PER_BITMAPWORD + bmw_rightmost_one_pos w : Nat)
      else nextLoop words (wordnum + 1) (BitVec.allOnes 64)

/-- `bms_next_member`: `none` where it reads a word that is not in the array. -/
def bms_next_member (a : Bitmapset) (prevbit : Int) : Option Int :=
  match a with
  | none => some (-2)
  | some a =>
      let prevbit := int32 (prevbit + 1)
      let mask := BitVec.allOnes 64 <<< (BITNUM prevbit).toNat
      let wordnum := WORDNUM prevbit
      if wordnum < 0 then none else some (nextLoop (a.drop wordnum.toNat) wordnum.toNat mask)

/-- The loop of `bms_prev_member`, from word `wordnum - 1` down. -/
def prevLoop (words : List bitmapword) : Nat → bitmapword → Int
  | 0, _ => -2
  | wordnum + 1, mask =>
      let w := wordAt words wordnum &&& mask
      if w ≠ 0 then int32 (wordnum * BITS_PER_BITMAPWORD + bmw_leftmost_one_pos w : Nat)
      else prevLoop words wordnum (BitVec.allOnes 64)

/-- `bms_prev_member`: `none` where it reads a word that is not in the array. -/
def bms_prev_member (a : Bitmapset) (prevbit : Int) : Option Int :=
  match a with
  | none => some (-2)
  | some a =>
      if prevbit = 0 then some (-2)
      else
        let prevbit := if prevbit = -1 then int32 (int32 (a.length * BITS_PER_BITMAPWORD) - 1) else int32 (prevbit - 1)
        let ushiftbits := BITS_PER_BITMAPWORD - (BITNUM prevbit + 1).toNat
        let mask := BitVec.allOnes 64 >>> ushiftbits
        let wordnum := WORDNUM prevbit
        if wordnum ≥ a.length then none else some (prevLoop a (wordnum + 1).toNat mask)

end Pgvec.Bms
