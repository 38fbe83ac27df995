/-
  File:      Pgvec/Common/Simplehash.lean
  Subject:   THE HASH TABLE of `src/include/lib/simplehash.h`.

  The header is a template: the key type, `SH_HASH_KEY`, and whether the elements store their hash are its
  parameters; `SH_EQUAL` is equality of keys. An element has its status, the key, the stored hash, and the
  data its user keeps beside them. Memory is an array of `size` elements; an empty element still has the
  bytes of the one that was there.

  The fill factors are `double`s in the source. Sizes are powers of two, so that `members / size` is exact
  and `size * 0.9` is never near an integer; the comparisons and the truncation are the ones below.

  Every loop has a bound: the number of buckets, after which a search is back at its first bucket. `none` is
  a loop that has not ended by then. `Lib/RobinHood.lean` has what the displacement of elements obeys.

  * `SH_GROW`, `SH_INSERT_HASH_INTERNAL`, `SH_LOOKUP_HASH_INTERNAL`, `SH_DELETE`, `SH_DELETE_ITEM`;
  * `SH_START_ITERATE`, `SH_START_ITERATE_AT`, `SH_ITERATE`.
-/
import Mathlib

namespace Pgvec.Simplehash

/-! ## 1. The table -/

inductive SH_STATUS where
  | EMPTY
  | IN_USE
  deriving DecidableEq, Repr

/-- `SH_ELEMENT_TYPE`. -/
structure Element (κ δ : Type) where
  status : SH_STATUS
  key : κ
  hash : Nat
  data : δ
  deriving Repr

/-- What the template is instantiated with. -/
structure Template (κ : Type) where
  SH_HASH_KEY : κ → Nat
  SH_STORE_HASH : Bool

/-- `SH_TYPE`. -/
structure SH_TYPE (κ δ : Type) where
  size : Nat
  members : Nat
  sizemask : Nat
  grow_threshold : Nat
  data : Nat → Element κ δ

/-- `SH_ITERATOR`; its `end` is `last` here. -/
structure SH_ITERATOR where
  cur : Nat
  last : Nat
  done : Bool
  deriving DecidableEq, Repr

def SH_MAX_SIZE : Nat := 2 ^ 32

def SH_GROW_MAX_DIB : Nat := 25

def SH_GROW_MAX_MOVE : Nat := 150

/-! ## 2. Sizes and buckets -/

def pg_nextpower2_64 (num : Nat) : Nat :=
  if num &&& (num - 1) = 0 then num else 2 ^ (num.log2 + 1)

def SH_COMPUTE_SIZE (newsize : Nat) : Nat := pg_nextpower2_64 (max newsize 2)

variable {κ δ : Type}

def SH_UPDATE_PARAMETERS (tb : SH_TYPE κ δ) (newsize : Nat) : SH_TYPE κ δ :=
  let size := SH_COMPUTE_SIZE newsize
  { tb with
    size := size
    sizemask := (size - 1) % 2 ^ 32
    grow_threshold := if size = SH_MAX_SIZE then size * 98 / 100 else size * 9 / 10 }

def SH_INITIAL_BUCKET (tb : SH_TYPE κ δ) (hash : Nat) : Nat := hash &&& tb.sizemask

def SH_NEXT (tb : SH_TYPE κ δ) (curelem : Nat) : Nat := (curelem + 1) % 2 ^ 32 &&& tb.sizemask

def SH_PREV (tb : SH_TYPE κ δ) (curelem : Nat) : Nat := (curelem + (2 ^ 32 - 1)) % 2 ^ 32 &&& tb.sizemask

def SH_DISTANCE_FROM_OPTIMAL (tb : SH_TYPE κ δ) (optimal bucket : Nat) : Nat :=
  if optimal ≤ bucket then bucket - optimal else (tb.size + bucket - optimal) % 2 ^ 32

/-- `(double) tb->members / tb->size >= SH_GROW_MIN_FILLFACTOR`. -/
def fillsMin (tb : SH_TYPE κ δ) : Bool := decide (tb.size ≤ 10 * tb.members)

/-- `memcpy` into a bucket. -/
def setElem (data : Nat → Element κ δ) (b : Nat) (e : Element κ δ) : Nat → Element κ δ := Function.update data b e

section Template

variable (p : Template κ)

def SH_ENTRY_HASH (entry : Element κ δ) : Nat := if p.SH_STORE_HASH then entry.hash else p.SH_HASH_KEY entry.key

/-- `SH_COMPARE_KEYS`. -/
def SH_COMPARE_KEYS [DecidableEq κ] (ahash : Nat) (akey : κ) (b : Element κ δ) : Bool :=
  if p.SH_STORE_HASH then decide (ahash = b.hash) && decide (b.key = akey) else decide (b.key = akey)

/-- The optimal bucket of an element. -/
def optimalOf (tb : SH_TYPE κ δ) (entry : Element κ δ) : Nat := SH_INITIAL_BUCKET tb (SH_ENTRY_HASH p entry)

end Template

/-! ## 3. Creating and growing -/

/-- `SH_CREATE`: `nelements / SH_FILLFACTOR` buckets, all of them zero. -/
def SH_CREATE [Inhabited κ] [Inhabited δ] (nelements : Nat) : SH_TYPE κ δ :=
  let size := SH_COMPUTE_SIZE (min SH_MAX_SIZE (nelements * 10 / 9))
  SH_UPDATE_PARAMETERS ⟨0, 0, 0, 0, fun _ => ⟨.EMPTY, default, 0, default⟩⟩ size

section Grow

variable (p : Template κ)

/-- The first loop of `SH_GROW`: the first bucket that is empty or has an element at its optimal position. -/
def growStart (tb : SH_TYPE κ δ) (olddata : Nat → Element κ δ) : List Nat → Nat
  | [] => 0
  | i :: is =>
      if (olddata i).status ≠ .IN_USE then i
      else if optimalOf p tb (olddata i) = i then i
      else growStart tb olddata is

/-- Find an empty bucket to put data into. -/
def growProbe (tb : SH_TYPE κ δ) : Nat → Nat → Option Nat
  | 0, _ => none
  | fuel + 1, curelem =>
      if (tb.data curelem).status = .EMPTY then some curelem else growProbe tb fuel (SH_NEXT tb curelem)

/-- The second loop, with so many buckets of the old table left. -/
def growCopy (olddata : Nat → Element κ δ) (oldsize : Nat) : Nat → Nat → SH_TYPE κ δ → Option (SH_TYPE κ δ)
  | 0, _, tb => some tb
  | left + 1, copyelem, tb =>
      let oldentry := olddata copyelem
      let next := if oldsize ≤ copyelem + 1 then 0 else copyelem + 1
      if oldentry.status = .IN_USE then
        match growProbe tb tb.size (optimalOf p tb oldentry) with
        | none => none
        | some curelem => growCopy olddata oldsize left next { tb with data := setElem tb.data curelem oldentry }
      else growCopy olddata oldsize left next tb

/-- **`SH_GROW`.** -/
def SH_GROW [Inhabited κ] [Inhabited δ] (tb : SH_TYPE κ δ) (newsize : Nat) : Option (SH_TYPE κ δ) :=
  let oldsize := tb.size
  let olddata := tb.data
  let newsize := SH_COMPUTE_SIZE newsize
  let tb := SH_UPDATE_PARAMETERS { tb with data := fun _ => ⟨.EMPTY, default, 0, default⟩ } newsize
  let startelem := growStart p tb olddata (List.range oldsize)
  growCopy p olddata oldsize oldsize startelem tb

end Grow

/-! ## 4. Inserting -/

section Insert

variable (p : Template κ)

/-- What the search of `SH_INSERT_HASH_INTERNAL` comes to: a table, the bucket of the entry and `*found`; or
    the `goto restart`. -/
inductive InsertStep (κ δ : Type) where
  | done (tb : SH_TYPE κ δ) (entry : Nat) (found : Bool)
  | restart

/-- Find the next empty bucket; `inl` is the `goto restart`. -/
def emptyLoop (tb : SH_TYPE κ δ) : Nat → Nat → Nat → Option (Unit ⊕ Nat)
  | 0, _, _ => none
  | fuel + 1, emptyelem, emptydist =>
      let emptyelem := SH_NEXT tb emptyelem
      if (tb.data emptyelem).status = .EMPTY then some (.inr emptyelem)
      else if SH_GROW_MAX_MOVE < emptydist + 1 ∧ fillsMin tb = true then some (.inl ())
      else emptyLoop tb fuel emptyelem (emptydist + 1)

/-- Shift forward, starting at the last occupied element; `lastentry` is at `moveelem`. -/
def moveLoop (tb : SH_TYPE κ δ) (curelem : Nat) : Nat → (Nat → Element κ δ) → Nat → Option (Nat → Element κ δ)
  | 0, _, _ => none
  | fuel + 1, data, moveelem =>
      if moveelem = curelem then some data
      else moveLoop tb curelem fuel (setElem data moveelem (data (SH_PREV tb moveelem))) (SH_PREV tb moveelem)

/-- Fill a bucket with the key. -/
def fillEntry (tb : SH_TYPE κ δ) (data : Nat → Element κ δ) (curelem : Nat) (key : κ) (hash : Nat) :
    SH_TYPE κ δ :=
  let entry := data curelem
  { tb with
    members := tb.members + 1
    data := setElem data curelem
      { entry with key := key, hash := if p.SH_STORE_HASH then hash else entry.hash, status := .IN_USE } }

/-- The search for the key, or for the place of a new element. -/
def insertLoop [DecidableEq κ] (tb : SH_TYPE κ δ) (key : κ) (hash : Nat) :
    Nat → Nat → Nat → Option (InsertStep κ δ)
  | 0, _, _ => none
  | fuel + 1, curelem, insertdist =>
      let entry := tb.data curelem
      if entry.status = .EMPTY then some (.done (fillEntry p tb tb.data curelem key hash) curelem false)
      else if SH_COMPARE_KEYS p hash key entry = true then some (.done tb curelem true)
      else if SH_DISTANCE_FROM_OPTIMAL tb (optimalOf p tb entry) curelem < insertdist then
        match emptyLoop tb tb.size curelem 0 with
        | none => none
        | some (.inl ()) => some .restart
        | some (.inr emptyelem) =>
            match moveLoop tb curelem tb.size tb.data emptyelem with
            | none => none
            | some data => some (.done (fillEntry p tb data curelem key hash) curelem false)
      else if SH_GROW_MAX_DIB < insertdist + 1 ∧ fillsMin tb = true then some .restart
      else insertLoop tb key hash fuel (SH_NEXT tb curelem) (insertdist + 1)

variable [Inhabited κ] [Inhabited δ] [DecidableEq κ]

/-- **`SH_INSERT_HASH_INTERNAL`** from the label `restart` on, with so many restarts left. An error leaves the
    table as it has been made by then. -/
def insertRestart (key : κ) (hash : Nat) :
    Nat → SH_TYPE κ δ → Option (Except (String × SH_TYPE κ δ) (SH_TYPE κ δ × Nat × Bool))
  | 0, _ => none
  | fuel + 1, tb =>
      let search := fun (tb : SH_TYPE κ δ) =>
        match insertLoop p tb key hash tb.size (SH_INITIAL_BUCKET tb hash) 0 with
        | none => none
        | some (.done tb entry found) => some (.ok (tb, entry, found))
        | some .restart => insertRestart key hash fuel { tb with grow_threshold := 0 }
      if tb.grow_threshold ≤ tb.members then
        if tb.size = SH_MAX_SIZE then some (.error ("hash table size exceeded", tb))
        else
          match SH_GROW p tb (tb.size * 2) with
          | none => none
          | some tb => search tb
      else search tb

/-- `SH_INSERT_HASH`. Every restart doubles the size, so there are fewer than 34 of them. -/
def SH_INSERT_HASH (tb : SH_TYPE κ δ) (key : κ) (hash : Nat) :
    Option (Except (String × SH_TYPE κ δ) (SH_TYPE κ δ × Nat × Bool)) :=
  insertRestart p key hash 34 tb

/-- `SH_INSERT`. -/
def SH_INSERT (tb : SH_TYPE κ δ) (key : κ) : Option (Except (String × SH_TYPE κ δ) (SH_TYPE κ δ × Nat × Bool)) :=
  SH_INSERT_HASH p tb key (p.SH_HASH_KEY key)

end Insert

/-! ## 5. Looking up and deleting -/

section Delete

variable (p : Template κ) [DecidableEq κ]

def lookupLoop (tb : SH_TYPE κ δ) (key : κ) (hash : Nat) : Nat → Nat → Option (Option Nat)
  | 0, _ => none
  | fuel + 1, curelem =>
      let entry := tb.data curelem
      if entry.status = .EMPTY then some none
      else if SH_COMPARE_KEYS p hash key entry = true then some (some curelem)
      else lookupLoop tb key hash fuel (SH_NEXT tb curelem)

/-- **`SH_LOOKUP_HASH`**: the bucket of the entry, or `NULL`. -/
def SH_LOOKUP_HASH (tb : SH_TYPE κ δ) (key : κ) (hash : Nat) : Option (Option Nat) :=
  lookupLoop p tb key hash tb.size (SH_INITIAL_BUCKET tb hash)

/-- `SH_LOOKUP`. -/
def SH_LOOKUP (tb : SH_TYPE κ δ) (key : κ) : Option (Option Nat) :=
  SH_LOOKUP_HASH p tb key (p.SH_HASH_KEY key)

omit [DecidableEq κ] in
/-- The backward shift of both delete functions; `lastentry` is at `curelem`. -/
def shiftLoop (tb : SH_TYPE κ δ) : Nat → (Nat → Element κ δ) → Nat → Option (Nat → Element κ δ)
  | 0, _, _ => none
  | fuel + 1, data, lastelem =>
      let curelem := SH_NEXT tb lastelem
      let curentry := data curelem
      let cleared := setElem data lastelem { data lastelem with status := .EMPTY }
      if curentry.status ≠ .IN_USE then some cleared
      else if optimalOf p tb curentry = curelem then some cleared
      else shiftLoop tb fuel (setElem data lastelem curentry) curelem

omit [DecidableEq κ] in
/-- **`SH_DELETE_ITEM`**, for the entry in a bucket. -/
def SH_DELETE_ITEM (tb : SH_TYPE κ δ) (entry : Nat) : Option (SH_TYPE κ δ) :=
  match shiftLoop p tb tb.size tb.data entry with
  | none => none
  | some data => some { tb with members := tb.members - 1, data := data }

def deleteLoop (tb : SH_TYPE κ δ) (key : κ) (hash : Nat) : Nat → Nat → Option (SH_TYPE κ δ × Bool)
  | 0, _ => none
  | fuel + 1, curelem =>
      let entry := tb.data curelem
      if entry.status = .EMPTY then some (tb, false)
      else if entry.status = .IN_USE ∧ SH_COMPARE_KEYS p hash key entry = true then
        match shiftLoop p tb tb.size tb.data curelem with
        | none => none
        | some data => some ({ tb with members := tb.members - 1, data := data }, true)
      else deleteLoop tb key hash fuel (SH_NEXT tb curelem)

/-- **`SH_DELETE`**: the table, and whether the key was present. -/
def SH_DELETE (tb : SH_TYPE κ δ) (key : κ) : Option (SH_TYPE κ δ × Bool) :=
  deleteLoop p tb key (p.SH_HASH_KEY key) tb.size (SH_INITIAL_BUCKET tb (p.SH_HASH_KEY key))

end Delete

/-! ## 6. Iterating -/

/-- **`SH_START_ITERATE`**: begin at the first element that is not in use; `PG_UINT64_MAX` when there is none. -/
def SH_START_ITERATE (tb : SH_TYPE κ δ) : SH_ITERATOR :=
  let startelem := ((List.range tb.size).find? fun i => (tb.data i).status ≠ .IN_USE).getD (2 ^ 64 - 1)
  ⟨startelem % 2 ^ 32, startelem % 2 ^ 32, false⟩

/-- `SH_START_ITERATE_AT`. -/
def SH_START_ITERATE_AT (tb : SH_TYPE κ δ) (start : Nat) : SH_ITERATOR :=
  ⟨start &&& tb.sizemask, start &&& tb.sizemask, false⟩

def iterateLoop (tb : SH_TYPE κ δ) : Nat → SH_ITERATOR → Option (Option Nat × SH_ITERATOR)
  | 0, _ => none
  | fuel + 1, iter =>
      if iter.done then some (none, iter)
      else
        let elem := iter.cur
        let cur := SH_PREV tb iter.cur
        let iter := { iter with cur := cur, done := decide (cur &&& tb.sizemask = iter.last &&& tb.sizemask) }
        if (tb.data elem).status = .IN_USE then some (some elem, iter) else iterateLoop tb fuel iter

/-- **`SH_ITERATE`**: the bucket of the next entry, or `NULL`. -/
def SH_ITERATE (tb : SH_TYPE κ δ) (iter : SH_ITERATOR) : Option (Option Nat × SH_ITERATOR) :=
  iterateLoop tb (tb.size + 1) iter

end Pgvec.Simplehash
