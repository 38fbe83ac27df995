/-
  File:      Pgvec/Nodes/TidBitmap.lean
  Subject:   TID BITMAPS (`src/backend/nodes/tidbitmap.c`): exact pages and lossy chunks in one hash table.

  The hash table (`src/include/lib/simplehash.h`) is a parameter, `PageTable`: what is stored is read back,
  and a scan meets every entry once, also when entries are deleted as they are met, as `SH_ITERATE` says. In
  which order it does so is left open, and so is what a scan from some bucket on meets while other entries
  come and go (`scan_at`): only `tbm_lossify` does that. `TidBitmapTable` shows the laws of the hash table.

  A pointer to an entry is its block number, read and written through the table or `entry1`. `status`,
  `pagetable` and `entry1` are one value (`Store`). The element status, memory contexts and the shared memory
  of the table are left out; the shared iterators read the entries through index arrays, as in the source.
-/
import Pgvec.Hnsw.Tuple

namespace Pgvec.Tbm

open Pgvec.Hnsw (ItemPointer InvalidBlockNumber)

/-! ## 1. Entries -/

/-- `TBM_MAX_TUPLES_PER_PAGE`, which is `MaxHeapTuplesPerPage`. -/
def TBM_MAX_TUPLES_PER_PAGE : Nat := 291

/-- `PAGES_PER_CHUNK`. -/
def PAGES_PER_CHUNK : Nat := 8192 / 32

/-- `BITS_PER_BITMAPWORD`. -/
def BITS_PER_BITMAPWORD : Nat := 64

def WORDNUM (x : Nat) : Nat := x / BITS_PER_BITMAPWORD

def BITNUM (x : Nat) : Nat := x % BITS_PER_BITMAPWORD

/-- `WORDS_PER_PAGE`. -/
def WORDS_PER_PAGE : Nat := (TBM_MAX_TUPLES_PER_PAGE - 1) / BITS_PER_BITMAPWORD + 1

/-- `WORDS_PER_CHUNK`. -/
def WORDS_PER_CHUNK : Nat := (PAGES_PER_CHUNK - 1) / BITS_PER_BITMAPWORD + 1

/-- `INT_MAX`. -/
def INT_MAX : Nat := 2 ^ 31 - 1

/-- `PagetableEntry`. -/
structure PagetableEntry where
  blockno : Nat
  ischunk : Bool
  recheck : Bool
  words : Nat → BitVec 64

/-- `words[WORDNUM(x)] & ((bitmapword) 1 << BITNUM(x))`. -/
def PagetableEntry.bit (page : PagetableEntry) (x : Nat) : Bool :=
  page.words (WORDNUM x) &&& (1#64 <<< BITNUM x) != 0

/-- `words[WORDNUM(x)] |= ((bitmapword) 1 << BITNUM(x))`. -/
def PagetableEntry.setBit (page : PagetableEntry) (x : Nat) : PagetableEntry :=
  { page with words := Function.update page.words (WORDNUM x) (page.words (WORDNUM x) ||| 1#64 <<< BITNUM x) }

/-- `MemSet(page, 0, sizeof(PagetableEntry))`, with the block number. -/
def PagetableEntry.zero (blockno : Nat) : PagetableEntry := ⟨blockno, false, false, fun _ => 0⟩

/-- `while (w != 0) { if (w & 1) ...; pos++; w >>= 1; }`: the positions at which the body runs. -/
def bitLoop (w : BitVec 64) (pos : Nat) : List Nat :=
  if w = 0 then [] else (if w &&& 1 ≠ 0 then [pos] else []) ++ bitLoop (w >>> 1) (pos + 1)
termination_by w.toNat
decreasing_by
  rename_i h
  rw [BitVec.toNat_ushiftRight, Nat.shiftRight_eq_div_pow]
  have : w.toNat ≠ 0 := fun e => h (BitVec.eq_of_toNat_eq e)
  omega

/-- The positions of all words in front of `nwords`, from a first position on. -/
def PagetableEntry.bits (page : PagetableEntry) (nwords start : Nat) : List Nat :=
  (List.range nwords).flatMap fun wordnum => bitLoop (page.words wordnum) (start + wordnum * BITS_PER_BITMAPWORD)

/-- The hash table of entries. -/
structure PageTable (H : Type) where
  /-- `pagetable_create`. -/
  create : H
  /-- `pagetable_lookup`. -/
  lookup : H → Nat → Option PagetableEntry
  /-- A write to the entry of a block, which `pagetable_insert` makes if there is none. -/
  write : H → PagetableEntry → H
  /-- `pagetable_delete`. -/
  delete : H → Nat → H
  /-- `pagetable_start_iterate` and `pagetable_iterate`: the block numbers, in the order of a scan. -/
  scan : H → List Nat
  /-- `pagetable_start_iterate_at`: the block numbers a scan meets that changes the table, each with the
      position of the iterator behind it. -/
  scan_at : H → Nat → List (Nat × Nat)
  lookup_create : ∀ k, lookup create k = none
  lookup_write : ∀ h e k, lookup (write h e) k = if k = e.blockno then some e else lookup h k
  lookup_delete : ∀ h k k', lookup (delete h k) k' = if k' = k then none else lookup h k'
  scan_nodup : ∀ h, (scan h).Nodup
  mem_scan : ∀ h k, k ∈ scan h ↔ (lookup h k).isSome

/-- `status`, with `entry1` or `pagetable`. -/
inductive Store (H : Type) where
  | TBM_EMPTY
  | TBM_ONE_PAGE (entry1 : PagetableEntry)
  | TBM_HASH (pagetable : H)

/-- `TIDBitmap`. -/
structure TIDBitmap (H : Type) where
  store : Store H
  nentries : Nat
  maxentries : Nat
  npages : Nat
  nchunks : Nat
  lossify_start : Nat

variable {H : Type} (T : PageTable H)

/-- `sizeof(PagetableEntry)`. -/
def sizeofPagetableEntry : Nat := 8 + WORDS_PER_PAGE * 8

/-- `tbm_calculate_entries`. -/
def tbm_calculate_entries (maxbytes : Nat) : Nat := max (min (maxbytes / (sizeofPagetableEntry + 8 + 8)) (INT_MAX - 1)) 16

/-- `tbm_create`. -/
def tbm_create (maxbytes : Nat) : TIDBitmap H where
  store := .TBM_EMPTY
  nentries := 0
  maxentries := tbm_calculate_entries maxbytes
  npages := 0
  nchunks := 0
  lossify_start := 0

/-- `tbm_create_pagetable`: the table it makes. -/
def tbm_create_pagetable : Store H → H
  | .TBM_EMPTY => T.create
  | .TBM_ONE_PAGE entry1 => T.write T.create entry1
  | .TBM_HASH h => h

/-- What stands at a block number, in `entry1` or in the table. -/
def Store.find : Store H → Nat → Option PagetableEntry
  | .TBM_EMPTY, _ => none
  | .TBM_ONE_PAGE entry1, k => if entry1.blockno = k then some entry1 else none
  | .TBM_HASH h, k => T.lookup h k

/-- A write through a pointer to an entry. -/
def Store.write : Store H → PagetableEntry → Store H
  | .TBM_HASH h, e => .TBM_HASH (T.write h e)
  | _, e => .TBM_ONE_PAGE e

/-! ## 2. Looking up and making entries -/

/-- `tbm_find_pageentry`. -/
def tbm_find_pageentry (tbm : TIDBitmap H) (pageno : Nat) : Option PagetableEntry :=
  if tbm.nentries = 0 then none
  else
    match tbm.store with
    | .TBM_HASH h =>
        match T.lookup h pageno with
        | none => none
        | some page => if page.ischunk then none else some page
    | s => s.find T pageno

/-- Look up or create an entry in the hashtable. -/
def insertPageentry (tbm : TIDBitmap H) (h : H) (pageno : Nat) : TIDBitmap H :=
  match T.lookup h pageno with
  | some _ => { tbm with store := .TBM_HASH h }
  | none =>
      { tbm with
        store := .TBM_HASH (T.write h (.zero pageno))
        nentries := tbm.nentries + 1
        npages := tbm.npages + 1 }

/-- `tbm_get_pageentry`: the bitmap with an entry for the page. -/
def tbm_get_pageentry (tbm : TIDBitmap H) (pageno : Nat) : TIDBitmap H :=
  match tbm.store with
  | .TBM_EMPTY =>
      { tbm with
        store := .TBM_ONE_PAGE (.zero pageno)
        nentries := tbm.nentries + 1
        npages := tbm.npages + 1 }
  | .TBM_ONE_PAGE entry1 =>
      if entry1.blockno = pageno then tbm
      -- time to switch from one page to a hashtable
      else insertPageentry T tbm (tbm_create_pagetable T (.TBM_ONE_PAGE entry1)) pageno
  | .TBM_HASH h => insertPageentry T tbm h pageno

/-- `tbm_page_is_lossy`. -/
def tbm_page_is_lossy (tbm : TIDBitmap H) (pageno : Nat) : Bool :=
  if tbm.nchunks = 0 then false
  else
    let bitno := pageno % PAGES_PER_CHUNK
    match tbm.store with
    | .TBM_HASH h =>
        match T.lookup h (pageno - bitno) with
        | some page => page.ischunk && page.bit bitno
        | none => false
    | _ => false

/-- Look up or create the entry of a chunk header, and set a bit in it. -/
def insertChunkentry (tbm : TIDBitmap H) (h : H) (chunk_pageno bitno : Nat) : TIDBitmap H :=
  match T.lookup h chunk_pageno with
  | none =>
      let page := { PagetableEntry.zero chunk_pageno with ischunk := true }
      { tbm with
        store := .TBM_HASH (T.write h (page.setBit bitno))
        nentries := tbm.nentries + 1
        nchunks := tbm.nchunks + 1 }
  | some page =>
      if page.ischunk then { tbm with store := .TBM_HASH (T.write h (page.setBit bitno)) }
      else
        -- chunk header page was formerly non-lossy, make it lossy
        let page := { PagetableEntry.zero chunk_pageno with ischunk := true }.setBit 0
        { tbm with
          store := .TBM_HASH (T.write h (page.setBit bitno))
          nchunks := tbm.nchunks + 1
          npages := tbm.npages - 1 }

/-- `tbm_mark_page_lossy`. -/
def tbm_mark_page_lossy (tbm : TIDBitmap H) (pageno : Nat) : TIDBitmap H :=
  -- we force the bitmap into hashtable mode whenever it's lossy
  let h := tbm_create_pagetable T tbm.store
  let bitno := pageno % PAGES_PER_CHUNK
  -- remove any extant non-lossy entry for the page, if the page is not its own chunk header
  if bitno ≠ 0 ∧ (T.lookup h pageno).isSome then
    insertChunkentry T { tbm with nentries := tbm.nentries - 1, npages := tbm.npages - 1 } (T.delete h pageno)
      (pageno - bitno) bitno
  else insertChunkentry T tbm h (pageno - bitno) bitno

/-- The scan of `tbm_lossify` over the pages it meets. -/
def lossifyLoop : List (Nat × Nat) → TIDBitmap H → TIDBitmap H
  | [], tbm => tbm
  | (blockno, cur) :: l, tbm =>
      match tbm.store.find T blockno with
      | none => lossifyLoop l tbm
      | some page =>
          -- already a chunk header, or the page would become one
          if page.ischunk ∨ page.blockno % PAGES_PER_CHUNK = 0 then lossifyLoop l tbm
          else
            let tbm := tbm_mark_page_lossy T tbm page.blockno
            if tbm.nentries ≤ tbm.maxentries / 2 then { tbm with lossify_start := cur }
            else lossifyLoop l tbm

/-- `tbm_lossify`, which is called when there is a hash table. -/
def tbm_lossify (tbm : TIDBitmap H) : TIDBitmap H :=
  let h := tbm_create_pagetable T tbm.store
  let tbm := lossifyLoop T (T.scan_at h tbm.lossify_start) tbm
  if tbm.maxentries / 2 < tbm.nentries then
    { tbm with maxentries := min tbm.nentries ((INT_MAX - 1) / 2) * 2 }
  else tbm

/-- `if (tbm->nentries > tbm->maxentries) tbm_lossify(tbm)`. -/
def lossifyIfFull (tbm : TIDBitmap H) : TIDBitmap H :=
  if tbm.maxentries < tbm.nentries then tbm_lossify T tbm else tbm

/-! ## 3. Adding, uniting, intersecting -/

/-- The local variables of `tbm_add_tuples`: `page` is NULL or points to the entry of a block. -/
structure AddState (H : Type) where
  tbm : TIDBitmap H
  currblk : Nat
  page : Option Nat

/-- One tuple of `tbm_add_tuples`. -/
def addTuple (recheck : Bool) (s : AddState H) (tid : ItemPointer) : Except String (AddState H) :=
  let blk := tid.blkno
  let off := tid.offno
  if off < 1 ∨ TBM_MAX_TUPLES_PER_PAGE < off then .error s!"tuple offset out of range: {off}"
  else
    -- look up target page unless we already did
    let s : AddState H :=
      if blk ≠ s.currblk then
        if tbm_page_is_lossy T s.tbm blk then ⟨s.tbm, blk, none⟩
        else ⟨tbm_get_pageentry T s.tbm blk, blk, some blk⟩
      else s
    match s.page.bind (s.tbm.store.find T) with
    | none => .ok s
    | some page =>
        -- a lossy chunk header: set bit for itself
        let page := page.setBit (if page.ischunk then 0 else off - 1)
        let tbm : TIDBitmap H := { s.tbm with store := s.tbm.store.write T { page with recheck := page.recheck || recheck } }
        if tbm.maxentries < tbm.nentries then
          -- page could have been converted to lossy, so force new lookup
          .ok ⟨tbm_lossify T tbm, InvalidBlockNumber, s.page⟩
        else .ok { s with tbm := tbm }

/-- The loop of `tbm_add_tuples`. -/
def addTuples (recheck : Bool) : List ItemPointer → AddState H → Except String (AddState H)
  | [], s => .ok s
  | tid :: tids, s => do addTuples recheck tids (← addTuple T recheck s tid)

/-- **`tbm_add_tuples`**. -/
def tbm_add_tuples (tbm : TIDBitmap H) (tids : List ItemPointer) (recheck : Bool) : Except String (TIDBitmap H) := do
  let s ← addTuples T recheck tids ⟨tbm, InvalidBlockNumber, none⟩
  return s.tbm

/-- **`tbm_add_page`**. -/
def tbm_add_page (tbm : TIDBitmap H) (pageno : Nat) : TIDBitmap H :=
  lossifyIfFull T (tbm_mark_page_lossy T tbm pageno)

/-- `tbm_union_page`. -/
def tbm_union_page (a : TIDBitmap H) (bpage : PagetableEntry) : TIDBitmap H :=
  if bpage.ischunk then
    -- mark each indicated page lossy in a
    lossifyIfFull T ((bpage.bits WORDS_PER_CHUNK bpage.blockno).foldl (tbm_mark_page_lossy T) a)
  else if tbm_page_is_lossy T a bpage.blockno then a
  else
    let a : TIDBitmap H := tbm_get_pageentry T a bpage.blockno
    lossifyIfFull T <|
      match a.store.find T bpage.blockno with
      | none => a
      | some apage =>
          if apage.ischunk then { a with store := a.store.write T (apage.setBit 0) }
          else
            -- both pages are exact, merge at the bit level
            { a with store := a.store.write T { apage with
                words := fun wordnum =>
                  if wordnum < WORDS_PER_PAGE then apage.words wordnum ||| bpage.words wordnum else apage.words wordnum
                recheck := apage.recheck || bpage.recheck } }

/-- The entries of a bitmap, in the order of a scan. -/
def TIDBitmap.entries (tbm : TIDBitmap H) : List PagetableEntry :=
  match tbm.store with
  | .TBM_EMPTY => []
  | .TBM_ONE_PAGE entry1 => [entry1]
  | .TBM_HASH h => (T.scan h).filterMap (T.lookup h)

/-- **`tbm_union`**. -/
def tbm_union (a b : TIDBitmap H) : TIDBitmap H :=
  if b.nentries = 0 then a else (b.entries T).foldl (tbm_union_page T) a

/-- `tbm_intersect_page`: is the page empty now, and the entry. -/
def tbm_intersect_page (apage : PagetableEntry) (b : TIDBitmap H) : Bool × PagetableEntry :=
  if apage.ischunk then
    -- scan each bit in chunk, try to clear
    let words := fun wordnum =>
      if wordnum < WORDS_PER_CHUNK then
        let pg := apage.blockno + wordnum * BITS_PER_BITMAPWORD
        (bitLoop (apage.words wordnum) 0).foldl (fun neww bitnum =>
          if !tbm_page_is_lossy T b (pg + bitnum) && (tbm_find_pageentry T b (pg + bitnum)).isNone then
            neww &&& ~~~(1#64 <<< bitnum)
          else neww) (apage.words wordnum)
      else apage.words wordnum
    ((List.range WORDS_PER_CHUNK).all fun wordnum => words wordnum == 0, { apage with words := words })
  else if tbm_page_is_lossy T b apage.blockno then (false, { apage with recheck := true })
  else
    match tbm_find_pageentry T b apage.blockno with
    | none => (true, apage)
    | some bpage =>
        let words := fun wordnum =>
          if wordnum < WORDS_PER_PAGE then apage.words wordnum &&& bpage.words wordnum else apage.words wordnum
        ((List.range WORDS_PER_PAGE).all fun wordnum => words wordnum == 0,
          { apage with words := words, recheck := apage.recheck || bpage.recheck })

/-- One entry of the scan of `tbm_intersect`. -/
def intersectEntry (b a : TIDBitmap H) (blockno : Nat) : TIDBitmap H :=
  match a.store with
  | .TBM_HASH h =>
      match T.lookup h blockno with
      | none => a
      | some apage =>
          let (empty, apage') := tbm_intersect_page T apage b
          if empty then
            -- page or chunk is now empty, remove it from a
            { a with
              store := .TBM_HASH (T.delete h blockno)
              nchunks := if apage.ischunk then a.nchunks - 1 else a.nchunks
              npages := if apage.ischunk then a.npages else a.npages - 1
              nentries := a.nentries - 1 }
          else { a with store := .TBM_HASH (T.write h apage') }
  | _ => a

/-- **`tbm_intersect`**. -/
def tbm_intersect (a b : TIDBitmap H) : TIDBitmap H :=
  if a.nentries = 0 then a
  else
    match a.store with
    | .TBM_EMPTY => a
    | .TBM_ONE_PAGE entry1 =>
        let (empty, apage') := tbm_intersect_page T entry1 b
        if empty then
          { a with store := .TBM_EMPTY, npages := a.npages - 1, nentries := a.nentries - 1 }
        else { a with store := .TBM_ONE_PAGE apage' }
    | .TBM_HASH h => (T.scan h).foldl (intersectEntry T b) a

/-! ## 4. Iterating -/

/-- `TBMIterateResult`. -/
structure TBMIterateResult where
  blockno : Nat
  lossy : Bool
  recheck : Bool
  internal_page : Option PagetableEntry

/-- `spageptr`, `schunkptr` and `schunkbit`, of a private iterator or of the shared state. -/
structure IterState where
  spageptr : Nat
  schunkptr : Nat
  schunkbit : Nat

/-- The state at the start. -/
def IterState.init : IterState := ⟨0, 0, 0⟩

/-- `tbm_advance_schunkbit`. -/
def tbm_advance_schunkbit (chunk : PagetableEntry) (schunkbit : Nat) : Nat :=
  if schunkbit < PAGES_PER_CHUNK then
    if chunk.bit schunkbit then schunkbit else tbm_advance_schunkbit chunk (schunkbit + 1)
  else schunkbit
termination_by PAGES_PER_CHUNK - schunkbit

/-- If lossy chunk pages remain, advance `schunkptr` and `schunkbit` to the next set bit. -/
def nextChunkPage (nchunks : Nat) (schunks : Nat → Option PagetableEntry) (it : IterState) : IterState :=
  if it.schunkptr < nchunks then
    match schunks it.schunkptr with
    | none => it
    | some chunk =>
        let schunkbit := tbm_advance_schunkbit chunk it.schunkbit
        if schunkbit < PAGES_PER_CHUNK then { it with schunkbit := schunkbit }
        else nextChunkPage nchunks schunks { it with schunkptr := it.schunkptr + 1, schunkbit := 0 }
  else it
termination_by nchunks - it.schunkptr

/-- The common body of `tbm_private_iterate` and `tbm_shared_iterate`, which differ in how they get at a page
    or a chunk; `none` is the answer `false`. -/
def iterateNext (npages nchunks : Nat) (spages schunks : Nat → Option PagetableEntry) (it : IterState) :
    Option TBMIterateResult × IterState :=
  let it := nextChunkPage nchunks schunks it
  let page := if it.spageptr < npages then spages it.spageptr else none
  match if it.schunkptr < nchunks then schunks it.schunkptr else none with
  | some chunk =>
      let chunk_blockno := chunk.blockno + it.schunkbit
      match page with
      | none => (some ⟨chunk_blockno, true, true, none⟩, { it with schunkbit := it.schunkbit + 1 })
      | some page =>
          -- must output the numerically earlier page
          if chunk_blockno < page.blockno then
            (some ⟨chunk_blockno, true, true, none⟩, { it with schunkbit := it.schunkbit + 1 })
          else (some ⟨page.blockno, false, page.recheck, some page⟩, { it with spageptr := it.spageptr + 1 })
  | none =>
      match page with
      | none => (none, it)
      | some page => (some ⟨page.blockno, false, page.recheck, some page⟩, { it with spageptr := it.spageptr + 1 })

/-- The arrays `spages` and `schunks` of a bitmap that is being iterated privately. -/
structure PrivateArrays where
  spages : List PagetableEntry
  schunks : List PagetableEntry

/-- `tbm_comparator(left, right) <= 0`. -/
def tbm_comparator (left right : PagetableEntry) : Bool := left.blockno ≤ right.blockno

/-- `tbm_begin_private_iterate`: the sorted page lists. -/
def tbm_begin_private_iterate (tbm : TIDBitmap H) : PrivateArrays :=
  match tbm.store with
  | .TBM_HASH _ =>
      { spages := ((tbm.entries T).filter fun page => !page.ischunk).mergeSort tbm_comparator
        schunks := ((tbm.entries T).filter fun page => page.ischunk).mergeSort tbm_comparator }
  | _ => ⟨[], []⟩

/-- **`tbm_private_iterate`**. In TBM_ONE_PAGE state there is no `spages[]` array. -/
def tbm_private_iterate (tbm : TIDBitmap H) (arrays : PrivateArrays) (it : IterState) :
    Option TBMIterateResult × IterState :=
  iterateNext tbm.npages tbm.nchunks
    (fun i => match tbm.store with | .TBM_ONE_PAGE entry1 => some entry1 | _ => arrays.spages[i]?)
    (fun i => arrays.schunks[i]?) it

/-- `TBMSharedIteratorState`, with the arrays it points to. -/
structure TBMSharedIteratorState where
  npages : Nat
  nchunks : Nat
  ptbase : List PagetableEntry
  ptpages : List Nat
  ptchunks : List Nat
  it : IterState

/-- `tbm_shared_comparator(left, right) <= 0`. -/
def tbm_shared_comparator (base : List PagetableEntry) (left right : Nat) : Bool :=
  (base[left]?.map (·.blockno)).getD 0 ≤ (base[right]?.map (·.blockno)).getD 0

/-- The indexes of the entries of one kind, sorted. -/
def sortedIndexes (base : List PagetableEntry) (kind : PagetableEntry → Bool) : List Nat :=
  ((List.range base.length).filter fun idx => base[idx]?.any kind).mergeSort (tbm_shared_comparator base)

/-- `tbm_prepare_shared_iterate`. -/
def tbm_prepare_shared_iterate (tbm : TIDBitmap H) : TBMSharedIteratorState :=
  let ptbase := tbm.entries T
  { npages := tbm.npages
    nchunks := tbm.nchunks
    ptbase := ptbase
    ptpages := sortedIndexes ptbase fun page => !page.ischunk
    ptchunks := sortedIndexes ptbase fun page => page.ischunk
    it := .init }

/-- **`tbm_shared_iterate`**: what happens between the acquisition of the lock and its release. -/
def tbm_shared_iterate (istate : TBMSharedIteratorState) : Option TBMIterateResult × TBMSharedIteratorState :=
  let (tbmres, it) := iterateNext istate.npages istate.nchunks
    (fun i => (istate.ptpages[i]?).bind fun idx => istate.ptbase[idx]?)
    (fun i => (istate.ptchunks[i]?).bind fun idx => istate.ptbase[idx]?) istate.it
  (tbmres, { istate with it := it })

/-- `tbm_extract_page_tuple`: the offsets filled in, and the number returned. -/
def tbm_extract_page_tuple (iteritem : TBMIterateResult) (max_offsets : Nat) : List Nat × Nat :=
  match iteritem.internal_page with
  | none => ([], 0)
  | some page => ((page.bits WORDS_PER_PAGE 1).take max_offsets, (page.bits WORDS_PER_PAGE 1).length)

end Pgvec.Tbm
