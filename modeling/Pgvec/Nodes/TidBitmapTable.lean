/-
  File:      Pgvec/Nodes/TidBitmapTable.lean
  Subject:   THE HASH TABLE OF A TID BITMAP: `simplehash.h` as `tidbitmap.c` instantiates it.

  The element is the `PagetableEntry` itself, its key the block number, hashed by `murmurhash32`
  (`src/include/common/hashfn.h`) and not stored.

  An insert into a table of `SH_MAX_SIZE` buckets may raise an error; the bitmap is given up then. `PageTable`
  has no errors, so what the table held is kept aside (`PageHash.exceeded`).

  * `PageHash` -- the tables its calls reach;
  * `lookupEntry_eq`, `mem_scanKeys` -- what a lookup and a scan find is the map of the run;
  * **`simplehashTable`** -- the laws of `PageTable`.
-/
import Pgvec.Common.SimplehashMap
import Pgvec.Nodes.TidBitmap

namespace Pgvec.Tbm

open Pgvec.Simplehash

/-! ## 1. The instance of the template -/

/-- `murmurhash32`. -/
def murmurhash32 (data : Nat) : Nat :=
  let h := data % 2 ^ 32
  let h := h ^^^ (h >>> 16)
  let h := h * 0x85ebca6b % 2 ^ 32
  let h := h ^^^ (h >>> 13)
  let h := h * 0xc2b2ae35 % 2 ^ 32
  h ^^^ (h >>> 16)

def pagetable : Template Nat where
  SH_HASH_KEY := murmurhash32
  SH_STORE_HASH := false

/-- What an entry has beside its block number. -/
structure PageData where
  ischunk : Bool
  recheck : Bool
  words : Nat → BitVec 64
  deriving Inhabited

def PageData.entry (d : PageData) (blockno : Nat) : PagetableEntry := ⟨blockno, d.ischunk, d.recheck, d.words⟩

def PagetableEntry.data (e : PagetableEntry) : PageData := ⟨e.ischunk, e.recheck, e.words⟩

variable {tb : SH_TYPE Nat PageData} {M : Nat → Option PageData}

/-- `pagetable_lookup`. -/
def lookupEntry (tb : SH_TYPE Nat PageData) (blockno : Nat) : Option PagetableEntry :=
  match SH_LOOKUP pagetable tb blockno with
  | some (some b) => some ((tb.data b).data.entry (tb.data b).key)
  | _ => none

theorem lookupEntry_eq (h : Reached pagetable tb M) (blockno : Nat) :
    lookupEntry tb blockno = (M blockno).map (·.entry blockno) := by
  obtain ⟨r, hr, ⟨rfl, hnone⟩ | ⟨b, rfl, -, -, hkey, hdata⟩⟩ := lookup_spec h.good blockno
  · rw [lookupEntry, hr, hnone]
    rfl
  · rw [lookupEntry, hr, hdata]
    simp only [hkey, Option.map_some]

/-- The block numbers of a whole iteration. -/
def scanKeys (tb : SH_TYPE Nat PageData) : List Nat :=
  ((iterateAll pagetable (fun _ => .keep) (tb.size + 1) tb (SH_START_ITERATE tb) []).elim [] Prod.fst).map
    Element.key

theorem scanKeys_nodup (h : Reached pagetable tb M) : (scanKeys tb).Nodup := by
  have h2 := h.good.params.two_le
  obtain ⟨s, tb', hs, -, hrun⟩ := iterateAll_around h.good fun _ => .keep
  rw [scanKeys, hrun]
  exact entriesBack_nodup h.good.content hs (by omega)

theorem mem_scanKeys (h : Reached pagetable tb M) (k : Nat) : k ∈ scanKeys tb ↔ (M k).isSome := by
  obtain ⟨s, tb', hs, hempty, hrun⟩ := iterateAll_around h.good fun _ => .keep
  have hmem := mem_entriesBack_around hs hempty
  have hcontent := h.good.content
  rw [scanKeys, hrun, Option.elim_some, List.mem_map]
  constructor
  · intro ⟨e, he, hk⟩
    obtain ⟨b, hb, hu, rfl⟩ := (hmem e).mp he
    rw [← hk, hcontent.stored b hb hu]
    rfl
  · intro hk
    obtain ⟨b, hb, hu, hkey⟩ := hcontent.has k (Option.isSome_iff_ne_none.mp hk)
    exact ⟨tb.data b, (hmem _).mpr ⟨b, hb, hu, rfl⟩, hkey⟩

/-- The entries `SH_ITERATE` still meets in the table as it is, each with the iterator's position behind it. -/
def scanFrom (tb : SH_TYPE Nat PageData) : Nat → SH_ITERATOR → List (Nat × Nat)
  | 0, _ => []
  | fuel + 1, iter =>
      match SH_ITERATE tb iter with
      | some (some b, iter) => ((tb.data b).key, iter.cur) :: scanFrom tb fuel iter
      | _ => []

/-! ## 2. The tables of a bitmap -/

/-- **The table after some calls**; or, when an insert was refused for the size, what it held with that entry. -/
inductive PageHash where
  | table (tb : SH_TYPE Nat PageData) (M : Nat → Option PageData) (h : Reached pagetable tb M)
  | exceeded (held : Nat → Option PagetableEntry) (keys : Finset Nat) (h : ∀ k, k ∈ keys ↔ (held k).isSome)

namespace PageHash

/-- `pagetable_create(tbm->mcxt, 128, tbm)` -/
def create : PageHash := .table (SH_CREATE 128) _ (.create 128)

def lookup : PageHash → Nat → Option PagetableEntry
  | .table tb _ _, k => lookupEntry tb k
  | .exceeded held _ _, k => held k

/-- The block numbers of a scan, in its order; in ascending order when the table is given up. -/
def scan : PageHash → List Nat
  | .table tb _ _ => scanKeys tb
  | .exceeded _ keys _ => keys.sort (· ≤ ·)

theorem scan_nodup : ∀ h : PageHash, h.scan.Nodup
  | .table _ _ h => scanKeys_nodup h
  | .exceeded _ keys _ => keys.sort_nodup (· ≤ ·)

theorem mem_scan : ∀ (h : PageHash) (k : Nat), k ∈ h.scan ↔ (h.lookup k).isSome
  | .table tb M h, k => by
      rw [scan, lookup, mem_scanKeys h, lookupEntry_eq h, Option.isSome_map]
  | .exceeded held keys h, k => by
      rw [scan, lookup, Finset.mem_sort, h]

/-- What the table holds, with one entry changed; aside. -/
def aside (h : PageHash) (k : Nat) (e : Option PagetableEntry) : PageHash :=
  .exceeded (Function.update h.lookup k e)
    (if e.isSome then insert k h.scan.toFinset else h.scan.toFinset.erase k) (by
      intro k'
      by_cases hk : k' = k
      · subst hk
        rw [Function.update_self]
        cases e with
        | none => simp
        | some e => simp
      · rw [Function.update_of_ne hk, ← h.mem_scan]
        cases e with
        | none => simp [hk]
        | some e => simp [hk])

/-- A call on the table, if it is made. -/
def call (h : PageHash) (c : Call Nat PageData) (k : Nat) (e : Option PagetableEntry) : PageHash :=
  match h with
  | .table tb M hr =>
      match hc : c.run pagetable tb M with
      | some r => .table r.1 r.2 (hr.call hc)
      | none => aside (.table tb M hr) k e
  | .exceeded held keys hk => aside (.exceeded held keys hk) k e

/-- `pagetable_insert`, and the entry is written. -/
def write (h : PageHash) (e : PagetableEntry) : PageHash := h.call (.put e.blockno e.data) e.blockno (some e)

/-- `pagetable_delete`. -/
def delete (h : PageHash) (k : Nat) : PageHash := h.call (.delete k) k none

def scan_at : PageHash → Nat → List (Nat × Nat)
  | .table tb _ _, start => scanFrom tb (tb.size + 1) (SH_START_ITERATE_AT tb start)
  | .exceeded _ keys _, _ => (keys.sort (· ≤ ·)).map fun k => (k, 0)

/-- **A call that changes the map of the run at one block number** changes what that is looked up with. -/
theorem lookup_call (h : PageHash) {c : Call Nat PageData} {k : Nat} (d : Option PageData)
    (hc : ∀ tb M r, Reached pagetable tb M → c.run pagetable tb M = some r → r.2 = Function.update M k d)
    (k' : Nat) : (h.call c k (d.map (·.entry k))).lookup k' = if k' = k then d.map (·.entry k) else h.lookup k' := by
  have haside : ∀ h : PageHash, (h.aside k (d.map (·.entry k))).lookup k' =
      if k' = k then d.map (·.entry k) else h.lookup k' := by
    intro h
    rw [aside, lookup, Function.update_apply]
  cases h with
  | exceeded held keys hk => exact haside _
  | table tb M hr =>
      rw [call]
      split
      · rename_i r hrun
        rw [lookup, lookup, lookupEntry_eq (hr.call hrun), lookupEntry_eq hr, hc tb M r hr hrun,
          Function.update_apply]
        split
        · rename_i hk
          rw [hk]
        · rfl
      · exact haside _

theorem lookup_write (h : PageHash) (e : PagetableEntry) (k : Nat) :
    (h.write e).lookup k = if k = e.blockno then some e else h.lookup k := by
  refine lookup_call h (some e.data) (fun tb M r hr hrun => ?_) k
  rcases put_run hr e.blockno e.data with ⟨tb', hput⟩ | ⟨hno, -⟩
  · rw [← Option.some.inj (hput.symm.trans hrun)]
  · rw [hno] at hrun
    cases hrun

theorem lookup_delete (h : PageHash) (k k' : Nat) :
    (h.delete k).lookup k' = if k' = k then none else h.lookup k' := by
  refine lookup_call h none (fun tb M r hr hrun => ?_) k'
  obtain ⟨tb', hdel⟩ := delete_run hr k
  rw [← Option.some.inj (hdel.symm.trans hrun)]

end PageHash

/-- **The hash table of `tidbitmap.c` obeys the laws.** -/
def simplehashTable : PageTable PageHash where
  create := .create
  lookup := PageHash.lookup
  write := PageHash.write
  delete := PageHash.delete
  scan := PageHash.scan
  scan_at := PageHash.scan_at
  lookup_create k := lookupEntry_eq (.create 128) k
  lookup_write := PageHash.lookup_write
  lookup_delete := PageHash.lookup_delete
  scan_nodup := PageHash.scan_nodup
  mem_scan := PageHash.mem_scan

end Pgvec.Tbm
