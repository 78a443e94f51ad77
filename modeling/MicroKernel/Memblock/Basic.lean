import MicroKernel.Extent.Basic
import Mathlib.Data.Nat.Bitwise

/-!
# The boot-time physical memory allocator

`memblock` keeps two tables of address ranges, the usable memory and the reserved ranges in
it.  Both are arrays of at most 128 regions of which the first `cnt` are in use; here a table
is the list of the regions in use, so that `cnt` is its length, together with `total_size`.
A table is never without a region: an empty one holds a single region of size 0.

Addresses and sizes are `u64`: natural numbers, added and subtracted modulo `2 ^ 64` by
`add64` and `sub64` wherever the source does not compare them first.  The contents of memory,
which the allocator clears before it returns a block, are not part of this state.

The loops of the source run over an index into the array; they are modelled by recursion on a
bound for the number of iterations (`Fault.diverged` when the bound is exhausted).  A write
past the last element of `regions` is `Fault.overflow`: the source has no check for it.

* `memblockAddRegions`, `memblockRemoveRange` : adding a range to a table, removing one;
* `nextMemRangeRev`, `memblockFindInRange` : the search for a free block;
* `memblockAlloc`, `memblockAllocKernel`, `memblockFree`, `memblockInit`.
-/

namespace MicroKernel

/-- What can go wrong in a call of the allocator. -/
inductive Fault where
  /-- A region would be written past the end of the `regions` array. -/
  | overflow
  /-- `panic` was called. -/
  | panic
  /-- A loop did not end within its bound. -/
  | diverged
  /-- Memory is accessed at an address that is not mapped. -/
  | unmapped
  deriving DecidableEq, Repr

/-! ### Arithmetic on `u64` -/

/-- `a + b` on `u64`. -/
def add64 (a b : ℕ) : ℕ := (a + b) % 2 ^ 64

/-- `a - b` on `u64`. -/
def sub64 (a b : ℕ) : ℕ := (a + (2 ^ 64 - b)) % 2 ^ 64

/-- `ULLONG_MAX`. -/
def ullongMax : ℕ := 2 ^ 64 - 1

/-- `PGSIZE`. -/
def pgsize : ℕ := 4096

/-- `KERNBASE`, the virtual address at which physical memory is mapped. -/
def kernbase : ℕ := 0xFFFFFFFF80000000

/-- Physical to kernel virtual address. -/
def p2v (a : ℕ) : ℕ := add64 a kernbase

/-- Kernel virtual to physical address. -/
def v2p (a : ℕ) : ℕ := sub64 a kernbase

/-- `x & ~(y - 1)` on `u64`. -/
def roundDown (x y : ℕ) : ℕ := x &&& (ullongMax - sub64 y 1)

/-- `min((typeof(val))(max(val, lo)), hi)`. -/
def clamp (val lo hi : ℕ) : ℕ := min (max val lo) hi

/-! ### Tables -/

/-- `struct memblock_region`. -/
abbrev MemblockRegion := Extent

/-- The length of the `regions` array. -/
def maxRegions : ℕ := 128

/-- `struct memblock_type`. -/
structure MemblockType where
  /-- `regions[0 .. cnt - 1]`. -/
  regions : List MemblockRegion
  /-- `total_size`. -/
  totalSize : ℕ
  deriving DecidableEq, Repr

/-- `cnt`. -/
def MemblockType.cnt (type : MemblockType) : ℕ := type.regions.length

/-- `regions[i]`. -/
def MemblockType.region (type : MemblockType) (i : ℕ) : MemblockRegion :=
  type.regions.getD i ⟨0, 0⟩

/-- `rgn->base + rgn->size`. -/
def rgnEnd (rgn : MemblockRegion) : ℕ := add64 rgn.base rgn.size

/-- Insert a region at index `idx`, moving the regions from there on up by one. -/
def memblockInsertRegion (type : MemblockType) (idx base size : ℕ) : Except Fault MemblockType :=
  if type.cnt < maxRegions then
    .ok ⟨type.regions.insertIdx idx ⟨base, size⟩, add64 type.totalSize size⟩
  else .error .overflow

/-- The loop of `memblock_merge_regions` from the region `this` on. -/
def mergeLoop (this : MemblockRegion) : List MemblockRegion → List MemblockRegion
  | [] => [this]
  | next :: rest =>
    if rgnEnd this ≠ next.base then this :: mergeLoop next rest
    else mergeLoop ⟨this.base, add64 this.size next.size⟩ rest

/-- Merge the adjacent and continuous regions. -/
def memblockMergeRegions (type : MemblockType) : MemblockType :=
  match type.regions with
  | [] => type
  | this :: rest => { type with regions := mergeLoop this rest }

/-- Remove the region with index `i`; a table left empty gets one region of size 0. -/
def memblockRemoveRegion (type : MemblockType) (i : ℕ) : MemblockType :=
  let regions := type.regions.eraseIdx i
  { regions := if regions.length = 0 then [⟨0, 0⟩] else regions
    totalSize := sub64 type.totalSize (type.region i).size }

/-- The loop of `memblock_add_regions` from index `idx` on, with the variables `base` and
`nr_new` of the source; the result also holds the index at which it stopped. -/
def addLoop (insert : Bool) (end_ : ℕ) : ℕ → MemblockType → ℕ → ℕ → ℕ →
    Except Fault (MemblockType × ℕ × ℕ × ℕ)
  | 0, _, _, _, _ => .error .diverged
  | n + 1, type, idx, base, nrNew =>
    if type.cnt ≤ idx then .ok (type, idx, base, nrNew)
    else
      let rbase := (type.region idx).base
      let rend := rgnEnd (type.region idx)
      if end_ ≤ rbase then .ok (type, idx, base, nrNew)
      else if rend ≤ base then addLoop insert end_ n type (idx + 1) base nrNew
      else if base < rbase then
        if insert then do
          let type ← memblockInsertRegion type idx base (rbase - base)
          addLoop insert end_ n type (idx + 2) (min rend end_) (nrNew + 1)
        else addLoop insert end_ n type (idx + 1) (min rend end_) (nrNew + 1)
      else addLoop insert end_ n type (idx + 1) (min rend end_) nrNew

/-- The code of `memblock_add_regions` after the loop: the part of the range above the last
region looked at. -/
def addLast (insert : Bool) (end_ : ℕ) :
    MemblockType × ℕ × ℕ × ℕ → Except Fault (MemblockType × ℕ)
  | (type, idx, base, nrNew) =>
    if base < end_ then
      if insert then do
        let type ← memblockInsertRegion type idx base (end_ - base)
        return (type, nrNew + 1)
      else .ok (type, nrNew + 1)
    else .ok (type, nrNew)

/-- One pass of `memblock_add_regions` (the code from the label `repeat` on): the parts of
`[base, end)` that the table does not cover are counted and, if `insert` is set, inserted. -/
def addPass (insert : Bool) (type : MemblockType) (base end_ : ℕ) :
    Except Fault (MemblockType × ℕ) :=
  addLoop insert end_ (type.cnt + 1) type 0 base 0 >>= addLast insert end_

/-- Add the range of `size` bytes at `base` to a table. -/
def memblockAddRegions (type : MemblockType) (base size : ℕ) : Except Fault MemblockType := do
  let end_ := add64 base size
  if size = 0 then return type
  if (type.region 0).size = 0 then
    return { regions := type.regions.set 0 ⟨base, size⟩, totalSize := size }
  let (_, nrNew) ← addPass false type base end_
  if nrNew = 0 then return type
  let (type, _) ← addPass true type base end_
  return memblockMergeRegions type

/-- The loop of `memblock_isolate_range` from index `idx` on, with the indices `start_rgn` and
`end_rgn` of the source. -/
def isolateLoop (base end_ : ℕ) : ℕ → MemblockType → ℕ → ℕ → ℕ →
    Except Fault (MemblockType × ℕ × ℕ)
  | 0, _, _, _, _ => .error .diverged
  | n + 1, type, idx, startRgn, endRgn =>
    if type.cnt ≤ idx then .ok (type, startRgn, endRgn)
    else
      let rgn := type.region idx
      let rbase := rgn.base
      let rend := rgnEnd rgn
      if end_ ≤ rbase then .ok (type, startRgn, endRgn)
      else if rend ≤ base then isolateLoop base end_ n type (idx + 1) startRgn endRgn
      else if rbase < base then do
        -- the part below the range goes into a region of its own; the rest is looked at next
        let type := { regions := type.regions.set idx ⟨base, sub64 rgn.size (base - rbase)⟩
                      totalSize := sub64 type.totalSize (base - rbase) }
        let type ← memblockInsertRegion type idx rbase (base - rbase)
        isolateLoop base end_ n type (idx + 1) startRgn endRgn
      else if end_ < rend then do
        -- the part inside the range goes into a region of its own and is looked at next
        let type := { regions := type.regions.set idx ⟨end_, sub64 rgn.size (end_ - rbase)⟩
                      totalSize := sub64 type.totalSize (end_ - rbase) }
        let type ← memblockInsertRegion type idx rbase (end_ - rbase)
        isolateLoop base end_ n type idx startRgn endRgn
      else isolateLoop base end_ n type (idx + 1) (if endRgn = 0 then idx else startRgn) (idx + 1)

/-- Split the regions at the ends of the range, and return the indices of those inside it.
Every region is looked at most twice, and one more may be split off at the end. -/
def memblockIsolateRange (type : MemblockType) (base size : ℕ) :
    Except Fault (MemblockType × ℕ × ℕ) :=
  if size = 0 then .ok (type, 0, 0)
  else isolateLoop base (add64 base size) (2 * type.cnt + 4) type 0 0 0

/-- Remove the regions `startRgn, …, startRgn + n - 1`, the last one first. -/
def removeLoop (startRgn : ℕ) : ℕ → MemblockType → MemblockType
  | 0, type => type
  | n + 1, type => removeLoop startRgn n (memblockRemoveRegion type (startRgn + n))

/-- Remove a range from a table. -/
def memblockRemoveRange (type : MemblockType) (base size : ℕ) : Except Fault MemblockType := do
  let (type, startRgn, endRgn) ← memblockIsolateRange type base size
  return removeLoop startRgn (endRgn - startRgn) type

/-! ### The allocator -/

/-- `struct memblock`. -/
structure Memblock where
  /-- `current_limit`. -/
  currentLimit : ℕ
  /-- The usable memory. -/
  memory : MemblockType
  /-- The reserved ranges. -/
  reserved : MemblockType
  deriving DecidableEq, Repr

/-- Add a range to the usable memory. -/
def memblockAdd (m : Memblock) (base size : ℕ) : Except Fault Memblock := do
  let memory ← memblockAddRegions m.memory base size
  return { m with memory }

/-- Reserve a range. -/
def memblockReserve (m : Memblock) (base size : ℕ) : Except Fault Memblock := do
  let reserved ← memblockAddRegions m.reserved base size
  return { m with reserved }

/-- Free a range of physical memory. -/
def memblockFree (m : Memblock) (base size : ℕ) : Except Fault Memblock := do
  let reserved ← memblockRemoveRange m.reserved base size
  return { m with reserved }

/-- The pair of indices of the reverse iterator in one `u64`: `(u32)idx_a | (u64)idx_b << 32`. -/
def packIdx (a b : ℤ) : ℕ :=
  (a % 2 ^ 32).toNat ||| (((b % 2 ^ 64).toNat <<< 32) % 2 ^ 64)

/-- A 32-bit word as an `int`. -/
def toInt32 (n : ℕ) : ℤ := if n < 2 ^ 31 then n else (n : ℤ) - 2 ^ 32

/-- What the loop over `type_b` does for one region of `type_a`. -/
inductive GapScan where
  /-- A free range was found; the indices are those after the step. -/
  | found (outStart outEnd : ℕ) (idxA idxB : ℤ)
  /-- The loop ended, by `break` or because `idx_b` became negative. -/
  | ended (idxB : ℤ)

/-- The inner loop of `__next_mem_range_rev`, from `idx_b = b - 1` down, for the region of
`type_a` with index `idxA`. -/
def gapLoop (typeB : MemblockType) (mStart mEnd idxA : ℕ) : ℕ → GapScan
  | 0 => .ended (-1)
  | b + 1 =>
    let rStart := if b ≠ 0 then rgnEnd (typeB.region (b - 1)) else 0
    let rEnd := if b < typeB.cnt then (typeB.region b).base else ullongMax
    if rEnd ≤ mStart then .ended b
    else if rStart < mEnd then
      if rStart ≤ mStart then .found (max mStart rStart) (min mEnd rEnd) ((idxA : ℤ) - 1) b
      else .found (max mStart rStart) (min mEnd rEnd) idxA ((b : ℤ) - 1)
    else gapLoop typeB mStart mEnd idxA b

/-- The outer loop of `__next_mem_range_rev`, from `idx_a = a - 1` down.  The result is the new
packed index and the range found; without a second table every region is a range. -/
def memLoop (typeA : MemblockType) (typeB : Option MemblockType) : ℕ → ℤ → ℕ × ℕ × ℕ
  | 0, _ => (ullongMax, 0, 0)
  | a + 1, idxB =>
    let mStart := (typeA.region a).base
    let mEnd := rgnEnd (typeA.region a)
    match typeB with
    | none => (packIdx ((a : ℤ) - 1) idxB, mStart, mEnd)
    | some typeB =>
      match gapLoop typeB mStart mEnd a (idxB + 1).toNat with
      | .found outStart outEnd idxA idxB => (packIdx idxA idxB, outStart, outEnd)
      | .ended idxB => memLoop typeA (some typeB) a idxB

/-- `__next_mem_range_rev`: from the packed index `idx`, the next index and the next range of
`type_a` outside `type_b`, going down (`ULLONG_MAX` when there is none). -/
def nextMemRangeRev (idx : ℕ) (typeA : MemblockType) (typeB : Option MemblockType) :
    ℕ × ℕ × ℕ :=
  if idx = ullongMax then
    memLoop typeA typeB typeA.cnt (match typeB with | some typeB => typeB.cnt | none => 0)
  else memLoop typeA typeB (toInt32 (idx % 2 ^ 32) + 1).toNat (toInt32 (idx / 2 ^ 32 % 2 ^ 32))

/-- The loop of `__memblock_find_range_top_down` from the iterator state `(i, thisStart,
thisEnd)` on. -/
def findLoop (m : Memblock) (start end_ size align : ℕ) : ℕ → ℕ × ℕ × ℕ → Except Fault ℕ
  | 0, _ => .error .diverged
  | n + 1, (i, thisStart, thisEnd) =>
    if i = ullongMax then .ok 0
    else
      let thisStart := clamp thisStart start end_
      let thisEnd := clamp thisEnd start end_
      let next := nextMemRangeRev i m.memory (some m.reserved)
      if thisEnd < size then findLoop m start end_ size align n next
      else
        let cand := roundDown (thisEnd - size) align
        if thisStart ≤ cand then .ok cand else findLoop m start end_ size align n next

/-- Find from high address to low address.  Each iteration moves one of the two indices of the
iterator down. -/
def memblockFindRangeTopDown (m : Memblock) (start end_ size align : ℕ) : Except Fault ℕ :=
  findLoop m start end_ size align (m.memory.cnt + m.reserved.cnt + 2)
    (nextMemRangeRev ullongMax m.memory (some m.reserved))

/-- `MEMBLOCK_ALLOC_ACCESSIBLE`. -/
def memblockAllocAccessible : ℕ := 0

/-- Find the suitable memory segment. -/
def memblockFindInRange (m : Memblock) (size align start end_ : ℕ) : Except Fault ℕ :=
  let end_ := if end_ = memblockAllocAccessible then m.currentLimit else end_
  let start := max start pgsize
  let end_ := max start end_
  memblockFindRangeTopDown m start end_ size align

/-- Find suitable memory and reserve it; 0 if there is none. -/
def memblockAllocRange (m : Memblock) (size align start end_ : ℕ) :
    Except Fault (Memblock × ℕ) := do
  let found ← memblockFindInRange m size align start end_
  if found = 0 then return (m, 0)
  let m ← memblockReserve m found size
  return (m, found)

/-- `memblock_alloc_base`, by way of `__memblock_alloc_base`. -/
def memblockAllocBase (m : Memblock) (size align maxAddr : ℕ) : Except Fault (Memblock × ℕ) := do
  let (m, alloc) ← memblockAllocRange m size align 0 maxAddr
  if alloc = 0 then throw .panic
  return (m, alloc)

/-- Allocate a block; the result is its physical address. -/
def memblockAlloc (m : Memblock) (size align : ℕ) : Except Fault (Memblock × ℕ) :=
  memblockAllocBase m size align memblockAllocAccessible

/-- Allocate a block; the result is its kernel virtual address. -/
def memblockAllocKernel (m : Memblock) (size align : ℕ) : Except Fault (Memblock × ℕ) := do
  let (m, alloc) ← memblockAllocBase m size align memblockAllocAccessible
  return (m, p2v alloc)

/-- The system call `brk`. -/
def brk (m : Memblock) (num : ℕ) : Except Fault (Memblock × ℕ) := memblockAlloc m num pgsize

/-! ### Initialisation -/

/-- An entry of the memory map that the BIOS reports (`struct MEMORY_E820`). -/
structure E820Entry where
  /-- First address. -/
  addr : ℕ
  /-- Length in bytes. -/
  len : ℕ
  /-- 1 for usable memory. -/
  type : ℕ
  deriving DecidableEq, Repr

/-- The loop of `memblock_init` over the entries of the map. -/
def initLoop : List E820Entry → Memblock → Except Fault Memblock
  | [], m => .ok m
  | x :: xs, m =>
    if x.type < 1 ∨ 4 < x.type then .ok m
    else if x.type = 1 then do
      let m ← memblockAdd m x.addr x.len
      initLoop xs { m with currentLimit := max m.currentLimit (add64 x.addr x.len) }
    else initLoop xs m

/-- Both tables empty, as `memblock_init` sets them up before it reads the map. -/
def memblockEmpty : Memblock :=
  { currentLimit := 0, memory := ⟨[⟨0, 0⟩], 0⟩, reserved := ⟨[⟨0, 0⟩], 0⟩ }

/-- Build the tables from the first 32 entries of the BIOS memory map. -/
def memblockInit (map : List E820Entry) : Except Fault Memblock :=
  initLoop (map.take 32) memblockEmpty

end MicroKernel
