import MicroKernel.FileSystem.Log

/-!
# Reading and writing files

The contents of a file are in blocks, the first 12 of which are listed in its inode; one more block
lists the following ones.  The functions that read and write a file go from block to block.

* `getNthdiskBlock`, `readInode`, `writeInode` : the functions of the file system;
* `Fs.byteAt` : a byte of a file by the format of an inode.
-/

namespace MicroKernel

/-- Store `n` bytes in a sector. -/
def SectorData.put (d : SectorData) (off n : ℕ) (f : ℕ → BitVec 8) : SectorData :=
  fun i => d.bytes.writeBytes off n f i

theorem SectorData.bytes_put {d : SectorData} {off n : ℕ} {f : ℕ → BitVec 8}
    (h : off + n ≤ bsize) : (d.put off n f).bytes = d.bytes.writeBytes off n f := by
  funext k
  by_cases hk : k < bsize
  · exact dif_pos hk
  · rw [Ram.writeBytes_of_not_mem fun hin => hk (hin.2.trans_le h)]
    simp only [bytes, dif_neg hk]

namespace Inode

/-- `NDIRECT`. -/
def nDirect : ℕ := 12

/-- `NINDIRECT`. -/
def nIndirect : ℕ := bsize / 4

/-- `MAXFILE`, which is not defined: the number of blocks that an inode can list. -/
def maxFile : ℕ := nDirect + nIndirect

/-- The fields of `struct INode` that are used. -/
structure INode where
  /-- `size`. -/
  size : ℕ
  /-- `addrs`. -/
  addrs : ℕ → ℕ

/-- The disk and one inode. -/
structure Fs where
  /-- The blocks, as they are in the buffers. -/
  blocks : Disk SectorData
  /-- The inode. -/
  ip : INode
  /-- Its copy on the disk. -/
  dip : INode

namespace Fs

/-- `ip.addrs[i] = addr`. -/
def setAddr (s : Fs) (i addr : ℕ) : Fs :=
  { s with ip := { s.ip with addrs := Function.update s.ip.addrs i addr } }

/-- Change a block. -/
def setBlock (s : Fs) (addr : ℕ) (d : SectorData) : Fs :=
  { s with blocks := Function.update s.blocks addr d }

/-- `inode_update`. -/
def inodeUpdate (s : Fs) : Fs := { s with dip := s.ip }

end Fs

section Code

-- `buffer_alloc` is not defined
variable (bufferAlloc : Fs → ℕ × Fs)

/-- `get_nthdiskBlock_for_inode`, which has no result for a block that an inode cannot list. -/
def getNthdiskBlock (blockNum : ℕ) (s : Fs) : Option (ℕ × Fs) :=
  if blockNum < nDirect then
    if s.ip.addrs blockNum = 0 then
      -- `ip.addrs[blockNum] = // alloc` goes on with `addr = ip.addrs[blockNum]`
      let addr := s.ip.addrs blockNum
      some (addr, s.setAddr blockNum addr)
    else some (s.ip.addrs blockNum, s)
  else
    let blockNum := blockNum - nDirect
    if blockNum < nIndirect then
      -- `addr = ip.addrs[NDIRECT] == 0` stores the result of the comparison
      let addr := if s.ip.addrs nDirect = 0 then 1 else 0
      let (addr, s) := if addr ≠ 0 then
          let (new, s) := bufferAlloc s
          let s := s.setAddr nDirect new
          (s.ip.addrs nDirect, s)
        else (addr, s)
      let entry := (s.blocks addr).readI32 (4 * blockNum)
      if entry = 0 then
        let (new, s) := bufferAlloc s
        some (new, s.setBlock addr ((s.blocks addr).writeI32 (4 * blockNum) new))
      else some (entry, s)
    else none

/-- `groupSize`. -/
def groupSize (tot n off : ℕ) : ℕ := min (n - tot) (bsize - off % bsize)

theorem groupSize_pos {tot n : ℕ} (off : ℕ) (h : tot < n) : 0 < groupSize tot n off := by
  have hmod : off % bsize < bsize := Nat.mod_lt off (by decide)
  exact lt_min (Nat.sub_pos_of_lt h) (Nat.sub_pos_of_lt hmod)

/-- The loop of `read_inode`, with the bytes that were read so far. -/
def readLoop (tot n off : ℕ) (dst : List (BitVec 8)) (s : Fs) :
    Option (List (BitVec 8) × Fs) :=
  if _h : tot < n then do
    let (addr, s) ← getNthdiskBlock bufferAlloc (off / bsize) s
    let m := groupSize tot n off
    readLoop (tot + m) n ((off + m) % 2 ^ 32)
      (dst ++ (List.range' (off % bsize) m).map (s.blocks addr).bytes) s
  else some (dst, s)
termination_by n - tot
decreasing_by
  have := groupSize_pos off _h
  omega

/-- `read_inode`.  The statement `-1;` has no effect. -/
def readInode (off n : ℕ) (s : Fs) : Option (ℤ × List (BitVec 8) × Fs) := do
  let n := if (off + n) % 2 ^ 32 > s.ip.size then (s.ip.size + 2 ^ 32 - off) % 2 ^ 32 else n
  let (dst, s) ← readLoop bufferAlloc 0 n off [] s
  some (toInt32 n, dst, s)

/-- The loop of `write_inode`, which does not advance `src`. -/
def writeLoop (tot n off : ℕ) (src : ℕ → BitVec 8) (s : Fs) : Option (ℕ × Fs) :=
  if _h : tot < n then do
    let (addr, s) ← getNthdiskBlock bufferAlloc (off / bsize) s
    let m := groupSize tot n off
    writeLoop (tot + m) n ((off + m) % 2 ^ 32) src
      (s.setBlock addr ((s.blocks addr).put (off % bsize) m src))
  else some (off, s)
termination_by n - tot
decreasing_by
  have := groupSize_pos off _h
  omega

/-- `write_inode`.  The statement `-1;` has no effect. -/
def writeInode (off : ℕ) (data : List (BitVec 8)) (s : Fs) : Option (ℤ × Fs) :=
  let n := data.length
  if (off + n) % 2 ^ 32 > maxFile * bsize then some (-1, s)
  else do
    let (off, s) ← writeLoop bufferAlloc 0 n off (data.getD · 0) s
    let s := if n > 0 ∧ off > s.ip.size then
        { s with ip := { s.ip with size := off } }.inodeUpdate
      else s
    some (toInt32 n, s)

end Code

/-! ### Files -/

/-- The block of a position in a file, by the format of an inode. -/
def Fs.blockOf (s : Fs) (i : ℕ) : ℕ :=
  if i / bsize < nDirect then s.ip.addrs (i / bsize)
  else (s.blocks (s.ip.addrs nDirect)).readI32 (4 * (i / bsize - nDirect))

/-- The byte at a position in a file. -/
def Fs.byteAt (s : Fs) (i : ℕ) : BitVec 8 := (s.blocks (s.blockOf i)).bytes (i % bsize)

/-- The blocks of the file are there, and none of them is used twice. -/
structure Fs.WellFormed (s : Fs) : Prop where
  /-- The file is not too large. -/
  size : s.ip.size ≤ maxFile * bsize
  /-- Every position has a block. -/
  allocated : ∀ i < s.ip.size, s.blockOf i ≠ 0
  /-- Different positions are in different blocks or at different places in a block. -/
  distinct : ∀ i j, i / bsize < nDirect → s.blockOf i ≠ 0 → s.blockOf i = s.blockOf j →
    j / bsize < nDirect ∨ j < s.ip.size → i / bsize = j / bsize
  /-- The block that lists the others is not in the file. -/
  indirect : ∀ i, i / bsize < nDirect → nDirect * bsize < s.ip.size →
    s.blockOf i ≠ s.ip.addrs nDirect

end Inode

end MicroKernel
