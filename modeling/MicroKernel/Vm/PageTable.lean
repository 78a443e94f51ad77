import MicroKernel.Memblock.Safety
import MicroKernel.Vm.Entry

/-!
# The page tables of the kernel and of the processes

The functions of `vm.c` that build page tables and copy to user memory.  They run on the contents of
physical memory together with the tables of the allocator.  The kernel reaches the physical address
`a` at the virtual address `p2v a`, in the upper 2 GiB of the address space: an access below
`KERNBASE` faults.  A call that faults, panics or does not end has no result.

The field `log` of the state records the blocks that were handed out and what for; no function reads
it.

* `pageWalk`, `pageWalkReturnPte`, `mapPages`, `setupUserMemoryPages`, `allocUvm`, `copyUvm`,
  `vmInit` : the functions of the source;
* `vm_bind_eq_some` and the lemmas after it : what a call that returns has done.
-/

namespace MicroKernel

/-! ### The state -/

/-- What a block was handed out for. -/
inductive Purpose where
  /-- A page table. -/
  | pageTable
  /-- Memory of the process with the page table at this physical address. -/
  | userMemory (pml4 : ℕ)
  /-- Anything else. -/
  | other
  deriving DecidableEq

/-- A block that was handed out. -/
structure Owned extends Extent where
  /-- What for. -/
  purpose : Purpose
  deriving DecidableEq

/-- The allocator, the contents of memory and the variable `kernPml4`. -/
structure VmState where
  /-- The allocator. -/
  memblock : Memblock
  /-- Physical memory. -/
  ram : Ram
  /-- The page table of the kernel, `NULL` before `vm_init`. -/
  kernPml4 : ℕ
  /-- The blocks handed out so far. -/
  log : List Owned

/-- Code that runs on this state and may not return. -/
abbrev VmM := StateT VmState Option

/-- A fault, a panic, or a loop that does not end. -/
def stuck {α : Type} : VmM α := fun _ => none

/-- The `n` bytes at `va` are in the part of the address space in which the kernel runs. -/
def KernelRange (va n : ℕ) : Prop := n = 0 ∨ kernbase ≤ va ∧ va + n ≤ 2 ^ 64

instance (va n : ℕ) : Decidable (KernelRange va n) := inferInstanceAs (Decidable (_ ∨ _))

/-- Read a `u64`. -/
def readWord (va : ℕ) : VmM ℕ := fun s =>
  if KernelRange va 8 then some (s.ram.readLe (v2p va) 8, s) else none

/-- Write a `u64`. -/
def writeWord (va v : ℕ) : VmM Unit := fun s =>
  if KernelRange va 8 then some ((), { s with ram := s.ram.writeLe (v2p va) 8 v }) else none

/-- `memset`. -/
def memset (va : ℕ) (c : BitVec 8) (n : ℕ) : VmM Unit := fun s =>
  if KernelRange va n then some ((), { s with ram := s.ram.memset (v2p va) c n }) else none

/-- `memmove`. -/
def memmove (dst src n : ℕ) : VmM Unit := fun s =>
  if KernelRange dst n ∧ KernelRange src n then
    some ((), { s with ram := s.ram.memmove (v2p dst) (v2p src) n })
  else none

/-- Find a block and reserve it. -/
def reserveBlock (size align maxAddr : ℕ) (purpose : Purpose) : VmM ℕ := fun s =>
  match memblockAllocBase s.memblock size align maxAddr with
  | .ok (m, alloc) =>
    some (alloc, { s with memblock := m, log := ⟨⟨alloc, size⟩, purpose⟩ :: s.log })
  | .error _ => none

namespace Vm

/-- `memblock_alloc_base`, which clears the block; `memset` takes the size as a `u32`. -/
def memblockAllocBase (size align maxAddr : ℕ) (purpose : Purpose) : VmM ℕ := do
  let alloc ← reserveBlock size align maxAddr purpose
  memset (p2v alloc) 0 (size % 2 ^ 32)
  return alloc

/-- `memblock_alloc`. -/
def memblockAlloc (size align : ℕ) (purpose : Purpose) : VmM ℕ :=
  memblockAllocBase size align memblockAllocAccessible purpose

/-- `memblock_alloc_kernel`. -/
def memblockAllocKernel (size align : ℕ) (purpose : Purpose) : VmM ℕ := do
  let alloc ← memblockAllocBase size align memblockAllocAccessible purpose
  return p2v alloc

end Vm

/-! ### Page walks -/

/-- One level of a walk: the table that the entry `idx` of the table `tab` points to.  If there is
none, it is allocated when `alloc` is set; otherwise the walk returns 0. -/
def walkLevel (tab idx : ℕ) (alloc : Bool) : VmM (Option ℕ) := do
  let next := p2v (← readWord (add64 tab (8 * idx)))
  if Present next then return some (pteAddr next)
  else if alloc = false then return none
  else
    let next ← Vm.memblockAllocKernel pgsize pgsize .pageTable
    if next = 0 then return none
    else
      memset next 0 512
      writeWord (add64 tab (8 * idx)) (v2p next ||| pteP ||| pteW ||| pteU)
      return some (pteAddr next)

/-- The three levels of a walk that lead to the page table for `va`. -/
def walkTables (pml4e va : ℕ) (alloc : Bool) : VmM (Option ℕ) := do
  match ← walkLevel pml4e (pml4x va) alloc with
  | none => return none
  | some pdpte =>
    match ← walkLevel pdpte (pdptx va) alloc with
    | none => return none
    | some pde => walkLevel pde (pdx va) alloc

/-- `page_walk`: the physical address that corresponds to `va`; the function
`page_walk_for_others` is the same. -/
def pageWalk (pml4e va : ℕ) (alloc : Bool) : VmM ℕ := do
  match ← walkTables pml4e va alloc with
  | none => return 0
  | some pte =>
    let pg ← readWord (add64 pte (8 * ptx va))
    return pg &&& 0xFFFFFFFFFFFFF000 ||| offset va

/-- `page_walk_return_pte`: the address of the entry for `va`. -/
def pageWalkReturnPte (pml4e va : ℕ) (alloc : Bool) : VmM ℕ := do
  match ← walkTables pml4e va alloc with
  | none => return 0
  | some pte => return add64 pte (8 * ptx va)

/-- The loop of `map_pages`. -/
def mapLoop (pml4 last perm : ℕ) : ℕ → ℕ → ℕ → VmM ℤ
  | 0, _, _ => stuck
  | n + 1, first, pa => do
    let pte ← pageWalkReturnPte pml4 first true
    if pte = 0 then return -1
    else if Present (← readWord pte) then stuck
    else
      writeWord pte (pa ||| perm ||| pteP)
      if first = last then return 0
      else mapLoop pml4 last perm n (add64 first pgsize) (add64 pa pgsize)

/-- `map_pages`: entries for the virtual addresses from `va` on, which lead to the physical
addresses from `pa` on. -/
def mapPages (pml4 va size pa perm : ℕ) : VmM ℤ :=
  let first := pgrounddown va
  let last := pgrounddown (sub64 (add64 va size) 1)
  mapLoop pml4 last perm (sub64 last first / pgsize + 1) first pa

/-! ### User memory -/

/-- `setup_user_memory_pages`: the page table of a new process, with one page at 0. -/
def setupUserMemoryPages : VmM ℕ := do
  let pml4 ← Vm.memblockAllocKernel pgsize pgsize .pageTable
  let pdpt ← Vm.memblockAllocKernel pgsize pgsize .pageTable
  let pgdir ← Vm.memblockAllocKernel pgsize pgsize .pageTable
  let pte ← Vm.memblockAllocKernel pgsize pgsize .pageTable
  memset pml4 0 512
  memset pdpt 0 512
  memset pgdir 0 512
  memset pte 0 512
  writeWord pml4 (v2p pdpt ||| pteP ||| pteW ||| pteU)
  let kernPml4 := (← get).kernPml4
  writeWord (add64 pml4 (8 * 511)) (← readWord (add64 kernPml4 (8 * 511)))
  writeWord pdpt (v2p pgdir ||| pteP ||| pteW ||| pteU)
  writeWord pgdir (v2p pte ||| pteP ||| pteW ||| pteU)
  let page ← Vm.memblockAlloc pgsize pgsize (.userMemory (v2p pml4))
  writeWord pte (page ||| pteP ||| pteW ||| pteU)
  return pml4

/-- The loop of `alloc_uvm`, with the variables `oldSizeAlign` and `mem`. -/
def allocUvmLoop (pml4 newSize : ℕ) : ℕ → ℕ → ℕ → VmM Unit
  | 0, _, _ => stuck
  | n + 1, oldSizeAlign, mem => do
    if oldSizeAlign < newSize then
      let _ ← mapPages pml4 oldSizeAlign pgsize mem (pteW ||| pteU)
      allocUvmLoop pml4 newSize n (add64 oldSizeAlign pgsize) (add64 mem pgsize)
    else return ()

/-- `alloc_uvm`: let a process grow from `oldSize` to `newSize` bytes; the new size is returned as
an `int`.  The loop ends after at most `newSize / PGSIZE + 1` pages, or never. -/
def allocUvm (pml4 oldSize newSize : ℕ) : VmM ℤ := do
  if newSize < oldSize then return toInt32 (oldSize % 2 ^ 32)
  else
    let mem ← Vm.memblockAlloc (newSize - oldSize) pgsize (.userMemory (v2p pml4))
    allocUvmLoop pml4 newSize (newSize / pgsize + 2) (pgroundup oldSize) mem
    return toInt32 (newSize % 2 ^ 32)

/-- The loop of `copy_uvm`, with the variables `va`, `buf` and `len`. -/
def copyUvmLoop (pml4 : ℕ) : ℕ → ℕ → ℕ → ℕ → VmM Unit
  | 0, _, _, _ => stuck
  | n + 1, va, buf, len => do
    if 0 < len then
      let vaAlign := pgrounddown va
      let ka := p2v (← pageWalk pml4 vaAlign false)
      let size := min (pgsize - (va - vaAlign)) len
      memmove (add64 ka (va - vaAlign)) buf size
      copyUvmLoop pml4 n (add64 vaAlign pgsize) (add64 buf size) (len - size)
    else return ()

/-- `copy_uvm`: copy `len` bytes from `src` to the address `va` of a process.  Every iteration
copies at least one byte. -/
def copyUvm (pml4 va src len : ℕ) : VmM Unit := copyUvmLoop pml4 (len + 1) va src len

/-! ### The page table of the kernel -/

/-- The inner loop of `vm_init`: the entries of a page table with an index below `n`. -/
def fillPt (kernPt pdOffset : ℕ) : ℕ → VmM Unit
  | 0 => return ()
  | n + 1 => do
    fillPt kernPt pdOffset n
    writeWord (add64 kernPt (8 * n)) (0x200000 * pdOffset + 0x1000 * n ||| pteW ||| pteP)

/-- The outer loop of `vm_init`: the page tables with an index below `n`. -/
def fillPd (kernPd : ℕ) : ℕ → VmM Unit
  | 0 => return ()
  | n + 1 => do
    fillPd kernPd n
    let kernPt ← Vm.memblockAllocKernel pgsize pgsize .pageTable
    writeWord (add64 kernPd (8 * n)) (v2p kernPt ||| pteW ||| pteP)
    fillPt kernPt n 512

/-- `vm_init`: the page table of the kernel. -/
def vmInit : VmM Unit := do
  let kernPml4 ← Vm.memblockAllocKernel pgsize pgsize .pageTable
  modify fun s => { s with kernPml4 }
  let kernPdpt ← Vm.memblockAllocKernel pgsize pgsize .pageTable
  writeWord (add64 kernPml4 (8 * 511)) (v2p kernPdpt ||| pteW ||| pteP)
  let kernPd ← Vm.memblockAllocKernel pgsize pgsize .pageTable
  writeWord (add64 kernPdpt (8 * 510)) (v2p kernPd ||| pteW ||| pteP)
  fillPd kernPd 256

/-! ### Calls that return -/

section Calls

variable {α β : Type} {s s' : VmState}

theorem vm_bind_eq_some {x : VmM α} {f : α → VmM β} {b : β} :
    (x >>= f) s = some (b, s') ↔ ∃ a s₁, x s = some (a, s₁) ∧ f a s₁ = some (b, s') := by
  show (x s).bind (fun p => f p.1 p.2) = some (b, s') ↔ _
  simp only [Option.bind_eq_some_iff, Prod.exists]

theorem vm_pure_eq_some {a b : α} :
    (pure a : VmM α) s = some (b, s') ↔ a = b ∧ s = s' := by
  show some (a, s) = some (b, s') ↔ _
  simp only [Option.some.injEq, Prod.mk.injEq]

theorem vm_get_eq_some {t : VmState} : (get : VmM VmState) s = some (t, s') ↔ s = t ∧ s = s' := by
  show some (s, s) = some (t, s') ↔ _
  simp only [Option.some.injEq, Prod.mk.injEq]

theorem readWord_eq_some {va v : ℕ} : readWord va s = some (v, s') ↔
    KernelRange va 8 ∧ s.ram.readLe (v2p va) 8 = v ∧ s = s' := by
  unfold readWord
  split_ifs with h <;> simp [h]

theorem writeWord_eq_some {va v : ℕ} {u : Unit} : writeWord va v s = some (u, s') ↔
    KernelRange va 8 ∧ { s with ram := s.ram.writeLe (v2p va) 8 v } = s' := by
  unfold writeWord
  split_ifs with h <;> simp [h]

theorem memset_eq_some {va n : ℕ} {c : BitVec 8} {u : Unit} : memset va c n s = some (u, s') ↔
    KernelRange va n ∧ { s with ram := s.ram.memset (v2p va) c n } = s' := by
  unfold memset
  split_ifs with h <;> simp [h]

theorem memmove_eq_some {dst src n : ℕ} {u : Unit} : memmove dst src n s = some (u, s') ↔
    KernelRange dst n ∧ KernelRange src n ∧
      { s with ram := s.ram.memmove (v2p dst) (v2p src) n } = s' := by
  unfold memmove
  split_ifs with h
  · simp [h]
  · simp only [false_iff]
    tauto

theorem reserveBlock_eq_some {size align maxAddr p : ℕ} {purpose : Purpose} :
    reserveBlock size align maxAddr purpose s = some (p, s') ↔
      ∃ m, memblockAllocBase s.memblock size align maxAddr = .ok (m, p) ∧
        { s with memblock := m, log := ⟨⟨p, size⟩, purpose⟩ :: s.log } = s' := by
  unfold reserveBlock
  split
  · rename_i m alloc h
    rw [h]
    simp only [Option.some.injEq, Prod.mk.injEq, Except.ok.injEq]
    constructor
    · rintro ⟨rfl, rfl⟩
      exact ⟨m, ⟨rfl, rfl⟩, rfl⟩
    · rintro ⟨m', ⟨rfl, rfl⟩, rfl⟩
      exact ⟨rfl, rfl⟩
  · rename_i e h
    simp [h]

end Calls

end MicroKernel
