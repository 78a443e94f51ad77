import MicroKernel.System.Run
import MicroKernel.Vm.PageTable

/-!
# The loader

`load_plugin` works on an ELF file that was read into a buffer: it sets up a process, lets it grow
to the end of each loadable segment and copies the segment, and at last adds two pages with the
stack.  What a load writes while it goes on is seen step by step: a program header is read, the
stack is laid out, or the loop of `copy_uvm` makes one `memmove`.

* `loadPlugin` : the function;
* `loadSystem` : its steps;
* `loadPlugin_run` : a load that returns is a run.
-/

namespace MicroKernel

/-! ### The file -/

/-- The fields of `ElfHdr` that the loader reads. -/
structure ElfHdr where
  /-- Where the program headers are. -/
  phoff : ℕ
  /-- How many there are. -/
  phnum : ℕ

/-- `struct ProgHdr`, without the fields that play no part in a load. -/
structure ProgHdr where
  /-- The kind of segment. -/
  type : ℕ
  /-- Where its bytes are in the file. -/
  off : ℕ
  /-- Its address. -/
  vaddr : ℕ
  /-- The number of bytes in the file. -/
  filesz : ℕ
  /-- The number of bytes in memory. -/
  memsz : ℕ
  deriving DecidableEq

/-- `ELF_MAGIC`. -/
def elfMagic : ℕ := 0x464C457F

/-- `ELF_PROG_LOAD`. -/
def elfProgLoad : ℕ := 1

/-- `sizeof(ElfHdr)`. -/
def sizeofElfHdr : ℕ := 64

/-- `sizeof(struct ProgHdr)`. -/
def sizeofProgHdr : ℕ := 56

/-- `PGSIZE*16`, the size of the buffer. -/
def bufferSize : ℕ := 16 * pgsize

/-- The ELF header at a physical address. -/
def elfHdrAt (ram : Ram) (a : ℕ) : ElfHdr := ⟨ram.readLe (a + 32) 8, ram.readLe (a + 56) 2⟩

/-- The program header at a physical address. -/
def progHdrAt (ram : Ram) (a : ℕ) : ProgHdr where
  type := ram.readLe a 4
  off := ram.readLe (a + 8) 8
  vaddr := ram.readLe (a + 16) 8
  filesz := ram.readLe (a + 32) 8
  memsz := ram.readLe (a + 40) 8

/-- `elf = *(ElfHdr*)(pluginElf)`. -/
def readElfHdr (va : ℕ) : VmM ElfHdr := fun s =>
  if KernelRange va sizeofElfHdr then some (elfHdrAt s.ram (v2p va), s) else none

/-- `progHdr = *(struct ProgHdr*)(va)`. -/
def readProgHdr (va : ℕ) : VmM ProgHdr := fun s =>
  if KernelRange va sizeofProgHdr then some (progHdrAt s.ram (v2p va), s) else none

/-- An `int` as a `u64`. -/
def ofInt (r : ℤ) : ℕ := (r % 2 ^ 64).toNat

/-- `off = elf.phoff`, which is an `int`. -/
def ElfHdr.off (elf : ElfHdr) : ℤ := toInt32 (elf.phoff % 2 ^ 32)

/-- `off += sizeof(progHdr)`. -/
def nextOff (off : ℤ) : ℤ := toInt32 (add64 (ofInt off) sizeofProgHdr % 2 ^ 32)

/-- `pluginElf + off / 4`, where `pluginElf` points to `u32`s. -/
def hdrAddr (pluginElf : ℕ) (off : ℤ) : ℕ := add64 pluginElf (ofInt (4 * off.tdiv 4))

/-! ### Copies -/

/-- Where `copy_uvm` copies from. -/
inductive Source where
  /-- Memory. -/
  | memory (buf : ℕ)
  /-- An array on the kernel's stack. -/
  | array (f : ℕ → BitVec 8)

namespace Source

/-- Without the first `n` bytes. -/
def drop (n : ℕ) : Source → Source
  | .memory buf => .memory (add64 buf n)
  | .array f => .array fun i => f (n + i)

/-- `memmove(dst, buf, n)`. -/
def move (dst n : ℕ) : Source → VmM Unit
  | .memory buf => memmove dst buf n
  | .array f => fun s =>
    if KernelRange dst n then some ((), { s with ram := s.ram.writeBytes (v2p dst) n f }) else none

/-- The bytes that are copied. -/
def bytes (ram : Ram) : Source → ℕ → BitVec 8
  | .memory buf => fun i => ram (v2p buf + i)
  | .array f => f

end Source

/-- The variables of `copy_uvm`. -/
structure CopyCall where
  /-- The address in the process. -/
  va : ℕ
  /-- What is left to copy. -/
  buf : Source
  /-- Its length; nothing is left when no call runs. -/
  len : ℕ

namespace CopyCall

/-- The bytes that go to the page of `va`. -/
def size (c : CopyCall) : ℕ := min (pgsize - (c.va - pgrounddown c.va)) c.len

/-- The variables after one iteration. -/
def next (c : CopyCall) : CopyCall :=
  ⟨add64 (pgrounddown c.va) pgsize, c.buf.drop c.size, c.len - c.size⟩

/-- One iteration of the loop of `copy_uvm`, up to the new values of the variables. -/
def copyPage (pml4 : ℕ) (c : CopyCall) : VmM Unit := do
  let ka := p2v (← pageWalk pml4 (pgrounddown c.va) false)
  c.buf.move (add64 ka (c.va - pgrounddown c.va)) c.size

/-- The loop of `copy_uvm`. -/
def copyLoop (pml4 : ℕ) : ℕ → CopyCall → VmM Unit
  | 0, _ => stuck
  | n + 1, c => do
    if 0 < c.len then
      c.copyPage pml4
      copyLoop pml4 n c.next
    else return ()

end CopyCall

/-! ### The function -/

/-- The loop over the program headers, with the variables `off` and `size`; there are
`elf.phnum - cnt` headers left. -/
def loadHeaders (pml4 pluginElf : ℕ) : ℕ → ℤ → ℕ → VmM ℕ
  | 0, _, size => return size
  | n + 1, off, size => do
    let progHdr ← readProgHdr (hdrAddr pluginElf off)
    if progHdr.type ≠ elfProgLoad then loadHeaders pml4 pluginElf n (nextOff off) size
    else
      let r ← allocUvm pml4 size (add64 progHdr.vaddr progHdr.memsz)
      copyUvm pml4 progHdr.vaddr (add64 pluginElf progHdr.off) progHdr.memsz
      loadHeaders pml4 pluginElf n (nextOff off) (ofInt r)

/-- The bytes of the array `uStack`: a return address, `argc`, the pointer to the arguments and the
end of the arguments. -/
def uStack (stackPoint : ℕ) (i : ℕ) : BitVec 8 :=
  BitVec.ofNat 8 ([0xffffffff, 0, sub64 stackPoint 8, 0].getD (i / 8) 0 / 256 ^ (i % 8))

/-- What `load_plugin` stores in the thread. -/
structure Plugin where
  /-- `pml4`. -/
  pml4 : ℕ
  /-- `size`. -/
  size : ℕ
  /-- `tf->rsp`. -/
  rsp : ℕ
  /-- `tcbIPCBuffer`. -/
  tcbIPCBuffer : ℕ

/-- `page_walk_for_others` has the body of `page_walk`. -/
def pageWalkForOthers (pml4 va : ℕ) (alloc : Bool) : VmM ℕ := pageWalk pml4 va alloc

/-- The part of `load_plugin` that follows the reads from the disk, for a file in the buffer
`pluginElf`. -/
def loadPlugin (pluginElf : ℕ) : VmM Plugin := do
  let elf ← readElfHdr pluginElf
  let pml4 ← setupUserMemoryPages
  let size ← loadHeaders pml4 pluginElf elf.phnum elf.off 4096
  let r ← allocUvm pml4 (pgroundup size) (add64 (pgroundup size) (2 * pgsize))
  let stackPoint := sub64 (ofInt r) 32
  CopyCall.copyLoop pml4 33 ⟨stackPoint, .array (uStack (ofInt r)), 32⟩
  let buffer ← pageWalkForOthers pml4 0x2000 false
  return ⟨pml4, ofInt r, stackPoint, p2v buffer⟩

/-! ### The steps -/

/-- A load under way. -/
structure Loader where
  /-- The memory. -/
  vm : VmState
  /-- How many headers are left, `elf.phnum - cnt`. -/
  left : ℕ
  /-- The variable `off`. -/
  off : ℤ
  /-- The variable `size`. -/
  size : ℕ
  /-- The call of `copy_uvm`. -/
  call : CopyCall
  /-- The stack was laid out. -/
  stacked : Bool

/-- What a load does. -/
inductive LoadEvent where
  /-- A header is read; for a loadable segment, `alloc_uvm` is called and `copy_uvm` starts. -/
  | header (progHdr : ProgHdr)
  /-- After the last header, `alloc_uvm` is called for the stack and `copy_uvm` starts. -/
  | stack
  /-- `copy_uvm` copies to a page. -/
  | copy

/-- No call of `copy_uvm`. -/
def CopyCall.none : CopyCall := ⟨0, .memory 0, 0⟩

/-- The process is set up. -/
def Loader.start (vm : VmState) (elf : ElfHdr) : Loader :=
  ⟨vm, elf.phnum, elf.off, 4096, .none, false⟩

/-- The next header. -/
def Loader.skip (l : Loader) : Loader := { l with left := l.left - 1, off := nextOff l.off }

/-- `copy_uvm` is called for a segment, after `alloc_uvm` returned `r`. -/
def Loader.segment (l : Loader) (pluginElf : ℕ) (progHdr : ProgHdr) (r : ℤ) (vm : VmState) :
    Loader where
  vm := vm
  left := l.left - 1
  off := nextOff l.off
  size := ofInt r
  call := ⟨progHdr.vaddr, .memory (add64 pluginElf progHdr.off), progHdr.memsz⟩
  stacked := l.stacked

/-- `copy_uvm` is called for the stack, after `alloc_uvm` returned `r`. -/
def Loader.stack (l : Loader) (r : ℤ) (vm : VmState) : Loader where
  vm := vm
  left := l.left
  off := l.off
  size := ofInt r
  call := ⟨sub64 (ofInt r) 32, .array (uStack (ofInt r)), 32⟩
  stacked := true

/-- The steps of a load to the process with the page table `pml4`. -/
def loadSystem (pml4 pluginElf : ℕ) : System Loader LoadEvent where
  step l e l' :=
    match e with
    | .header progHdr => l.call.len = 0 ∧ 0 < l.left ∧
        readProgHdr (hdrAddr pluginElf l.off) l.vm = some (progHdr, l.vm) ∧
        if progHdr.type ≠ elfProgLoad then l' = l.skip
        else ∃ r vm, allocUvm pml4 l.size (add64 progHdr.vaddr progHdr.memsz) l.vm = some (r, vm) ∧
          l' = l.segment pluginElf progHdr r vm
    | .stack => l.call.len = 0 ∧ l.left = 0 ∧ l.stacked = false ∧
        ∃ r vm, allocUvm pml4 (pgroundup l.size) (add64 (pgroundup l.size) (2 * pgsize)) l.vm =
            some (r, vm) ∧ l' = l.stack r vm
    | .copy => 0 < l.call.len ∧
        ∃ vm, l.call.copyPage pml4 l.vm = some ((), vm) ∧ l' = { l with vm, call := l.call.next }

/-! ### The function and its steps -/

section Refinement

variable {pml4 pluginElf : ℕ} {s s' : VmState}

/-- The function `copy_uvm` is the loop for a source in memory. -/
theorem copyUvmLoop_eq (n : ℕ) : ∀ va buf len, copyUvmLoop pml4 n va buf len =
    CopyCall.copyLoop pml4 n ⟨va, .memory buf, len⟩ := by
  induction n with
  | zero => exact fun _ _ _ => rfl
  | succ n ih =>
    intro va buf len
    simp only [copyUvmLoop, CopyCall.copyLoop, CopyCall.copyPage, CopyCall.next, CopyCall.size,
      Source.move, Source.drop, ih, bind_assoc]

theorem readProgHdr_eq_some {va : ℕ} {h : ProgHdr} : readProgHdr va s = some (h, s') ↔
    KernelRange va sizeofProgHdr ∧ progHdrAt s.ram (v2p va) = h ∧ s = s' := by
  unfold readProgHdr
  split_ifs with hrange <;> simp [hrange]

theorem readElfHdr_eq_some {va : ℕ} {elf : ElfHdr} : readElfHdr va s = some (elf, s') ↔
    KernelRange va sizeofElfHdr ∧ elfHdrAt s.ram (v2p va) = elf ∧ s = s' := by
  unfold readElfHdr
  split_ifs with hrange <;> simp [hrange]

theorem copyLoop_run (pluginElf n : ℕ) : ∀ {l : Loader} {vm : VmState} {u : Unit},
    l.call.copyLoop pml4 n l.vm = some (u, vm) →
      ∃ tr c, (loadSystem pml4 pluginElf).Run l tr { l with vm, call := c } ∧ c.len = 0 := by
  induction n with
  | zero => exact fun hcall => nomatch hcall
  | succ n ih =>
    intro l vm u hcall
    rw [CopyCall.copyLoop] at hcall
    by_cases hlen : 0 < l.call.len
    · simp only [hlen, if_true, vm_bind_eq_some] at hcall
      obtain ⟨u₁, vm₁, hpage, hrest⟩ := hcall
      have hstep : (loadSystem pml4 pluginElf).step l .copy
          { l with vm := vm₁, call := l.call.next } := ⟨hlen, vm₁, hpage, rfl⟩
      obtain ⟨tr, c, hrun, hc⟩ := ih (l := { l with vm := vm₁, call := l.call.next }) hrest
      exact ⟨_, c, hrun.cons hstep, hc⟩
    · simp only [hlen, if_false, vm_pure_eq_some] at hcall
      obtain ⟨-, rfl⟩ := hcall
      exact ⟨[], l.call, .nil l, Nat.eq_zero_of_not_pos hlen⟩

theorem loadHeaders_run (n : ℕ) : ∀ {l : Loader} {size : ℕ} {vm : VmState},
    l.left = n → l.call.len = 0 → l.stacked = false →
      loadHeaders pml4 pluginElf n l.off l.size l.vm = some (size, vm) →
      ∃ tr l', (loadSystem pml4 pluginElf).Run l tr l' ∧ l'.vm = vm ∧ l'.left = 0 ∧
        l'.size = size ∧ l'.call.len = 0 ∧ l'.stacked = false := by
  induction n with
  | zero =>
    intro l size vm hleft hlen hstacked hcall
    obtain ⟨hsize, hvm⟩ := vm_pure_eq_some.1 hcall
    exact ⟨[], l, .nil l, hvm, hleft, hsize, hlen, hstacked⟩
  | succ n ih =>
    intro l size vm hleft hlen hstacked hcall
    simp only [loadHeaders, vm_bind_eq_some] at hcall
    obtain ⟨progHdr, s₁, hread, hcall⟩ := hcall
    obtain rfl := (readProgHdr_eq_some.1 hread).2.2
    have hpos : 0 < l.left := hleft ▸ Nat.succ_pos n
    have hpred : l.left - 1 = n := by rw [hleft, Nat.add_sub_cancel]
    by_cases htype : progHdr.type ≠ elfProgLoad
    · rw [if_pos htype] at hcall
      have hstep : (loadSystem pml4 pluginElf).step l (.header progHdr) l.skip :=
        ⟨hlen, hpos, hread, by rw [if_pos htype]⟩
      obtain ⟨tr, l', hrun, hrest⟩ := ih (l := l.skip) hpred hlen hstacked hcall
      exact ⟨_, l', hrun.cons hstep, hrest⟩
    · rw [if_neg htype] at hcall
      simp only [vm_bind_eq_some] at hcall
      obtain ⟨r, s₂, halloc, u₁, s₃, hcopy, hcall⟩ := hcall
      have hstep : (loadSystem pml4 pluginElf).step l (.header progHdr)
          (l.segment pluginElf progHdr r s₂) :=
        ⟨hlen, hpos, hread, by rw [if_neg htype]; exact ⟨r, s₂, halloc, rfl⟩⟩
      rw [copyUvm, copyUvmLoop_eq] at hcopy
      obtain ⟨tr₁, c, hrun₁, hc⟩ :=
        copyLoop_run pluginElf _ (l := l.segment pluginElf progHdr r s₂) hcopy
      obtain ⟨tr₂, l', hrun₂, hrest⟩ :=
        ih (l := { l.segment pluginElf progHdr r s₂ with vm := s₃, call := c }) hpred hc hstacked
          hcall
      exact ⟨_, l', (hrun₁.append hrun₂).cons hstep, hrest⟩

/-- A load that returns is a run, which ends when the stack was copied. -/
theorem loadPlugin_run {p : Plugin} (hcall : loadPlugin pluginElf s = some (p, s')) :
    ∃ s₁ tr l buffer, setupUserMemoryPages s = some (p.pml4, s₁) ∧
      (loadSystem p.pml4 pluginElf).Run (.start s₁ (elfHdrAt s.ram (v2p pluginElf))) tr l ∧
      l.stacked = true ∧ l.call.len = 0 ∧
      pageWalkForOthers p.pml4 0x2000 false l.vm = some (buffer, s') ∧
      p = ⟨p.pml4, l.size, sub64 l.size 32, p2v buffer⟩ := by
  simp only [loadPlugin, vm_bind_eq_some, vm_pure_eq_some] at hcall
  obtain ⟨elf, s₀, helf, pml4, s₁, hsetup, size, s₂, hheaders, r, s₃, halloc, u₁, s₄, hcopy, buffer,
    s₅, hwalk, hp, hs⟩ := hcall
  obtain ⟨-, hread, rfl⟩ := readElfHdr_eq_some.1 helf
  subst hp hs
  rw [hread]
  obtain ⟨tr₁, l₁, hrun₁, rfl, hleft, rfl, hlen, hstacked⟩ :=
    loadHeaders_run elf.phnum (l := .start s₁ elf) rfl rfl rfl hheaders
  have hstep : (loadSystem pml4 pluginElf).step l₁ .stack (l₁.stack r s₃) :=
    ⟨hlen, hleft, hstacked, r, s₃, halloc, rfl⟩
  obtain ⟨tr₂, c, hrun₂, hc⟩ := copyLoop_run pluginElf _ (l := l₁.stack r s₃) hcopy
  exact ⟨s₁, _, _, buffer, hsetup, (hrun₁.snoc hstep).append hrun₂, rfl, hc, hwalk, rfl⟩

end Refinement

end MicroKernel
