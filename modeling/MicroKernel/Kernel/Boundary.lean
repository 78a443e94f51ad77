import MicroKernel.Kernel.Frames
import MicroKernel.X86.Machine

/-!
# The registers at the boundary of the kernel

A trap puts the registers on the kernel stack of the thread, where they are the trap frame that the
kernel works with, and the way back loads them from there.  A new thread has a stack that
`alloc_proc` laid out by hand, so that its first dispatch takes the way back too.

* `Asm.alltraps`, `Asm.trapret`, `Asm.swtch` : the code in assembly;
* `Asm.Trapframe`, `Asm.allocProc` : the layout of the stack as the functions in C have it;
* `Asm.trap_returns` : what a trap does to the registers;
* `Asm.dispatch_enters` : the first dispatch of a thread;
* `Asm.registers_kept` : both.
-/

namespace MicroKernel

namespace Asm

open X86

/-! ### The code in assembly -/

/-- The traps for which the processor itself pushes an error code. -/
def hasErrorCode (n : ℕ) : Bool := n = 8 ∨ 10 ≤ n ∧ n ≤ 14 ∨ n = 17

/-- The code at `vector n`, up to the jump to `alltraps`. -/
def vector (n : ℕ) : List Instr :=
  (if hasErrorCode n then [] else [.pushImm 0]) ++ [.pushImm (BitVec.ofNat 64 n)]

/-- `alltraps`, up to the call of `trap`. -/
def alltraps : List Instr :=
  [.push .r15, .push .r14, .push .r13, .push .r12, .push .r11, .push .r10, .push .r9, .push .r8,
    .push .rdi, .push .rsi, .push .rbp, .push .rdx, .push .rcx, .push .rbx, .push .rax,
    .mov .rsp .rdi]

/-- `trapret`. -/
def trapret : List Instr :=
  [.pop .rax, .pop .rbx, .pop .rcx, .pop .rdx, .pop .rbp, .pop .rsi, .pop .rdi, .pop .r8, .pop .r9,
    .pop .r10, .pop .r11, .pop .r12, .pop .r13, .pop .r14, .pop .r15, .addImm 16 .rsp, .iretq]

/-- `swtch`. -/
def swtch : List Instr :=
  [.push .rbp, .push .rbx, .push .r11, .push .r12, .push .r13, .push .r14, .push .r15,
    .store .rsp .rdi, .mov .rsi .rsp,
    .pop .r15, .pop .r14, .pop .r13, .pop .r12, .pop .r11, .pop .rbx, .pop .rbp, .ret]

/-- What the processor loads when it enters the kernel. -/
structure Gate where
  /-- The stack of the kernel. -/
  rsp : U64
  /-- The address of the handler. -/
  rip : U64
  /-- The code segment of the kernel. -/
  cs : BitVec 16
  /-- The stack segment of the kernel. -/
  ss : BitVec 16
  /-- The flags. -/
  rflags : U64

/-- The processor is in the kernel. -/
def Gate.enter (g : Gate) (c : Cpu) : Cpu :=
  ⟨Function.update c.reg .rsp g.rsp, g.rip, g.cs, g.ss, g.rflags, c.mem⟩

/-- The processor is interrupted: it pushes the registers that it has changed. -/
def interrupt (g : Gate) (n : ℕ) (err : U64) (c : Cpu) : Cpu :=
  let k := (g.enter c).pushWord (c.ss.setWidth 64)
  let k := k.pushWord (c.reg .rsp)
  let k := k.pushWord c.rflags
  let k := k.pushWord (c.cs.setWidth 64)
  let k := k.pushWord c.rip
  if hasErrorCode n then k.pushWord err else k

/-! ### The structures in C -/

/-- `struct Trapframe_t`. -/
structure Trapframe where
  /-- The system call and its result. -/
  rax : U64
  /-- A general register, as those that follow. -/
  rbx : U64
  rcx : U64
  rdx : U64
  rbp : U64
  rsi : U64
  rdi : U64
  r8 : U64
  r9 : U64
  r10 : U64
  r11 : U64
  r12 : U64
  r13 : U64
  r14 : U64
  r15 : U64
  /-- The kind of trap. -/
  trapno : U64
  /-- The error code. -/
  err : U64
  /-- Where the code was interrupted. -/
  rip : U64
  /-- The code segment. -/
  cs : U64
  /-- The flags. -/
  eflags : U64
  /-- The stack pointer. -/
  rsp : U64
  /-- The stack segment. -/
  ds : U64

/-- `sizeof(Trapframe)`. -/
def sizeofTrapframe : ℕ := 176

/-- `sizeof(Context)`: seven registers and `rip`. -/
def sizeofContext : ℕ := 64

/-- The frame at an address. -/
def frameAt (m : Ram) (tf : ℕ) : Trapframe where
  rax := m.load64 tf
  rbx := m.load64 (tf + 8)
  rcx := m.load64 (tf + 16)
  rdx := m.load64 (tf + 24)
  rbp := m.load64 (tf + 32)
  rsi := m.load64 (tf + 40)
  rdi := m.load64 (tf + 48)
  r8 := m.load64 (tf + 56)
  r9 := m.load64 (tf + 64)
  r10 := m.load64 (tf + 72)
  r11 := m.load64 (tf + 80)
  r12 := m.load64 (tf + 88)
  r13 := m.load64 (tf + 96)
  r14 := m.load64 (tf + 104)
  r15 := m.load64 (tf + 112)
  trapno := m.load64 (tf + 120)
  err := m.load64 (tf + 128)
  rip := m.load64 (tf + 136)
  cs := m.load64 (tf + 144)
  eflags := m.load64 (tf + 152)
  rsp := m.load64 (tf + 160)
  ds := m.load64 (tf + 168)

/-- The field with the name of the register. -/
def Trapframe.reg (f : Trapframe) : Reg → U64
  | .rax => f.rax
  | .rbx => f.rbx
  | .rcx => f.rcx
  | .rdx => f.rdx
  | .rbp => f.rbp
  | .rsi => f.rsi
  | .rdi => f.rdi
  | .r8 => f.r8
  | .r9 => f.r9
  | .r10 => f.r10
  | .r11 => f.r11
  | .r12 => f.r12
  | .r13 => f.r13
  | .r14 => f.r14
  | .r15 => f.r15
  | .rsp => f.rsp

/-- The frame with another result. -/
def Trapframe.setRax (f : Trapframe) (v : U64) : Trapframe := { f with rax := v }

/-- The code that was interrupted goes on with the registers of the frame. -/
structure Resumes (c : Cpu) (f : Trapframe) : Prop where
  /-- The general registers. -/
  reg : ∀ r, c.reg r = f.reg r
  /-- Where it goes on. -/
  rip : c.rip = f.rip
  /-- The code segment. -/
  cs : c.cs.setWidth 64 = f.cs
  /-- The flags. -/
  rflags : c.rflags = f.eflags
  /-- The stack segment. -/
  ss : c.ss.setWidth 64 = f.ds

/-- The general registers in the order in which they are in the frame, without the stack pointer. -/
def savedRegs : List Reg :=
  [.rax, .rbx, .rcx, .rdx, .rbp, .rsi, .rdi, .r8, .r9, .r10, .r11, .r12, .r13, .r14, .r15]

/-- The words of a frame that the processor pushes and pops itself. -/
def Trapframe.iretWords (f : Trapframe) : List U64 := [f.rip, f.cs, f.eflags, f.rsp, f.ds]

/-- All words of a frame. -/
def Trapframe.words (f : Trapframe) : List U64 :=
  savedRegs.map f.reg ++ ([f.trapno, f.err] ++ f.iretWords)

/-! ### The functions in C -/

/-- The frame as the model of the kernel has it. -/
def Trapframe.abs (f : Trapframe) : MicroKernel.Trapframe :=
  ⟨f.rax, f.rdi, f.rsi, f.rdx, f.rcx, f.r8, f.r9, f.trapno⟩

/-- `NELEM(syscalls)`. -/
def nelemSyscalls : ℤ := 7

/-- The functions that the code in assembly calls or jumps to, and their addresses. -/
structure Kernel where
  /-- The address of `forkret`. -/
  forkretAddr : U64
  /-- The address of `trapret`. -/
  trapretAddr : U64
  /-- They are different. -/
  ne : trapretAddr ≠ forkretAddr
  /-- What `cprintf` leaves in memory. -/
  cprintf : Ram → Ram
  /-- The address of `ksCurThread->tf`. -/
  tfField : Ram → ℕ
  /-- The table of the system calls: the result and the memory, if the call returns. -/
  syscalls : ℤ → Ram → Option (BitVec 32 × Ram)

namespace Kernel

variable (K : Kernel)

/-- `ksCurThread->tf`. -/
def curTf (m : Ram) : ℕ := (m.load64 (K.tfField m)).toNat

/-- `syscall`. -/
def syscall (m : Ram) : Option Ram := do
  let num := ((frameAt m (K.curTf m)).rax.setWidth 32).toInt
  if 0 < num ∧ num < nelemSyscalls then
    let (result, m) ← K.syscalls num m
    return m.store64 (K.curTf m) (result.signExtend 64)
  else none

/-- `trap`. -/
def trap (tf : U64) (m : Ram) : Option Ram :=
  if (frameAt m tf.toNat).trapno = tSyscall then K.syscall (m.store64 (K.tfField m) tf)
  else some m

/-- The memory as `trap` finds it: the field `tf` of the current thread is not a part of the frame,
and the system call leaves the current thread and the frame as they are. -/
structure Undisturbed (tf : U64) (m : Ram) : Prop where
  /-- The field is not a part of the frame. -/
  apart : K.tfField m + 8 ≤ tf.toNat ∨ tf.toNat + sizeofTrapframe ≤ K.tfField m
  /-- Writing to it does not change which thread is the current one. -/
  field : K.tfField (m.store64 (K.tfField m) tf) = K.tfField m
  /-- The thread is the current one after the system call. -/
  current : ∀ num result m', K.syscalls num (m.store64 (K.tfField m) tf) = some (result, m') →
    K.curTf m' = tf.toNat
  /-- The frame. -/
  frame : ∀ num result m', K.syscalls num (m.store64 (K.tfField m) tf) = some (result, m') →
    ∀ a ∈ Set.Ico tf.toNat (tf.toNat + sizeofTrapframe), m' a = m.store64 (K.tfField m) tf a

end Kernel

/-- What `rax` of a frame holds when `trap` has returned. -/
structure Kernel.Result (K : Kernel) (tf : U64) (m : Ram) (v : U64) : Prop where
  /-- The result of the system call. -/
  syscall : (frameAt m tf.toNat).trapno = tSyscall →
    ∃ result m', K.syscalls ((frameAt m tf.toNat).rax.setWidth 32).toInt
      (m.store64 (K.tfField m) tf) = some (result, m') ∧ v = result.signExtend 64
  /-- What it held before. -/
  other : (frameAt m tf.toNat).trapno ≠ tSyscall → v = (frameAt m tf.toNat).rax

/-- A call of a compiled function, from the instruction to its return: the memory from the top of
the stack on is what the function leaves there, and any register but the stack pointer may have
changed. -/
def Calls (effect : Ram → Option Ram) (c c' : Cpu) : Prop :=
  c'.reg .rsp = c.reg .rsp ∧
    ∃ m, effect c.mem = some m ∧ ∀ a, (c.reg .rsp).toNat ≤ a → c'.mem a = m a

/-- A compiled function, from its first instruction to its return. -/
def Returns (effect : Ram → Ram) (c c' : Cpu) : Prop :=
  c'.rip = c.top ∧ c'.reg .rsp = c.reg .rsp + 8 ∧
    ∀ a, (c.reg .rsp).toNat + 8 ≤ a → c'.mem a = effect c.mem a

theorem Returns.stacked {effect : Ram → Ram} {c c' : Cpu} {w : U64} {ws : List U64}
    (h : Stacked c (w :: ws)) (hret : Returns effect c c')
    (hkeep : ∀ a ∈ Set.Ico ((c.reg .rsp).toNat + 8) ((c.reg .rsp).toNat + 8 + 8 * ws.length),
      effect c.mem a = c.mem a) : c'.rip = w ∧ Stacked c' ws := by
  obtain ⟨hrip, hrsp, hmem⟩ := hret
  have hlt := h.lt
  rw [List.length_cons] at hlt
  have hrsp' : (c'.reg .rsp).toNat = (c.reg .rsp).toNat + 8 := by
    rw [hrsp, toNat_add_eight (by omega)]
  refine ⟨hrip.trans h.top, by rw [hrsp']; omega, ?_⟩
  rw [hrsp']
  exact h.words.2.congr fun a ha => ((hmem a ha.1).trans (hkeep a ha)).symm

/-- The code at the address of the last jump runs until it jumps itself. -/
inductive Kernel.Continues (K : Kernel) (c : Cpu) : Cpu → Prop
  /-- `forkret`, which calls `cprintf`. -/
  | forkret {c' : Cpu} : c.rip = K.forkretAddr → Returns K.cprintf c c' → K.Continues c c'
  /-- The way back. -/
  | trapret : c.rip = K.trapretAddr → K.Continues c (run trapret c)

/-! ### A new thread -/

/-- What `alloc_proc` sets up. -/
structure NewProc where
  /-- The memory. -/
  mem : Ram
  /-- `tcb->tf`. -/
  tf : ℕ
  /-- `tcb->context`. -/
  context : ℕ

/-- `alloc_proc`, for the kernel stack that was allocated. -/
def allocProc (K : Kernel) (kStack : ℕ) (m : Ram) : NewProc :=
  let sp := kStack + pgsize
  let sp := sp - sizeofTrapframe
  let tf := sp
  let sp := sp - 8
  let m := m.store64 sp K.trapretAddr
  let sp := sp - sizeofContext
  let m := m.memset sp 0 sizeofContext
  ⟨m.store64 (sp + 56) K.forkretAddr, tf, sp⟩

/-- The fields of the frame that `load_plugin` fills. -/
def fillFrame (tf : ℕ) (rdi rsi rip rsp : U64) (m : Ram) : Ram :=
  let m := m.store64 (tf + 48) rdi
  let m := m.store64 (tf + 40) rsi
  let m := m.store64 (tf + 136) rip
  let m := m.store64 (tf + 160) rsp
  let m := m.store64 (tf + 144) (4 <<< 3 ||| 3)
  let m := m.store64 (tf + 168) (5 <<< 3 ||| 3)
  m.store64 (tf + 152) 0

/-- The memory when `load_plugin` has filled the frame of a thread that `alloc_proc` prepared. -/
def loadedMem (K : Kernel) (kStack : ℕ) (rdi rsi rip rsp : U64) (m : Ram) : Ram :=
  fillFrame (allocProc K kStack m).tf rdi rsi rip rsp (allocProc K kStack m).mem

/-- The frame of this thread. -/
def loadedFrame (K : Kernel) (kStack : ℕ) (rdi rsi rip rsp : U64) (m : Ram) : Trapframe :=
  frameAt (loadedMem K kStack rdi rsi rip rsp m) (allocProc K kStack m).tf

/-! ### Frames -/

section Frames

variable {c : Cpu} {f : Trapframe} {m m' : Ram} {a : ℕ} {ws : List U64}

theorem words_frameAt (m : Ram) (a : ℕ) : m.Words a (frameAt m a).words := by
  simp [Ram.Words, Trapframe.words, savedRegs, Trapframe.reg, Trapframe.iretWords, frameAt,
    Nat.add_assoc]

theorem frameAt_eq (h : m.Words a f.words) : frameAt m a = f := by
  simp only [Ram.Words, Trapframe.words, savedRegs, Trapframe.reg, Trapframe.iretWords, List.map,
    List.cons_append, List.nil_append, Nat.add_assoc, Nat.reduceAdd] at h
  cases f
  simp_all [frameAt]

theorem length_words (f : Trapframe) : 8 * f.words.length = sizeofTrapframe := rfl

theorem frameAt_congr (h : ∀ b ∈ Set.Ico a (a + sizeofTrapframe), m' b = m b) :
    frameAt m' a = frameAt m a :=
  frameAt_eq ((words_frameAt m a).congr fun b hb => (h b hb).symm)

theorem frameAt_store_rax (v : U64) : frameAt (m.store64 a v) a = (frameAt m a).setRax v := by
  simp (disch := omega) only [frameAt, Trapframe.setRax, Ram.load64_store64,
    Ram.load64_store64_of_disjoint]

/-- The way back, from the frame on the stack: every general register, and what the processor pops
itself, is what the field of its name holds. -/
theorem resumes_of_stacked (h : Stacked c f.words) (hcs : (f.cs.setWidth 16).setWidth 64 = f.cs)
    (hds : (f.ds.setWidth 16).setWidth 64 = f.ds) : Resumes (run trapret c) f := by
  have hcode : trapret = savedRegs.map .pop ++ [.addImm 16 .rsp, .iretq] := rfl
  rw [hcode, run_append, run_cons, run_cons, run_nil]
  obtain ⟨-, -, hstacked, hloaded, -⟩ :=
    h.run_pop (by decide : savedRegs.Nodup) (by decide) (List.length_map _).symm
  generalize run (savedRegs.map .pop) c = c₁ at hstacked hloaded ⊢
  have hlen : (16 : U64).toNat = 8 * [f.trapno, f.err].length := rfl
  have hiret := hstacked.addImm hlen
  have hreg₁ : ∀ r ≠ .rsp, (exec c₁ (.addImm 16 .rsp)).reg r = c₁.reg r := fun r hr =>
    exec_addImm_reg hr
  generalize exec c₁ (.addImm 16 .rsp) = c₂ at hiret hreg₁ ⊢
  obtain ⟨hrip, hcs', hflags, hss, hrsp, hreg⟩ := hiret.iretq
  refine ⟨fun r => ?_, hrip, by rw [hcs', hcs], hflags, by rw [hss, hds]⟩
  by_cases hr : r = .rsp
  · rw [hr, hrsp]
    rfl
  · have hmem : r ∈ savedRegs := by
      cases r <;> first | decide | exact absurd rfl hr
    rw [hreg r hr, hreg₁ r hr]
    exact List.map_inj_left.1 hloaded r hmem

end Frames

/-! ### The way into the kernel and back -/

/-- The processor at the call of `trap`. -/
def atTrap (g : Gate) (n : ℕ) (err : U64) (c : Cpu) : Cpu :=
  run alltraps (run (vector n) (interrupt g n err c))

/-- The frame of code that is interrupted. -/
def userFrame (n : ℕ) (err : U64) (c : Cpu) : Trapframe where
  rax := c.reg .rax
  rbx := c.reg .rbx
  rcx := c.reg .rcx
  rdx := c.reg .rdx
  rbp := c.reg .rbp
  rsi := c.reg .rsi
  rdi := c.reg .rdi
  r8 := c.reg .r8
  r9 := c.reg .r9
  r10 := c.reg .r10
  r11 := c.reg .r11
  r12 := c.reg .r12
  r13 := c.reg .r13
  r14 := c.reg .r14
  r15 := c.reg .r15
  trapno := BitVec.ofNat 64 n
  err := if hasErrorCode n then err else 0
  rip := c.rip
  cs := c.cs.setWidth 64
  eflags := c.rflags
  rsp := c.reg .rsp
  ds := c.ss.setWidth 64

/-- The code that was interrupted goes on with its registers, except that `rax` is `v`. -/
structure GoesOn (c c' : Cpu) (v : U64) : Prop where
  /-- The result. -/
  rax : c'.reg .rax = v
  /-- The other general registers. -/
  reg : ∀ r ≠ .rax, c'.reg r = c.reg r
  /-- Where it goes on. -/
  rip : c'.rip = c.rip
  /-- The code segment. -/
  cs : c'.cs = c.cs
  /-- The flags. -/
  rflags : c'.rflags = c.rflags
  /-- The stack segment. -/
  ss : c'.ss = c.ss

section Traps

variable {K : Kernel} {g : Gate} {n : ℕ} {err tf : U64} {c c' : Cpu} {f : Trapframe} {m m' : Ram}

theorem run_vector_interrupt : run (vector n) (interrupt g n err c) =
    (g.enter c).pushWords ((userFrame n err c).iretWords.reverse ++
      [(userFrame n err c).err, (userFrame n err c).trapno]) := by
  rw [vector, interrupt]
  cases herr : hasErrorCode n <;> simp [userFrame, herr, Trapframe.iretWords, Cpu.pushWords, exec]

theorem Gate.enter_rsp : (g.enter c).reg .rsp = g.rsp := by
  rw [Gate.enter]
  dsimp only
  rw [Function.update_self]

theorem Gate.enter_reg {r : Reg} (hr : r ≠ .rsp) : (g.enter c).reg r = c.reg r := by
  rw [Gate.enter]
  dsimp only
  rw [Function.update_of_ne hr]

/-- At the call of `trap` the frame is on the stack, and the argument is its address. -/
theorem stacked_atTrap (n : ℕ) (err : U64) (c : Cpu) (hroom : sizeofTrapframe ≤ g.rsp.toNat) :
    Stacked (atTrap g n err c) (userFrame n err c).words ∧
      (atTrap g n err c).reg .rdi = (atTrap g n err c).reg .rsp := by
  have hcode : alltraps = savedRegs.reverse.map .push ++ [.mov .rsp .rdi] := rfl
  have hroom₀ : 176 ≤ ((g.enter c).reg .rsp).toNat := by rwa [Gate.enter_rsp]
  have hempty : Stacked (g.enter c) [] := ⟨BitVec.isLt _, trivial⟩
  -- the words of the processor and of the vector
  obtain ⟨c₁, hc₁⟩ : ∃ c₁, c₁ = run (vector n) (interrupt g n err c) := ⟨_, rfl⟩
  have hpush := pushed_pushWords ((userFrame n err c).iretWords.reverse ++
    [(userFrame n err c).err, (userFrame n err c).trapno]) (g.enter c) (by
      change 56 ≤ _
      omega)
  rw [← run_vector_interrupt, ← hc₁] at hpush
  have hstack := hpush.stacked hempty
  have hroom₁ : 120 ≤ (c₁.reg .rsp).toNat := by
    have hrsp : (c₁.reg .rsp).toNat + 56 = ((g.enter c).reg .rsp).toNat := hpush.rsp
    omega
  -- the words of `alltraps`
  obtain ⟨c₂, hc₂⟩ : ∃ c₂, c₂ = run (savedRegs.reverse.map .push) c₁ := ⟨_, rfl⟩
  have hpush' := pushed_pushWords (savedRegs.reverse.map c₁.reg) c₁ hroom₁
  rw [← run_push (by decide), ← hc₂] at hpush'
  have hstack' := hpush'.stacked hstack
  have hregs : savedRegs.map c₁.reg = savedRegs.map (userFrame n err c).reg := by
    refine List.map_congr_left fun r hr => ?_
    have hne : r ≠ .rsp := fun heq => absurd (heq ▸ hr) (by decide)
    rw [hpush.reg r hne, Gate.enter_reg hne]
    cases r <;> rfl
  rw [atTrap, ← hc₁, hcode, run_append, ← hc₂, run_cons, run_nil, exec]
  rw [List.map_reverse, List.reverse_reverse, List.reverse_append, List.reverse_reverse,
    List.append_nil, hregs] at hstack'
  exact ⟨hstack'.setReg (by decide) _, setReg_same.trans (setReg_of_ne (by decide)).symm⟩

theorem Kernel.Undisturbed.entered (hm : K.Undisturbed tf m) :
    K.curTf (m.store64 (K.tfField m) tf) = tf.toNat ∧
      frameAt (m.store64 (K.tfField m) tf) tf.toNat = frameAt m tf.toNat := by
  refine ⟨by rw [Kernel.curTf, hm.field, Ram.load64_store64], ?_⟩
  exact frameAt_eq ((words_frameAt m tf.toNat).store64 (by rw [length_words]; exact hm.apart))

theorem Kernel.trap_syscall (hm : K.Undisturbed tf m)
    (hsys : (frameAt m tf.toNat).trapno = tSyscall) :
    K.trap tf m = some m' ↔
      0 < ((frameAt m tf.toNat).rax.setWidth 32).toInt ∧
        ((frameAt m tf.toNat).rax.setWidth 32).toInt < nelemSyscalls ∧
        ∃ result m₁, K.syscalls ((frameAt m tf.toNat).rax.setWidth 32).toInt
          (m.store64 (K.tfField m) tf) = some (result, m₁) ∧
            m₁.store64 tf.toNat (result.signExtend 64) = m' := by
  obtain ⟨hcur, hframe⟩ := hm.entered
  rw [Kernel.trap, if_pos hsys]
  simp only [Kernel.syscall, hcur, hframe]
  split_ifs with hnum
  · simp only [Option.bind_eq_bind, Option.bind_eq_some_iff, Option.pure_def, Option.some_inj,
      Prod.exists, hnum, true_and]
    refine exists_congr fun result => exists_congr fun m₁ => and_congr_right fun hcall => ?_
    rw [hm.current _ _ _ hcall]
  · exact iff_of_false (by simp) fun h => hnum ⟨h.1, h.2.1⟩

/-- In the frame `trap` changes `rax` only. -/
theorem Kernel.trap_frame (hm : K.Undisturbed tf m) (htrap : K.trap tf m = some m') :
    ∃ v, frameAt m' tf.toNat = (frameAt m tf.toNat).setRax v ∧ K.Result tf m v := by
  by_cases hsys : (frameAt m tf.toNat).trapno = tSyscall
  · obtain ⟨-, -, result, m₁, hcall, rfl⟩ := (Kernel.trap_syscall hm hsys).1 htrap
    refine ⟨result.signExtend 64, ?_, fun _ => ⟨result, m₁, hcall, rfl⟩, fun h => absurd hsys h⟩
    rw [frameAt_store_rax, frameAt_congr (hm.frame _ _ _ hcall), hm.entered.2]
  · rw [Kernel.trap, if_neg hsys, Option.some_inj] at htrap
    exact ⟨(frameAt m tf.toNat).rax, by rw [htrap]; rfl, fun h => absurd h hsys, fun _ => rfl⟩

/-- So does the trap of the model: there is nothing else in the frame that a system call changes. -/
theorem trapCase_abs {P : Packing} {u : Undef} {s k : KState} (hsys : f.trapno = tSyscall)
    (h : TrapCase P u f.abs s (.user k)) :
    k.ksCurThread = s.ksCurThread ∧ ∃ v, (k.tcbs s.ksCurThread).tf = (f.setRax v).abs := by
  obtain ⟨hcur, hframe, -⟩ := h.frame hsys
  exact ⟨hcur, hframe⟩

theorem frameAt_atTrap (n : ℕ) (err : U64) (c : Cpu) (hroom : sizeofTrapframe ≤ g.rsp.toNat) :
    frameAt (atTrap g n err c).mem ((atTrap g n err c).reg .rdi).toNat = userFrame n err c := by
  obtain ⟨hstack, hrdi⟩ := stacked_atTrap n err c hroom
  rw [hrdi]
  exact frameAt_eq hstack.words

theorem setWidth_selector (x : BitVec 16) : (x.setWidth 64).setWidth 16 = x := by
  rw [BitVec.setWidth_setWidth_of_le x (by decide), BitVec.setWidth_eq]

theorem setWidth_selector_inj {x y : BitVec 16} (h : x.setWidth 64 = y.setWidth 64) : x = y := by
  rw [← setWidth_selector x, h, setWidth_selector]

theorem Resumes.goesOn {v : U64} (h : Resumes c' ((userFrame n err c).setRax v)) :
    GoesOn c c' v where
  rax := h.reg .rax
  reg r hr := by
    rw [h.reg r]
    cases r <;> first | rfl | exact absurd rfl hr
  rip := h.rip
  cs := setWidth_selector_inj h.cs
  rflags := h.rflags
  ss := setWidth_selector_inj h.ss

/-- A trap whose handler returns: the code that was interrupted goes on with all its registers,
except that `rax` is what `trap` has left in the frame. -/
theorem trap_returns (hroom : sizeofTrapframe ≤ g.rsp.toNat)
    (hm : K.Undisturbed ((atTrap g n err c).reg .rdi) (atTrap g n err c).mem)
    (hcall : Calls (K.trap ((atTrap g n err c).reg .rdi)) (atTrap g n err c) c') :
    ∃ v, GoesOn c (run trapret c') v ∧
      K.Result ((atTrap g n err c).reg .rdi) (atTrap g n err c).mem v ∧
      (frameAt c'.mem ((atTrap g n err c).reg .rdi).toNat).rax = v := by
  have hatTrap := frameAt_atTrap n err c hroom
  obtain ⟨hstack, hrdi⟩ := stacked_atTrap n err c hroom
  generalize atTrap g n err c = c₂ at hm hcall hatTrap hstack hrdi ⊢
  obtain ⟨hrsp, m, htrap, hmem⟩ := hcall
  obtain ⟨v, hframe, hresult⟩ := Kernel.trap_frame hm htrap
  have hframe' : frameAt c'.mem (c₂.reg .rdi).toNat = (userFrame n err c).setRax v := by
    rw [← hatTrap, ← hframe, hrdi]
    exact frameAt_congr fun b hb => hmem b hb.1
  have hstack' : Stacked c' ((userFrame n err c).setRax v).words := by
    refine ⟨by rw [hrsp]; exact hstack.lt, ?_⟩
    rw [hrsp, ← hrdi, ← hframe']
    exact words_frameAt _ _
  have hresumes := resumes_of_stacked hstack'
    (congrArg (BitVec.setWidth 64) (setWidth_selector c.cs))
    (congrArg (BitVec.setWidth 64) (setWidth_selector c.ss))
  exact ⟨v, hresumes.goesOn, hresult, congrArg Trapframe.rax hframe'⟩

end Traps

/-! ### The first dispatch -/

section NewThread

variable {K : Kernel} {kStack a tf : ℕ} {m : Ram} {ws : List U64} {rdi rsi rip rsp : U64} {c : Cpu}

/-- The frame is at the end of the page of the stack, and the context right below it. -/
theorem allocProc_layout (K : Kernel) (kStack : ℕ) (m : Ram) :
    (allocProc K kStack m).tf = kStack + 3920 ∧ (allocProc K kStack m).context = kStack + 3848 := by
  simp only [allocProc, pgsize, sizeofTrapframe, sizeofContext]
  omega

/-- The words from the context up to the frame: what `swtch` loads, and two addresses. -/
theorem allocProc_words (K : Kernel) (kStack : ℕ) (m : Ram) :
    (allocProc K kStack m).mem.Words (kStack + 3848)
      (List.replicate 7 0 ++ [K.forkretAddr, K.trapretAddr]) := by
  have hmem : (allocProc K kStack m).mem = ((m.store64 (kStack + 3912) K.trapretAddr).memset
      (kStack + 3848) 0 sizeofContext).store64 (kStack + 3904) K.forkretAddr := by
    have hret : kStack + pgsize - sizeofTrapframe - 8 = kStack + 3912 := by
      rw [pgsize, sizeofTrapframe]
      omega
    have hcontext : kStack + 3912 - sizeofContext = kStack + 3848 := by
      rw [sizeofContext]
      omega
    simp only [allocProc, hret, hcontext]
  have hzero : ∀ i < 7, (allocProc K kStack m).mem.load64 (kStack + 3848 + 8 * i) = 0 := by
    intro i hi
    rw [hmem, Ram.load64_store64_of_disjoint (by omega), Ram.load64,
      Ram.readLe_memset (by omega) (by rw [sizeofContext]; omega)]
    rfl
  have htrapret : (allocProc K kStack m).mem.load64 (kStack + 3912) = K.trapretAddr := by
    rw [hmem, Ram.load64_store64_of_disjoint (by omega), ← Ram.load64_congr fun a ha =>
      (Ram.memset_of_not_mem fun hin => ?_).symm]
    · exact Ram.load64_store64
    · have := ha.1
      have := hin.2
      rw [sizeofContext] at this
      omega
  have hforkret : (allocProc K kStack m).mem.load64 (kStack + 3904) = K.forkretAddr := by
    rw [hmem, Ram.load64_store64]
  simp only [List.replicate, List.cons_append, List.nil_append, Ram.Words, Nat.add_assoc,
    Nat.reduceAdd]
  exact ⟨hzero 0 (by decide), hzero 1 (by decide), hzero 2 (by decide), hzero 3 (by decide),
    hzero 4 (by decide), hzero 5 (by decide), hzero 6 (by decide), hforkret, htrapret, trivial⟩

theorem fillFrame_words (h : m.Words a ws) (ha : a + 8 * ws.length ≤ tf) :
    (fillFrame tf rdi rsi rip rsp m).Words a ws := by
  have hstore : ∀ {m : Ram} (i : ℕ) (v : U64), m.Words a ws → (m.store64 (tf + i) v).Words a ws :=
    fun i v h => h.store64 (Or.inr (by omega))
  exact hstore _ _ (hstore _ _ (hstore _ _ (hstore _ _ (hstore _ _ (hstore _ _ (hstore _ _ h))))))

theorem frameAt_fillFrame :
    (frameAt (fillFrame tf rdi rsi rip rsp m) tf).cs = 4 <<< 3 ||| 3 ∧
      (frameAt (fillFrame tf rdi rsi rip rsp m) tf).ds = 5 <<< 3 ||| 3 := by
  simp (disch := omega) only [frameAt, fillFrame, Ram.load64_store64,
    Ram.load64_store64_of_disjoint, and_self]

/-- The registers that `swtch` saves. -/
def switchedRegs : List Reg := [.rbp, .rbx, .r11, .r12, .r13, .r14, .r15]

/-- The switch to another stack, before the registers are loaded: outside of the old stack and of
the field that the old context goes to, the memory is kept. -/
theorem run_switch (hroom : 56 ≤ (c.reg .rsp).toNat) :
    let c' := run (switchedRegs.map .push ++ [.store .rsp .rdi, .mov .rsi .rsp]) c
    c'.reg .rsp = c.reg .rsi ∧
      ∀ a, a ∉ Set.Ico ((c.reg .rsp).toNat - 56) (c.reg .rsp).toNat →
        a ∉ Set.Ico (c.reg .rdi).toNat ((c.reg .rdi).toNat + 8) → c'.mem a = c.mem a := by
  have hpush := pushed_pushWords (switchedRegs.map c.reg) c hroom
  rw [← run_push (by decide)] at hpush
  rw [run_append, run_cons, run_cons, run_nil]
  generalize run (switchedRegs.map .push) c = c₁ at hpush ⊢
  have hrsp : (c₁.reg .rsp).toNat + 56 = (c.reg .rsp).toNat := hpush.rsp
  simp only [exec, setReg_same]
  refine ⟨hpush.reg .rsi (by decide), fun a hstack hfield => ?_⟩
  rw [← hpush.reg .rdi (by decide)] at hfield
  have hstore : c₁.mem.store64 (c₁.reg .rdi).toNat (c₁.reg .rsp) a = c₁.mem a :=
    Ram.writeLe_of_not_mem hfield
  refine hstore.trans (hpush.mem a fun hin => hstack ⟨?_, hin.2⟩)
  have hle := hin.1
  omega

/-- A thread that `alloc_proc` has prepared in the memory `m` is dispatched for the first time:
`swtch` is called with its context, on another stack and with a field for the old context that is
elsewhere too, and `page` is what the page of its stack holds. -/
structure FirstDispatch (K : Kernel) (kStack : ℕ) (m page : Ram) (c : Cpu) : Prop where
  /-- The page is in the address space. -/
  lt : kStack + pgsize < 2 ^ 64
  /-- What it holds. -/
  page_eq : ∀ a ∈ Set.Ico kStack (kStack + pgsize), c.mem a = page a
  /-- The second argument. -/
  rsi : c.reg .rsi = BitVec.ofNat 64 (allocProc K kStack m).context
  /-- The old stack has room for the context. -/
  room : 56 ≤ (c.reg .rsp).toNat
  /-- It is elsewhere. -/
  stack : (c.reg .rsp).toNat ≤ kStack ∨ kStack + pgsize ≤ (c.reg .rsp).toNat - 56
  /-- The first argument. -/
  field : (c.reg .rdi).toNat + 8 ≤ kStack ∨ kStack + pgsize ≤ (c.reg .rdi).toNat

theorem FirstDispatch.words {page : Ram} (h : FirstDispatch K kStack m page c)
    (hwords : page.Words a ws) (ha : kStack ≤ a) (hend : a + 8 * ws.length ≤ kStack + pgsize) :
    c.mem.Words a ws :=
  hwords.congr fun b hb => (h.page_eq b ⟨ha.trans hb.1, hb.2.trans_le hend⟩).symm

theorem FirstDispatch.stacked {f : Trapframe} {page : Ram} (h : FirstDispatch K kStack m page c)
    (hcontext : c.mem.Words (kStack + 3848) (List.replicate 7 0 ++ [K.forkretAddr, K.trapretAddr]))
    (hframe : c.mem.Words (kStack + 3920) f.words) :
    let c' := run (switchedRegs.map .push ++ [.store .rsp .rdi, .mov .rsi .rsp]) c
    (c'.reg .rsp).toNat = kStack + 3848 ∧
      Stacked c' (List.replicate 7 0 ++ ([K.forkretAddr, K.trapretAddr] ++ f.words)) := by
  obtain ⟨hrsp, hmem⟩ := run_switch h.room
  intro c'
  have hlt := h.lt
  rw [pgsize] at hlt
  have hrsp' : (c'.reg .rsp).toNat = kStack + 3848 := by
    rw [hrsp, h.rsi, (allocProc_layout K kStack m).2, BitVec.toNat_ofNat,
      Nat.mod_eq_of_lt (by omega)]
  have hlen :
      (List.replicate 7 (0 : U64) ++ ([K.forkretAddr, K.trapretAddr] ++ f.words)).length = 31 := rfl
  refine ⟨hrsp', by rw [hrsp', hlen]; omega, ?_⟩
  have hwords : c.mem.Words (kStack + 3848)
      (List.replicate 7 0 ++ ([K.forkretAddr, K.trapretAddr] ++ f.words)) := by
    rw [← List.append_assoc, Ram.words_append]
    exact ⟨hcontext, hframe⟩
  rw [hrsp']
  refine hwords.congr fun a ha => (hmem a (fun hin => ?_) fun hin => ?_).symm
  · have hstack := h.stack
    have := ha.1
    have := ha.2
    have := hin.1
    have := hin.2
    rw [pgsize] at hstack
    omega
  · have hfield := h.field
    have := ha.1
    have := ha.2
    have := hin.1
    have := hin.2
    rw [pgsize] at hfield
    omega

/-- `swtch` jumps to `forkret`, with the address of `trapret` and the frame on the stack. -/
theorem FirstDispatch.run_swtch {f : Trapframe} {page : Ram} (h : FirstDispatch K kStack m page c)
    (hcontext : c.mem.Words (kStack + 3848) (List.replicate 7 0 ++ [K.forkretAddr, K.trapretAddr]))
    (hframe : c.mem.Words (kStack + 3920) f.words) :
    (run swtch c).rip = K.forkretAddr ∧ ((run swtch c).reg .rsp).toNat = kStack + 3912 ∧
      Stacked (run swtch c) (K.trapretAddr :: f.words) := by
  have hcode : swtch = (switchedRegs.map .push ++ [.store .rsp .rdi, .mov .rsi .rsp]) ++
      (switchedRegs.reverse.map .pop ++ [.ret]) := rfl
  obtain ⟨hrsp, hstack⟩ := h.stacked hcontext hframe
  rw [hcode, run_append, run_append, run_cons, run_nil]
  generalize run (switchedRegs.map .push ++ [.store .rsp .rdi, .mov .rsi .rsp]) c = c₁
    at hrsp hstack ⊢
  obtain ⟨-, hrsp₂, hstack₂, -⟩ :=
    hstack.run_pop (by decide : switchedRegs.reverse.Nodup) (by decide) rfl
  generalize run (switchedRegs.reverse.map .pop) c₁ = c₂ at hrsp₂ hstack₂ ⊢
  obtain ⟨hrip, hstack₃, hrsp₃, -⟩ := Stacked.ret hstack₂
  refine ⟨hrip, ?_, hstack₃⟩
  rw [hrsp₃, hrsp₂, hrsp]
  rfl

/-- `forkret` returns to `trapret`, with the frame on the stack. -/
theorem Kernel.Continues.of_forkret {f : Trapframe} {c' : Cpu} (hrip : c.rip = K.forkretAddr)
    (hcprintf : ∀ m, ∀ a ∈ Set.Ico kStack (kStack + pgsize), K.cprintf m a = m a)
    (hrsp : (c.reg .rsp).toNat = kStack + 3912) (hstack : Stacked c (K.trapretAddr :: f.words))
    (hgo : K.Continues c c') : c'.rip = K.trapretAddr ∧ Stacked c' f.words := by
  have hlen : 8 * f.words.length = 176 := length_words f
  cases hgo with
  | forkret _ hret =>
    refine hret.stacked hstack fun a ha => hcprintf _ a ⟨?_, ?_⟩
    · have := ha.1
      omega
    · have := ha.2
      rw [pgsize]
      omega
  | trapret h => exact absurd (h.symm.trans hrip) K.ne

/-- `trapret` begins the thread. -/
theorem Kernel.Continues.of_trapret {c' : Cpu} (hrip : c.rip = K.trapretAddr)
    (hgo : K.Continues c c') : c' = run Asm.trapret c := by
  cases hgo with
  | forkret h _ => exact absurd (hrip.symm.trans h) K.ne
  | trapret _ => rfl

/-- The first dispatch of a thread whose frame `load_plugin` has filled: `swtch` jumps to `forkret`,
which returns to `trapret`, and the thread begins with the registers of the frame. -/
theorem dispatch_enters
    (hcprintf : ∀ m, ∀ a ∈ Set.Ico kStack (kStack + pgsize), K.cprintf m a = m a)
    (h : FirstDispatch K kStack m (loadedMem K kStack rdi rsi rip rsp m) c) :
    (run swtch c).rip = K.forkretAddr ∧ ∀ c₁, K.Continues (run swtch c) c₁ →
      c₁.rip = K.trapretAddr ∧ ∀ c₂, K.Continues c₁ c₂ →
        Resumes c₂ (loadedFrame K kStack rdi rsi rip rsp m) := by
  have htf := (allocProc_layout K kStack m).1
  have hcontext : (loadedMem K kStack rdi rsi rip rsp m).Words (kStack + 3848)
      (List.replicate 7 0 ++ [K.forkretAddr, K.trapretAddr]) :=
    fillFrame_words (allocProc_words K kStack m) (by rw [htf]; exact le_rfl)
  have hframe : (loadedMem K kStack rdi rsi rip rsp m).Words (kStack + 3920)
      (loadedFrame K kStack rdi rsi rip rsp m).words := by
    rw [loadedFrame, htf]
    exact words_frameAt _ _
  obtain ⟨hcs, hds⟩ : (loadedFrame K kStack rdi rsi rip rsp m).cs = 4 <<< 3 ||| 3 ∧
      (loadedFrame K kStack rdi rsi rip rsp m).ds = 5 <<< 3 ||| 3 := frameAt_fillFrame
  generalize loadedFrame K kStack rdi rsi rip rsp m = f at hframe hcs hds ⊢
  have hlen : 8 * f.words.length = 176 := length_words f
  obtain ⟨hrip, hrsp, hstack⟩ := h.run_swtch
    (h.words hcontext (by omega) (by change kStack + 3848 + 72 ≤ kStack + 4096; omega))
    (h.words hframe (by omega) (by rw [pgsize]; omega))
  refine ⟨hrip, fun c₁ hgo₁ => ?_⟩
  obtain ⟨hrip₁, hstack₁⟩ := hgo₁.of_forkret hrip hcprintf hrsp hstack
  refine ⟨hrip₁, fun c₂ hgo₂ => ?_⟩
  rw [hgo₂.of_trapret hrip₁]
  exact resumes_of_stacked hstack₁ (by rw [hcs]; decide) (by rw [hds]; decide)

end NewThread

/-- Registers are kept at the boundary of the kernel: after a trap, code goes on with all of its
registers, except that `rax` is what the frame holds then, the result of a system call; and the
first dispatch of a thread begins it with the registers of its frame. -/
theorem registers_kept (K : Kernel) :
    (∀ (g : Gate) (n : ℕ) (err : U64) (c c' : Cpu), sizeofTrapframe ≤ g.rsp.toNat →
      let tf := (atTrap g n err c).reg .rdi
      K.Undisturbed tf (atTrap g n err c).mem → Calls (K.trap tf) (atTrap g n err c) c' →
        ∃ v, GoesOn c (run trapret c') v ∧ K.Result tf (atTrap g n err c).mem v ∧
          (frameAt c'.mem tf.toNat).rax = v) ∧
      ∀ (kStack : ℕ) (rdi rsi rip rsp : U64) (m : Ram) (c : Cpu),
        (∀ m, ∀ a ∈ Set.Ico kStack (kStack + pgsize), K.cprintf m a = m a) →
        FirstDispatch K kStack m (loadedMem K kStack rdi rsi rip rsp m) c →
          (run swtch c).rip = K.forkretAddr ∧ ∀ c₁, K.Continues (run swtch c) c₁ →
            c₁.rip = K.trapretAddr ∧ ∀ c₂, K.Continues c₁ c₂ →
              Resumes c₂ (loadedFrame K kStack rdi rsi rip rsp m) :=
  ⟨fun _ _ _ _ _ hroom hm hcall => trap_returns hroom hm hcall,
    fun _ _ _ _ _ _ _ hcprintf h => dispatch_enters hcprintf h⟩

/-- Functions that print nothing, and system calls that return 7. -/
def quietKernel : Kernel := ⟨0x1000, 0x2000, by decide, id, fun _ => 0x3000, fun _ m => some (7, m)⟩

/-- The kernel stack ends at `0x9000`. -/
def trapGate : Gate := ⟨0x9000, 0, 8, 0, 0⟩

/-- A thread that calls `test`. -/
def caller : Cpu := ⟨fun _ => 1, 0x400000, 0x23, 0x2B, 0x202, fun _ => 0⟩

/-- The scheduling loop dispatches a thread with the stack `0x10000`. -/
def dispatcher : Cpu where
  reg r := if r = .rsi then BitVec.ofNat 64 (0x10000 + 3848) else 0x5000
  rip := 0
  cs := 8
  ss := 0
  rflags := 0
  mem := loadedMem quietKernel 0x10000 0 0x7FF8 0x400000 0x7FE0 fun _ => 0

/-- The thread goes on with the result, and the dispatched one begins. -/
theorem registers_kept_quiet : (∃ c', GoesOn caller c' 7) ∧
    ∃ c', Resumes c' (loadedFrame quietKernel 0x10000 0 0x7FF8 0x400000 0x7FE0 fun _ => 0) := by
  obtain ⟨htrap, hdispatch⟩ := registers_kept quietKernel
  constructor
  · have hframe := frameAt_atTrap (g := trapGate) 64 0 caller (by decide)
    have hrdi : ((atTrap trapGate 64 0 caller).reg .rdi).toNat = 0x8F50 := by decide +kernel
    have hm : quietKernel.Undisturbed ((atTrap trapGate 64 0 caller).reg .rdi)
        (atTrap trapGate 64 0 caller).mem := by
      refine ⟨Or.inl (by rw [hrdi]; decide), rfl, fun num result m' hcall => ?_,
        fun num result m' hcall a _ => ?_⟩
      · rw [← (Prod.mk.inj (Option.some.inj hcall)).2]
        exact congrArg BitVec.toNat Ram.load64_store64
      · rw [← (Prod.mk.inj (Option.some.inj hcall)).2]
    have hsys : (frameAt (atTrap trapGate 64 0 caller).mem
        ((atTrap trapGate 64 0 caller).reg .rdi).toNat).trapno = tSyscall := by rw [hframe]; rfl
    obtain ⟨m', hm'⟩ : ∃ m', quietKernel.trap ((atTrap trapGate 64 0 caller).reg .rdi)
        (atTrap trapGate 64 0 caller).mem = some m' :=
      ⟨_, (Kernel.trap_syscall hm hsys).2
        ⟨by rw [hframe]; decide, by rw [hframe]; decide, 7, _, rfl, rfl⟩⟩
    obtain ⟨v, hgo, hresult, -⟩ := htrap trapGate 64 0 caller
      { atTrap trapGate 64 0 caller with mem := m' } (by decide) hm ⟨rfl, m', hm', fun _ _ => rfl⟩
    obtain ⟨result, m₁, hcall, rfl⟩ := hresult.syscall hsys
    obtain rfl := (Prod.mk.inj (Option.some.inj hcall)).1
    exact ⟨_, hgo⟩
  · have hfirst : FirstDispatch quietKernel 0x10000 (fun _ => 0)
        (loadedMem quietKernel 0x10000 0 0x7FF8 0x400000 0x7FE0 fun _ => 0) dispatcher :=
      ⟨by decide, fun _ _ => rfl, by rw [(allocProc_layout _ _ _).2]; rfl, by decide, by decide,
        by decide⟩
    obtain ⟨hrip, hgo⟩ := hdispatch 0x10000 0 0x7FF8 0x400000 0x7FE0 (fun _ => 0) dispatcher
      (fun _ _ _ => rfl) hfirst
    obtain ⟨hrip', hgo'⟩ := hgo (exec (run swtch dispatcher) .ret)
      (.forkret hrip ⟨rfl, rfl, fun _ _ => rfl⟩)
    exact ⟨_, hgo' _ (.trapret hrip')⟩

end Asm

end MicroKernel
