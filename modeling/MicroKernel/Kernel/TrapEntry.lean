import MicroKernel.Kernel.Descriptors
import MicroKernel.System.Run

/-!
# How user code enters the kernel

After `seg_init` an interrupt of user code leads to the handler that the kernel has for it, on the
kernel stack of the thread that was switched to.

* `trapSystem` : threads are switched to, user code is interrupted, and the rest of the memory
  changes;
* `TrapInv` : the descriptors stay as `seg_init` has set them up;
* `deliver_run` : what an interrupt of user code does in every run;
* `trap_run` : where it leaves the registers;
* `portAllowed_run` : which ports user code may use.
-/

namespace MicroKernel

namespace Asm

open X86

/-! ### Runs -/

/-- The blocks that `seg_init` gets are in the address space and do not overlap. -/
structure Blocks (idt loc : U64) : Prop where
  /-- The block for the gates. -/
  idt_lt : idt.toNat + 8 * pgsize < 2 ^ 64
  /-- The block for the rest. -/
  loc_lt : loc.toNat + pgsize < 2 ^ 64
  /-- They do not overlap. -/
  disjoint : idt.toNat + 8 * pgsize ≤ loc.toNat ∨ loc.toNat + pgsize ≤ idt.toNat

/-- The addresses of the gates, of the segment descriptors, and of the task state segment. -/
def descriptors (idt loc : U64) : Set ℕ :=
  {a | a ∈ Set.Ico idt.toNat (idt.toNat + 4096) ∨ a ∈ Set.Ico loc.toNat (loc.toNat + 64) ∨
    a ∈ Set.Ico (loc.toNat + 1024) (loc.toNat + 1128)}

/-- A page for a kernel stack: it belongs to the kernel and holds no descriptors. -/
structure StackPage (idt loc kStack : U64) : Prop where
  /-- It is a page. -/
  aligned : kStack.toNat % pgsize = 0
  /-- It is in the kernel. -/
  le : kernBase ≤ kStack
  /-- Something follows. -/
  lt : kStack.toNat + pgsize < 2 ^ 64
  /-- There are no descriptors in it. -/
  apart : ∀ a ∈ Set.Ico kStack.toNat (kStack.toNat + pgsize), a ∉ descriptors idt loc

/-- The kernel, and the kernel stack of the thread that was switched to. -/
structure TrapState where
  /-- What `seg_init` and `user_switch_vm` work with. -/
  seg : SegState
  /-- The kernel stack. -/
  kStack : Option U64

/-- What happens after `seg_init`. -/
inductive TrapEvent where
  /-- `user_switch_vm(thread)`. -/
  | userSwitchVm (kStack pml4 : U64)
  /-- User code is interrupted. -/
  | interrupt (n : ℕ) (src : TrapSource) (err : U64) (c : Cpu)
  /-- A byte of the memory changes. -/
  | store (a : ℕ) (v : BitVec 8)

/-- What the processor has loaded, for the instructions that follow. -/
def gateOf (e : Entry) : Gate := ⟨e.rsp, e.rip, e.cs, e.ss, e.rflags⟩

/-- The processor enters the kernel by a gate.  It pushes an error code for some exceptions only. -/
def interruptFrom (e : Entry) (n : ℕ) (src : TrapSource) (err : U64) (c : Cpu) : Cpu :=
  let k := ((gateOf e).enter c).pushWords [c.ss.setWidth 64, c.reg .rsp, c.rflags,
    c.cs.setWidth 64, c.rip]
  if src = .exception ∧ hasErrorCode n then k.pushWord err else k

/-- The processor at the call of `trap`. -/
def trapFrom (e : Entry) (n : ℕ) (src : TrapSource) (err : U64) (c : Cpu) : Cpu :=
  run alltraps (run (vector n) (interruptFrom e n src err c))

/-- The processor pushes an error code exactly where `vector n` pushes none. -/
def Pushes (n : ℕ) (src : TrapSource) : Prop := src = .exception ∨ hasErrorCode n = false

/-- Threads are switched to, user code is interrupted, and memory changes outside the
descriptors. -/
def trapSystem (idt loc : U64) : System TrapState TrapEvent where
  step s ev s' :=
    match ev with
    | .userSwitchVm kStack pml4 =>
      StackPage idt loc kStack ∧ s' = ⟨userSwitchVm kStack pml4 s.seg, some kStack⟩
    | .interrupt n src err c => s.kStack ≠ none ∧ c.mem = s.seg.mem ∧ c.cpl = 3 ∧ Pushes n src ∧
      ∃ e, deliver s.seg.tables n src c = some e ∧
        s' = { s with seg := { s.seg with mem := (trapFrom e n src err c).mem } }
    | .store a v => a ∉ descriptors idt loc ∧
      s' = { s with seg := { s.seg with mem := Function.update s.seg.mem a v } }

/-- The stack pointer in the task state segment. -/
def TrapState.rsp0 (s : TrapState) : U64 := s.kStack.elim 0 (· + BitVec.ofNat 64 pgsize)

/-- A byte of the task state segment. -/
def tssByte (rsp0 : U64) (i : ℕ) : BitVec 8 :=
  if 4 ≤ i ∧ i < 12 then BitVec.ofNat 8 (rsp0.toNat / 256 ^ (i - 4)) else if i = 66 then 0x68 else 0

/-- The gates of the kernel: user code may use the one for system calls. -/
def kernelGate (vectors : ℕ → U64) (n : ℕ) : GateDescriptor :=
  if n = 64 then gateFor (vectors n) 3 1 else gateFor (vectors n) 0 0

/-- The registers that `seg_init` loads. -/
def kernelTables (idt loc : U64) : Tables :=
  ⟨idt.toNat, 4095, loc.toNat, 63, loc.toNat + 1024, 0x67⟩

/-- The descriptors are as `seg_init` has set them up, except for the stack pointer. -/
structure TrapInv (vectors : ℕ → U64) (idt loc : U64) (s : TrapState) : Prop where
  /-- The gates. -/
  gates : ∀ n < 256, gateAt s.seg.mem (idt.toNat + 16 * n) = kernelGate vectors n
  /-- The code segment of the kernel. -/
  code : s.seg.mem.load64 (loc.toNat + 8) = 0x0020980000000000
  /-- The task state segment. -/
  task : ∀ i < 104, s.seg.mem (loc.toNat + 1024 + i) = tssByte s.rsp0 i
  /-- The registers. -/
  tables : s.seg.tables = kernelTables idt loc
  /-- Where the task state segment is to be found. -/
  cpuLocal : s.seg.cpuLocal = loc
  /-- The kernel stack. -/
  stack : ∀ k, s.kStack = some k → StackPage idt loc k

/-! ### The state after `seg_init` -/

section Init

variable {vectors : ℕ → U64} {idt loc : U64} {m : Ram} {s : SegState}

theorem Blocks.toNat_tss (h : Blocks idt loc) : (loc + 1024).toNat = loc.toNat + 1024 := by
  have hlt := h.loc_lt
  have h1024 : (1024 : U64).toNat = 1024 := rfl
  rw [pgsize] at hlt
  rw [BitVec.toNat_add, h1024, Nat.mod_eq_of_lt (by omega)]

theorem setU64_of_not_mem {arr i a : ℕ} {v : U64} (h : a < arr + 8 * i ∨ arr + 8 * i + 8 ≤ a) :
    setU64 arr i v m a = m a :=
  Ram.writeLe_of_not_mem fun hin => by
    have := hin.1
    have := hin.2
    omega

theorem fillGdt_of_not_mem {gdt a : ℕ} {addr : U64} (h : a < gdt ∨ gdt + 64 ≤ a) :
    fillGdt gdt addr m a = m a := by
  simp (disch := omega) only [fillGdt, segKcode, segUcode, segKdata, segKcpu, segUdata, segTss,
    setU64_of_not_mem]

theorem load64_fillGdt {gdt : ℕ} {addr : U64} :
    (fillGdt gdt addr m).load64 (gdt + 8) = 0x0020980000000000 ∧
      (fillGdt gdt addr m).load64 (gdt + 48) = tssWord addr ∧
      (fillGdt gdt addr m).load64 (gdt + 56) = addr >>> 32 := by
  refine ⟨?_, ?_, ?_⟩ <;>
    simp (disch := omega) only [fillGdt, setU64, segKcode, segUcode, segKdata, segKcpu, segUdata,
      segTss, Nat.reduceMul, Nat.reduceAdd, Nat.add_zero, Ram.load64_store64_of_disjoint,
      Ram.load64_store64]

theorem segMem_of_not_mem (hb : Blocks idt loc) {a : ℕ}
    (h : a ∉ Set.Ico loc.toNat (loc.toNat + pgsize)) :
    segMem vectors idt loc m a = mkgate idt.toNat 64 (vectors 64) 3 1
      (mkgates vectors idt.toNat 256 (m.memset idt.toNat 0 (pgsize * 4))) a := by
  have hout : a < loc.toNat ∨ loc.toNat + 4096 ≤ a := by
    by_contra hin
    exact h ⟨by omega, by rw [pgsize]; omega⟩
  simp only [segMem, hb.toNat_tss]
  rw [fillGdt_of_not_mem (by omega), setU32, store32_of_not_mem fun hin => by
    have := hin.1
    have := hin.2
    omega]
  exact Ram.memset_of_not_mem h

theorem gateAt_segMem (hb : Blocks idt loc) {n : ℕ} (hn : n < 256) :
    gateAt (segMem vectors idt loc m) (idt.toNat + 16 * n) = kernelGate vectors n := by
  have hdisj := hb.disjoint
  rw [pgsize] at hdisj
  rw [gateAt_congr fun b hb' => segMem_of_not_mem hb fun hin => by
    have := hb'.1
    have := hb'.2
    have := hin.1
    have := hin.2
    rw [pgsize] at this
    omega]
  by_cases h64 : n = 64
  · rw [h64, gateAt_mkgate]
    rfl
  · rw [kernelGate, if_neg h64, gateAt_congr fun b hb' => mkgate_of_not_mem fun hin => by
      have := hb'.1
      have := hb'.2
      have := hin.1
      have := hin.2
      omega]
    exact gateAt_mkgates hn

theorem segMem_task (hb : Blocks idt loc) {i : ℕ} (hi : i < 104) :
    segMem vectors idt loc m (loc.toNat + 1024 + i) = tssByte 0 i := by
  have hbyte : ∀ k < 4, BitVec.ofNat 8 ((0x00680000 : BitVec 32).toNat / 256 ^ k) =
      if k = 2 then 0x68 else 0 := by decide
  have hzero : BitVec.ofNat 8 ((0 : U64).toNat / 256 ^ (i - 4)) = 0 := by
    rw [show (0 : U64).toNat = 0 from rfl, Nat.zero_div]
    rfl
  simp only [segMem, hb.toNat_tss]
  rw [fillGdt_of_not_mem (by omega), setU32, store32, Ram.writeLe, tssByte, hzero]
  by_cases hword : 64 ≤ i ∧ i < 68
  · have hmem : loc.toNat + 1024 + i ∈
        Set.Ico (loc.toNat + 1024 + 4 * 16) (loc.toNat + 1024 + 4 * 16 + 4) :=
      ⟨by omega, by omega⟩
    have hidx : loc.toNat + 1024 + i - (loc.toNat + 1024 + 4 * 16) = i - 64 := by omega
    rw [Ram.writeBytes_of_mem hmem, hidx, hbyte (i - 64) (by omega),
      if_neg (by omega : ¬(4 ≤ i ∧ i < 12))]
    exact if_congr (by omega) rfl rfl
  · rw [Ram.writeBytes_of_not_mem fun hin => hword ⟨by have := hin.1; omega, by
        have := hin.2
        omega⟩, Ram.memset_of_mem ⟨by omega, by rw [pgsize]; omega⟩, if_neg (by omega : ¬i = 66),
      ite_self]

theorem ltr_segMem (hb : Blocks idt loc) {T : Tables} (hgdt : T.gdt = loc.toNat)
    (hlimit : T.gdtLimit = 63) : T.ltr (segMem vectors idt loc m) (BitVec.ofNat 16 (segTss <<< 3)) =
      some ({ T with tss := loc.toNat + 1024, tssLimit := 0x67 },
        (segMem vectors idt loc m).store64 (loc.toNat + 48)
          (tssWord (loc + 1024) ||| (1 : U64) <<< 41)) := by
  have hdesc : T.descriptor (BitVec.ofNat 16 (segTss <<< 3)) 16 = some (loc.toNat + 48) := by
    have hidx : ((BitVec.ofNat 16 (segTss <<< 3)).extractLsb' 3 13).toNat = 6 := by decide
    have hti : (BitVec.ofNat 16 (segTss <<< 3)).getLsbD 2 = false := by decide
    rw [Tables.descriptor]
    simp only [hidx, hti, hgdt, hlimit]
    rfl
  obtain ⟨-, hlo, hhi⟩ := @load64_fillGdt
    (setU32 (loc + 1024).toNat 16 0x00680000 ((mkgate idt.toNat 64 (vectors 64) 3 1
      (mkgates vectors idt.toNat 256 (m.memset idt.toNat 0 (pgsize * 4)))).memset
        loc.toNat 0 pgsize)) loc.toNat (loc + 1024)
  have hlo' : (segMem vectors idt loc m).load64 (loc.toNat + 48) = tssWord (loc + 1024) := hlo
  have hhi' : (segMem vectors idt loc m).load64 (loc.toNat + 56) = (loc + 1024) >>> 32 := hhi
  obtain ⟨hs, htype, hpresent⟩ := @ofWord_tssWord (loc + 1024)
  rw [Tables.ltr, hdesc]
  simp only [Option.bind_eq_bind, Option.bind_some, hlo', hhi', Nat.add_assoc, Nat.reduceAdd,
    ofWords_tssWord, hs, htype, hpresent, hb.toNat_tss]
  rfl

/-- `seg_init` returns, and the descriptors are set up. -/
theorem segInit_inv (vectors : ℕ → U64) (hb : Blocks idt loc) (s : SegState) :
    ∃ s₀, segInit vectors idt loc s = some s₀ ∧ TrapInv vectors idt loc ⟨s₀, none⟩ := by
  have hltr := @ltr_segMem vectors idt loc s.mem hb
    ((s.tables.lidt (pd idt pgsize)).lgdt (pd loc (8 * 8)))
    (by simp [Tables.lgdt, pseudoDescriptor_pd]) (by simp [Tables.lgdt, pseudoDescriptor_pd])
  have hdisj := hb.disjoint
  rw [pgsize] at hdisj
  have hother : ∀ {m : Ram} {v : U64} {a : ℕ}, a < loc.toNat + 48 ∨ loc.toNat + 56 ≤ a →
      m.store64 (loc.toNat + 48) v a = m a := fun ha => Ram.writeLe_of_not_mem fun hin => by
    have := hin.1
    have := hin.2
    omega
  refine ⟨_, by rw [segInit, hltr, Option.map_some], ?_⟩
  refine ⟨fun n hn => ?_, ?_, fun i hi => ?_, ?_, rfl, fun k hk => ?_⟩
  · rw [← gateAt_segMem (m := s.mem) hb hn]
    exact gateAt_congr fun b hb' => hother (by have := hb'.1; have := hb'.2; omega)
  · dsimp only
    rw [Ram.load64_store64_of_disjoint (by omega)]
    exact load64_fillGdt.1
  · exact (hother (by omega)).trans (segMem_task hb hi)
  · simp [kernelTables, Tables.lgdt, Tables.lidt, pseudoDescriptor_pd, pgsize]
  · cases hk

end Init

/-! ### What a step does -/

section Step

variable {vectors : ℕ → U64} {idt loc k : U64} {m m' : Ram} {s s' : TrapState} {g : Gate} {n : ℕ}
  {err : U64} {c : Cpu} {src : TrapSource} {a : ℕ}

theorem TrapInv.congr (h : TrapInv vectors idt loc s)
    (hm : ∀ a ∈ descriptors idt loc, m a = s.seg.mem a) :
    TrapInv vectors idt loc { s with seg := { s.seg with mem := m } } where
  gates n hn := by
    rw [← h.gates n hn]
    exact gateAt_congr fun b hb => hm b (.inl ⟨by have := hb.1; omega, by have := hb.2; omega⟩)
  code := by
    rw [← h.code]
    exact Ram.load64_congr fun b hb =>
      hm b (.inr (.inl ⟨by have := hb.1; omega, by have := hb.2; omega⟩))
  task i hi := (hm _ (.inr (.inr ⟨by omega, by omega⟩))).trans (h.task i hi)
  tables := h.tables
  cpuLocal := h.cpuLocal
  stack := h.stack

/-- What is pushed at a trap is below the stack pointer that was loaded. -/
theorem atTrap_mem (n : ℕ) (err : U64) (c : Cpu) (hroom : sizeofTrapframe ≤ g.rsp.toNat) :
    ((atTrap g n err c).reg .rdi).toNat = g.rsp.toNat - sizeofTrapframe ∧
      ∀ a ∉ Set.Ico (g.rsp.toNat - sizeofTrapframe) g.rsp.toNat,
        (atTrap g n err c).mem a = c.mem a := by
  have hcode : alltraps = savedRegs.reverse.map .push ++ [.mov .rsp .rdi] := rfl
  rw [sizeofTrapframe] at hroom ⊢
  have hrsp₀ : ((g.enter c).reg .rsp).toNat = g.rsp.toNat := by rw [Gate.enter_rsp]
  obtain ⟨c₁, hc₁⟩ : ∃ c₁, c₁ = run (vector n) (interrupt g n err c) := ⟨_, rfl⟩
  have hpush := pushed_pushWords ((userFrame n err c).iretWords.reverse ++
    [(userFrame n err c).err, (userFrame n err c).trapno]) (g.enter c) (by
      change 56 ≤ _
      omega)
  rw [← run_vector_interrupt, ← hc₁] at hpush
  have hrsp₁ : (c₁.reg .rsp).toNat + 56 = ((g.enter c).reg .rsp).toNat := hpush.rsp
  have hpush' := pushed_pushWords (savedRegs.reverse.map c₁.reg) c₁ (by
    change 120 ≤ _
    omega)
  rw [← run_push (by decide)] at hpush'
  rw [atTrap, ← hc₁, hcode, run_append, run_cons, run_nil, exec]
  generalize run (savedRegs.reverse.map .push) c₁ = c₂ at hpush' ⊢
  have hrsp₂ : (c₂.reg .rsp).toNat + 120 = (c₁.reg .rsp).toNat := hpush'.rsp
  constructor
  · rw [setReg_same]
    omega
  · intro a ha
    have hmem₂ : c₂.mem a = c₁.mem a := hpush'.mem a fun hin => ha (by
      have := hin.1
      have := hin.2
      exact ⟨by omega, by omega⟩)
    have hmem₁ : c₁.mem a = c.mem a := hpush.mem a fun hin => ha (by
      have := hin.1
      have := hin.2
      exact ⟨by omega, by omega⟩)
    exact hmem₂.trans hmem₁

theorem trapFrom_eq {e : Entry} (h : Pushes n src) :
    trapFrom e n src err c = atTrap (gateOf e) n err c := by
  have hpush : (src = .exception ∧ hasErrorCode n) ↔ hasErrorCode n = true :=
    and_iff_right_of_imp fun hn => h.resolve_right (by rw [hn]; decide)
  rw [trapFrom, atTrap, interruptFrom, interrupt]
  simp only [hpush, Cpu.pushWords, List.foldl_cons, List.foldl_nil]

theorem StackPage.toNat_top (h : StackPage idt loc k) :
    (k + BitVec.ofNat 64 pgsize).toNat = k.toNat + pgsize := by
  have hlt := h.lt
  have hpg : (BitVec.ofNat 64 pgsize).toNat = pgsize := rfl
  rw [BitVec.toNat_add, hpg, Nat.mod_eq_of_lt hlt]

theorem ofNat_div_pow {w : ℕ} (v : BitVec w) (j : ℕ) :
    BitVec.ofNat 8 (v.toNat / 256 ^ j) = (v >>> (8 * j)).setWidth 8 := by
  refine BitVec.eq_of_toNat_eq ?_
  rw [BitVec.toNat_ofNat, BitVec.toNat_setWidth, BitVec.toNat_ushiftRight,
    Nat.shiftRight_eq_div_pow, Nat.pow_mul]

theorem ofNat_low (v : U64) {j : ℕ} (hj : j < 4) :
    BitVec.ofNat 8 ((v.setWidth 32).toNat / 256 ^ j) = BitVec.ofNat 8 (v.toNat / 256 ^ j) := by
  rw [ofNat_div_pow, ofNat_div_pow]
  refine BitVec.eq_of_getLsbD_eq fun i hi => ?_
  simp only [BitVec.getLsbD_setWidth, BitVec.getLsbD_ushiftRight]
  grind

theorem ofNat_high (v : U64) (j : ℕ) :
    BitVec.ofNat 8 (((v >>> 32).setWidth 32).toNat / 256 ^ j) =
      BitVec.ofNat 8 (v.toNat / 256 ^ (4 + j)) := by
  rw [ofNat_div_pow, ofNat_div_pow]
  refine BitVec.eq_of_getLsbD_eq fun i hi => ?_
  simp only [BitVec.getLsbD_setWidth, BitVec.getLsbD_ushiftRight]
  grind

theorem tssSetRsp_of_not_mem {tss : ℕ} {rsp : U64} (ha : a < tss + 4 ∨ tss + 12 ≤ a) :
    tssSetRsp tss 0 rsp m a = m a := by
  have hstore : ∀ i, 1 ≤ i → i ≤ 2 → ∀ (m : Ram) (v : BitVec 32), setU32 tss i v m a = m a :=
    fun i hi hi' m v => store32_of_not_mem fun hin => by
      have := hin.1
      have := hin.2
      omega
  rw [tssSetRsp, hstore _ (by decide) (by decide), hstore _ (by decide) (by decide)]

theorem tssSetRsp_add {tss j : ℕ} {rsp : U64} (hj : j < 8) :
    tssSetRsp tss 0 rsp m (tss + 4 + j) = BitVec.ofNat 8 (rsp.toNat / 256 ^ j) := by
  rw [tssSetRsp, setU32, setU32]
  by_cases hlow : j < 4
  · have hhigh : tss + 4 + j ∉ Set.Ico (tss + 4 * (0 * 2 + 2)) (tss + 4 * (0 * 2 + 2) + 4) :=
      fun hin => by
        have := hin.1
        omega
    rw [store32_of_not_mem hhigh]
    exact (store32_add hlow).trans (ofNat_low rsp hlow)
  · obtain ⟨j, rfl⟩ := Nat.exists_eq_add_of_le (Nat.not_lt.1 hlow)
    rw [show tss + 4 + (4 + j) = tss + 8 + j by omega]
    exact (store32_add (by omega)).trans (ofNat_high rsp j)

theorem tssSetRsp_byte {tss : ℕ} {rsp rsp' : U64} (hm : ∀ i < 104, m (tss + i) = tssByte rsp i)
    {i : ℕ} (hi : i < 104) : tssSetRsp tss 0 rsp' m (tss + i) = tssByte rsp' i := by
  by_cases hin : 4 ≤ i ∧ i < 12
  · obtain ⟨j, rfl⟩ := Nat.exists_eq_add_of_le hin.1
    rw [tssByte, if_pos hin, Nat.add_sub_cancel_left, ← Nat.add_assoc, tssSetRsp_add (by omega)]
  · rw [tssSetRsp_of_not_mem (by omega), hm i hi, tssByte, tssByte, if_neg hin, if_neg hin]

theorem TrapInv.userSwitchVm (h : TrapInv vectors idt loc s) (hb : Blocks idt loc)
    (hk : StackPage idt loc k) (pml4 : U64) :
    TrapInv vectors idt loc ⟨Asm.userSwitchVm k pml4 s.seg, some k⟩ := by
  have hmem : (Asm.userSwitchVm k pml4 s.seg).mem =
      tssSetRsp (loc.toNat + 1024) 0 (k + BitVec.ofNat 64 pgsize) s.seg.mem := by
    rw [Asm.userSwitchVm, h.cpuLocal, hb.toNat_tss]
  have hdisj := hb.disjoint
  rw [pgsize] at hdisj
  refine ⟨fun n hn => ?_, ?_, fun i hi => ?_, h.tables, h.cpuLocal, fun k' hk' => ?_⟩
  · rw [← h.gates n hn]
    refine gateAt_congr fun b hb' => ?_
    have := hb'.1
    have := hb'.2
    dsimp only
    rw [hmem, tssSetRsp_of_not_mem (by omega)]
  · rw [← h.code]
    refine Ram.load64_congr fun b hb' => ?_
    have := hb'.2
    dsimp only
    rw [hmem, tssSetRsp_of_not_mem (by omega)]
  · dsimp only
    rw [hmem]
    exact tssSetRsp_byte h.task hi
  · cases hk'
    exact hk

end Step

/-! ### Interrupts of user code -/

section Deliver

variable {vectors : ℕ → U64} {idt loc k : U64} {s s' : TrapState} {n : ℕ} {err : U64} {c : Cpu}
  {src : TrapSource}

/-- What an interrupt of user code loads. -/
def kernelEntry (vectors : ℕ → U64) (kStack : U64) (n : ℕ) (rflags : U64) : Entry where
  rsp := kStack + BitVec.ofNat 64 pgsize
  rip := vectors n
  cs := BitVec.ofNat 16 (segKcode <<< 3)
  ss := 0
  rflags := handlerFlags (if n = 64 then 15 else 14) rflags

theorem TrapInv.stack_eq (h : TrapInv vectors idt loc s) :
    (kernelTables idt loc).stack s.seg.mem 4 = some s.rsp0 := by
  have hlow : load32 s.seg.mem (loc.toNat + 1024 + 4) = s.rsp0.setWidth 32 := by
    have hread : s.seg.mem.readLe (loc.toNat + 1024 + 4) 4 = (s.rsp0.setWidth 32).toNat :=
      Ram.readLe_of_bytes 4 (BitVec.isLt _) fun i hi => by
        rw [Nat.add_assoc, h.task _ (by omega), tssByte, if_pos ⟨by omega, by omega⟩,
          Nat.add_sub_cancel_left, ofNat_low _ hi]
    rw [load32, hread, BitVec.ofNat_toNat, BitVec.setWidth_eq]
  have hhigh : load32 s.seg.mem (loc.toNat + 1024 + 4 + 4) = (s.rsp0 >>> 32).setWidth 32 := by
    have hread : s.seg.mem.readLe (loc.toNat + 1024 + 4 + 4) 4 =
        ((s.rsp0 >>> 32).setWidth 32).toNat :=
      Ram.readLe_of_bytes 4 (BitVec.isLt _) fun i hi => by
        rw [Nat.add_assoc, Nat.add_assoc, h.task _ (by omega), tssByte,
          if_pos ⟨by omega, by omega⟩, Nat.add_sub_cancel_left, ofNat_high]
    rw [load32, hread, BitVec.ofNat_toNat, BitVec.setWidth_eq]
  have hlimit : 4 + 7 ≤ (kernelTables idt loc).tssLimit := by
    change 4 + 7 ≤ 0x67
    decide
  rw [Tables.stack, if_pos hlimit]
  dsimp only [kernelTables]
  rw [hlow, hhigh]
  refine congrArg some (BitVec.eq_of_getLsbD_eq fun i hi => ?_)
  simp only [BitVec.getLsbD_append, BitVec.getLsbD_setWidth, BitVec.getLsbD_ushiftRight]
  grind

/-- The end of a kernel stack is a stack pointer that the processor takes as it is. -/
theorem StackPage.top (h : StackPage idt loc k) :
    IsCanonical (k + BitVec.ofNat 64 pgsize) ∧
      (k + BitVec.ofNat 64 pgsize) &&& ~~~15 = k + BitVec.ofNat 64 pgsize := by
  have htop := h.toNat_top
  have hle : kernBase ≤ k + BitVec.ofNat 64 pgsize := by
    have hk := h.le
    rw [BitVec.le_def] at hk ⊢
    omega
  constructor
  · refine Or.inr (BitVec.eq_of_getLsbD_eq fun i hi => ?_)
    have hones : ∀ i < 17, (-1 : BitVec 17).getLsbD i = true := by decide
    rw [BitVec.getLsbD_extractLsb', getLsbD_of_kernBase_le hle (by omega) (by omega), hones i hi,
      decide_eq_true hi]
    rfl
  · refine BitVec.eq_of_getLsbD_eq fun i hi => ?_
    have hmask : ∀ i < 64, (~~~15 : U64).getLsbD i = decide (4 ≤ i) := by decide
    rw [BitVec.getLsbD_and, hmask i hi]
    by_cases h4 : 4 ≤ i
    · rw [decide_eq_true h4, Bool.and_true]
    · have haligned : (k + BitVec.ofNat 64 pgsize).toNat = 2 ^ 4 * ((k.toNat + pgsize) / 16) := by
        have hmod := h.aligned
        rw [htop]
        rw [pgsize] at hmod ⊢
        omega
      rw [decide_eq_false h4, Bool.and_false, BitVec.getLsbD, haligned, Nat.testBit_two_pow_mul,
        decide_eq_false h4, Bool.false_and]

theorem kernelGate_offset : (kernelGate vectors n).offset = vectors n := by
  rw [kernelGate]
  split_ifs <;> rfl

theorem kernelGate_selector :
    (kernelGate vectors n).selector = BitVec.ofNat 16 (segKcode <<< 3) := by
  rw [kernelGate]
  split_ifs <;> rfl

theorem kernelGate_type : (kernelGate vectors n).type = if n = 64 then 15 else 14 := by
  rw [kernelGate]
  split_ifs <;> rfl

theorem kernelGate_dpl_lt : (kernelGate vectors n).dpl < 3 ↔ n ≠ 64 := by
  rw [kernelGate]
  split_ifs with h
  · exact iff_of_false (by change ¬(3 : BitVec 32).setWidth 2 < 3; decide) (not_not.2 h)
  · exact iff_of_true (by change (0 : BitVec 32).setWidth 2 < 3; decide) h

/-- Interrupts of user code are delivered, except that an instruction may ask for a system call
only. -/
theorem TrapInv.deliver (h : TrapInv vectors idt loc s)
    (hv : ∀ n < 256, IsCanonical (vectors n)) (hk : s.kStack = some k) (hmem : c.mem = s.seg.mem)
    (hcpl : c.cpl = 3) (hn : n < 256) :
    X86.deliver s.seg.tables n src c = if src = .software ∧ n ≠ 64 then none
      else some (kernelEntry vectors k n c.rflags) := by
  have hpage := h.stack k hk
  obtain ⟨hcanon, halign⟩ := hpage.top
  have hrsp : s.rsp0 = k + BitVec.ofNat 64 pgsize := by rw [TrapState.rsp0, hk]; rfl
  have hstack := h.stack_eq
  rw [hrsp] at hstack
  have hdesc : (kernelTables idt loc).descriptor (BitVec.ofNat 16 (segKcode <<< 3)) 8 =
      some (loc.toNat + 8) := rfl
  have hcode : c.mem.load64 (loc.toNat + 8) = 0x0020980000000000 := by rw [hmem, h.code]
  have hgate : gateAt c.mem ((kernelTables idt loc).idt + 16 * n) = kernelGate vectors n := by
    rw [hmem]
    exact h.gates n hn
  have hseg : Segment.ofWord 0x0020980000000000 = ⟨8, true, 0, true, true, false⟩ := by decide
  have hnew : (kernelTables idt loc).newStack c 0 0 = some (k + BitVec.ofNat 64 pgsize) := by
    rw [Tables.newStack, hcpl, hmem]
    exact hstack
  have husable : Usable (kernelTables idt loc) c (kernelGate vectors n)
      ⟨8, true, 0, true, true, false⟩ (k + BitVec.ofNat 64 pgsize) := by
    have hlevel : (0 : BitVec 2) ≤ c.cpl := by
      rw [hcpl]
      decide
    rw [kernelGate]
    split_ifs
    · exact ⟨rfl, .inr rfl, rfl, hv n hn, ⟨_, hdesc, by rw [hcode, hseg]⟩, by decide, by decide,
        hlevel, hnew, hcanon⟩
    · exact ⟨rfl, .inl rfl, rfl, hv n hn, ⟨_, hdesc, by rw [hcode, hseg]⟩, by decide, by decide,
        hlevel, hnew, hcanon⟩
  rw [h.tables, deliver_of_usable (by change 16 * n + 15 ≤ 4095; omega) hgate husable, halign, hcpl]
  have hss : (if (0 : BitVec 2) < 3 then (0 : BitVec 2).setWidth 16 else c.ss) = 0 := by
    rw [if_pos (by decide)]
    rfl
  have hcs : (BitVec.ofNat 16 (segKcode <<< 3)).extractLsb' 2 14 ++ (0 : BitVec 2) =
      BitVec.ofNat 16 (segKcode <<< 3) := by decide
  simp only [kernelGate_offset, kernelGate_selector, kernelGate_type, kernelGate_dpl_lt, hss, hcs,
    kernelEntry]

end Deliver

/-! ### Ports -/

section Ports

variable {vectors : ℕ → U64} {idt loc k rsp : U64} {s : TrapState} {c : Cpu} {m : Ram}

/-- The bits of the task state segment that are set: those of the stack pointer, and three of the
word that `seg_init` stores. -/
def PortClosed (rsp : U64) (q : ℕ) : Prop :=
  32 ≤ q ∧ q < 96 ∧ rsp.getLsbD (q - 32) = true ∨ q = 531 ∨ q = 533 ∨ q = 534

theorem testBit_readLe_two {a j : ℕ} (hj : j < 16) :
    (m.readLe a 2).testBit j = (m (a + j / 8)).getLsbD (j % 8) := by
  have hbyte : (m a).toNat < 2 ^ 8 := (m a).isLt
  have hread : m.readLe a 2 = 2 ^ 8 * (m (a + 1)).toNat + (m a).toNat := by
    rw [Ram.readLe, Ram.readLe, Ram.readLe]
    omega
  rw [hread, Nat.testBit_two_pow_mul_add _ hbyte]
  split_ifs with h
  · rw [Nat.div_eq_of_lt h, Nat.mod_eq_of_lt h, Nat.add_zero, BitVec.getLsbD]
  · rw [show j / 8 = 1 by omega, show j % 8 = j - 8 by omega, BitVec.getLsbD]

theorem getLsbD_tssByte {q : ℕ} :
    (tssByte rsp (q / 8)).getLsbD (q % 8) = true ↔ PortClosed rsp q := by
  have hmod : q % 8 < 8 := Nat.mod_lt q (by decide)
  rw [tssByte, PortClosed]
  by_cases hrsp : 32 ≤ q ∧ q < 96
  · rw [if_pos ⟨by omega, by omega⟩, ofNat_div_pow, BitVec.getLsbD_setWidth,
      BitVec.getLsbD_ushiftRight, decide_eq_true hmod, Bool.true_and,
      show 8 * (q / 8 - 4) + q % 8 = q - 32 by omega]
    constructor
    · exact fun h => .inl ⟨hrsp.1, hrsp.2, h⟩
    · rintro (h | h | h | h)
      · exact h.2.2
      · omega
      · omega
      · omega
  · rw [if_neg (by omega)]
    by_cases h66 : q / 8 = 66
    · have hbits : ∀ i < 8, (0x68 : BitVec 8).getLsbD i = true ↔ i = 3 ∨ i = 5 ∨ i = 6 := by decide
      rw [if_pos h66, hbits _ hmod]
      omega
    · rw [if_neg h66]
      refine iff_of_false (by simp) ?_
      rintro (h | h | h | h)
      · exact hrsp ⟨h.1, h.2.1⟩
      · omega
      · omega
      · omega

/-- The ports that user code may use. -/
theorem TrapInv.portAllowed_iff (h : TrapInv vectors idt loc s) (hmem : c.mem = s.seg.mem)
    (hcpl : c.cpl = 3) (hiopl : c.rflags.extractLsb' 12 2 = 0) {port size : ℕ} (hsize : size ≤ 4) :
    portAllowed s.seg.tables c port size ↔
      port < 824 ∧ ∀ i < size, ¬PortClosed s.rsp0 (port + i) := by
  have hbitmap : c.mem.readLe (loc.toNat + 1024 + 102) 2 = 0 := by
    rw [hmem]
    refine Ram.readLe_of_bytes 2 (by decide) fun i hi => ?_
    rw [Nat.add_assoc, h.task _ (by omega), tssByte, if_neg (by omega), if_neg (by omega),
      Nat.zero_div]
    rfl
  have hlevel : ¬c.cpl ≤ c.rflags.extractLsb' 12 2 := by
    rw [hcpl, hiopl]
    decide
  have hlimit : port / 8 + 1 ≤ 0x67 ↔ port < 824 := by omega
  rw [portAllowed, or_iff_right hlevel, h.tables]
  simp only [kernelTables, hbitmap, Nat.zero_add, Nat.add_zero]
  rw [hlimit]
  refine and_congr_right fun hport => forall_congr' fun i => forall_congr' fun hi => ?_
  have hbit : (c.mem.readLe (loc.toNat + 1024 + port / 8) 2).testBit (port % 8 + i) =
      (tssByte s.rsp0 ((port + i) / 8)).getLsbD ((port + i) % 8) := by
    rw [testBit_readLe_two (by omega), hmem, Nat.add_assoc (loc.toNat + 1024),
      h.task _ (by omega), show port / 8 + (port % 8 + i) / 8 = (port + i) / 8 by omega,
      show (port % 8 + i) % 8 = (port + i) % 8 by omega]
  rw [hbit, ← Bool.not_eq_true, getLsbD_tssByte]

end Ports

/-! ### An example -/

section Example

/-- The block for the gates. -/
def exampleIdt : U64 := 0xFFFFFFFF80200000

/-- The block for the other descriptors. -/
def exampleLocal : U64 := 0xFFFFFFFF80208000

/-- The kernel stack of a thread. -/
def exampleStack : U64 := 0xFFFFFFFF80300000

/-- The handlers. -/
def exampleVectors (_ : ℕ) : U64 := 0xFFFFFFFF80100000

/-- The machine before `seg_init`. -/
def exampleBoot : SegState := ⟨fun _ => 0, ⟨0, 0, 0, 0, 0, 0⟩, 0, 0, 0, 0⟩

/-- User code. -/
def exampleUser (m : Ram) : Cpu := ⟨fun _ => 1, 0x400000, 0x23, 0x2B, 0, m⟩

theorem example_cpl (m : Ram) : (exampleUser m).cpl = 3 := by
  change (0x23 : BitVec 16).extractLsb' 0 2 = 3
  decide

theorem example_iopl (m : Ram) : (exampleUser m).rflags.extractLsb' 12 2 = 0 := by
  change (0 : U64).extractLsb' 12 2 = 0
  decide

theorem example_blocks : Blocks exampleIdt exampleLocal := ⟨by decide, by decide, by decide⟩

theorem example_canonical : ∀ n < 256, IsCanonical (exampleVectors n) := fun n _ => by
  rw [exampleVectors]
  decide

theorem example_stackPage : StackPage exampleIdt exampleLocal exampleStack := by
  have hidt : exampleIdt.toNat = 0xFFFFFFFF80200000 := rfl
  have hloc : exampleLocal.toNat = 0xFFFFFFFF80208000 := rfl
  have hstack : exampleStack.toNat = 0xFFFFFFFF80300000 := rfl
  refine ⟨by decide, by decide, by decide, fun a ha hin => ?_⟩
  rw [hstack, pgsize] at ha
  rw [descriptors, hidt, hloc] at hin
  have := ha.1
  rcases hin with hin | hin | hin <;>
  · have := hin.2
    omega

theorem example_run (s₀ : SegState) : (trapSystem exampleIdt exampleLocal).Run ⟨s₀, none⟩
    [⟨⟨s₀, none⟩, .userSwitchVm exampleStack 0,
      ⟨userSwitchVm exampleStack 0 s₀, some exampleStack⟩⟩]
    ⟨userSwitchVm exampleStack 0 s₀, some exampleStack⟩ :=
  .single ⟨example_stackPage, rfl⟩

end Example

/-! ### All runs -/

section Runs

variable {vectors : ℕ → U64} {idt loc k : U64} {s₀ boot : SegState} {s s' : TrapState} {n : ℕ}
  {c : Cpu} {src : TrapSource} {tr : List (System.Step TrapState TrapEvent)}

/-- Every step keeps the descriptors. -/
theorem TrapInv.step {ev : TrapEvent} (h : TrapInv vectors idt loc s) (hb : Blocks idt loc)
    (hv : ∀ n < 256, IsCanonical (vectors n)) (hstep : (trapSystem idt loc).step s ev s') :
    TrapInv vectors idt loc s' := by
  cases ev with
  | userSwitchVm kStack pml4 =>
    obtain ⟨hk, rfl⟩ := hstep
    exact h.userSwitchVm hb hk pml4
  | interrupt n src err c =>
    obtain ⟨hk, hmem, hcpl, hpush, e, he, rfl⟩ := hstep
    obtain ⟨k, hk⟩ := Option.ne_none_iff_exists'.1 hk
    have hpage := h.stack k hk
    have hn : n < 256 := by
      have hlimit := limit_of_deliver he
      rw [h.tables] at hlimit
      change 16 * n + 15 ≤ 4095 at hlimit
      omega
    rw [h.deliver hv hk hmem hcpl hn] at he
    split_ifs at he
    obtain rfl := Option.some.inj he
    have hlt := hpage.lt
    have hrsp : (gateOf (kernelEntry vectors k n c.rflags)).rsp.toNat = k.toNat + pgsize :=
      hpage.toNat_top
    rw [pgsize] at hlt hrsp
    refine h.congr fun a ha => ?_
    have hout : a ∉ Set.Ico ((gateOf (kernelEntry vectors k n c.rflags)).rsp.toNat -
        sizeofTrapframe) (gateOf (kernelEntry vectors k n c.rflags)).rsp.toNat := by
      rw [hrsp, sizeofTrapframe]
      refine fun hin => hpage.apart a ⟨?_, ?_⟩ ha
      · have := hin.1
        omega
      · have := hin.2
        rw [pgsize]
        omega
    rw [trapFrom_eq hpush, (atTrap_mem n err c (by rw [hrsp, sizeofTrapframe]; omega)).2 a hout,
      hmem]
  | store a v =>
    obtain ⟨ha, rfl⟩ := hstep
    exact h.congr fun b hb' => Function.update_of_ne (fun heq => ha (by rw [← heq]; exact hb')) ..

/-- The descriptors in a run. -/
theorem TrapInv.run (hb : Blocks idt loc) (hv : ∀ n < 256, IsCanonical (vectors n))
    (h₀ : segInit vectors idt loc boot = some s₀)
    (hrun : (trapSystem idt loc).Run ⟨s₀, none⟩ tr s) : TrapInv vectors idt loc s := by
  obtain ⟨s₁, hs₁, hinv⟩ := segInit_inv vectors hb boot
  obtain rfl := Option.some.inj (h₀.symm.trans hs₁)
  exact (hrun.invariant (C := fun _ => True) hinv
    (fun _ hstep _ h => h.step hb hv hstep) fun _ _ => trivial).1

/-- In every run after `seg_init`: an interrupt of user code leads to its handler, in the code
segment of the kernel and on the kernel stack of the thread that was switched to; only the
instruction `int` is refused, unless it is for a system call. -/
theorem deliver_run (hb : Blocks idt loc) (hv : ∀ n < 256, IsCanonical (vectors n))
    (h₀ : segInit vectors idt loc boot = some s₀)
    (hrun : (trapSystem idt loc).Run ⟨s₀, none⟩ tr s) (hk : s.kStack = some k)
    (hmem : c.mem = s.seg.mem) (hcpl : c.cpl = 3) (hn : n < 256) :
    X86.deliver s.seg.tables n src c = if src = .software ∧ n ≠ 64 then none
      else some (kernelEntry vectors k n c.rflags) :=
  (TrapInv.run hb hv h₀ hrun).deliver hv hk hmem hcpl hn

/-- A page fault is delivered, and the instruction `int $14` is refused. -/
theorem deliver_run_example : ∃ s₀, segInit exampleVectors exampleIdt exampleLocal exampleBoot =
    some s₀ ∧ ∀ m, m = (userSwitchVm exampleStack 0 s₀).mem →
      X86.deliver (userSwitchVm exampleStack 0 s₀).tables 14 .exception (exampleUser m) =
        some (kernelEntry exampleVectors exampleStack 14 0) ∧
      X86.deliver (userSwitchVm exampleStack 0 s₀).tables 14 .software (exampleUser m) = none := by
  obtain ⟨s₀, h₀, -⟩ := segInit_inv exampleVectors example_blocks exampleBoot
  refine ⟨s₀, h₀, fun m hm => ⟨?_, ?_⟩⟩
  · exact deliver_run example_blocks example_canonical h₀ (example_run s₀) rfl hm
      (example_cpl m) (by decide)
  · exact deliver_run example_blocks example_canonical h₀ (example_run s₀) rfl hm
      (example_cpl m) (by decide)

/-- What a trap pushes is the frame of the thread, at the place that `alloc_proc` has chosen, and
nothing else changes in memory. -/
theorem trap_run (hb : Blocks idt loc) (hv : ∀ n < 256, IsCanonical (vectors n))
    (h₀ : segInit vectors idt loc boot = some s₀)
    (hrun : (trapSystem idt loc).Run ⟨s₀, none⟩ tr s) (hk : s.kStack = some k)
    (hmem : c.mem = s.seg.mem) (hcpl : c.cpl = 3) (hn : n < 256) (hpush : Pushes n src)
    (hsrc : src = .software → n = 64) (err : U64) (K : Kernel) (m : Ram) :
    ∃ e, X86.deliver s.seg.tables n src c = some e ∧
      let c' := trapFrom e n src err c
      (c'.reg .rdi).toNat = (allocProc K k.toNat m).tf ∧
        frameAt c'.mem (allocProc K k.toNat m).tf = userFrame n err c ∧
        ∀ a ∉ Set.Ico (allocProc K k.toNat m).tf ((allocProc K k.toNat m).tf + sizeofTrapframe),
          c'.mem a = c.mem a := by
  have hpage := (TrapInv.run hb hv h₀ hrun).stack k hk
  have htop : (gateOf (kernelEntry vectors k n c.rflags)).rsp.toNat = k.toNat + 4096 :=
    hpage.toNat_top
  have hroom : sizeofTrapframe ≤ (gateOf (kernelEntry vectors k n c.rflags)).rsp.toNat := by
    rw [htop, sizeofTrapframe]
    omega
  have htf : (allocProc K k.toNat m).tf =
      (gateOf (kernelEntry vectors k n c.rflags)).rsp.toNat - sizeofTrapframe := by
    rw [(allocProc_layout K k.toNat m).1, htop, sizeofTrapframe]
    omega
  refine ⟨kernelEntry vectors k n c.rflags, ?_, ?_⟩
  · rw [(TrapInv.run hb hv h₀ hrun).deliver hv hk hmem hcpl hn,
      if_neg fun h => h.2 (hsrc h.1)]
  · have hend : (gateOf (kernelEntry vectors k n c.rflags)).rsp.toNat - sizeofTrapframe +
        sizeofTrapframe = (gateOf (kernelEntry vectors k n c.rflags)).rsp.toNat :=
      Nat.sub_add_cancel hroom
    obtain ⟨hrdi, hkept⟩ := atTrap_mem n err c hroom
    dsimp only
    rw [trapFrom_eq hpush, htf, hend]
    refine ⟨hrdi, ?_, hkept⟩
    rw [← hrdi]
    exact frameAt_atTrap n err c hroom

/-- A system call. -/
theorem trap_run_example : ∃ s₀, segInit exampleVectors exampleIdt exampleLocal exampleBoot =
    some s₀ ∧ ∀ m, m = (userSwitchVm exampleStack 0 s₀).mem →
      ∃ e, X86.deliver (userSwitchVm exampleStack 0 s₀).tables 64 .software (exampleUser m) =
        some e ∧ ((trapFrom e 64 .software 0 (exampleUser m)).reg .rdi).toNat =
          (allocProc quietKernel exampleStack.toNat m).tf := by
  obtain ⟨s₀, h₀, -⟩ := segInit_inv exampleVectors example_blocks exampleBoot
  refine ⟨s₀, h₀, fun m hm => ?_⟩
  obtain ⟨e, he, hrdi, -⟩ := trap_run example_blocks example_canonical h₀ (example_run s₀)
    rfl hm (example_cpl m) (by decide) (.inr (by decide)) (fun _ => rfl) 0 quietKernel m
  exact ⟨e, he, hrdi⟩

/-- The ports that user code may use in a run: those below 824, except for the ones whose bits are
set by the stack pointer and by the word that `seg_init` stores in the task state segment. -/
theorem portAllowed_run (hb : Blocks idt loc) (hv : ∀ n < 256, IsCanonical (vectors n))
    (h₀ : segInit vectors idt loc boot = some s₀)
    (hrun : (trapSystem idt loc).Run ⟨s₀, none⟩ tr s) (hk : s.kStack = some k)
    (hmem : c.mem = s.seg.mem) (hcpl : c.cpl = 3) (hiopl : c.rflags.extractLsb' 12 2 = 0)
    {port size : ℕ} (hsize : size ≤ 4) : portAllowed s.seg.tables c port size ↔
      port < 824 ∧ ∀ i < size, ¬PortClosed (k + BitVec.ofNat 64 pgsize) (port + i) := by
  have hrsp : s.rsp0 = k + BitVec.ofNat 64 pgsize := by
    rw [TrapState.rsp0, hk]
    rfl
  rw [← hrsp]
  exact (TrapInv.run hb hv h₀ hrun).portAllowed_iff hmem hcpl hiopl hsize

/-- The ports of the disk, and one behind the last. -/
theorem portAllowed_run_example : ∃ s₀, segInit exampleVectors exampleIdt exampleLocal exampleBoot =
    some s₀ ∧ ∀ m, m = (userSwitchVm exampleStack 0 s₀).mem →
      portAllowed (userSwitchVm exampleStack 0 s₀).tables (exampleUser m) 0x1F0 4 ∧
      ¬portAllowed (userSwitchVm exampleStack 0 s₀).tables (exampleUser m) 824 1 := by
  obtain ⟨s₀, h₀, -⟩ := segInit_inv exampleVectors example_blocks exampleBoot
  refine ⟨s₀, h₀, fun m hm => ⟨?_, fun h => ?_⟩⟩
  · refine (portAllowed_run example_blocks example_canonical h₀ (example_run s₀) rfl hm
      (example_cpl m) (example_iopl m) (by decide)).2 ⟨by decide, fun i hi => ?_⟩
    rintro (h | h | h | h)
    · omega
    · omega
    · omega
    · omega
  · exact absurd ((portAllowed_run example_blocks example_canonical h₀ (example_run s₀) rfl hm
      (example_cpl m) (example_iopl m) (by decide)).1 h).1 (by decide)

end Runs

end Asm

end MicroKernel
