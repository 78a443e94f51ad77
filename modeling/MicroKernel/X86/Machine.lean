import Mathlib.Data.List.Nodup
import MicroKernel.Ram.Basic

/-!
# A processor and its stack

The instructions with which kernels save and restore registers, for a processor with 64-bit
registers and a memory of bytes.  A stack is seen as the list of the words that are on it.

* `exec`, `run` : instructions;
* `Stacked` : the words on the stack;
* `pushed_pushWords`, `run_push`, `Stacked.run_pop` : registers are saved and loaded;
* `Stacked.iretq` : the return to the code that was interrupted.
-/

namespace MicroKernel

/-! ### Words in memory -/

namespace Ram

variable {ram ram' : Ram} {a b : ℕ} {v : BitVec 64} {ws ws' : List (BitVec 64)}

/-- The 64-bit word at an address. -/
def load64 (ram : Ram) (a : ℕ) : BitVec 64 := BitVec.ofNat 64 (ram.readLe a 8)

/-- Store a 64-bit word. -/
def store64 (ram : Ram) (a : ℕ) (v : BitVec 64) : Ram := ram.writeLe a 8 v.toNat

@[simp] theorem load64_store64 : (ram.store64 a v).load64 a = v := by
  rw [load64, store64, readLe_writeLe v.isLt, BitVec.ofNat_toNat, BitVec.setWidth_eq]

theorem load64_store64_of_disjoint (h : b + 8 ≤ a ∨ a + 8 ≤ b) :
    (ram.store64 a v).load64 b = ram.load64 b :=
  congrArg (BitVec.ofNat 64) (readLe_writeLe_of_disjoint h)

theorem load64_congr (h : ∀ b ∈ Set.Ico a (a + 8), ram b = ram' b) : ram.load64 a = ram'.load64 a :=
  congrArg (BitVec.ofNat 64) (readLe_congr 8 h)

/-- The words of a list are in memory, one behind the other. -/
def Words (ram : Ram) : ℕ → List (BitVec 64) → Prop
  | _, [] => True
  | a, w :: ws => ram.load64 a = w ∧ Words ram (a + 8) ws

theorem words_append : ∀ {a : ℕ}, Words ram a (ws ++ ws') ↔
    Words ram a ws ∧ Words ram (a + 8 * ws.length) ws' := by
  induction ws with
  | nil => simp [Words]
  | cons w ws ih =>
    intro a
    rw [List.cons_append, Words, Words, ih, and_assoc, List.length_cons,
      show a + 8 + 8 * ws.length = a + 8 * (ws.length + 1) by omega]

theorem Words.congr : ∀ {ws : List (BitVec 64)} {a : ℕ}, Words ram a ws →
    (∀ b ∈ Set.Ico a (a + 8 * ws.length), ram b = ram' b) → Words ram' a ws := by
  intro ws
  induction ws with
  | nil => exact fun _ _ => trivial
  | cons w ws ih =>
    intro a h hram
    rw [List.length_cons] at hram
    refine ⟨?_, ih h.2 fun b hb => hram b ⟨by have := hb.1; omega, by have := hb.2; omega⟩⟩
    rw [← load64_congr fun b hb => hram b ⟨hb.1, by have := hb.2; omega⟩]
    exact h.1

theorem Words.store64 (h : Words ram a ws) (hb : b + 8 ≤ a ∨ a + 8 * ws.length ≤ b) :
    Words (ram.store64 b v) a ws :=
  h.congr fun c hc => (writeLe_of_not_mem fun hin => by
    have := hc.1
    have := hc.2
    have := hin.1
    have := hin.2
    omega).symm

end Ram

namespace X86

/-! ### The processor -/

/-- The general registers. -/
inductive Reg where
  | rax | rbx | rcx | rdx | rbp | rsi | rdi | r8 | r9 | r10 | r11 | r12 | r13 | r14 | r15 | rsp
  deriving DecidableEq

/-- The state of the processor and the memory. -/
structure Cpu where
  /-- The general registers. -/
  reg : Reg → BitVec 64
  /-- Where the last jump led. -/
  rip : BitVec 64
  /-- The code segment. -/
  cs : BitVec 16
  /-- The stack segment. -/
  ss : BitVec 16
  /-- The flags. -/
  rflags : BitVec 64
  /-- The memory. -/
  mem : Ram

/-- The instructions. -/
inductive Instr where
  /-- `push %r`. -/
  | push (r : Reg)
  /-- `push $v`. -/
  | pushImm (v : BitVec 64)
  /-- `pop %r`. -/
  | pop (r : Reg)
  /-- `mov %src, %dst`. -/
  | mov (src dst : Reg)
  /-- `mov %src, (%base)`. -/
  | store (src base : Reg)
  /-- `add $v, %r`. -/
  | addImm (v : BitVec 64) (r : Reg)
  /-- `ret`. -/
  | ret
  /-- `iretq`. -/
  | iretq

namespace Cpu

/-- A register gets a value. -/
def setReg (c : Cpu) (r : Reg) (v : BitVec 64) : Cpu := { c with reg := Function.update c.reg r v }

/-- The word at the top of the stack. -/
def top (c : Cpu) : BitVec 64 := c.mem.load64 (c.reg .rsp).toNat

/-- A word is put on the stack. -/
def pushWord (c : Cpu) (v : BitVec 64) : Cpu :=
  let c := c.setReg .rsp (c.reg .rsp - 8)
  { c with mem := c.mem.store64 (c.reg .rsp).toNat v }

/-- Words are put on the stack, the last one on top. -/
def pushWords (c : Cpu) (vs : List (BitVec 64)) : Cpu := vs.foldl pushWord c

/-- The top of the stack is taken away. -/
def dropWord (c : Cpu) : Cpu := c.setReg .rsp (c.reg .rsp + 8)

end Cpu

/-- The flags after an addition: carry, parity, auxiliary carry, zero, sign and overflow are set,
the others are kept. -/
def addFlags (a b old : BitVec 64) : BitVec 64 :=
  let r := a + b
  let flag := fun (p : Bool) (v : BitVec 64) => if p then v else 0
  (old &&& ~~~0x8D5) ||| flag (r < a) 0x1 |||
    flag (((List.range 8).countP r.getLsbD) % 2 = 0) 0x4 |||
    flag (2 ^ 4 ≤ (a.setWidth 4).toNat + (b.setWidth 4).toNat) 0x10 ||| flag (r = 0) 0x40 |||
    flag r.msb 0x80 ||| flag (a.msb = b.msb ∧ r.msb ≠ a.msb) 0x800

/-- What an instruction does. -/
def exec (c : Cpu) : Instr → Cpu
  | .push r => c.pushWord (c.reg r)
  | .pushImm v => c.pushWord v
  | .pop r => c.dropWord.setReg r c.top
  | .mov src dst => c.setReg dst (c.reg src)
  | .store src base => { c with mem := c.mem.store64 (c.reg base).toNat (c.reg src) }
  | .addImm v r => { c.setReg r (c.reg r + v) with rflags := addFlags (c.reg r) v c.rflags }
  | .ret => { c.dropWord with rip := c.top }
  | .iretq =>
    let rsp := (c.reg .rsp).toNat
    { c.setReg .rsp (c.mem.load64 (rsp + 24)) with
      rip := c.mem.load64 rsp
      cs := (c.mem.load64 (rsp + 8)).setWidth 16
      rflags := c.mem.load64 (rsp + 16)
      ss := (c.mem.load64 (rsp + 32)).setWidth 16 }

/-- What a sequence of instructions does. -/
def run (code : List Instr) (c : Cpu) : Cpu := code.foldl exec c

/-! ### The stack -/

/-- The words on the stack, from its top, as far as they are known. -/
structure Stacked (c : Cpu) (ws : List (BitVec 64)) : Prop where
  /-- They do not reach the end of the address space. -/
  lt : (c.reg .rsp).toNat + 8 * ws.length < 2 ^ 64
  /-- They are in memory. -/
  words : c.mem.Words (c.reg .rsp).toNat ws

/-- The words of a list were put on the stack. -/
structure Pushed (vs : List (BitVec 64)) (c c' : Cpu) : Prop where
  /-- The stack pointer. -/
  rsp : (c'.reg .rsp).toNat + 8 * vs.length = (c.reg .rsp).toNat
  /-- The other registers. -/
  reg : ∀ r ≠ .rsp, c'.reg r = c.reg r
  /-- The rest of the memory. -/
  mem : ∀ a ∉ Set.Ico (c'.reg .rsp).toNat (c.reg .rsp).toNat, c'.mem a = c.mem a
  /-- The last one is on top. -/
  words : c'.mem.Words (c'.reg .rsp).toNat vs.reverse

/-- The registers of a list were taken from the stack. -/
structure Popped (rs : List Reg) (vs ws : List (BitVec 64)) (c c' : Cpu) : Prop where
  /-- The memory. -/
  mem : c'.mem = c.mem
  /-- The stack pointer. -/
  rsp : (c'.reg .rsp).toNat = (c.reg .rsp).toNat + 8 * rs.length
  /-- What remains on the stack. -/
  stacked : Stacked c' ws
  /-- The registers that were loaded. -/
  loaded : rs.map c'.reg = vs
  /-- The others. -/
  kept : ∀ r ∉ rs, r ≠ .rsp → c'.reg r = c.reg r

section Stack

variable {c c' : Cpu} {r : Reg} {rs : List Reg} {v w : BitVec 64} {ws vs : List (BitVec 64)}

@[simp] theorem run_nil : run [] c = c := rfl

@[simp] theorem run_cons {i : Instr} {code : List Instr} :
    run (i :: code) c = run code (exec c i) :=
  rfl

@[simp] theorem run_append {code code' : List Instr} :
    run (code ++ code') c = run code' (run code c) := List.foldl_append

@[simp] theorem setReg_same : (c.setReg r v).reg r = v := Function.update_self ..

theorem setReg_of_ne {r' : Reg} (h : r' ≠ r) : (c.setReg r v).reg r' = c.reg r' :=
  Function.update_of_ne h ..

theorem toNat_sub_eight (h : 8 ≤ v.toNat) : (v - 8).toNat = v.toNat - 8 := by
  have h8 : (8 : BitVec 64).toNat = 8 := rfl
  rw [BitVec.toNat_sub_of_le (by rw [BitVec.le_def, h8]; exact h), h8]

theorem toNat_add_eight (h : v.toNat + 8 < 2 ^ 64) : (v + 8).toNat = v.toNat + 8 := by
  have h8 : (8 : BitVec 64).toNat = 8 := rfl
  rw [BitVec.toNat_add, h8, Nat.mod_eq_of_lt h]

/-! ### Words are put on the stack -/

@[simp] theorem pushWord_rsp : (c.pushWord v).reg .rsp = c.reg .rsp - 8 := by
  rw [Cpu.pushWord]
  dsimp only
  rw [setReg_same]

theorem pushWord_reg (h : r ≠ .rsp) : (c.pushWord v).reg r = c.reg r := setReg_of_ne h

@[simp] theorem pushWord_mem : (c.pushWord v).mem = c.mem.store64 (c.reg .rsp - 8).toNat v := by
  rw [Cpu.pushWord]
  dsimp only
  rw [setReg_same]
  rfl

theorem pushWord_mem_of_not_mem {a : ℕ} (hroom : 8 ≤ (c.reg .rsp).toNat)
    (ha : a ∉ Set.Ico ((c.reg .rsp).toNat - 8) (c.reg .rsp).toNat) :
    (c.pushWord v).mem a = c.mem a := by
  rw [pushWord_mem, Ram.store64, toNat_sub_eight hroom]
  refine Ram.writeLe_of_not_mem ?_
  rwa [Nat.sub_add_cancel hroom]

/-- Words are put on the stack. -/
theorem pushed_pushWords : ∀ (vs : List (BitVec 64)) (c : Cpu),
    8 * vs.length ≤ (c.reg .rsp).toNat → Pushed vs c (c.pushWords vs) := by
  intro vs
  induction vs with
  | nil => exact fun c _ => ⟨rfl, fun _ _ => rfl, fun _ _ => rfl, trivial⟩
  | cons v vs ih =>
    intro c hroom
    rw [List.length_cons] at hroom
    have hroom₁ : 8 ≤ (c.reg .rsp).toNat := by omega
    have hrsp₁ : ((c.pushWord v).reg .rsp).toNat = (c.reg .rsp).toNat - 8 := by
      rw [pushWord_rsp, toNat_sub_eight hroom₁]
    obtain ⟨hrsp, hreg, hmem, hwords⟩ := ih (c.pushWord v) (by omega)
    change Pushed (v :: vs) c ((c.pushWord v).pushWords vs)
    refine ⟨?_, fun r hr => (hreg r hr).trans (pushWord_reg hr), fun a ha => ?_, ?_⟩
    · rw [List.length_cons]
      omega
    · rw [hmem a fun hin => ha ⟨hin.1, by have := hin.2; omega⟩]
      exact pushWord_mem_of_not_mem hroom₁ fun hin => ha ⟨by have := hin.1; omega, hin.2⟩
    · rw [List.reverse_cons, Ram.words_append]
      refine ⟨hwords, ?_, trivial⟩
      rw [List.length_reverse, hrsp, ← Ram.load64_congr fun a ha =>
        (hmem a fun hin => absurd hin.2 (Nat.not_lt.2 ha.1)).symm, pushWord_mem, pushWord_rsp]
      exact Ram.load64_store64

theorem Pushed.stacked (hpush : Pushed vs c c') (h : Stacked c ws) :
    Stacked c' (vs.reverse ++ ws) where
  lt := by
    have hlt := h.lt
    have hrsp := hpush.rsp
    rw [List.length_append, List.length_reverse]
    omega
  words := by
    rw [Ram.words_append, List.length_reverse, hpush.rsp]
    refine ⟨hpush.words, h.words.congr fun a ha => (hpush.mem a fun hin => ?_).symm⟩
    exact absurd hin.2 (Nat.not_lt.2 ha.1)

/-- Registers are saved. -/
theorem run_push : ∀ {rs : List Reg} {c : Cpu}, .rsp ∉ rs →
    run (rs.map .push) c = c.pushWords (rs.map c.reg) := by
  intro rs
  induction rs with
  | nil => exact fun _ => rfl
  | cons r rs ih =>
    intro c hrs
    obtain ⟨-, hrs⟩ := not_or.1 (mt List.mem_cons.2 hrs)
    have hmap : rs.map (c.pushWord (c.reg r)).reg = rs.map c.reg :=
      List.map_congr_left fun r' hr' => pushWord_reg fun heq => hrs (heq ▸ hr')
    rw [List.map_cons, run_cons, exec, ih hrs, hmap]
    rfl

/-! ### Words are taken from the stack -/

theorem Stacked.top (h : Stacked c (w :: ws)) : c.top = w := h.words.1

theorem Stacked.toNat_dropWord (h : Stacked c (w :: ws)) :
    (c.dropWord.reg .rsp).toNat = (c.reg .rsp).toNat + 8 := by
  have hlt := h.lt
  rw [List.length_cons] at hlt
  rw [Cpu.dropWord, setReg_same, toNat_add_eight (by omega)]

theorem Stacked.dropWord (h : Stacked c (w :: ws)) : Stacked c.dropWord ws := by
  have hlt := h.lt
  rw [List.length_cons] at hlt
  have hrsp := h.toNat_dropWord
  refine ⟨by rw [hrsp]; omega, ?_⟩
  rw [hrsp]
  exact h.words.2

theorem Stacked.setReg (h : Stacked c ws) (hr : .rsp ≠ r) (v : BitVec 64) :
    Stacked (c.setReg r v) ws := by
  have hrsp : (c.setReg r v).reg .rsp = c.reg .rsp := setReg_of_ne hr
  exact ⟨by rw [hrsp]; exact h.lt, by rw [hrsp]; exact h.words⟩

/-- Registers are loaded. -/
theorem Stacked.run_pop : ∀ {rs : List Reg} {vs : List (BitVec 64)} {c : Cpu},
    rs.Nodup → .rsp ∉ rs →
    rs.length = vs.length → Stacked c (vs ++ ws) → Popped rs vs ws c (run (rs.map .pop) c) := by
  intro rs
  induction rs with
  | nil =>
    intro vs c _ _ hlen h
    obtain rfl := List.length_eq_zero_iff.1 hlen.symm
    exact ⟨rfl, rfl, h, rfl, fun _ _ _ => rfl⟩
  | cons r rs ih =>
    intro vs c hnodup hrs hlen h
    obtain ⟨hr, hnodup⟩ := List.nodup_cons.1 hnodup
    obtain ⟨hrsp, hrs⟩ := not_or.1 (mt List.mem_cons.2 hrs)
    obtain ⟨w, vs, rfl⟩ := List.exists_cons_of_length_eq_add_one hlen.symm
    rw [List.length_cons, List.length_cons, Nat.add_right_cancel_iff] at hlen
    have htop := h.toNat_dropWord
    obtain ⟨hmem, hsp, hstacked, hloaded, hkept⟩ :=
      ih hnodup hrs hlen (h.dropWord.setReg hrsp c.top)
    rw [List.map_cons, run_cons, exec]
    refine ⟨hmem, ?_, hstacked, ?_, fun r' hr' hne => ?_⟩
    · rw [hsp, setReg_of_ne hrsp, htop, List.length_cons]
      omega
    · rw [List.map_cons, hloaded, hkept r hr (Ne.symm hrsp), setReg_same, h.top]
    · obtain ⟨hne', hr'⟩ := not_or.1 (mt List.mem_cons.2 hr')
      rw [hkept r' hr' hne, setReg_of_ne hne', Cpu.dropWord, setReg_of_ne hne]

theorem Stacked.ret (h : Stacked c (w :: ws)) : (exec c .ret).rip = w ∧ Stacked (exec c .ret) ws ∧
    ((exec c .ret).reg .rsp).toNat = (c.reg .rsp).toNat + 8 ∧ (exec c .ret).mem = c.mem :=
  ⟨h.top, ⟨h.dropWord.lt, h.dropWord.words⟩, h.toNat_dropWord, rfl⟩

theorem exec_addImm_reg {r' : Reg} (h : r' ≠ r) : (exec c (.addImm v r)).reg r' = c.reg r' := by
  rw [exec]
  exact setReg_of_ne h

theorem Stacked.addImm (h : Stacked c (vs ++ ws)) (hv : v.toNat = 8 * vs.length) :
    Stacked (exec c (.addImm v .rsp)) ws := by
  have hlt := h.lt
  rw [List.length_append] at hlt
  have hrsp : ((exec c (.addImm v .rsp)).reg .rsp).toNat = (c.reg .rsp).toNat + 8 * vs.length := by
    rw [exec]
    dsimp only
    rw [setReg_same, BitVec.toNat_add, hv, Nat.mod_eq_of_lt (by omega)]
  refine ⟨by rw [hrsp]; omega, ?_⟩
  rw [hrsp]
  exact (Ram.words_append.1 h.words).2

/-- The return from an interrupt. -/
theorem Stacked.iretq {ip code flags sp stack : BitVec 64}
    (h : Stacked c [ip, code, flags, sp, stack]) :
    let c' := exec c .iretq
    c'.rip = ip ∧ c'.cs = code.setWidth 16 ∧ c'.rflags = flags ∧ c'.ss = stack.setWidth 16 ∧
      c'.reg .rsp = sp ∧ ∀ r ≠ .rsp, c'.reg r = c.reg r := by
  have hwords := h.words
  simp only [Ram.Words, Nat.add_assoc, Nat.reduceAdd] at hwords
  obtain ⟨hip, hcode, hflags, hsp, hstack, -⟩ := hwords
  dsimp only [exec]
  rw [hip, hcode, hflags, hsp, hstack]
  exact ⟨rfl, rfl, rfl, rfl, setReg_same, fun r hr => setReg_of_ne hr⟩

end Stack

end X86

end MicroKernel
