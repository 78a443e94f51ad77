import MicroKernel.X86.Machine

/-!
# Descriptors and interrupts

The processor finds in memory what it does at an interrupt: a gate names the handler, a segment
descriptor the privilege level of the handler, and the task state segment the stack for this level.
The task state segment also says which ports a program may use.

* `GateDescriptor`, `Segment`, `TaskSegment` : descriptors as the processor reads them;
* `deliver` : what the processor loads at an interrupt, if it accepts it;
* `portAllowed` : the ports that a program may use.
-/

namespace MicroKernel

namespace X86

/-! ### Descriptors -/

/-- The 32-bit word at an address. -/
def load32 (m : Ram) (a : ℕ) : BitVec 32 := BitVec.ofNat 32 (m.readLe a 4)

/-- Store a 32-bit word. -/
def store32 (m : Ram) (a : ℕ) (v : BitVec 32) : Ram := m.writeLe a 4 v.toNat

/-- A gate of the interrupt descriptor table. -/
structure GateDescriptor where
  /-- The address of the handler. -/
  offset : BitVec 64
  /-- The code segment of the handler. -/
  selector : BitVec 16
  /-- The entry of the interrupt stack table, or zero. -/
  ist : BitVec 3
  /-- The kind of gate. -/
  type : BitVec 4
  /-- Whether this is not a system descriptor. -/
  s : Bool
  /-- The least privileged level that may use the gate by an instruction. -/
  dpl : BitVec 2
  /-- Whether the gate is there. -/
  present : Bool
  deriving DecidableEq

/-- The gate that consists of four words. -/
def GateDescriptor.ofWords (w₀ w₁ w₂ : BitVec 32) : GateDescriptor where
  offset := w₂ ++ (w₁.extractLsb' 16 16 ++ w₀.extractLsb' 0 16)
  selector := w₀.extractLsb' 16 16
  ist := w₁.extractLsb' 0 3
  type := w₁.extractLsb' 8 4
  s := w₁.getLsbD 12
  dpl := w₁.extractLsb' 13 2
  present := w₁.getLsbD 15

/-- The gate at an address.  Its last word is reserved. -/
def gateAt (m : Ram) (a : ℕ) : GateDescriptor :=
  .ofWords (load32 m a) (load32 m (a + 4)) (load32 m (a + 8))

/-- A code or data segment. -/
structure Segment where
  /-- The kind of segment. -/
  type : BitVec 4
  /-- Whether this is no system descriptor. -/
  s : Bool
  /-- The privilege level. -/
  dpl : BitVec 2
  /-- Whether the segment is there. -/
  present : Bool
  /-- Whether its code is 64-bit code. -/
  long : Bool
  /-- Whether its code is 32-bit code. -/
  db : Bool
  deriving DecidableEq

/-- The segment of a descriptor. -/
def Segment.ofWord (w : BitVec 64) : Segment where
  type := w.extractLsb' 40 4
  s := w.getLsbD 44
  dpl := w.extractLsb' 45 2
  present := w.getLsbD 47
  long := w.getLsbD 53
  db := w.getLsbD 54

/-- It is a code segment. -/
def Segment.isCode (d : Segment) : Bool := d.s && d.type.getLsbD 3

/-- Code of another level may jump there and keeps its level. -/
def Segment.conforming (d : Segment) : Bool := d.type.getLsbD 2

/-- A task state segment. -/
structure TaskSegment where
  /-- Its address. -/
  base : BitVec 64
  /-- The offset of its last byte. -/
  limit : BitVec 20
  deriving DecidableEq

/-- The task state segment of a descriptor, which is as long as two. -/
def TaskSegment.ofWords (lo hi : BitVec 64) : TaskSegment where
  base := hi.extractLsb' 0 32 ++ (lo.extractLsb' 56 8 ++ lo.extractLsb' 16 24)
  limit := lo.extractLsb' 48 4 ++ lo.extractLsb' 0 16

/-! ### The registers of the processor -/

/-- The registers that say where the descriptors are. -/
structure Tables where
  /-- The address of the interrupt descriptor table. -/
  idt : ℕ
  /-- The offset of its last byte. -/
  idtLimit : ℕ
  /-- The address of the global descriptor table. -/
  gdt : ℕ
  /-- The offset of its last byte. -/
  gdtLimit : ℕ
  /-- The address of the task state segment. -/
  tss : ℕ
  /-- The offset of its last byte. -/
  tssLimit : ℕ

/-- The two parts of what `lgdt` and `lidt` load: ten bytes, as words of two bytes. -/
def pseudoDescriptor (pd : Fin 5 → BitVec 16) : ℕ × ℕ :=
  ((pd 4 ++ (pd 3 ++ (pd 2 ++ pd 1))).toNat, (pd 0).toNat)

/-- The instruction `lidt`. -/
def Tables.lidt (T : Tables) (pd : Fin 5 → BitVec 16) : Tables :=
  { T with idt := (pseudoDescriptor pd).1, idtLimit := (pseudoDescriptor pd).2 }

/-- The instruction `lgdt`. -/
def Tables.lgdt (T : Tables) (pd : Fin 5 → BitVec 16) : Tables :=
  { T with gdt := (pseudoDescriptor pd).1, gdtLimit := (pseudoDescriptor pd).2 }

/-- The address of the descriptor for a selector, which has the given size: not for the null
selector, and not behind the end of the table. -/
def Tables.descriptor (T : Tables) (sel : BitVec 16) (size : ℕ) : Option ℕ :=
  let i := (sel.extractLsb' 3 13).toNat
  if i = 0 ∨ sel.getLsbD 2 ∨ T.gdtLimit < 8 * i + size - 1 then none else some (T.gdt + 8 * i)

/-- The instruction `ltr`: the descriptor is that of a task state segment that is there and is not
in use, and it is in use from then on. -/
def Tables.ltr (T : Tables) (m : Ram) (sel : BitVec 16) : Option (Tables × Ram) := do
  let a ← T.descriptor sel 16
  let lo := m.load64 a
  let d := Segment.ofWord lo
  if d.s = false ∧ d.type = 9 ∧ d.present then
    let t := TaskSegment.ofWords lo (m.load64 (a + 8))
    some ({ T with tss := t.base.toNat, tssLimit := t.limit.toNat },
      m.store64 a (lo ||| (1 : BitVec 64) <<< 41))
  else none

/-! ### Interrupts -/

/-- Where an interrupt comes from. -/
inductive TrapSource where
  /-- From the processor. -/
  | exception
  /-- From a device. -/
  | external
  /-- From the instruction `int`. -/
  | software
  deriving DecidableEq

/-- What the processor loads when it delivers an interrupt. -/
structure Entry where
  /-- The stack pointer. -/
  rsp : BitVec 64
  /-- The address of the handler. -/
  rip : BitVec 64
  /-- The code segment. -/
  cs : BitVec 16
  /-- The stack segment. -/
  ss : BitVec 16
  /-- The flags. -/
  rflags : BitVec 64
  deriving DecidableEq

/-- The bits from bit 47 on are equal. -/
def IsCanonical (v : BitVec 64) : Prop := v.extractLsb' 47 17 = 0 ∨ v.extractLsb' 47 17 = -1

instance (v : BitVec 64) : Decidable (IsCanonical v) := inferInstanceAs (Decidable (_ ∨ _))

/-- The current privilege level. -/
def Cpu.cpl (c : Cpu) : BitVec 2 := c.cs.extractLsb' 0 2

/-- The stack pointer of the task state segment at an offset, in two halves. -/
def Tables.stack (T : Tables) (m : Ram) (off : ℕ) : Option (BitVec 64) :=
  if off + 7 ≤ T.tssLimit then some (load32 m (T.tss + off + 4) ++ load32 m (T.tss + off)) else none

/-- The stack of an interrupt handler that runs at the level `level`. -/
def Tables.newStack (T : Tables) (c : Cpu) (ist : BitVec 3) (level : BitVec 2) :
    Option (BitVec 64) :=
  if ist ≠ 0 then T.stack c.mem (36 + 8 * (ist.toNat - 1))
  else if level < c.cpl then T.stack c.mem (4 + 8 * level.toNat)
  else some (c.reg .rsp)

/-- The flags of an interrupt handler: `TF`, `NT`, `RF` and `VM` are cleared, and by an interrupt
gate `IF` is too. -/
def handlerFlags (type : BitVec 4) (rflags : BitVec 64) : BitVec 64 :=
  let rflags := rflags &&& ~~~0x34100
  if type = 14 then rflags &&& ~~~0x200 else rflags

/-- The processor delivers an interrupt.  There is no result if it raises an exception instead. -/
def deliver (T : Tables) (n : ℕ) (src : TrapSource) (c : Cpu) : Option Entry :=
  if T.idtLimit < 16 * n + 15 then none
  else
    let g := gateAt c.mem (T.idt + 16 * n)
    if g.s ∨ g.type ≠ 14 ∧ g.type ≠ 15 ∨ src = .software ∧ g.dpl < c.cpl ∨ ¬g.present then none
    else (T.descriptor g.selector 8).bind fun a =>
      let d := Segment.ofWord (c.mem.load64 a)
      if ¬d.isCode ∨ c.cpl < d.dpl ∨ ¬d.present ∨ ¬d.long ∨ d.db ∨ ¬IsCanonical g.offset then none
      else
        let level := if d.conforming then c.cpl else d.dpl
        (T.newStack c g.ist level).bind fun rsp =>
          if ¬IsCanonical rsp then none
          else some
            { rsp := rsp &&& ~~~15
              rip := g.offset
              cs := g.selector.extractLsb' 2 14 ++ level
              ss := if level < c.cpl then level.setWidth 16 else c.ss
              rflags := handlerFlags g.type c.rflags }

/-! ### Ports -/

/-- A program may use the `size` ports from `port` on: it has the level that the flags ask for, or
the bits of the ports in the task state segment are clear. -/
def portAllowed (T : Tables) (c : Cpu) (port size : ℕ) : Prop :=
  c.cpl ≤ c.rflags.extractLsb' 12 2 ∨
    let bitmap := c.mem.readLe (T.tss + 102) 2
    bitmap + port / 8 + 1 ≤ T.tssLimit ∧
      ∀ i < size, (c.mem.readLe (T.tss + bitmap + port / 8) 2).testBit (port % 8 + i) = false

instance (T : Tables) (c : Cpu) (port size : ℕ) : Decidable (portAllowed T c port size) :=
  inferInstanceAs (Decidable (_ ∨ _ ∧ _))

/-! ### Words and halves of words -/

section Words

variable {m : Ram} {a b : ℕ} {v : BitVec 32}

@[simp] theorem load32_store32 : load32 (store32 m a v) a = v := by
  rw [load32, store32, Ram.readLe_writeLe v.isLt, BitVec.ofNat_toNat, BitVec.setWidth_eq]

theorem load32_congr {m' : Ram} (h : ∀ b ∈ Set.Ico a (a + 4), m b = m' b) :
    load32 m a = load32 m' a := congrArg (BitVec.ofNat 32) (Ram.readLe_congr 4 h)

theorem load32_store32_of_disjoint (h : b + 4 ≤ a ∨ a + 4 ≤ b) :
    load32 (store32 m a v) b = load32 m b :=
  congrArg (BitVec.ofNat 32) (Ram.readLe_writeLe_of_disjoint h)

theorem store32_add {j : ℕ} (hj : j < 4) :
    store32 m a v (a + j) = BitVec.ofNat 8 (v.toNat / 256 ^ j) := by
  rw [store32, Ram.writeLe, Ram.writeBytes_add hj]

theorem store32_of_not_mem (h : b ∉ Set.Ico a (a + 4)) : store32 m a v b = m b :=
  Ram.writeLe_of_not_mem h

end Words

/-! ### Gates that are in order -/

/-- The processor can deliver an interrupt by this gate, with code that runs at the level of its
segment, on the stack `rsp`. -/
structure Usable (T : Tables) (c : Cpu) (g : GateDescriptor) (d : Segment) (rsp : BitVec 64) :
    Prop where
  /-- It is a system descriptor. -/
  system : g.s = false
  /-- It is a gate for interrupts or for traps. -/
  type : g.type = 14 ∨ g.type = 15
  /-- It is there. -/
  present : g.present = true
  /-- The handler has an address. -/
  offset : IsCanonical g.offset
  /-- The segment of the handler. -/
  segment : ∃ a, T.descriptor g.selector 8 = some a ∧ Segment.ofWord (c.mem.load64 a) = d
  /-- It is a code segment. -/
  code : d.isCode = true ∧ d.conforming = false ∧ d.present = true
  /-- It holds 64-bit code. -/
  long : d.long = true ∧ d.db = false
  /-- It is not less privileged. -/
  level : d.dpl ≤ c.cpl
  /-- The stack. -/
  stack : T.newStack c g.ist d.dpl = some rsp
  /-- The stack has an address. -/
  canonical : IsCanonical rsp

/-- By a gate that is in order an interrupt is delivered, unless an instruction that may not use the
gate asks for it. -/
theorem deliver_of_usable {T : Tables} {n : ℕ} {src : TrapSource} {c : Cpu} {g : GateDescriptor}
    {d : Segment} {rsp : BitVec 64} (hlimit : 16 * n + 15 ≤ T.idtLimit)
    (hg : gateAt c.mem (T.idt + 16 * n) = g) (h : Usable T c g d rsp) :
    deliver T n src c = if src = .software ∧ g.dpl < c.cpl then none
      else some
        { rsp := rsp &&& ~~~15
          rip := g.offset
          cs := g.selector.extractLsb' 2 14 ++ d.dpl
          ss := if d.dpl < c.cpl then d.dpl.setWidth 16 else c.ss
          rflags := handlerFlags g.type c.rflags } := by
  obtain ⟨a, ha, hd⟩ := h.segment
  obtain ⟨hcode, hconforming, hpresent⟩ := h.code
  rw [deliver, if_neg (not_lt.2 hlimit)]
  simp only [hg]
  by_cases hsrc : src = .software ∧ g.dpl < c.cpl
  · rw [if_pos hsrc, if_pos (.inr (.inr (.inl hsrc)))]
  · have hgate : ¬(g.s = true ∨ g.type ≠ 14 ∧ g.type ≠ 15 ∨ src = .software ∧ g.dpl < c.cpl ∨
        ¬g.present = true) := by
      rintro (hs | htype | hdpl | hp)
      · rw [h.system] at hs
        cases hs
      · exact h.type.elim htype.1 htype.2
      · exact hsrc hdpl
      · exact hp h.present
    have hsegment : ¬(¬d.isCode = true ∨ c.cpl < d.dpl ∨ ¬d.present = true ∨ ¬d.long = true ∨
        d.db = true ∨ ¬IsCanonical g.offset) := by
      rintro (hs | hlevel | hp | hlong | hdb | hoff)
      · exact hs hcode
      · exact BitVec.not_lt.2 h.level hlevel
      · exact hp hpresent
      · exact hlong h.long.1
      · rw [h.long.2] at hdb
        cases hdb
      · exact hoff h.offset
    have hlevel : (if d.conforming = true then c.cpl else d.dpl) = d.dpl := by
      rw [hconforming]
      rfl
    rw [if_neg hsrc, if_neg hgate, ha, Option.bind_some, hd, if_neg hsegment, hlevel, h.stack,
      Option.bind_some, if_neg (not_not.2 h.canonical)]

/-- There is a gate for every interrupt that is delivered. -/
theorem limit_of_deliver {T : Tables} {n : ℕ} {src : TrapSource} {c : Cpu} {e : Entry}
    (h : deliver T n src c = some e) : 16 * n + 15 ≤ T.idtLimit := by
  by_contra hlt
  rw [deliver, if_pos (not_le.1 hlt)] at h
  cases h

end X86

end MicroKernel
