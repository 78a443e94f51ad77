import MicroKernel.Kernel.Boundary
import MicroKernel.Object.ObjectType
import MicroKernel.X86.Protection

/-!
# The descriptors of the kernel

`seg_init` sets up the descriptors by which the processor enters the kernel, and `user_switch_vm`
tells it the kernel stack of the thread that is switched to.

* `mkgate`, `segInit`, `userSwitchVm` : the functions of the kernel;
* `gateAt_mkgate` : the processor reads the gate that was asked for;
* `ofWords_tssWord` : it reads the task state segment that was asked for.
-/

namespace MicroKernel

namespace Asm

open X86

/-! ### The functions of the kernel -/

/-- `SEG_KCODE`. -/
def segKcode : ℕ := 1

/-- `SEG_KDATA`. -/
def segKdata : ℕ := 2

/-- `SEG_KCPU`. -/
def segKcpu : ℕ := 3

/-- `SEG_UCODE`. -/
def segUcode : ℕ := 4

/-- `SEG_UDATA`. -/
def segUdata : ℕ := 5

/-- `SEG_TSS`. -/
def segTss : ℕ := 6

/-- `idt[i] = v`, for an array of 32-bit words. -/
def setU32 (arr i : ℕ) (v : BitVec 32) (m : Ram) : Ram := store32 m (arr + 4 * i) v

/-- `gdt[i] = v`, for an array of 64-bit words. -/
def setU64 (arr i : ℕ) (v : U64) (m : Ram) : Ram := m.store64 (arr + 8 * i) v

/-- The first word that `mkgate` stores. -/
def gateWord₀ (addr : U64) : BitVec 32 :=
  let sel : U64 := (BitVec.ofNat 64 segKcode <<< 3) <<< 16
  ((addr &&& (0xFFFF : U64)) ||| sel).setWidth 32

/-- The second word that `mkgate` stores. -/
def gateWord₁ (addr : U64) (pl trap : BitVec 32) : BitVec 32 :=
  let trap : BitVec 32 := if trap ≠ 0 then 0x8F00 else 0x8E00
  let dpl : BitVec 32 := (pl &&& (3 : BitVec 32)) <<< 13
  ((addr &&& (0xFFFF0000 : U64)) ||| trap.setWidth 64 ||| dpl.setWidth 64).setWidth 32

/-- `mkgate`. -/
def mkgate (idt n : ℕ) (kva : U64) (pl trap : BitVec 32) (m : Ram) : Ram :=
  let n := n * 4
  let m := setU32 idt (n + 0) (gateWord₀ kva) m
  let m := setU32 idt (n + 1) (gateWord₁ kva pl trap) m
  let m := setU32 idt (n + 2) ((kva >>> 32).setWidth 32) m
  setU32 idt (n + 3) 0 m

/-- The loop of `seg_init` over the first `n` entries. -/
def mkgates (vectors : ℕ → U64) (idt n : ℕ) (m : Ram) : Ram :=
  (List.range n).foldl (fun m i => mkgate idt i (vectors i) 0 0 m) m

/-- The array `pd` of `lgdt` and `lidt`. -/
def pd (p : U64) (size : ℕ) : Fin 5 → BitVec 16
  | 0 => BitVec.ofNat 16 (size - 1)
  | 1 => p.setWidth 16
  | 2 => (p >>> 16).setWidth 16
  | 3 => (p >>> 32).setWidth 16
  | 4 => (p >>> 48).setWidth 16

/-- What `seg_init` and `user_switch_vm` work with. -/
structure SegState where
  /-- The memory. -/
  mem : Ram
  /-- The registers for the descriptors. -/
  tables : Tables
  /-- The stack segment. -/
  ss : BitVec 16
  /-- The base of the segment `fs`. -/
  fsBase : U64
  /-- `cpu->local`. -/
  cpuLocal : U64
  /-- The page table in use. -/
  cr3 : U64

/-- The descriptor of the task state segment at the address `addr`, its first word. -/
def tssWord (addr : U64) : U64 :=
  let low : U64 := (addr &&& (0xFFFFFF : U64)) <<< 16
  let high : U64 := ((addr >>> 24) &&& (0xFF : U64)) <<< 56
  (0x0067 : U64) ||| low ||| ((0x00E9 : U64) <<< 40) ||| high

/-- The descriptors that `seg_init` stores at `gdt`, for the task state segment at `addr`. -/
def fillGdt (gdt : ℕ) (addr : U64) (m : Ram) : Ram :=
  let m := setU64 gdt 0 0 m
  let m := setU64 gdt segKcode 0x0020980000000000 m
  let m := setU64 gdt segUcode 0x0020F80000000000 m
  let m := setU64 gdt segKdata 0x0000920000000000 m
  let m := setU64 gdt segKcpu 0 m
  let m := setU64 gdt segUdata 0x0000F20000000000 m
  let m := setU64 gdt (segTss + 0) (tssWord addr) m
  setU64 gdt (segTss + 1) (addr >>> 32) m

/-- The memory as `seg_init` leaves it, for the blocks that `memblock_alloc_kernel` returns. -/
def segMem (vectors : ℕ → U64) (idt loc : U64) (m : Ram) : Ram :=
  let m := m.memset idt.toNat 0 (pgsize * 4)
  let m := mkgates vectors idt.toNat 256 m
  let m := mkgate idt.toNat 64 (vectors 64) 3 1 m
  let m := m.memset loc.toNat 0 pgsize
  let m := setU32 (loc + 1024).toNat 16 0x00680000 m
  fillGdt loc.toNat (loc + 1024) m

/-- `seg_init`.  There is no result if the processor does not accept the task state segment. -/
def segInit (vectors : ℕ → U64) (idt loc : U64) (s : SegState) : Option SegState :=
  let m := segMem vectors idt loc s.mem
  let T := (s.tables.lidt (pd idt pgsize)).lgdt (pd loc (8 * 8))
  (T.ltr m (BitVec.ofNat 16 (segTss <<< 3))).map fun (T, m) =>
    { s with
      mem := m
      tables := T
      ss := BitVec.ofNat 16 (segKdata <<< 3)
      fsBase := loc + BitVec.ofNat 64 (pgsize / 2)
      cpuLocal := loc }

/-- `tss_set_rsp`. -/
def tssSetRsp (tss n : ℕ) (rsp : U64) (m : Ram) : Ram :=
  let m := setU32 tss (n * 2 + 1) (rsp.setWidth 32) m
  setU32 tss (n * 2 + 2) ((rsp >>> 32).setWidth 32) m

/-- `user_switch_vm`, for a thread with the given fields. -/
def userSwitchVm (kStack pml4 : U64) (s : SegState) : SegState :=
  let tss := (s.cpuLocal + 1024).toNat
  { s with
    mem := tssSetRsp tss 0 (kStack + BitVec.ofNat 64 pgsize) s.mem
    cr3 := pml4 - kernBase }

/-! ### What the processor reads -/

section Read

variable {m : Ram} {idt n a : ℕ} {addr kva : U64} {pl trap : BitVec 32}

/-- The gate that `mkgate` is asked for. -/
def gateFor (kva : U64) (pl trap : BitVec 32) : GateDescriptor where
  offset := kva
  selector := BitVec.ofNat 16 (segKcode <<< 3)
  ist := 0
  type := if trap ≠ 0 then 15 else 14
  s := false
  dpl := pl.setWidth 2
  present := true

theorem getLsbD_gateWord₀ {i : ℕ} (hi : i < 32) :
    (gateWord₀ addr).getLsbD i = (decide (i < 16) && addr.getLsbD i || decide (i = 19)) := by
  have hlow : ∀ i < 32, (0xFFFF : U64).getLsbD i = decide (i < 16) := by decide
  have hsel : ∀ i < 32, ((BitVec.ofNat 64 segKcode <<< 3) <<< 16 : U64).getLsbD i =
      decide (i = 19) := by decide
  simp only [gateWord₀, BitVec.getLsbD_setWidth, BitVec.getLsbD_or, BitVec.getLsbD_and]
  rw [hlow i hi, hsel i hi, decide_eq_true hi, Bool.true_and, Bool.and_comm]

theorem getLsbD_gateWord₁ {i : ℕ} (hi : i < 32) : (gateWord₁ addr pl trap).getLsbD i =
    (decide (16 ≤ i) && addr.getLsbD i ||
      (if trap ≠ 0 then 0x8F00 else 0x8E00 : BitVec 32).getLsbD i ||
        decide (13 ≤ i ∧ i < 15) && pl.getLsbD (i - 13)) := by
  have hhigh : ∀ i < 32, (0xFFFF0000 : U64).getLsbD i = decide (16 ≤ i) := by decide
  have hthree : ∀ i < 32, (3 : BitVec 32).getLsbD i = decide (i < 2) := by decide
  have hpl : ((pl &&& 3) <<< 13 : BitVec 32).getLsbD i =
      (decide (13 ≤ i ∧ i < 15) && pl.getLsbD (i - 13)) := by
    rw [BitVec.getLsbD_shiftLeft, BitVec.getLsbD_and, hthree _ (by omega), decide_eq_true hi,
      Bool.true_and]
    by_cases h : 13 ≤ i ∧ i < 15
    · rw [decide_eq_true h, decide_eq_true (by omega : i - 13 < 2),
        decide_eq_false (by omega : ¬i < 13), Bool.not_false, Bool.true_and, Bool.and_true,
        Bool.true_and]
    · rw [decide_eq_false h, Bool.false_and]
      by_cases hlt : i < 13
      · rw [decide_eq_true hlt, Bool.not_true, Bool.false_and]
      · rw [decide_eq_false (by omega : ¬i - 13 < 2), Bool.and_false, Bool.and_false]
  simp only [gateWord₁, BitVec.getLsbD_setWidth, BitVec.getLsbD_or, BitVec.getLsbD_and]
  rw [hhigh i hi, hpl, decide_eq_true hi, decide_eq_true (by omega : i < 64), Bool.true_and,
    Bool.true_and, Bool.true_and, Bool.and_comm (addr.getLsbD i)]

/-- The processor reads the gate that was asked for. -/
theorem ofWords_gateWord : GateDescriptor.ofWords (gateWord₀ kva) (gateWord₁ kva pl trap)
    ((kva >>> 32).setWidth 32) = gateFor kva pl trap := by
  have hconst : ∀ i < 32, (if trap ≠ 0 then 0x8F00 else 0x8E00 : BitVec 32).getLsbD i =
      (decide (9 ≤ i ∧ i < 12 ∨ i = 15) || decide (trap ≠ 0 ∧ i = 8)) := by
    by_cases h : trap = 0
    · simp only [h]
      decide
    · simp only [h, ne_eq, not_false_eq_true, if_true, true_and]
      decide
  rw [GateDescriptor.ofWords, gateFor, GateDescriptor.mk.injEq]
  refine ⟨BitVec.eq_of_getLsbD_eq fun i hi => ?_, BitVec.eq_of_getLsbD_eq fun i hi => ?_,
    BitVec.eq_of_getLsbD_eq fun i hi => ?_, BitVec.eq_of_getLsbD_eq fun i hi => ?_, ?_,
    BitVec.eq_of_getLsbD_eq fun i hi => ?_, ?_⟩
  · -- the three parts of the address
    rw [BitVec.getLsbD_append, BitVec.getLsbD_append, BitVec.getLsbD_setWidth,
      BitVec.getLsbD_ushiftRight, BitVec.getLsbD_extractLsb', BitVec.getLsbD_extractLsb']
    by_cases h16 : i < 16
    · rw [if_pos (by omega), if_pos h16, getLsbD_gateWord₀ (by omega)]
      grind
    · by_cases h32 : i < 32
      · rw [if_pos (by omega), if_neg h16, getLsbD_gateWord₁ (by omega), hconst _ (by omega)]
        grind
      · rw [if_neg (by omega)]
        grind
  · have hsel : ∀ i < 16, (BitVec.ofNat 16 (segKcode <<< 3)).getLsbD i = decide (i = 3) := by
      decide
    rw [BitVec.getLsbD_extractLsb', getLsbD_gateWord₀ (by omega), hsel i hi]
    grind
  · rw [BitVec.getLsbD_extractLsb', getLsbD_gateWord₁ (by omega), hconst _ (by omega)]
    grind
  · have htype : ∀ i < 4, (if trap ≠ 0 then 15 else 14 : BitVec 4).getLsbD i =
        (decide (1 ≤ i) || decide (trap ≠ 0 ∧ i = 0)) := by
      by_cases h : trap = 0
      · simp only [h]
        decide
      · simp only [h, ne_eq, not_false_eq_true, if_true, true_and]
        decide
    rw [BitVec.getLsbD_extractLsb', getLsbD_gateWord₁ (by omega), hconst _ (by omega), htype i hi]
    grind
  · rw [getLsbD_gateWord₁ (by omega), hconst _ (by omega)]
    grind
  · rw [BitVec.getLsbD_extractLsb', getLsbD_gateWord₁ (by omega), hconst _ (by omega),
      BitVec.getLsbD_setWidth]
    grind
  · rw [getLsbD_gateWord₁ (by omega), hconst _ (by omega)]
    grind

end Read

/-! ### The memory -/

section Memory

variable {m m' : Ram} {idt n a b : ℕ} {addr kva : U64} {pl trap : BitVec 32} {vectors : ℕ → U64}

theorem gateAt_congr (h : ∀ b ∈ Set.Ico a (a + 12), m b = m' b) : gateAt m a = gateAt m' a := by
  have hword : ∀ off, off + 4 ≤ 12 → load32 m (a + off) = load32 m' (a + off) := fun off hoff =>
    load32_congr fun b hb => h b ⟨(Nat.le_add_right a off).trans hb.1, hb.2.trans_le (by omega)⟩
  rw [gateAt, gateAt, hword 4 (by decide), hword 8 (by decide), ← Nat.add_zero a,
    hword 0 (by decide)]

theorem mkgate_of_not_mem (h : b ∉ Set.Ico (idt + 16 * n) (idt + 16 * (n + 1))) :
    mkgate idt n kva pl trap m b = m b := by
  have hstore : ∀ i < 4, ∀ (m : Ram) (v : BitVec 32), setU32 idt (n * 4 + i) v m b = m b :=
    fun i hi m v => store32_of_not_mem fun hin =>
      h ⟨by have := hin.1; omega, by have := hin.2; omega⟩
  dsimp only [mkgate]
  rw [hstore 3 (by decide), hstore 2 (by decide), hstore 1 (by decide), hstore 0 (by decide)]

theorem gateAt_mkgate : gateAt (mkgate idt n kva pl trap m) (idt + 16 * n) =
    gateFor kva pl trap := by
  have hfirst : idt + 4 * (n * 4) = idt + 16 * n := by omega
  have haddr : ∀ i, idt + 4 * (n * 4 + i) = idt + 16 * n + 4 * i := fun i => by omega
  rw [gateAt, ← ofWords_gateWord]
  simp (disch := omega) only [mkgate, setU32, Nat.add_zero, hfirst, haddr, Nat.reduceMul,
    load32_store32_of_disjoint, load32_store32]

theorem mkgates_succ : mkgates vectors idt (n + 1) m =
    mkgate idt n (vectors n) 0 0 (mkgates vectors idt n m) := by
  rw [mkgates, List.range_succ, List.foldl_append]
  rfl

/-- The gates that the loop has stored. -/
theorem gateAt_mkgates {i : ℕ} (hi : i < n) :
    gateAt (mkgates vectors idt n m) (idt + 16 * i) = gateFor (vectors i) 0 0 := by
  induction n with
  | zero => exact absurd hi (Nat.not_lt_zero i)
  | succ n ih =>
    rw [mkgates_succ]
    rcases Nat.lt_succ_iff_lt_or_eq.1 hi with hlt | rfl
    · rw [← ih hlt]
      exact gateAt_congr fun b hb => mkgate_of_not_mem fun hin => by
        have := hb.2
        have := hin.1
        omega
    · exact gateAt_mkgate

end Memory

/-! ### The task state segment -/

section Task

variable {addr : U64}

theorem getLsbD_tssWord {i : ℕ} (hi : i < 64) : (tssWord addr).getLsbD i =
    ((0x0000E90000000067 : U64).getLsbD i || decide (16 ≤ i ∧ i < 40) && addr.getLsbD (i - 16) ||
      decide (56 ≤ i) && addr.getLsbD (i - 32)) := by
  have hlow : ∀ i < 64, (0xFFFFFF : U64).getLsbD i = decide (i < 24) := by decide
  have hhigh : ∀ i < 64, (0xFF : U64).getLsbD i = decide (i < 8) := by decide
  have hconst : ∀ i < 64, (0x0000E90000000067 : U64).getLsbD i =
      ((0x0067 : U64).getLsbD i || ((0x00E9 : U64) <<< 40).getLsbD i) := by decide
  rw [hconst i hi]
  simp only [tssWord, BitVec.getLsbD_or, BitVec.getLsbD_shiftLeft (x := addr &&& _),
    BitVec.getLsbD_shiftLeft (x := addr >>> 24 &&& _), BitVec.getLsbD_and,
    BitVec.getLsbD_ushiftRight]
  grind

/-- The descriptor is that of a task state segment of 104 bytes. -/
theorem ofWords_tssWord :
    TaskSegment.ofWords (tssWord addr) (addr >>> 32) = ⟨addr, 0x67⟩ := by
  have hconst : ∀ i < 64, (0x0000E90000000067 : U64).getLsbD i =
      decide (i < 3 ∨ 5 ≤ i ∧ i < 7 ∨ i = 40 ∨ i = 43 ∨ 45 ≤ i ∧ i < 48) := by decide
  have hlimit : ∀ i < 20, (0x67 : BitVec 20).getLsbD i = decide (i < 3 ∨ 5 ≤ i ∧ i < 7) := by decide
  rw [TaskSegment.ofWords, TaskSegment.mk.injEq]
  refine ⟨BitVec.eq_of_getLsbD_eq fun i hi => ?_, BitVec.eq_of_getLsbD_eq fun i hi => ?_⟩
  · rw [BitVec.getLsbD_append, BitVec.getLsbD_append]
    simp only [BitVec.getLsbD_extractLsb', BitVec.getLsbD_ushiftRight]
    by_cases h24 : i < 24
    · rw [if_pos (by omega), if_pos h24, getLsbD_tssWord (by omega), hconst _ (by omega)]
      grind
    · by_cases h32 : i < 32
      · rw [if_pos (by omega), if_neg h24, getLsbD_tssWord (by omega), hconst _ (by omega)]
        grind
      · rw [if_neg (by omega)]
        grind
  · rw [BitVec.getLsbD_append, BitVec.getLsbD_extractLsb', BitVec.getLsbD_extractLsb', hlimit i hi]
    by_cases h16 : i < 16
    · rw [if_pos h16, getLsbD_tssWord (by omega), hconst _ (by omega)]
      grind
    · rw [if_neg h16, getLsbD_tssWord (by omega), hconst _ (by omega)]
      grind

theorem ofWord_tssWord : (Segment.ofWord (tssWord addr)).s = false ∧
    (Segment.ofWord (tssWord addr)).type = 9 ∧ (Segment.ofWord (tssWord addr)).present = true := by
  have hconst : ∀ i < 64, (0x0000E90000000067 : U64).getLsbD i =
      decide (i < 3 ∨ 5 ≤ i ∧ i < 7 ∨ i = 40 ∨ i = 43 ∨ 45 ≤ i ∧ i < 48) := by decide
  have htype : ∀ i < 4, (9 : BitVec 4).getLsbD i = decide (i = 0 ∨ i = 3) := by decide
  simp only [Segment.ofWord]
  refine ⟨?_, BitVec.eq_of_getLsbD_eq fun i hi => ?_, ?_⟩
  · rw [getLsbD_tssWord (by decide), hconst _ (by decide)]
    rfl
  · rw [BitVec.getLsbD_extractLsb', getLsbD_tssWord (by omega), hconst _ (by omega), htype i hi]
    grind
  · rw [getLsbD_tssWord (by decide), hconst _ (by decide)]
    rfl

theorem pseudoDescriptor_pd (p : U64) (size : ℕ) :
    pseudoDescriptor (pd p size) = (p.toNat, (size - 1) % 2 ^ 16) := by
  have hp : (p >>> 48).setWidth 16 ++ ((p >>> 32).setWidth 16 ++
      ((p >>> 16).setWidth 16 ++ p.setWidth 16)) = p := by
    refine BitVec.eq_of_getLsbD_eq fun i hi => ?_
    simp only [BitVec.getLsbD_append, BitVec.getLsbD_setWidth, BitVec.getLsbD_ushiftRight]
    grind
  simp only [pseudoDescriptor, pd]
  rw [hp, BitVec.toNat_ofNat]

end Task

end Asm

end MicroKernel
