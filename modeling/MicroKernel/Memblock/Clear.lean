import Mathlib.Tactic.IntervalCases
import MicroKernel.Memblock.Safety
import MicroKernel.Ram.Basic

/-!
# Clearing an allocated block

`memblock_alloc_base` clears the block with `memset`, which takes the size as a `u32` and stores
double words where the address and the size allow it.  Memory is addressed by virtual addresses
here.

* `Clear.memset_eq_stosb` : both ways of storing write the same bytes;
* `Clear.memblockAllocBase_cleared_iff` : the block is cleared exactly if its bytes from offset
  `size % 2 ^ 32` on were zero before.
-/

namespace MicroKernel

namespace Clear

/-! ### Stores -/

/-- `rep stosb`: the low byte of `data` into `cnt` bytes. -/
def stosb (ram : Ram) (addr : ℕ) (data : BitVec 32) : ℕ → Ram
  | 0 => ram
  | cnt + 1 => stosb (Function.update ram addr (data.setWidth 8)) (add64 addr 1) data cnt

/-- One double word, the lowest byte first. -/
def storeLong (ram : Ram) (addr : ℕ) (data : BitVec 32) : Ram :=
  Function.update (Function.update (Function.update (Function.update ram
    addr (data.extractLsb' 0 8)) (add64 addr 1) (data.extractLsb' 8 8))
    (add64 addr 2) (data.extractLsb' 16 8)) (add64 addr 3) (data.extractLsb' 24 8)

/-- `rep stosl`: `data` into `cnt` double words. -/
def stosl (ram : Ram) (addr : ℕ) (data : BitVec 32) : ℕ → Ram
  | 0 => ram
  | cnt + 1 => stosl (storeLong ram addr data) (add64 addr 4) data cnt

/-- The double word that `memset` stores. -/
def fillWord (c : BitVec 32) : BitVec 32 :=
  let c := c &&& 0xFF
  (c <<< 24) ||| (c <<< 16) ||| (c <<< 8) ||| c

/-- `memset`; `n` is a `u32`. -/
def memset (ram : Ram) (dst : ℕ) (c : BitVec 32) (n : ℕ) : Ram :=
  if dst % 4 = 0 ∧ n % 4 = 0 then stosl ram dst (fillWord c) (n / 4)
  else stosb ram dst c n

/-- `memblock_alloc_base`: the tables, the block and the memory after the call. -/
def memblockAllocBase (m : Memblock) (ram : Ram) (size align maxAddr : ℕ) :
    Except Fault (Memblock × ℕ × Ram) := do
  let (m, alloc) ← MicroKernel.memblockAllocBase m size align maxAddr
  return (m, alloc, memset ram (p2v alloc) 0 (size % 2 ^ 32))

/-! ### What they write -/

/-- The addresses of the `n` bytes at `a`. -/
def byteRange (a n : ℕ) : Set ℕ := {b | ∃ i < n, b = add64 a i}

section Stores

variable {ram : Ram} {a b n : ℕ} {c : BitVec 32}

theorem add64_add64 (a i j : ℕ) : add64 (add64 a i) j = add64 a (i + j) := by
  unfold add64
  rw [Nat.mod_add_mod, Nat.add_assoc]

theorem add64_zero (ha : a < 2 ^ 64) : add64 a 0 = a := add64_of_lt ha

theorem byteRange_succ (ha : a < 2 ^ 64) (n : ℕ) :
    byteRange a (n + 1) = insert a (byteRange (add64 a 1) n) := by
  ext b
  simp only [byteRange, Set.mem_ofPred_eq, Set.mem_insert_iff, add64_add64]
  constructor
  · rintro ⟨_ | i, hi, rfl⟩
    · exact Or.inl (add64_zero ha)
    · exact Or.inr ⟨i, Nat.lt_of_succ_lt_succ hi, by rw [Nat.add_comm 1 i]⟩
  · rintro (rfl | ⟨i, hi, rfl⟩)
    · exact ⟨0, Nat.succ_pos n, (add64_zero ha).symm⟩
    · exact ⟨i + 1, Nat.succ_lt_succ hi, by rw [Nat.add_comm 1 i]⟩

theorem stosb_of_not_mem (n : ℕ) : ∀ {ram : Ram} {a : ℕ}, a < 2 ^ 64 → b ∉ byteRange a n →
    stosb ram a c n b = ram b := by
  induction n with
  | zero => exact fun _ _ => rfl
  | succ n ih =>
    intro ram a ha hb
    rw [byteRange_succ ha, Set.mem_insert_iff, not_or] at hb
    rw [stosb, ih (add64_lt a 1) hb.2, Function.update_of_ne hb.1]

theorem stosb_of_mem (n : ℕ) : ∀ {ram : Ram} {a : ℕ}, a < 2 ^ 64 → b ∈ byteRange a n →
    stosb ram a c n b = c.setWidth 8 := by
  induction n with
  | zero =>
    rintro ram a - ⟨i, hi, -⟩
    exact absurd hi (Nat.not_lt_zero i)
  | succ n ih =>
    intro ram a ha hb
    rw [byteRange_succ ha, Set.mem_insert_iff] at hb
    rw [stosb]
    by_cases hrest : b ∈ byteRange (add64 a 1) n
    · exact ih (add64_lt a 1) hrest
    · -- the first byte is written once, unless the range comes round to it again
      obtain rfl := hb.resolve_right hrest
      rw [stosb_of_not_mem n (add64_lt b 1) hrest, Function.update_self]

/-- All four bytes of the double word are the low byte of `c`. -/
theorem extract_fillWord {k : ℕ} (hk : k < 4) :
    (fillWord c).extractLsb' (8 * k) 8 = c.setWidth 8 := by
  refine BitVec.eq_of_getLsbD_eq fun i hi => ?_
  simp only [fillWord, BitVec.getLsbD_extractLsb', BitVec.getLsbD_or, BitVec.getLsbD_shiftLeft,
    BitVec.getLsbD_and, BitVec.getLsbD_setWidth]
  interval_cases k <;> interval_cases i <;> simp

theorem stosl_fillWord (n : ℕ) : ∀ {ram : Ram} {a : ℕ}, a < 2 ^ 64 →
    stosl ram a (fillWord c) n = stosb ram a c (4 * n) := by
  induction n with
  | zero => exact fun _ => rfl
  | succ n ih =>
    intro ram a ha
    have h₀ : (fillWord c).extractLsb' 0 8 = c.setWidth 8 := extract_fillWord (k := 0) (by decide)
    have h₁ : (fillWord c).extractLsb' 8 8 = c.setWidth 8 := extract_fillWord (k := 1) (by decide)
    have h₂ : (fillWord c).extractLsb' 16 8 = c.setWidth 8 := extract_fillWord (k := 2) (by decide)
    have h₃ : (fillWord c).extractLsb' 24 8 = c.setWidth 8 := extract_fillWord (k := 3) (by decide)
    rw [stosl, storeLong, h₀, h₁, h₂, h₃, ih (add64_lt a 4)]
    show _ = stosb ram a c (4 * n + 1 + 1 + 1 + 1)
    simp only [stosb, add64_add64]

/-- Storing double words and storing bytes come to the same. -/
theorem memset_eq_stosb (ha : a < 2 ^ 64) (c : BitVec 32) (n : ℕ) :
    memset ram a c n = stosb ram a c n := by
  unfold memset
  split_ifs with h
  · rw [stosl_fillWord _ ha, Nat.mul_div_cancel' (Nat.dvd_of_mod_eq_zero h.2)]
  · rfl

/-- In a range that does not wrap, `memset` replaces the bytes of an interval. -/
theorem memset_eq (hend : a + n ≤ 2 ^ 64) (ha : a < 2 ^ 64) :
    memset ram a c n = ram.memset a (c.setWidth 8) n := by
  have hmem : ∀ b, b ∈ byteRange a n ↔ b ∈ Set.Ico a (a + n) := by
    intro b
    constructor
    · rintro ⟨i, hi, rfl⟩
      rw [add64_of_lt (by omega)]
      exact ⟨Nat.le_add_right a i, Nat.add_lt_add_left hi a⟩
    · rintro ⟨hb, hlt⟩
      have hsum : a + (b - a) = b := Nat.add_sub_cancel' hb
      exact ⟨b - a, by omega, by rw [add64_of_lt (by omega), hsum]⟩
  funext b
  rw [memset_eq_stosb ha]
  by_cases hb : b ∈ byteRange a n
  · rw [stosb_of_mem n ha hb, Ram.memset_of_mem ((hmem b).1 hb)]
  · rw [stosb_of_not_mem n ha hb, Ram.memset_of_not_mem fun h => hb ((hmem b).2 h)]

end Stores

/-! ### The block -/

/-- The block is zero, and nothing outside has changed. -/
structure BlockCleared (ram ram' : Ram) (alloc size : ℕ) : Prop where
  /-- Every byte of the block is zero. -/
  zero : ∀ b ∈ byteRange (p2v alloc) size, ram' b = 0
  /-- Every other byte is the same as before. -/
  same : ∀ b, b ∉ byteRange (p2v alloc) size → ram' b = ram b

/-- The bytes of the block that is found, from offset `size % 2 ^ 32` on, are zero. -/
def RestZero (m : Memblock) (ram : Ram) (size align maxAddr : ℕ) : Prop :=
  ∀ a, memblockFindInRange m size align 0 maxAddr = .ok a →
    ∀ i, size % 2 ^ 32 ≤ i → i < size → ram (add64 (p2v a) i) = 0

section Block

variable {m m' : Memblock} {ram ram' : Ram} {size align maxAddr alloc : ℕ}

/-- A size of less than 4 GB does not lose anything as a `u32`. -/
theorem restZero_of_lt (h : size < 2 ^ 32) : RestZero m ram size align maxAddr := by
  intro a _ i hi hlt
  rw [Nat.mod_eq_of_lt h] at hi
  exact absurd hlt (Nat.not_lt.2 hi)

theorem not_mem_byteRange {a i n : ℕ} (hi : i < 2 ^ 64) (hn : n ≤ i) :
    add64 a i ∉ byteRange a n := by
  rintro ⟨j, hj, heq⟩
  unfold add64 at heq
  omega

theorem byteRange_mono {a k n : ℕ} (h : k ≤ n) : byteRange a k ⊆ byteRange a n :=
  fun _ ⟨i, hi, hb⟩ => ⟨i, hi.trans_le h, hb⟩

/-- A call that returns has cleared the block if and only if what a `u32` loses of the size was
zero before. -/
theorem memblockAllocBase_cleared_iff (hsize : size < 2 ^ 64)
    (h : memblockAllocBase m ram size align maxAddr = .ok (m', alloc, ram')) :
    BlockCleared ram ram' alloc size ↔ RestZero m ram size align maxAddr := by
  obtain ⟨⟨m₁, a⟩, hcall, hret⟩ := bind_eq_ok h
  cases hret
  obtain ⟨-, hfind, -⟩ := memblockAllocBase_eq_ok hcall
  have ha : p2v alloc < 2 ^ 64 := add64_lt _ _
  have hle : size % 2 ^ 32 ≤ size := Nat.mod_le _ _
  rw [memset_eq_stosb ha]
  constructor
  · intro hcleared a' hfind' i hi hlt
    obtain rfl : alloc = a' := Except.ok.inj (hfind.symm.trans hfind')
    have hnot := not_mem_byteRange (a := p2v alloc) (hlt.trans hsize) hi
    have hzero := hcleared.zero _ ⟨i, hlt, rfl⟩
    rwa [stosb_of_not_mem _ ha hnot] at hzero
  · intro hrest
    refine ⟨?_, fun b hb => stosb_of_not_mem _ ha fun hin => hb (byteRange_mono hle hin)⟩
    rintro b ⟨i, hlt, rfl⟩
    rcases Nat.lt_or_ge i (size % 2 ^ 32) with hi | hi
    · exact stosb_of_mem _ ha ⟨i, hi, rfl⟩
    · rw [stosb_of_not_mem _ ha (not_mem_byteRange (hlt.trans hsize) hi)]
      exact hrest alloc hfind i hi hlt

/-- The memory map of a machine with 4 GB above the first megabyte. -/
def wideMap : List E820Entry := [⟨0x100000, 0x100000000, 1⟩]

/-- The tables built from `wideMap`. -/
def wideTables (reserved : MemblockType) : Memblock :=
  { currentLimit := 0x100100000, memory := ⟨[⟨0x100000, 0x100000000⟩], 0x100000000⟩, reserved }

/-- The case of one page. -/
theorem memblockAllocBase_cleared_iff_page :
    BlockCleared (fun _ => 1) (memset (fun _ => 1) (p2v 0x1000ff000) 0 0x1000) 0x1000ff000 0x1000 ↔
      RestZero (wideTables ⟨[⟨0, 0⟩], 0⟩) (fun _ => 1) 0x1000 0x1000 0 := by
  have hcall : MicroKernel.memblockAllocBase (wideTables ⟨[⟨0, 0⟩], 0⟩) 0x1000 0x1000 0 =
      .ok (wideTables ⟨[⟨0x1000ff000, 0x1000⟩], 0x1000⟩, 0x1000ff000) := by decide +kernel
  have hclear : memblockAllocBase (wideTables ⟨[⟨0, 0⟩], 0⟩) (fun _ => 1) 0x1000 0x1000 0 =
      .ok (wideTables ⟨[⟨0x1000ff000, 0x1000⟩], 0x1000⟩, 0x1000ff000,
        memset (fun _ => 1) (p2v 0x1000ff000) 0 0x1000) := by
    rw [memblockAllocBase, hcall]
    rfl
  exact memblockAllocBase_cleared_iff (by decide) hclear

/-- Not every block is cleared: nothing is stored in one of 4 GB. -/
theorem not_memblockAllocBase_cleared :
    ¬∀ (map : List E820Entry) (m m' : Memblock) (ram ram' : Ram) (size align maxAddr alloc : ℕ),
      memblockInit map = .ok m → 0 < size → size < 2 ^ 64 →
        memblockAllocBase m ram size align maxAddr = .ok (m', alloc, ram') →
          BlockCleared ram ram' alloc size := by
  intro hall
  have hinit : memblockInit wideMap = .ok (wideTables ⟨[⟨0, 0⟩], 0⟩) := by decide
  have hcall : MicroKernel.memblockAllocBase (wideTables ⟨[⟨0, 0⟩], 0⟩) (2 ^ 32) 0x1000 0 =
      .ok (wideTables ⟨[⟨0x100000, 2 ^ 32⟩], 2 ^ 32⟩, 0x100000) := by decide +kernel
  have hcleared := hall wideMap _ (wideTables ⟨[⟨0x100000, 2 ^ 32⟩], 2 ^ 32⟩) (fun _ => 1)
    (fun _ => 1)
    (2 ^ 32) 0x1000 0 0x100000 hinit (by decide) (by decide) (by
      rw [memblockAllocBase, hcall]
      rfl)
  have hzero := hcleared.zero (p2v 0x100000) ⟨0, by decide, by decide⟩
  exact absurd hzero (by decide)

end Block

end Clear

end MicroKernel
