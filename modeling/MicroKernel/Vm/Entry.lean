import MicroKernel.Memblock.Find
import MicroKernel.Ram.Basic

/-!
# Page tables in memory

A page table is a page of 512 entries of 8 bytes.  An entry holds the physical address of a table of
the next level, or of a page, and flags in its low 12 bits.  Nine bits of a virtual address select
the entry at each of the four levels.

* `pml4x`, `pdptx`, `pdx`, `ptx`, `pteAddr`, `pgroundup`, `pgrounddown` : the macros of the source;
* `translate` : what the processor does with a virtual address;
* `or_flags`, `pteAddr_add` : the parts of an entry.
-/

namespace MicroKernel

/-! ### Entries -/

/-- `PTE_P`: present. -/
def pteP : ℕ := 0x001

/-- `PTE_W`: writable. -/
def pteW : ℕ := 0x002

/-- `PTE_U`: accessible in user mode. -/
def pteU : ℕ := 0x004

/-- `PTE_ADDR(pte)`. -/
def pteAddr (pte : ℕ) : ℕ := pte &&& (ullongMax - 0xFFF)

/-- The entry is present. -/
def Present (pte : ℕ) : Prop := pte &&& pteP ≠ 0

/-- The entry may be written through. -/
def Writable (pte : ℕ) : Prop := pte &&& pteW ≠ 0

/-- The entry may be used in user mode. -/
def User (pte : ℕ) : Prop := pte &&& pteU ≠ 0

instance (pte : ℕ) : Decidable (Present pte) := inferInstanceAs (Decidable (_ ≠ _))

instance (pte : ℕ) : Decidable (Writable pte) := inferInstanceAs (Decidable (_ ≠ _))

instance (pte : ℕ) : Decidable (User pte) := inferInstanceAs (Decidable (_ ≠ _))

/-- `PGROUNDDOWN(a)`. -/
def pgrounddown (a : ℕ) : ℕ := a &&& (ullongMax - (pgsize - 1))

/-- `PGROUNDUP(sz)`. -/
def pgroundup (sz : ℕ) : ℕ := add64 sz (pgsize - 1) &&& (ullongMax - (pgsize - 1))

/-- `PXMASK`. -/
def pxmask : ℕ := 0x1FF

/-- `PML4X(va)`. -/
def pml4x (va : ℕ) : ℕ := (va >>> 39) &&& pxmask

/-- `PDPTX(va)`. -/
def pdptx (va : ℕ) : ℕ := (va >>> 30) &&& pxmask

/-- `PDX(va)`. -/
def pdx (va : ℕ) : ℕ := (va >>> 21) &&& pxmask

/-- `PTX(va)`. -/
def ptx (va : ℕ) : ℕ := (va >>> 12) &&& pxmask

/-- `OFFSET(va)`. -/
def offset (va : ℕ) : ℕ := va &&& 0xFFF

/-- The entry with index `i` of the table at the physical address `tab`. -/
def entry (ram : Ram) (tab i : ℕ) : ℕ := ram.readLe (tab + 8 * i) 8

/-! ### Translation -/

/-- Where an entry leads: nowhere if it is not present, or not for user mode when `user` is set. -/
def follow (user : Bool) (ram : Ram) (tab i : ℕ) : Option ℕ :=
  let pte := entry ram tab i
  if Present pte ∧ (user = true → User pte) then some (pteAddr pte) else none

/-- The page table that the tables at `pml4` lead to for a virtual address. -/
def tableOf (user : Bool) (ram : Ram) (pml4 va : ℕ) : Option ℕ := do
  let pdpt ← follow user ram pml4 (pml4x va)
  let pd ← follow user ram pdpt (pdptx va)
  follow user ram pd (pdx va)

/-- The physical address of a virtual address by the tables at `pml4`, for the kernel or for user
mode. -/
def translate (user : Bool) (ram : Ram) (pml4 va : ℕ) : Option ℕ := do
  let pt ← tableOf user ram pml4 va
  let page ← follow user ram pt (ptx va)
  return page + offset va

/-- What is mapped stays mapped where it leads to the same place. -/
theorem ne_none_of_imp {α : Type*} {o o' : Option α} (h : ∀ a, o = some a → o' = some a)
    (ho : o ≠ none) : o' ≠ none := by
  obtain ⟨a, ha⟩ := Option.ne_none_iff_exists'.1 ho
  rw [h a ha]
  exact Option.some_ne_none a

theorem follow_eq_some {user : Bool} {ram : Ram} {tab i a : ℕ} :
    follow user ram tab i = some a ↔ Present (entry ram tab i) ∧
      (user = true → User (entry ram tab i)) ∧ pteAddr (entry ram tab i) = a := by
  unfold follow
  dsimp only
  split_ifs with h
  · exact ⟨fun ha => ⟨h.1, h.2, Option.some.inj ha⟩, fun ha => congrArg some ha.2.2⟩
  · exact ⟨fun ha => (nomatch ha), fun ha => absurd ⟨ha.1, ha.2.1⟩ h⟩

theorem tableOf_eq_some {user : Bool} {ram : Ram} {pml4 va pt : ℕ} :
    tableOf user ram pml4 va = some pt ↔ ∃ pdpt pd, follow user ram pml4 (pml4x va) = some pdpt ∧
      follow user ram pdpt (pdptx va) = some pd ∧ follow user ram pd (pdx va) = some pt := by
  simp only [tableOf, bind, Option.bind_eq_some_iff]
  constructor
  · rintro ⟨pdpt, h₁, pd, h₂, h₃⟩
    exact ⟨pdpt, pd, h₁, h₂, h₃⟩
  · rintro ⟨pdpt, pd, h₁, h₂, h₃⟩
    exact ⟨pdpt, h₁, pd, h₂, h₃⟩

theorem translate_eq_some {user : Bool} {ram : Ram} {pml4 va a : ℕ} :
    translate user ram pml4 va = some a ↔ ∃ pt page, tableOf user ram pml4 va = some pt ∧
      follow user ram pt (ptx va) = some page ∧ page + offset va = a := by
  simp only [translate, bind, pure, Option.bind_eq_some_iff, Option.some.injEq]
  constructor
  · rintro ⟨pt, h₁, page, h₂, h₃⟩
    exact ⟨pt, page, h₁, h₂, h₃⟩
  · rintro ⟨pt, page, h₁, h₂, h₃⟩
    exact ⟨pt, h₁, page, h₂, h₃⟩

/-- What is reached in user mode is reached by the kernel. -/
theorem follow_false_of_follow {user : Bool} {ram : Ram} {tab i a : ℕ}
    (h : follow user ram tab i = some a) : follow false ram tab i = some a :=
  follow_eq_some.2 ⟨(follow_eq_some.1 h).1, by simp, (follow_eq_some.1 h).2.2⟩

theorem tableOf_false_of_tableOf {user : Bool} {ram : Ram} {pml4 va pt : ℕ}
    (h : tableOf user ram pml4 va = some pt) : tableOf false ram pml4 va = some pt := by
  obtain ⟨pdpt, pd, h₁, h₂, h₃⟩ := tableOf_eq_some.1 h
  exact tableOf_eq_some.2 ⟨pdpt, pd, follow_false_of_follow h₁, follow_false_of_follow h₂,
    follow_false_of_follow h₃⟩

theorem translate_false_of_translate {user : Bool} {ram : Ram} {pml4 va a : ℕ}
    (h : translate user ram pml4 va = some a) : translate false ram pml4 va = some a := by
  obtain ⟨pt, page, htab, hpage, rfl⟩ := translate_eq_some.1 h
  exact translate_eq_some.2 ⟨pt, page, tableOf_false_of_tableOf htab,
    follow_false_of_follow hpage, rfl⟩

/-! ### Parts of an address -/

section Parts

variable {a c f pte va : ℕ}

theorem entry_lt (ram : Ram) (tab i : ℕ) : entry ram tab i < 2 ^ 64 := ram.readLe_lt 8 _

/-- All masks of the source clear the low 12 bits. -/
theorem and_pageMask (h : a < 2 ^ 64) : a &&& (ullongMax - 0xFFF) = a / 4096 * 4096 := by
  have hmask : ullongMax - 0xFFF = ullongMax - sub64 (2 ^ 12) 1 := by decide
  rw [hmask]
  exact roundDown_two_pow h (show 12 < 64 by decide)

theorem pteAddr_eq (h : pte < 2 ^ 64) : pteAddr pte = pte / 4096 * 4096 := and_pageMask h

theorem pgrounddown_eq (h : a < 2 ^ 64) : pgrounddown a = a / 4096 * 4096 := and_pageMask h

theorem pgroundup_eq (h : a + 4095 < 2 ^ 64) : pgroundup a = (a + 4095) / 4096 * 4096 := by
  have hadd : add64 a (pgsize - 1) = a + 4095 := add64_of_lt h
  unfold pgroundup
  rw [hadd]
  exact and_pageMask h

theorem dvd_pgroundup (a : ℕ) : pgsize ∣ pgroundup a := by
  have hmask : pgroundup a = add64 a (pgsize - 1) / 4096 * 4096 := and_pageMask (add64_lt _ _)
  rw [hmask]
  exact Nat.dvd_mul_left _ _

theorem and_pxmask (x : ℕ) : x &&& pxmask = x % 512 := Nat.and_two_pow_sub_one_eq_mod x 9

theorem pml4x_eq (va : ℕ) : pml4x va = va / 2 ^ 39 % 512 := by
  rw [pml4x, and_pxmask, Nat.shiftRight_eq_div_pow]

theorem pdptx_eq (va : ℕ) : pdptx va = va / 2 ^ 30 % 512 := by
  rw [pdptx, and_pxmask, Nat.shiftRight_eq_div_pow]

theorem pdx_eq (va : ℕ) : pdx va = va / 2 ^ 21 % 512 := by
  rw [pdx, and_pxmask, Nat.shiftRight_eq_div_pow]

theorem ptx_eq (va : ℕ) : ptx va = va / 2 ^ 12 % 512 := by
  rw [ptx, and_pxmask, Nat.shiftRight_eq_div_pow]

theorem offset_eq (va : ℕ) : offset va = va % 4096 := Nat.and_two_pow_sub_one_eq_mod va 12

theorem pml4x_lt (va : ℕ) : pml4x va < 512 := pml4x_eq va ▸ Nat.mod_lt _ (by decide)

theorem pdptx_lt (va : ℕ) : pdptx va < 512 := pdptx_eq va ▸ Nat.mod_lt _ (by decide)

theorem pdx_lt (va : ℕ) : pdx va < 512 := pdx_eq va ▸ Nat.mod_lt _ (by decide)

theorem ptx_lt (va : ℕ) : ptx va < 512 := ptx_eq va ▸ Nat.mod_lt _ (by decide)

theorem present_iff : Present pte ↔ pte % 2 = 1 := by
  unfold Present pteP
  rw [Nat.and_one_is_mod]
  omega

theorem and_two_pow_ne_zero (pte k : ℕ) : pte &&& 2 ^ k ≠ 0 ↔ pte / 2 ^ k % 2 = 1 := by
  rw [Nat.and_two_pow, Nat.testBit_eq_decide_div_mod_eq]
  by_cases h : pte / 2 ^ k % 2 = 1 <;> simp_all

theorem writable_iff : Writable pte ↔ pte / 2 % 2 = 1 := and_two_pow_ne_zero pte 1

theorem user_iff : User pte ↔ pte / 4 % 2 = 1 := and_two_pow_ne_zero pte 2

theorem or_flags (hc : 4096 ∣ c) (hf : f < 4096) : c ||| f = c + f := by
  obtain ⟨k, rfl⟩ := hc
  exact (Nat.two_pow_add_eq_or_of_lt (i := 12) hf k).symm

theorem pteAddr_add (hc : 4096 ∣ c) (hf : f < 4096) (h : c < 2 ^ 64) : pteAddr (c + f) = c := by
  obtain ⟨k, rfl⟩ := hc
  rw [pteAddr_eq (by omega)]
  omega

theorem pteAddr_of_dvd (hc : 4096 ∣ c) (h : c < 2 ^ 64) : pteAddr c = c :=
  pteAddr_add (f := 0) hc (by decide) h

theorem pteAddr_dvd (h : pte < 2 ^ 64) : 4096 ∣ pteAddr pte := by
  rw [pteAddr_eq h]
  exact Nat.dvd_mul_left _ _

/-! ### Kernel addresses -/

theorem p2v_eq (h : a < 2 ^ 31) : p2v a = a + kernbase := by
  unfold p2v
  exact add64_of_lt (by unfold kernbase; omega)

theorem add64_p2v (a i : ℕ) : add64 (p2v a) i = p2v (a + i) := by
  unfold p2v add64
  omega

theorem p2v_lt (a : ℕ) : p2v a < 2 ^ 64 := add64_lt _ _

/-- `PTE_ADDR` of the kernel address that the code makes of an entry. -/
theorem pteAddr_p2v (h : pte < 2 ^ 64) : pteAddr (p2v pte) = p2v (pteAddr pte) := by
  rw [pteAddr_eq (p2v_lt _), pteAddr_eq h]
  unfold p2v add64 kernbase
  omega

theorem present_p2v : Present (p2v pte) ↔ Present pte := by
  rw [present_iff, present_iff]
  unfold p2v add64 kernbase
  omega

end Parts

end MicroKernel
