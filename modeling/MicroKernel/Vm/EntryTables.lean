import MicroKernel.Vm.KernelWindow
import MicroKernel.X86.Protection

/-!
# The page tables of the boot code

Before the kernel has a page table of its own it runs on tables that the boot code has filled by
hand.  They consist of large pages and map the first gigabyte twice: where it is, and from
`KERNBASE` on.

* `walk` : what the processor does with a virtual address if there may be large pages;
* `entryTables` : the boot code;
* `walk_entryTables` : what its tables map;
* `vmInit_handover` : the page table of `vm_init` is a part of them.
-/

namespace MicroKernel

open Extent X86

attribute [local irreducible] p2v v2p pteAddr

/-! ### Large pages -/

/-- The entry of a third table maps a large page (`PTE_PS`). -/
def Large (pte : ℕ) : Prop := pte &&& 0x080 ≠ 0

instance (pte : ℕ) : Decidable (Large pte) := inferInstanceAs (Decidable (_ ≠ _))

/-- What the processor does with a virtual address: where it leads, for the kernel or for user mode,
and whether it may be written. -/
def walk (user : Bool) (ram : Ram) (pml4 va : ℕ) : Option (ℕ × Bool) := do
  let pdpt ← follow user ram pml4 (pml4x va)
  let pd ← follow user ram pdpt (pdptx va)
  let writable := decide (Writable (entry ram pml4 (pml4x va)) ∧
    Writable (entry ram pdpt (pdptx va)) ∧ Writable (entry ram pd (pdx va)))
  let page ← follow user ram pd (pdx va)
  if Large (entry ram pd (pdx va)) then some (page / 2 ^ 21 * 2 ^ 21 + va % 2 ^ 21, writable)
  else do
    let frame ← follow user ram page (ptx va)
    some (frame + offset va, writable && decide (Writable (entry ram page (ptx va))))

/-! ### The boot code -/

/-- The loop of the boot code, which is run `n` more times. -/
def ptblLoop : ℕ → BitVec 32 → BitVec 32 → Ram → Ram
  | 0, _, _, m => m
  | n + 1, eax, ebx, m => ptblLoop n (eax + 0x200000) (ebx + 8) (store32 m ebx.toNat eax)

/-- The code at `mboot_entry` up to the loop's end: five pages are cleared and the tables filled. -/
def entryTables (m : Ram) : Ram :=
  let m := m.memset 0x1000 0 0x5000
  let m := store32 m 0x1000 (0x2000 ||| 3)
  let m := store32 m 0x1FF8 (0x3000 ||| 3)
  let m := store32 m 0x2000 (0x4000 ||| 3)
  let m := store32 m 0x3FF0 (0x4000 ||| 3)
  ptblLoop 512 0x83 0x4000 m

section Words

variable {m : Ram} {a b n k : ℕ} {v : BitVec 32}

theorem readLe_add (n : ℕ) : ∀ {a : ℕ},
    m.readLe a (n + k) = m.readLe a n + 256 ^ n * m.readLe (a + n) k := by
  induction n with
  | zero => simp [Ram.readLe]
  | succ n ih =>
    intro a
    rw [show n + 1 + k = n + k + 1 by omega, Ram.readLe, Ram.readLe, ih, Nat.pow_succ',
      show a + 1 + n = a + (n + 1) by omega, Nat.mul_add, Nat.mul_assoc, Nat.add_assoc]

/-- A 32-bit word whose upper neighbour is zero. -/
theorem readLe_store32 (h : m.readLe (a + 4) 4 = 0) : (store32 m a v).readLe a 8 = v.toNat := by
  rw [readLe_add 4 (k := 4), store32, Ram.readLe_writeLe v.isLt,
    Ram.readLe_writeLe_of_disjoint (.inr le_rfl), h]
  omega

theorem readLe_store32_of_disjoint (h : b + n ≤ a ∨ a + 4 ≤ b) :
    (store32 m a v).readLe b n = m.readLe b n := Ram.readLe_writeLe_of_disjoint h

end Words

/-! ### The entries -/

section Entries

variable {m : Ram} {i n b : ℕ} {eax ebx : BitVec 32}

theorem readLe_ptblLoop_of_disjoint {k : ℕ} (hlt : ebx.toNat + 8 * n < 2 ^ 32)
    (h : b + k ≤ ebx.toNat ∨ ebx.toNat + 8 * n ≤ b) :
    (ptblLoop n eax ebx m).readLe b k = m.readLe b k := by
  induction n generalizing eax ebx m with
  | zero => rfl
  | succ n ih =>
    have hnext : (ebx + 8).toNat = ebx.toNat + 8 := by
      rw [BitVec.toNat_add, show (8 : BitVec 32).toNat = 8 from rfl, Nat.mod_eq_of_lt (by omega)]
    rw [ptblLoop, ih (by omega) (by omega), readLe_store32_of_disjoint (by omega)]

/-- The entries that the loop fills. -/
theorem readLe_ptblLoop (eax ebx : BitVec 32) (hlt : ebx.toNat + 8 * n < 2 ^ 32)
    (heax : ∀ i < n, eax.toNat + 0x200000 * i < 2 ^ 32)
    (hzero : ∀ i < n, m.readLe (ebx.toNat + 8 * i + 4) 4 = 0) (hi : i < n) :
    (ptblLoop n eax ebx m).readLe (ebx.toNat + 8 * i) 8 = eax.toNat + 0x200000 * i := by
  induction n generalizing eax ebx m i with
  | zero => exact absurd hi (Nat.not_lt_zero i)
  | succ n ih =>
    have hnext : (ebx + 8).toNat = ebx.toNat + 8 := by
      rw [BitVec.toNat_add, show (8 : BitVec 32).toNat = 8 from rfl, Nat.mod_eq_of_lt (by omega)]
    rw [ptblLoop]
    cases i with
    | zero =>
      rw [readLe_ptblLoop_of_disjoint (by omega) (by omega), Nat.mul_zero, Nat.add_zero,
        Nat.add_zero]
      exact readLe_store32 (hzero 0 (Nat.succ_pos n))
    | succ i =>
      have heax' : (eax + 0x200000).toNat = eax.toNat + 0x200000 := by
        have hfits := heax 1 (Nat.succ_lt_succ (Nat.zero_lt_of_lt (Nat.lt_of_succ_lt_succ hi)))
        have hstep : (0x200000 : BitVec 32).toNat = 0x200000 := by simp only [BitVec.reduceToNat]
        rw [BitVec.toNat_add, hstep]
        exact Nat.mod_eq_of_lt hfits
      have hadd : ∀ s j, eax.toNat + s + s * j = eax.toNat + s * (j + 1) := fun s j => by
        rw [Nat.mul_succ, Nat.add_assoc, Nat.add_comm s]
      rw [show ebx.toNat + 8 * (i + 1) = (ebx + 8).toNat + 8 * i by omega,
        ih _ _ (by omega) (fun j hj => ?_) (fun j hj => ?_) (by omega), heax', hadd]
      · rw [heax', hadd]
        exact heax (j + 1) (Nat.succ_lt_succ hj)
      · rw [readLe_store32_of_disjoint (by omega),
          show (ebx + 8).toNat + 8 * j + 4 = ebx.toNat + 8 * (j + 1) + 4 by omega]
        exact hzero (j + 1) (by omega)

/-- The entries of the tables of the boot code. -/
structure EntryEntries (ram : Ram) : Prop where
  /-- The top table. -/
  top : ∀ i < 512, entry ram 0x1000 i = if i = 0 then 0x2003 else if i = 511 then 0x3003 else 0
  /-- The second table for low addresses. -/
  low : ∀ i < 512, entry ram 0x2000 i = if i = 0 then 0x4003 else 0
  /-- The second table for high addresses. -/
  high : ∀ i < 512, entry ram 0x3000 i = if i = 510 then 0x4003 else 0
  /-- The large pages. -/
  large : ∀ i < 512, entry ram 0x4000 i = 0x200000 * i + 0x83

/-- The four stores before the loop, in cleared pages. -/
def entryTops (m : Ram) : Ram :=
  store32 (store32 (store32 (store32 (m.memset 0x1000 0 0x5000) 0x1000 (0x2000 ||| 3)) 0x1FF8
    (0x3000 ||| 3)) 0x2000 (0x4000 ||| 3)) 0x3FF0 (0x4000 ||| 3)

theorem entryTables_eq (m : Ram) : entryTables m = ptblLoop 512 0x83 0x4000 (entryTops m) := rfl

theorem readLe_entryTops (hlow : 0x1000 ≤ b) (hhigh : b + n ≤ 0x6000)
    (h₁ : b + n ≤ 0x1000 ∨ 0x1004 ≤ b) (h₂ : b + n ≤ 0x1FF8 ∨ 0x1FFC ≤ b)
    (h₃ : b + n ≤ 0x2000 ∨ 0x2004 ≤ b) (h₄ : b + n ≤ 0x3FF0 ∨ 0x3FF4 ≤ b) :
    (entryTops m).readLe b n = 0 := by
  rw [entryTops, readLe_store32_of_disjoint h₄, readLe_store32_of_disjoint h₃,
    readLe_store32_of_disjoint h₂, readLe_store32_of_disjoint h₁]
  exact Ram.readLe_memset hlow hhigh

theorem entryEntries (m : Ram) : EntryEntries (entryTables m) := by
  have hpd : (0x4000 : BitVec 32).toNat = 0x4000 := by decide
  have hpte : (0x83 : BitVec 32).toNat = 0x83 := by decide
  have hbelow : ∀ {b : ℕ}, b + 8 ≤ 0x4000 →
      (entryTables m).readLe b 8 = (entryTops m).readLe b 8 := fun hb => by
    rw [entryTables_eq, readLe_ptblLoop_of_disjoint (by omega) (by omega)]
  refine ⟨fun i hi => ?_, fun i hi => ?_, fun i hi => ?_, fun i hi => ?_⟩
  · rw [entry, hbelow (by omega)]
    split_ifs with h₀ h₅
    · subst h₀
      rw [entryTops, readLe_store32_of_disjoint (by omega), readLe_store32_of_disjoint (by omega),
        readLe_store32_of_disjoint (by omega)]
      exact readLe_store32 (Ram.readLe_memset (by omega) (by omega))
    · subst h₅
      rw [entryTops, readLe_store32_of_disjoint (by omega), readLe_store32_of_disjoint (by omega)]
      refine readLe_store32 ?_
      rw [readLe_store32_of_disjoint (by omega)]
      exact Ram.readLe_memset (by omega) (by omega)
    · exact readLe_entryTops (by omega) (by omega) (by omega) (by omega) (by omega) (by omega)
  · rw [entry, hbelow (by omega)]
    split_ifs with h₀
    · subst h₀
      rw [entryTops, readLe_store32_of_disjoint (by omega)]
      refine readLe_store32 ?_
      rw [readLe_store32_of_disjoint (by omega), readLe_store32_of_disjoint (by omega)]
      exact Ram.readLe_memset (by omega) (by omega)
    · exact readLe_entryTops (by omega) (by omega) (by omega) (by omega) (by omega) (by omega)
  · rw [entry, hbelow (by omega)]
    split_ifs with h₀
    · subst h₀
      rw [entryTops]
      refine readLe_store32 ?_
      rw [readLe_store32_of_disjoint (by omega), readLe_store32_of_disjoint (by omega),
        readLe_store32_of_disjoint (by omega)]
      exact Ram.readLe_memset (by omega) (by omega)
    · exact readLe_entryTops (by omega) (by omega) (by omega) (by omega) (by omega) (by omega)
  · have h := readLe_ptblLoop (m := entryTops m) (n := 512) (i := i) 0x83 0x4000 (by omega)
      (by omega) (fun j hj => readLe_entryTops (by omega) (by omega) (by omega) (by omega)
        (by omega) (by omega)) hi
    rw [entry, entryTables_eq, ← hpd, h, hpte, Nat.add_comm]

end Entries

/-! ### What they map -/

section Map

variable {user : Bool} {ram : Ram} {tab pml4 i c f a va : ℕ}

theorem follow_of_entry_add (he : entry ram tab i = c + f) (hc : 4096 ∣ c) (hlt : c < 2 ^ 64)
    (hf : f < 4096) (hp : f % 2 = 1) (hu : f / 4 % 2 = 0) :
    follow user ram tab i = if user = true then none else some c := by
  have hpresent : Present (c + f) := present_iff.2 (by omega)
  have huser : ¬User (c + f) := fun h => by
    rw [user_iff] at h
    omega
  cases user with
  | false => exact follow_eq_some.2 ⟨he ▸ hpresent, by simp, he ▸ pteAddr_add hc hf hlt⟩
  | true => exact if_neg fun h => huser (he ▸ h.2 rfl)

theorem follow_of_entry_zero (he : entry ram tab i = 0) : follow user ram tab i = none :=
  if_neg fun h => h.1 (by rw [he]; rfl)

theorem walk_eq_none (h : tableOf user ram pml4 va = none) : walk user ram pml4 va = none := by
  rw [tableOf] at h
  rw [walk]
  simp only [Option.bind_eq_bind] at h ⊢
  cases h₁ : follow user ram pml4 (pml4x va) with
  | none => rfl
  | some pdpt =>
    rw [h₁, Option.bind_some] at h
    rw [Option.bind_some]
    cases h₂ : follow user ram pdpt (pdptx va) with
    | none => rfl
    | some pd =>
      rw [h₂, Option.bind_some] at h
      rw [Option.bind_some, h, Option.bind_none]

/-- Where the tables of the boot code lead. -/
def entryMap (va : ℕ) : Option ℕ :=
  if va < 2 ^ 30 then some va
  else if kernbase ≤ va ∧ va < kernbase + 2 ^ 30 then some (va - kernbase) else none

namespace EntryEntries

variable (h : EntryEntries ram)
include h

theorem follow_top (hi : i < 512) : follow user ram 0x1000 i = if user = true then none else
    if i = 0 then some 0x2000 else if i = 511 then some 0x3000 else none := by
  have he := h.top i hi
  split_ifs at he with h₀ h₁
  · rw [if_pos h₀]
    exact follow_of_entry_add (c := 0x2000) (f := 3) he (by decide) (by decide) (by decide) rfl rfl
  · rw [if_neg h₀, if_pos h₁]
    exact follow_of_entry_add (c := 0x3000) (f := 3) he (by decide) (by decide) (by decide) rfl rfl
  · rw [follow_of_entry_zero he, if_neg h₀, if_neg h₁, ite_self]

theorem follow_low (hi : i < 512) :
    follow false ram 0x2000 i = if i = 0 then some 0x4000 else none := by
  have he := h.low i hi
  split_ifs at he ⊢ with h₀
  · exact follow_of_entry_add (c := 0x4000) (f := 3) he (by decide) (by decide) (by decide) rfl rfl
  · exact follow_of_entry_zero he

theorem follow_high (hi : i < 512) :
    follow false ram 0x3000 i = if i = 510 then some 0x4000 else none := by
  have he := h.high i hi
  split_ifs at he ⊢ with h₀
  · exact follow_of_entry_add (c := 0x4000) (f := 3) he (by decide) (by decide) (by decide) rfl rfl
  · exact follow_of_entry_zero he

theorem follow_large (hi : i < 512) : follow false ram 0x4000 i = some (0x200000 * i) ∧
    Large (entry ram 0x4000 i) ∧ Writable (entry ram 0x4000 i) := by
  have he := h.large i hi
  refine ⟨follow_of_entry_add (f := 0x83) he (by omega) (by omega) (by decide) rfl rfl,
    (and_two_pow_ne_zero _ 7).2 ?_, writable_iff.2 ?_⟩
  · omega
  · omega

theorem walk_large (pdpt : ℕ) (h₁ : follow false ram 0x1000 (pml4x va) = some pdpt)
    (h₂ : follow false ram pdpt (pdptx va) = some 0x4000)
    (hw₁ : Writable (entry ram 0x1000 (pml4x va))) (hw₂ : Writable (entry ram pdpt (pdptx va))) :
    walk false ram 0x1000 va = some (va % 2 ^ 30, true) := by
  obtain ⟨h₃, hlarge, hw₃⟩ := h.follow_large (pdx_lt va)
  rw [walk]
  simp only [h₁, h₂, h₃, Option.bind_eq_bind, Option.bind_some, if_pos hlarge, hw₁, hw₂, hw₃,
    and_self, decide_true, Option.some.injEq, Prod.mk.injEq, and_true]
  rw [pdx_eq]
  omega

theorem walk_of_low (hva : va < 2 ^ 30) : walk false ram 0x1000 va = some (va, true) := by
  have h₁ : pml4x va = 0 := by rw [pml4x_eq]; omega
  have h₂ : pdptx va = 0 := by rw [pdptx_eq]; omega
  have htop := h.top 0 (by decide)
  have hlow := h.low 0 (by decide)
  rw [h.walk_large 0x2000 ((h.follow_top (pml4x_lt va)).trans (by rw [h₁]; rfl))
    ((h.follow_low (pdptx_lt va)).trans (if_pos h₂)) (by rw [h₁, htop]; decide)
    (by rw [h₂, hlow]; decide), Nat.mod_eq_of_lt hva]

theorem walk_of_high (hlow : kernbase ≤ va) (hhigh : va < kernbase + 2 ^ 30) :
    walk false ram 0x1000 va = some (va - kernbase, true) := by
  have h₁ : pml4x va = 511 := by
    rw [pml4x_eq]
    unfold kernbase at *
    omega
  have h₂ : pdptx va = 510 := by
    rw [pdptx_eq]
    unfold kernbase at *
    omega
  have hmod : va % 2 ^ 30 = va - kernbase := by
    unfold kernbase at *
    omega
  have htop := h.top 511 (by decide)
  have hsecond := h.high 510 (by decide)
  rw [h.walk_large 0x3000 ((h.follow_top (pml4x_lt va)).trans (by rw [h₁]; rfl))
    ((h.follow_high (pdptx_lt va)).trans (if_pos h₂)) (by rw [h₁, htop]; decide)
    (by rw [h₂, hsecond]; decide), hmod]

theorem tableOf_eq_none (hva : CanonicalAddr va) (hlow : ¬va < 2 ^ 30)
    (hwindow : ¬(kernbase ≤ va ∧ va < kernbase + 2 ^ 30)) : tableOf false ram 0x1000 va = none := by
  refine Option.eq_none_iff_forall_ne_some.2 fun t ht => ?_
  obtain ⟨pdpt, pd, h₁, h₂, -⟩ := tableOf_eq_some.1 ht
  rw [h.follow_top (pml4x_lt va), if_neg Bool.false_ne_true] at h₁
  split_ifs at h₁ with h₀ h₅
  · obtain rfl := Option.some.inj h₁
    rw [h.follow_low (pdptx_lt va)] at h₂
    split_ifs at h₂ with hp
    rw [pml4x_eq] at h₀
    rw [pdptx_eq] at hp
    unfold CanonicalAddr at hva
    omega
  · obtain rfl := Option.some.inj h₁
    rw [h.follow_high (pdptx_lt va)] at h₂
    split_ifs at h₂ with hp
    rw [pml4x_eq] at h₅
    rw [pdptx_eq] at hp
    unfold CanonicalAddr at hva
    unfold kernbase at hwindow
    omega

theorem walk_eq (hva : CanonicalAddr va) : walk user ram 0x1000 va =
    if user = true then none else (entryMap va).map fun a => (a, true) := by
  cases user with
  | true =>
    refine walk_eq_none ?_
    rw [tableOf, h.follow_top (pml4x_lt va)]
    rfl
  | false =>
    rw [if_neg Bool.false_ne_true, entryMap]
    split_ifs with hlow hwindow
    · exact h.walk_of_low hlow
    · exact h.walk_of_high hwindow.1 hwindow.2
    · exact walk_eq_none (h.tableOf_eq_none hva hlow hwindow)

end EntryEntries

end Map

/-- The tables of the boot code map the first gigabyte to itself and, once more, from `KERNBASE` on,
for reading and writing; no other address that the processor takes leads anywhere, and user mode has
no access.  The code changes five pages only. -/
theorem walk_entryTables (m : Ram) :
    (∀ user va, CanonicalAddr va → walk user (entryTables m) 0x1000 va =
      if user = true then none else (entryMap va).map fun a => (a, true)) ∧
    ∀ b, b ∉ Set.Ico 0x1000 0x6000 → entryTables m b = m b := by
  refine ⟨fun user va hva => (entryEntries m).walk_eq hva, fun b hb => ?_⟩
  have hpd : (0x4000 : BitVec 32).toNat = 0x4000 := by decide
  have hout : b < 0x1000 ∨ 0x6000 ≤ b := by
    by_contra hin
    exact hb ⟨by omega, by omega⟩
  have hbyte : ∀ r : Ram, r.readLe b 1 = (r b).toNat := fun r => by rw [Ram.readLe, Ram.readLe]; rfl
  refine BitVec.eq_of_toNat_eq ?_
  rw [← hbyte, ← hbyte, entryTables_eq, readLe_ptblLoop_of_disjoint (by omega) (by omega),
    entryTops, readLe_store32_of_disjoint (by omega), readLe_store32_of_disjoint (by omega),
    readLe_store32_of_disjoint (by omega), readLe_store32_of_disjoint (by omega)]
  exact Ram.readLe_writeBytes_of_disjoint (by omega)

/-- An address of each half, and one of user mode. -/
theorem walk_entryTables_example :
    walk false (entryTables fun _ => 0xFF) 0x1000 0x100000 = some (0x100000, true) ∧
      walk false (entryTables fun _ => 0xFF) 0x1000 0xFFFFFFFF80100000 = some (0x100000, true) ∧
      walk true (entryTables fun _ => 0xFF) 0x1000 0x100000 = none :=
  have h := (walk_entryTables fun _ => 0xFF).1
  ⟨h false _ (.inl (by decide)), h false _ (.inr (by decide)), h true _ (.inl (by decide))⟩

/-! ### The page table of the kernel -/

section Handover

variable {user : Bool} {ram : Ram} {K pdpt pd a va : ℕ} {pt : ℕ → ℕ}

/-- The walk in the tables of the kernel, inside the window. -/
theorem KernelEntries.walk_p2v (h : KernelEntries ram K pdpt pd pt)
    (hmap : KernelMap ram K pdpt pd pt) (hpdpt : pgsize ∣ pdpt) (hpd : pgsize ∣ pd)
    (hpt : ∀ d < 256, pgsize ∣ pt d) (ha : a < kernelMapped) :
    walk false ram K (p2v a) = some (a, true) := by
  obtain ⟨h₁, h₂, h₃⟩ := indices_p2v ha
  have hlt := pdx_lt (p2v a)
  have hpage := h.kernelPage hmap hpdpt hpd hpt ha
  have hf₁ := hmap.top _ (pml4x_lt (p2v a))
  have hf₂ := hmap.second _ (pdptx_lt (p2v a))
  have hf₃ := hmap.third _ hlt
  have he := h.third _ hlt
  rw [if_pos h₁] at hf₁
  rw [if_pos h₂] at hf₂
  rw [if_pos h₃] at hf₃ he
  have hlarge : ¬Large (entry ram pd (pdx (p2v a))) := by
    have := hpt _ h₃
    unfold pgsize at this
    rw [he]
    exact fun hl => by
      have := (and_two_pow_ne_zero _ 7).1 hl
      omega
  obtain ⟨-, ⟨pdpt', pd', pt', hg₁, hg₂, hg₃, -, hw₁, hw₂, hw₃, hw₄⟩, -⟩ := hpage
  obtain rfl := Option.some.inj (hf₁.symm.trans hg₁)
  obtain rfl := Option.some.inj (hf₂.symm.trans hg₂)
  obtain rfl := Option.some.inj (hf₃.symm.trans hg₃)
  have hlast := hmap.last _ h₃ _ (ptx_lt (p2v a))
  have htranslate := hmap.translate_p2v_iff.2 ha
  rw [translate, tableOf] at htranslate
  rw [walk]
  simp only [hf₁, hf₂, hf₃, hlast, Option.bind_eq_bind, Option.bind_some] at htranslate ⊢
  rw [if_neg hlarge, Option.some.inj htranslate]
  simp only [hw₁, hw₂, hw₃, hw₄, and_self, decide_true, Bool.and_self]

theorem KernelEntries.walk_user (h : KernelEntries ram K pdpt pd pt) (hpdpt : pgsize ∣ pdpt) :
    walk true ram K va = none := by
  refine walk_eq_none (Option.eq_none_iff_forall_ne_some.2 fun t ht => ?_)
  obtain ⟨_, _, htop, -, -⟩ := tableOf_eq_some.1 ht
  obtain ⟨hpresent, huser, -⟩ := follow_eq_some.1 htop
  rw [h.top _ (pml4x_lt va)] at hpresent huser
  split_ifs at hpresent huser with h₁
  · exact (flags_of_kernEntry hpdpt).2.2 (huser rfl)
  · exact absurd hpresent (by decide)

end Handover

/-- The page table that `vm_init` builds agrees with the one of the boot code on the 512 MB from
`KERNBASE` on, and maps nothing else: when `cr3` is loaded with it, each address of the kernel leads
where it led before, and the addresses below and above are gone. -/
theorem vmInit_handover {map : List E820Entry} {m : Memblock} {ram : Ram} {s₀ : UserSpaces}
    {tr₀ : List (System.Step UserSpaces VmCall)} {s : VmState}
    (hmap : ∀ x ∈ usableEntries map, x.addr + x.len < 2 ^ 64 - 1) (hinit : memblockInit map = .ok m)
    (hboot : vmSystem.Run (.boot m ram) tr₀ s₀) (hvm : vmInit s₀.vm = some ((), s)) (ram₀ : Ram)
    (user : Bool) (va : ℕ) (hva : CanonicalAddr va) :
    walk user s.ram (v2p s.kernPml4) va =
      if va ∈ Set.Ico kernbase (kernbase + kernelMapped) then
        walk user (entryTables ram₀) 0x1000 va else none := by
  obtain ⟨⟨kind₀, hinv₀, -⟩, -⟩ := hboot.invariant (I := SpacesInv (usableMemory map))
    (C := fun _ => True) (spacesInv_boot ram hmap hinit) (fun _ hstep _ h => h.step hstep)
    fun _ _ => trivial
  obtain ⟨kind, K, pdpt, pd, pt, hinv, hkern, htables, hentries, -⟩ := vmInit_entries hinv₀ hvm
  have hkernel := hentries.kernelMap hinv htables
  have hlow := hinv.low K _ htables.top
  rw [hkern, AllocInv.v2p_p2v (by omega), (walk_entryTables ram₀).1 user va hva]
  cases user with
  | true =>
    rw [hentries.walk_user (hinv.dvd htables.second), if_pos rfl, ite_self]
  | false =>
    rw [if_neg Bool.false_ne_true]
    split_ifs with hin
    · obtain ⟨hge, hlt⟩ := hin
      have ha : va - kernbase < kernelMapped := by omega
      have hp2v : p2v (va - kernbase) = va := by
        unfold kernelMapped at ha
        rw [p2v_eq (by omega), Nat.sub_add_cancel hge]
      have hmap : entryMap va = some (va - kernbase) := by
        rw [entryMap, if_neg (by unfold kernbase at hge; omega),
          if_pos ⟨hge, hlt.trans_le (Nat.add_le_add_left (by decide) _)⟩]
      have hwalk := hentries.walk_p2v hkernel (hinv.dvd htables.second) (hinv.dvd htables.third)
        (fun d hd => hinv.dvd (htables.last d hd)) ha
      rw [hp2v] at hwalk
      rw [hwalk, hmap]
      rfl
    · exact walk_eq_none (hkernel.tableOf_eq_none
        (hkernel.translate_eq_none_iff.2 fun hmem => hin (hva.mem_window hmem)))

/-- A machine with 8 MB: an address of the kernel, and the same byte by its low address. -/
theorem vmInit_handover_boot : ∃ s,
    vmInit ⟨bootTables [⟨0, 0⟩] 0, fun _ => 0, 0, []⟩ = some ((), s) ∧
      walk false s.ram (v2p s.kernPml4) 0xFFFFFFFF80100000 =
        walk false (entryTables fun _ => 0) 0x1000 0xFFFFFFFF80100000 ∧
      walk false s.ram (v2p s.kernPml4) 0x100000 = none := by
  have hinit : reservePages 259 (bootTables [⟨0, 0⟩] 0) =
      some (bootTables [⟨0x6FD000, 0x103000⟩] 0x103000) := by decide +kernel
  obtain ⟨K, s, -, hvm, -⟩ :=
    vmInit_returns (s := ⟨bootTables [⟨0, 0⟩] 0, fun _ => 0, 0, []⟩) hinit
  have hmap : ∀ x ∈ usableEntries bootMap, x.addr + x.len < 2 ^ 64 - 1 := by decide
  have hboot : vmSystem.Run (.boot (bootTables [⟨0, 0⟩] 0) fun _ => 0) []
      (.boot (bootTables [⟨0, 0⟩] 0) fun _ => 0) := .nil _
  have hwalk := vmInit_handover hmap (by decide) hboot hvm (fun _ => 0) false
  exact ⟨s, hvm,
    (hwalk 0xFFFFFFFF80100000 (.inr (by decide))).trans (if_pos ⟨by decide, by decide⟩),
    (hwalk 0x100000 (.inl (by decide))).trans (if_neg fun h => absurd h.1 (by decide))⟩

end MicroKernel
