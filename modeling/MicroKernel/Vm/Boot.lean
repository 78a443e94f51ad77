import MicroKernel.Vm.PageTable

/-!
# Calls that return

A function of `vm.c` returns when the allocator has the pages that it asks for, in the part of
memory that the kernel reaches.

* `reservePages` : the pages that are asked for one after the other;
* `vmInit_returns`, `setupUserMemoryPages_returns` : the functions return.
-/

namespace MicroKernel

attribute [local irreducible] p2v v2p pteAddr

/-! ### Steps -/

section Steps

variable {α β : Type} {s : VmState} {b i v size align maxAddr p : ℕ} {m : Memblock}
  {purpose : Purpose}

theorem vm_bind_of_eq {x : VmM α} {f : α → VmM β} {a : α} {s₁ : VmState}
    (h : x s = some (a, s₁)) : (x >>= f) s = f a s₁ := by
  show (x s).bind (fun r => f r.1 r.2) = _
  rw [h]
  rfl

theorem kernelRange_entry (hb : b + pgsize ≤ 2 ^ 31) (hi : i < 512) :
    KernelRange (add64 (p2v b) (8 * i)) 8 := by
  unfold pgsize at hb
  rw [p2v_eq (by omega)]
  unfold KernelRange add64 kernbase
  omega

theorem writeWord_returns (hb : b + pgsize ≤ 2 ^ 31) (hi : i < 512) (v : ℕ) :
    ∃ ram, writeWord (add64 (p2v b) (8 * i)) v s = some ((), { s with ram }) :=
  ⟨_, if_pos (kernelRange_entry hb hi)⟩

theorem readWord_returns (hb : b + pgsize ≤ 2 ^ 31) (hi : i < 512) :
    ∃ e, readWord (add64 (p2v b) (8 * i)) s = some (e, s) :=
  ⟨_, if_pos (kernelRange_entry hb hi)⟩

theorem memset_returns (hb : b + pgsize ≤ 2 ^ 31) :
    ∃ ram, memset (p2v b) 0 512 s = some ((), { s with ram }) := by
  refine ⟨_, if_pos ?_⟩
  unfold pgsize at hb
  rw [p2v_eq (by omega)]
  unfold KernelRange kernbase
  omega

/-- A block in the part of memory that the kernel reaches. -/
theorem memblockAllocBase_returns (purpose : Purpose)
    (h : memblockAllocBase s.memblock size align maxAddr = .ok (m, p)) (hlow : p + size ≤ 2 ^ 31) :
    ∃ ram, Vm.memblockAllocBase size align maxAddr purpose s =
      some (p, { s with memblock := m, ram, log := ⟨⟨p, size⟩, purpose⟩ :: s.log }) := by
  have hrange : KernelRange (p2v p) (size % 2 ^ 32) := by
    rcases Nat.eq_zero_or_pos size with rfl | hsize
    · exact Or.inl (Nat.zero_mod _)
    · rw [p2v_eq (by omega)]
      unfold KernelRange kernbase
      omega
  have hreserve : reserveBlock size align maxAddr purpose s =
      some (p, { s with memblock := m, log := ⟨⟨p, size⟩, purpose⟩ :: s.log }) :=
    reserveBlock_eq_some.2 ⟨m, h, rfl⟩
  refine ⟨s.ram.memset (v2p (p2v p)) 0 (size % 2 ^ 32), ?_⟩
  unfold Vm.memblockAllocBase
  rw [vm_bind_of_eq hreserve, vm_bind_of_eq (if_pos hrange)]
  rfl

end Steps

/-! ### Pages -/

/-- Reserve `n` pages that the kernel reaches, one after the other. -/
def reservePages : ℕ → Memblock → Option Memblock
  | 0, m => some m
  | n + 1, m =>
    match memblockAlloc m pgsize pgsize with
    | .ok (m', p) => if p + pgsize ≤ 2 ^ 31 then reservePages n m' else none
    | .error _ => none

section Pages

variable {s : VmState} {m m' : Memblock} {n k : ℕ} {purpose : Purpose}

theorem reservePages_add (n k : ℕ) : ∀ m : Memblock,
    reservePages (n + k) m = (reservePages n m).bind (reservePages k) := by
  induction n with
  | zero =>
    intro m
    rw [Nat.zero_add]
    rfl
  | succ n ih =>
    intro m
    rw [Nat.add_right_comm]
    simp only [reservePages]
    split
    · split_ifs
      · exact ih _
      · rfl
    · rfl

theorem reservePages_succ (h : reservePages (n + 1) m = some m') : ∃ m₁ p,
    memblockAlloc m pgsize pgsize = .ok (m₁, p) ∧ p + pgsize ≤ 2 ^ 31 ∧
      reservePages n m₁ = some m' := by
  unfold reservePages at h
  split at h
  · rename_i m₁ p halloc
    split_ifs at h with hlow
    exact ⟨m₁, p, halloc, hlow, h⟩
  · cases h

theorem allocPage_returns (h : reservePages (n + 1) s.memblock = some m) (purpose : Purpose) :
    ∃ p s', p + pgsize ≤ 2 ^ 31 ∧ Vm.memblockAlloc pgsize pgsize purpose s = some (p, s') ∧
      reservePages n s'.memblock = some m ∧ s'.kernPml4 = s.kernPml4 := by
  obtain ⟨m₁, p, halloc, hlow, hrest⟩ := reservePages_succ h
  obtain ⟨ram, hcall⟩ := memblockAllocBase_returns purpose halloc hlow
  exact ⟨p, _, hlow, hcall, hrest, rfl⟩

theorem allocTable_returns (h : reservePages (n + 1) s.memblock = some m) (purpose : Purpose) :
    ∃ p s', p + pgsize ≤ 2 ^ 31 ∧
      Vm.memblockAllocKernel pgsize pgsize purpose s = some (p2v p, s') ∧
        reservePages n s'.memblock = some m ∧ s'.kernPml4 = s.kernPml4 := by
  obtain ⟨p, s', hlow, hcall, hrest, hkern⟩ := allocPage_returns h purpose
  exact ⟨p, s', hlow, vm_bind_of_eq hcall, hrest, hkern⟩

end Pages

/-! ### The functions -/

section Functions

variable {m : Memblock} {pt pd d : ℕ}

theorem fillPt_returns (hpt : pt + pgsize ≤ 2 ^ 31) (n : ℕ) : ∀ {s : VmState}, n ≤ 512 →
    ∃ ram, fillPt (p2v pt) d n s = some ((), { s with ram }) := by
  induction n with
  | zero => exact fun _ => ⟨_, rfl⟩
  | succ n ih =>
    intro s hn
    obtain ⟨ram, hrest⟩ := ih (s := s) (by omega)
    obtain ⟨ram', hwrite⟩ := writeWord_returns (s := { s with ram }) hpt (show n < 512 by omega)
      (0x200000 * d + 0x1000 * n ||| pteW ||| pteP)
    exact ⟨ram', (vm_bind_of_eq hrest).trans hwrite⟩

theorem fillPd_returns (hpd : pd + pgsize ≤ 2 ^ 31) (n : ℕ) : ∀ {s : VmState} {m : Memblock},
    n ≤ 512 → reservePages n s.memblock = some m →
      ∃ s', fillPd (p2v pd) n s = some ((), s') ∧ s'.memblock = m ∧ s'.kernPml4 = s.kernPml4 := by
  induction n with
  | zero => exact fun _ h => ⟨_, rfl, Option.some.inj h, rfl⟩
  | succ n ih =>
    intro s m hn h
    rw [reservePages_add, Option.bind_eq_some_iff] at h
    obtain ⟨m₁, hfirst, hlast⟩ := h
    obtain ⟨s₁, hrest, hmem, hkern⟩ := ih (by omega) hfirst
    rw [← hmem] at hlast
    obtain ⟨p, s₂, hlow, halloc, hm, hkern₂⟩ := allocTable_returns hlast .pageTable
    obtain ⟨ram, hlink⟩ := writeWord_returns (s := s₂) hpd (show n < 512 by omega)
      (v2p (p2v p) ||| pteW ||| pteP)
    obtain ⟨ram', hfill⟩ := fillPt_returns (d := n) hlow 512 (s := { s₂ with ram }) le_rfl
    refine ⟨{ s₂ with ram := ram' }, ?_, Option.some.inj hm, hkern₂.trans hkern⟩
    rw [fillPd, vm_bind_of_eq hrest, vm_bind_of_eq halloc, vm_bind_of_eq hlink]
    exact hfill

/-- `vm_init` returns when there are 259 pages. -/
theorem vmInit_returns {s : VmState} (h : reservePages 259 s.memblock = some m) :
    ∃ K s', K + pgsize ≤ 2 ^ 31 ∧ vmInit s = some ((), s') ∧ s'.memblock = m ∧
      s'.kernPml4 = p2v K := by
  obtain ⟨K, s₁, hK, ha₁, h₁, -⟩ := allocTable_returns h .pageTable
  obtain ⟨pdpt, s₂, hpdpt, ha₂, h₂, hkern₂⟩ :=
    allocTable_returns (s := { s₁ with kernPml4 := p2v K }) h₁ .pageTable
  obtain ⟨ram₁, hw₁⟩ := writeWord_returns (s := s₂) hK (show 511 < 512 by decide)
    (v2p (p2v pdpt) ||| pteW ||| pteP)
  obtain ⟨pd, s₃, hpd, ha₃, h₃, hkern₃⟩ :=
    allocTable_returns (s := { s₂ with ram := ram₁ }) h₂ .pageTable
  obtain ⟨ram₂, hw₂⟩ := writeWord_returns (s := s₃) hpdpt (show 510 < 512 by decide)
    (v2p (p2v pd) ||| pteW ||| pteP)
  obtain ⟨s', hfill, hm, hkern⟩ :=
    fillPd_returns hpd 256 (s := { s₃ with ram := ram₂ }) (by decide) h₃
  refine ⟨K, s', hK, ?_, hm, ?_⟩
  · have hset : (modify fun s : VmState => { s with kernPml4 := p2v K } : VmM PUnit) s₁ =
        some ((), { s₁ with kernPml4 := p2v K }) := rfl
    unfold vmInit
    rw [vm_bind_of_eq ha₁, vm_bind_of_eq hset, vm_bind_of_eq ha₂, vm_bind_of_eq hw₁,
      vm_bind_of_eq ha₃, vm_bind_of_eq hw₂]
    exact hfill
  · rw [hkern, hkern₃, hkern₂]

theorem writeWord_first_returns {s : VmState} {b : ℕ} (hb : b + pgsize ≤ 2 ^ 31) (v : ℕ) :
    ∃ ram, writeWord (p2v b) v s = some ((), { s with ram }) := by
  refine ⟨_, if_pos ?_⟩
  unfold pgsize at hb
  rw [p2v_eq (by omega)]
  unfold KernelRange kernbase
  omega

/-- `setup_user_memory_pages` returns when `vm_init` was called and there are five pages. -/
theorem setupUserMemoryPages_returns {s : VmState} {K : ℕ} (hkern : s.kernPml4 = p2v K)
    (hK : K + pgsize ≤ 2 ^ 31) (h : reservePages 5 s.memblock = some m) :
    ∃ v s', setupUserMemoryPages s = some (v, s') ∧ s'.memblock = m := by
  obtain ⟨P, s₁, hP, ha₁, h₁, hkern₁⟩ := allocTable_returns h .pageTable
  obtain ⟨pdpt, s₂, hpdpt, ha₂, h₂, hkern₂⟩ := allocTable_returns h₁ .pageTable
  obtain ⟨pgdir, s₃, hpgdir, ha₃, h₃, hkern₃⟩ := allocTable_returns h₂ .pageTable
  obtain ⟨pt, s₄, hpt, ha₄, h₄, hkern₄⟩ := allocTable_returns h₃ .pageTable
  obtain ⟨ram₁, hm₁⟩ := memset_returns (s := s₄) hP
  obtain ⟨ram₂, hm₂⟩ := memset_returns (s := { s₄ with ram := ram₁ }) hpdpt
  obtain ⟨ram₃, hm₃⟩ := memset_returns (s := { s₄ with ram := ram₂ }) hpgdir
  obtain ⟨ram₄, hm₄⟩ := memset_returns (s := { s₄ with ram := ram₃ }) hpt
  obtain ⟨ram₅, hw₁⟩ := writeWord_first_returns (s := { s₄ with ram := ram₄ }) hP
    (v2p (p2v pdpt) ||| pteP ||| pteW ||| pteU)
  have hget : (get : VmM VmState) { s₄ with ram := ram₅ } =
      some ({ s₄ with ram := ram₅ }, { s₄ with ram := ram₅ }) := rfl
  have hsame : s₄.kernPml4 = p2v K := by rw [hkern₄, hkern₃, hkern₂, hkern₁, hkern]
  obtain ⟨e, hread⟩ := readWord_returns (s := { s₄ with ram := ram₅ }) hK (show 511 < 512 by decide)
  rw [← hsame] at hread
  obtain ⟨ram₆, hw₂⟩ := writeWord_returns (s := { s₄ with ram := ram₅ }) hP
    (show 511 < 512 by decide) e
  obtain ⟨ram₇, hw₃⟩ := writeWord_first_returns (s := { s₄ with ram := ram₆ }) hpdpt
    (v2p (p2v pgdir) ||| pteP ||| pteW ||| pteU)
  obtain ⟨ram₈, hw₄⟩ := writeWord_first_returns (s := { s₄ with ram := ram₇ }) hpgdir
    (v2p (p2v pt) ||| pteP ||| pteW ||| pteU)
  obtain ⟨page, s₅, hpage, ha₅, h₅, -⟩ :=
    allocPage_returns (s := { s₄ with ram := ram₈ }) h₄ (.userMemory (v2p (p2v P)))
  obtain ⟨ram₉, hw₅⟩ := writeWord_first_returns (s := s₅) hpt (page ||| pteP ||| pteW ||| pteU)
  refine ⟨p2v P, { s₅ with ram := ram₉ }, ?_, Option.some.inj h₅⟩
  unfold setupUserMemoryPages
  rw [vm_bind_of_eq ha₁, vm_bind_of_eq ha₂, vm_bind_of_eq ha₃, vm_bind_of_eq ha₄, vm_bind_of_eq hm₁,
    vm_bind_of_eq hm₂, vm_bind_of_eq hm₃, vm_bind_of_eq hm₄, vm_bind_of_eq hw₁, vm_bind_of_eq hget]
  dsimp only
  rw [vm_bind_of_eq hread, vm_bind_of_eq hw₂, vm_bind_of_eq hw₃, vm_bind_of_eq hw₄,
    vm_bind_of_eq ha₅, vm_bind_of_eq hw₅]
  rfl

end Functions

end MicroKernel
