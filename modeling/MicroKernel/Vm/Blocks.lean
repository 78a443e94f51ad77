import Mathlib.Data.List.Pairwise
import MicroKernel.Vm.PageTable

/-!
# Blocks that the kernel was given

The log of the machine holds every block that the allocator handed out.  The blocks are disjoint,
and a new one is cleared, so that nothing that lies in an older block changes.

* `VmState.blocks` : the log as the live blocks of the allocator;
* `Allocated` : what an allocation does;
* `memblockAllocBase_allocated` : the invariant of the allocator is kept, and the block is new.
-/

namespace MicroKernel

open Extent

/-- The blocks handed out that are not empty, with the tables of the allocator. -/
def VmState.blocks (s : VmState) : AllocState :=
  ⟨s.memblock, (s.log.filter fun x => 0 < x.size).map fun x => ⟨x.toExtent, pgsize⟩⟩

@[simp] theorem blocks_ram (s : VmState) (ram : Ram) :
    VmState.blocks { s with ram := ram } = s.blocks := rfl

/-! ### The log -/

section Log

variable {U : Set ℕ} {s : VmState} {x y : Owned} {a : ℕ}

theorem Extent.size_pos_of_mem {e : Extent} {a : ℕ} (h : a ∈ e.toSet) : 0 < e.size := by
  have := h.1
  have := h.2
  simp only [stop] at this
  omega

theorem mem_blocks (hx : x ∈ s.log) (ha : a ∈ x.toSet) :
    ⟨x.toExtent, pgsize⟩ ∈ s.blocks.live :=
  List.mem_map.2 ⟨x, List.mem_filter.2 ⟨hx, decide_eq_true (size_pos_of_mem ha)⟩, rfl⟩

namespace AllocInv

theorem usable_of_mem (h : AllocInv U s.blocks) (hx : x ∈ s.log) (ha : a ∈ x.toSet) : a ∈ U :=
  h.safe.usable _ (mem_blocks hx ha) ha

theorem dvd_of_mem (h : AllocInv U s.blocks) (hx : x ∈ s.log) (ha : a ∈ x.toSet) :
    pgsize ∣ x.base :=
  h.safe.aligned _ (mem_blocks hx ha)

theorem lt_of_mem (h : AllocInv U s.blocks) (hx : x ∈ s.log) (ha : a ∈ x.toSet) : a < 2 ^ 64 :=
  (Nat.lt_succ_self a).trans (h.memory.lt_of_mem a (h.usable_of_mem hx ha))

theorem pairwise_log (h : AllocInv U s.blocks) :
    s.log.Pairwise fun x y => 0 < x.size → 0 < y.size → Disjoint x.toSet y.toSet := by
  have hlive := List.pairwise_map.1 h.safe.disjoint
  simpa only [List.pairwise_filter, decide_eq_true_eq] using hlive

theorem eq_of_mem (h : AllocInv U s.blocks) (hx : x ∈ s.log) (hy : y ∈ s.log) (hax : a ∈ x.toSet)
    (hay : a ∈ y.toSet) : x = y := by
  by_contra hne
  have : Std.Symm fun x y : Owned => 0 < x.size → 0 < y.size → Disjoint x.toSet y.toSet :=
    ⟨fun x y hxy h₁ h₂ => (hxy h₂ h₁).symm⟩
  have hdisj := h.pairwise_log.forall hx hy hne (size_pos_of_mem hax) (size_pos_of_mem hay)
  exact Set.disjoint_left.1 hdisj hax hay

/-- A block that contains an address of a page contains the first one, or it starts behind it. -/
theorem page_mem (h : AllocInv U s.blocks) (hx : x ∈ s.log) {page : ℕ} (hpage : pgsize ∣ page)
    (ha : a ∈ x.toSet) (hin : a ∈ Set.Ico page (page + pgsize)) : page ∈ x.toSet := by
  have hdvd := h.dvd_of_mem hx ha
  have h₁ := ha.1
  have h₂ := ha.2
  have h₃ := hin.1
  have h₄ := hin.2
  unfold pgsize at hpage hdvd h₄
  refine ⟨?_, h₃.trans_lt h₂⟩
  omega

end AllocInv

end Log

/-! ### Allocation -/

/-- From `s` to `s'`, a block of `size` bytes at `p` was handed out. -/
structure Allocated (s : VmState) (size : ℕ) (purpose : Purpose) (p : ℕ) (s' : VmState) : Prop where
  /-- It is recorded. -/
  log : s'.log = ⟨⟨p, size⟩, purpose⟩ :: s.log
  /-- The variable of the kernel is as it was. -/
  kern : s'.kernPml4 = s.kernPml4
  /-- The search is limited as it was. -/
  limit : s'.memblock.currentLimit = s.memblock.currentLimit
  /-- Memory outside the block is as it was. -/
  ram_eq : ∀ a, a ∉ Set.Ico p (p + size) → s'.ram a = s.ram a
  /-- The block is cleared. -/
  zero : size < 2 ^ 32 → ∀ a ∈ Set.Ico p (p + size), s'.ram a = 0
  /-- The block is new. -/
  fresh : ∀ a ∈ Set.Ico p (p + size), ∀ x ∈ s.log, a ∉ x.toSet
  /-- It is aligned. -/
  dvd : 0 < size → pgsize ∣ p
  /-- It is in the part of memory that the kernel reaches. -/
  low : 0 < size → size < 2 ^ 32 → p + size ≤ 2 ^ 31

theorem kernelRange_p2v {a n : ℕ} (ha : a < 2 ^ 64) (hn : 0 < n) :
    KernelRange (p2v a) n ↔ a + n ≤ 2 ^ 31 := by
  unfold KernelRange p2v add64 kernbase
  omega

/-- What is reserved, without the contents of memory. -/
theorem reserveBlock_allocInv {U : Set ℕ} {s s' : VmState} {size maxAddr p : ℕ} {purpose : Purpose}
    (h : AllocInv U s.blocks) (hcall : reserveBlock size pgsize maxAddr purpose s = some (p, s')) :
    AllocInv U s'.blocks ∧ s'.log = ⟨⟨p, size⟩, purpose⟩ :: s.log ∧ s'.ram = s.ram ∧
      s'.kernPml4 = s.kernPml4 ∧ s'.memblock.currentLimit = s.memblock.currentLimit := by
  obtain ⟨m, hm, rfl⟩ := reserveBlock_eq_some.1 hcall
  refine ⟨?_, rfl, rfl, rfl, by rw [(memblockAllocBase_eq_ok hm).2.2.1]⟩
  rcases Nat.eq_zero_or_pos size with rfl | hsize
  · obtain ⟨-, -, hm', hadd⟩ := memblockAllocBase_eq_ok hm
    rw [memblockAddRegions_eq, if_pos rfl] at hadd
    rw [← Except.ok.inj hadd] at hm'
    have hsame : m = s.memblock := hm'
    subst hsame
    simpa [VmState.blocks] using h
  · refine h.alloc (k := 12) hsize (by decide) hm ?_
    simp [VmState.blocks, hsize, pgsize]

theorem memblockAllocBase_allocated {U : Set ℕ} {s s' : VmState} {size maxAddr p : ℕ}
    {purpose : Purpose} (h : AllocInv U s.blocks)
    (hcall : Vm.memblockAllocBase size pgsize maxAddr purpose s = some (p, s')) :
    AllocInv U s'.blocks ∧ Allocated s size purpose p s' := by
  simp only [Vm.memblockAllocBase, vm_bind_eq_some, vm_pure_eq_some, memset_eq_some] at hcall
  obtain ⟨p, s₁, hreserve, u, s₂, ⟨hrange, rfl⟩, rfl, rfl⟩ := hcall
  obtain ⟨hinv, hlog, hram, hkern, hlimit⟩ := reserveBlock_allocInv h hreserve
  rw [blocks_ram]
  refine ⟨hinv, ?_⟩
  rcases Nat.eq_zero_or_pos size with rfl | hsize
  · have hempty : ∀ a, a ∉ Set.Ico p (p + 0) := fun a ha => by
      have := ha.1
      have := ha.2
      omega
    refine ⟨hlog, hkern, hlimit, fun a _ => ?_, fun _ a ha => absurd ha (hempty a),
      fun a ha => absurd ha (hempty a), fun h => absurd h (lt_irrefl 0),
        fun h => absurd h (lt_irrefl 0)⟩
    rw [← hram]
    dsimp only
    refine Ram.memset_of_not_mem fun hin => ?_
    have := hin.1
    have := hin.2
    omega
  · have hmem : (⟨⟨p, size⟩, purpose⟩ : Owned) ∈ s₁.log := hlog ▸ List.mem_cons_self
    have hstart : p ∈ (⟨p, size⟩ : Extent).toSet := ⟨le_rfl, Nat.lt_add_of_pos_right hsize⟩
    have hp : p < 2 ^ 64 := hinv.lt_of_mem hmem hstart
    have hmod : size % 2 ^ 32 ≤ size := Nat.mod_le _ _
    refine ⟨hlog, hkern, hlimit, fun a ha => ?_, fun hlt a ha => ?_, fun a ha x hx hax => ?_,
      fun _ => hinv.dvd_of_mem hmem hstart, fun _ hlt => ?_⟩
    · rw [← hram]
      dsimp only
      rw [AllocInv.v2p_p2v hp]
      exact Ram.memset_of_not_mem fun hin => ha ⟨hin.1, hin.2.trans_le (by omega)⟩
    · dsimp only
      rw [AllocInv.v2p_p2v hp, Nat.mod_eq_of_lt hlt]
      exact Ram.memset_of_mem ha
    · have hpair := hinv.pairwise_log
      rw [hlog, List.pairwise_cons] at hpair
      exact Set.disjoint_left.1 (hpair.1 x hx hsize (size_pos_of_mem hax)) ha hax
    · rw [Nat.mod_eq_of_lt hlt] at hrange
      exact (kernelRange_p2v hp hsize).1 hrange

end MicroKernel
