import MicroKernel.Vm.DirectMap
import MicroKernel.Vm.Lookup

/-!
# The window of the kernel

After `vm_init` the addresses from `KERNBASE` on lead to the first 512 MB of physical memory, in
kernel mode only and for writing, and all other addresses lead nowhere.

* `WritableAt` : all entries of a walk may be written through;
* `KernelEntries.kernelPage` : what the tables of the kernel say about an address of the window;
* `vmInit_window` : the window, and what is outside.
-/

namespace MicroKernel

open Extent

attribute [local irreducible] p2v v2p pteAddr

/-! ### Access -/

/-- The four entries of the walk for `va` are present, and the processor may write through each. -/
def WritableAt (ram : Ram) (P va : ℕ) : Prop :=
  ∃ pdpt pd pt, follow false ram P (pml4x va) = some pdpt ∧
    follow false ram pdpt (pdptx va) = some pd ∧ follow false ram pd (pdx va) = some pt ∧
    Present (entry ram pt (ptx va)) ∧ Writable (entry ram P (pml4x va)) ∧
    Writable (entry ram pdpt (pdptx va)) ∧ Writable (entry ram pd (pdx va)) ∧
    Writable (entry ram pt (ptx va))

/-- The address `va` leads to `a`, for reading and writing, in kernel mode only. -/
structure KernelPage (ram : Ram) (P va a : ℕ) : Prop where
  /-- Where it leads. -/
  translate_eq : translate false ram P va = some a
  /-- It may be written. -/
  writable : WritableAt ram P va
  /-- A process may not use it. -/
  user : translate true ram P va = none

/-- The processor takes an address whose upper 17 bits are equal. -/
def CanonicalAddr (va : ℕ) : Prop := va < 2 ^ 47 ∨ 2 ^ 64 - 2 ^ 47 ≤ va ∧ va < 2 ^ 64

section Window

variable {ram : Ram} {K pdpt pd a p va : ℕ} {pt : ℕ → ℕ}

theorem flags_of_kernEntry (hdvd : pgsize ∣ p) :
    Present (p + 3) ∧ Writable (p + 3) ∧ ¬User (p + 3) := by
  unfold pgsize at hdvd
  rw [present_iff, writable_iff, user_iff]
  omega

theorem indices_p2v (ha : a < kernelMapped) : pml4x (p2v a) = 511 ∧ pdptx (p2v a) = 510 ∧
    pdx (p2v a) < 256 := by
  unfold kernelMapped at ha
  rw [pml4x_eq, pdptx_eq, pdx_eq, p2v_eq (by omega)]
  unfold kernbase
  omega

/-- What the tables of the kernel say about an address of the window. -/
theorem KernelEntries.kernelPage (h : KernelEntries ram K pdpt pd pt)
    (hmap : KernelMap ram K pdpt pd pt) (hpdpt : pgsize ∣ pdpt) (hpd : pgsize ∣ pd)
    (hpt : ∀ d < 256, pgsize ∣ pt d) (ha : a < kernelMapped) : KernelPage ram K (p2v a) a := by
  obtain ⟨h₁, h₂, h₃⟩ := indices_p2v ha
  have hlt := pdx_lt (p2v a)
  have hi := ptx_lt (p2v a)
  have hf₁ := hmap.top _ (pml4x_lt (p2v a))
  have hf₂ := hmap.second _ (pdptx_lt (p2v a))
  have hf₃ := hmap.third _ hlt
  have he₁ := h.top _ (pml4x_lt (p2v a))
  have he₂ := h.second _ (pdptx_lt (p2v a))
  have he₃ := h.third _ hlt
  have he₄ := h.last _ h₃ _ hi
  rw [if_pos h₁] at hf₁ he₁
  rw [if_pos h₂] at hf₂ he₂
  rw [if_pos h₃] at hf₃ he₃
  have hpage : pgsize ∣ 0x200000 * pdx (p2v a) + 0x1000 * ptx (p2v a) := by
    unfold pgsize
    omega
  refine ⟨hmap.translate_p2v_iff.2 ha, ⟨pdpt, pd, _, hf₁, hf₂, hf₃, ?_⟩, ?_⟩
  · rw [he₁, he₂, he₃, he₄]
    have hflags := flags_of_kernEntry hpage
    exact ⟨hflags.1, (flags_of_kernEntry hpdpt).2.1, (flags_of_kernEntry hpd).2.1,
      (flags_of_kernEntry (hpt _ h₃)).2.1, hflags.2.1⟩
  · -- the top entry is not for user mode
    refine Option.eq_none_iff_forall_ne_some.2 fun r hr => ?_
    obtain ⟨_, _, htab, -, -⟩ := translate_eq_some.1 hr
    obtain ⟨_, _, htop, -, -⟩ := tableOf_eq_some.1 htab
    obtain ⟨-, huser, -⟩ := follow_eq_some.1 htop
    rw [he₁] at huser
    exact (flags_of_kernEntry hpdpt).2.2 (huser rfl)

/-- The window, as the tables see it: they ignore the upper 16 bits. -/
theorem KernelMap.translate_eq_none_iff (h : KernelMap ram K pdpt pd pt) :
    translate false ram K va = none ↔
      va % 2 ^ 48 ∉ Set.Ico (kernbase % 2 ^ 48) (kernbase % 2 ^ 48 + kernelMapped) := by
  have hindex : (pml4x va = 511 ∧ pdptx va = 510 ∧ pdx va < 256) ↔
      va % 2 ^ 48 ∈ Set.Ico (kernbase % 2 ^ 48) (kernbase % 2 ^ 48 + kernelMapped) := by
    rw [pml4x_eq, pdptx_eq, pdx_eq, Set.mem_Ico]
    unfold kernbase kernelMapped
    omega
  rw [h.translate_eq, ← hindex]
  split_ifs with hva
  · simp [hva]
  · simp [hva]

/-- For an address that the processor takes, the upper bits are determined. -/
theorem CanonicalAddr.mem_window (h : CanonicalAddr va)
    (hin : va % 2 ^ 48 ∈ Set.Ico (kernbase % 2 ^ 48) (kernbase % 2 ^ 48 + kernelMapped)) :
    va ∈ Set.Ico kernbase (kernbase + kernelMapped) := by
  obtain ⟨h₁, h₂⟩ := hin
  unfold kernbase kernelMapped at *
  rcases h with hlow | ⟨hhigh, hlt⟩
  · omega
  · exact ⟨by omega, by omega⟩

/-- Where nothing is mapped, the walk in the tables of the kernel stops at a table. -/
theorem KernelMap.tableOf_eq_none (h : KernelMap ram K pdpt pd pt)
    (hva : translate false ram K va = none) : tableOf false ram K va = none := by
  refine Option.eq_none_iff_forall_ne_some.2 fun t ht => ?_
  obtain ⟨pdpt', pd', hf₁, hf₂, hf₃⟩ := tableOf_eq_some.1 ht
  have h₁ := h.top _ (pml4x_lt va)
  rw [hf₁] at h₁
  split_ifs at h₁
  obtain rfl := Option.some.inj h₁
  have h₂ := h.second _ (pdptx_lt va)
  rw [hf₂] at h₂
  split_ifs at h₂
  obtain rfl := Option.some.inj h₂
  have h₃ := h.third _ (pdx_lt va)
  rw [hf₃] at h₃
  split_ifs at h₃ with hlow
  obtain rfl := Option.some.inj h₃
  rw [translate_eq_some.2 ⟨_, _, ht, h.last _ hlow _ (ptx_lt va), rfl⟩] at hva
  cases hva

end Window

/-! ### After `vm_init` -/

/-- After `vm_init`, a walk for the address `p2v a` yields `a` for all `a` below 512 MB, the page
may be written, and a process may not use it.  Every address outside the window leads nowhere; the
tables ignore the upper 16 bits, which the processor checks. -/
theorem vmInit_window {map : List E820Entry} {m : Memblock} {ram : Ram} {s₀ : UserSpaces}
    {tr₀ : List (System.Step UserSpaces VmCall)} {s : VmState}
    (hmap : ∀ x ∈ usableEntries map, x.addr + x.len < 2 ^ 64 - 1) (hinit : memblockInit map = .ok m)
    (hboot : vmSystem.Run (.boot m ram) tr₀ s₀) (hvm : vmInit s₀.vm = some ((), s)) :
    (∀ a < kernelMapped, pageWalk s.kernPml4 (p2v a) false s = some (a, s) ∧
      KernelPage s.ram (v2p s.kernPml4) (p2v a) a) ∧
    (∀ va, CanonicalAddr va → va ∉ Set.Ico kernbase (kernbase + kernelMapped) →
      pageWalk s.kernPml4 va false s = some (0, s) ∧
        translate false s.ram (v2p s.kernPml4) va = none) ∧
    ∀ va, translate false s.ram (v2p s.kernPml4) va = none ↔
      va % 2 ^ 48 ∉ Set.Ico (kernbase % 2 ^ 48) (kernbase % 2 ^ 48 + kernelMapped) := by
  obtain ⟨⟨kind₀, hinv₀, -⟩, -⟩ := hboot.invariant (I := SpacesInv (usableMemory map))
    (C := fun _ => True) (spacesInv_boot ram hmap hinit) (fun _ hstep _ h => h.step hstep)
    fun _ _ => trivial
  obtain ⟨kind, K, pdpt, pd, pt, hinv, hkern, htables, hentries, -⟩ := vmInit_entries hinv₀ hvm
  have hkernel := hentries.kernelMap hinv htables
  have hlow := hinv.low K _ htables.top
  have hK : v2p (p2v K) = K := AllocInv.v2p_p2v (by omega)
  rw [hkern, hK]
  refine ⟨fun a ha => ?_, fun va hva hout => ?_, fun va => hkernel.translate_eq_none_iff⟩
  · have hpage := hentries.kernelPage hkernel (hinv.dvd htables.second) (hinv.dvd htables.third)
      (fun d hd => hinv.dvd (htables.last d hd)) ha
    exact ⟨pageWalk_of_translate (fun _ hb => hinv.onPath_low htables.top hb) hpage.translate_eq,
      hpage⟩
  · have hnone := hkernel.translate_eq_none_iff.2 fun hin => hout (hva.mem_window hin)
    refine ⟨?_, hnone⟩
    rw [pageWalk_of_low fun _ hb => hinv.onPath_low htables.top hb, hkernel.tableOf_eq_none hnone]
    rfl

/-- A machine with 8 MB: the last byte of the window. -/
theorem vmInit_window_boot : ∃ s,
    vmInit ⟨bootTables [⟨0, 0⟩] 0, fun _ => 0, 0, []⟩ = some ((), s) ∧
      KernelPage s.ram (v2p s.kernPml4) (p2v 0x1FFFFFFF) 0x1FFFFFFF := by
  have hinit : reservePages 259 (bootTables [⟨0, 0⟩] 0) =
      some (bootTables [⟨0x6FD000, 0x103000⟩] 0x103000) := by decide +kernel
  obtain ⟨K, s, -, hvm, -⟩ :=
    vmInit_returns (s := ⟨bootTables [⟨0, 0⟩] 0, fun _ => 0, 0, []⟩) hinit
  have hmap : ∀ x ∈ usableEntries bootMap, x.addr + x.len < 2 ^ 64 - 1 := by decide
  have hboot : vmSystem.Run (.boot (bootTables [⟨0, 0⟩] 0) fun _ => 0) []
      (.boot (bootTables [⟨0, 0⟩] 0) fun _ => 0) := .nil _
  exact ⟨s, hvm, ((vmInit_window hmap (by decide) hboot hvm).1 _ (by decide)).2⟩

end MicroKernel
