import MicroKernel.Vm.LoadReturns

/-!
# What a plugin file can overwrite

`copy_uvm` takes an address and a length from the file.  It copies to the page that a walk yields,
whether or not the process has a page there: where no page is mapped the walk yields the first page
of physical memory, and in the kernel's part of the page table it yields the kernel's memory.

* `WritesOwn` : a copy goes to frames that the load took for the process;
* `StaysHome` : where a copy goes, seen before it is made;
* `loadSystem_own_iff` : the two agree in every run.
-/

namespace MicroKernel

open Extent

attribute [local irreducible] p2v v2p pteAddr

/-- A `memmove` of `copy_uvm` writes to pages of the process that were handed out since the blocks
were `log`. -/
def WritesOwn (log : List Owned) (pml4 : ℕ) (x : System.Step Loader LoadEvent) : Prop :=
  x.ev = .copy → ∀ a ∈ x.pre.call.written pml4 x.pre.vm, OwnFrame log x.pre.vm (v2p pml4) a

/-- In the user half a page is mapped where the copy goes; in the kernel's part of the page table,
the tables lead to a page of the process. -/
def StaysHome (log : List Owned) (pml4 : ℕ) (x : System.Step Loader LoadEvent) : Prop :=
  x.ev = .copy →
    (pml4x x.pre.call.va ≠ 511 → translate true x.pre.vm.ram (v2p pml4) x.pre.call.va ≠ none) ∧
    (pml4x x.pre.call.va = 511 → ∃ pt,
      tableOf false x.pre.vm.ram (v2p pml4) x.pre.call.va = some pt ∧
      OwnFrame log x.pre.vm (v2p pml4) (pteAddr (entry x.pre.vm.ram pt (ptx x.pre.call.va))))

/-! ### One copy -/

section Frames

variable {U : Set ℕ} {kind₀ kind : Kinds} {s₀ s : VmState} {log : List Owned} {P page a va : ℕ}
  {c : CopyCall}

theorem Loading.own_walkedPage_iff (h : Loading U kind₀ s₀ P kind s) (h₀ : VmInv U kind₀ s₀) :
    OwnFrame s₀.log s P (walkedPage s.ram P va) ↔
      (pml4x va ≠ 511 → translate true s.ram P va ≠ none) ∧
      (pml4x va = 511 → ∃ pt, tableOf false s.ram P va = some pt ∧
        OwnFrame s₀.log s P (pteAddr (entry s.ram pt (ptx va)))) := by
  constructor
  · intro hown
    have hne := hown.ne_zero h.inv.blocks
    refine ⟨fun hva => h.translate_of_walkedPage h₀ hva hne, fun _ => ?_⟩
    unfold walkedPage at hown hne
    cases htab : tableOf false s.ram P va with
    | none =>
      rw [htab] at hne
      exact absurd rfl hne
    | some pt =>
      rw [htab] at hown
      exact ⟨pt, rfl, hown⟩
  · rintro ⟨huser, hkernel⟩
    by_cases hva : pml4x va = 511
    · obtain ⟨pt, htab, hown⟩ := hkernel hva
      unfold walkedPage
      rw [htab]
      exact hown
    · obtain ⟨a, ha⟩ := Option.ne_none_iff_exists'.1 (huser hva)
      have hown := h.own_of_translate h₀ ha
      have haddr := walkedPage_of_translate (translate_false_of_translate ha)
      refine (ownFrame_page (walkedPage_dvd s.ram P va) ?_).1 hown
      rw [haddr]
      unfold pgsize
      exact ⟨Nat.le_add_right _ _, by omega⟩

end Frames

/-! ### Runs -/

section Runs

variable {U : Set ℕ} {kind₀ : Kinds} {s₀ s₁ : VmState} {P pluginElf : ℕ}

/-- A step at which the copy, if there is one, goes to frames of the process. -/
theorem LoaderInv.own_iff {x : System.Step Loader LoadEvent} (h : LoaderInv U kind₀ s₀ P x.pre)
    (h₀ : VmInv U kind₀ s₀) (hP : v2p (p2v P) = P)
    (hstep : (loadSystem (p2v P) pluginElf).step x.pre x.ev x.post) :
    WritesOwn s₀.log (p2v P) x ↔ StaysHome s₀.log (p2v P) x := by
  obtain ⟨kind, hload⟩ := h.loading
  unfold WritesOwn StaysHome
  rw [hP]
  refine forall_congr' fun hcopy => ?_
  rw [hcopy] at hstep
  rw [CopyCall.written_eq hload.inv hload.top h.va_lt, own_target_iff h.va_lt hstep.1]
  exact hload.own_walkedPage_iff h₀

/-- Such a step keeps the invariant. -/
theorem LoaderInv.step_of_own {x : System.Step Loader LoadEvent} (h : LoaderInv U kind₀ s₀ P x.pre)
    (hP : v2p (p2v P) = P) (hstep : (loadSystem (p2v P) pluginElf).step x.pre x.ev x.post)
    (hown : WritesOwn s₀.log (p2v P) x) : LoaderInv U kind₀ s₀ P x.post := by
  refine h.step hstep fun hcopy => ?_
  obtain ⟨kind, hload⟩ := h.loading
  have hall := hown hcopy
  rw [hP, CopyCall.written_eq hload.inv hload.top h.va_lt] at hall
  exact sparesTables_of_own hload.inv.blocks hall

/-- In every run of a load, whatever the file holds: the copies write to frames that the load took
for the process exactly when each of them finds a page of the process before it is made. -/
theorem loadSystem_own_iff {map : List E820Entry} {m : Memblock} {ram : Ram} {s : UserSpaces}
    {tr₀ : List (System.Step UserSpaces VmCall)} {pml4 : ℕ} {elf : ElfHdr} {l : Loader}
    {tr : List (System.Step Loader LoadEvent)}
    (hmap : ∀ x ∈ usableEntries map, x.addr + x.len < 2 ^ 64 - 1) (hinit : memblockInit map = .ok m)
    (hboot : vmSystem.Run (.boot m ram) tr₀ s) (hkern : s.vm.kernPml4 ≠ 0)
    (hsetup : setupUserMemoryPages s.vm = some (pml4, s₁))
    (hrun : (loadSystem pml4 pluginElf).Run (.start s₁ elf) tr l) :
    (∀ x ∈ tr, WritesOwn s.vm.log pml4 x) ↔ ∀ x ∈ tr, StaysHome s.vm.log pml4 x := by
  obtain ⟨kind₀, kind, P, rfl, hP, h₀, hload, -⟩ := exists_loading hmap hinit hboot hkern hsetup
  refine hrun.forall_iff (I := LoaderInv (usableMemory map) kind₀ s.vm P)
    (hload.loaderInv_start elf) (fun x hstep hhome h => ?_) fun x hstep h => h.own_iff h₀ hP hstep
  exact h.step_of_own hP hstep ((h.own_iff h₀ hP hstep).2 hhome)

end Runs

/-- A load of one byte. -/
theorem loadSystem_own_iff_oneByte : ∃ s P s₁ tr l, Prepared (oneHeaderFile oneByteSegment) s P s₁ ∧
    (loadSystem (p2v P) (p2v pluginBuf)).Run (.start s₁ (elfHdrAt s.vm.ram pluginBuf)) tr l ∧
      l.left = 0 ∧ l.call.len = 0 ∧
      ((∀ x ∈ tr, WritesOwn s.vm.log (p2v P) x) ↔ ∀ x ∈ tr, StaysHome s.vm.log (p2v P) x) := by
  obtain ⟨s, P, s₁, hp⟩ := exists_prepared (oneHeaderFile oneByteSegment)
  obtain ⟨tr, l, hrun, hleft, hlen, -⟩ :=
    hp.run_first oneByteSegment_fits rfl (by decide) (by decide) (by decide)
  obtain ⟨tr₀, hboot⟩ := hp.boot
  exact ⟨s, P, s₁, tr, l, hp, hrun, hleft, hlen,
    loadSystem_own_iff bootMap_lt memblockInit_bootMap hboot hp.kern hp.setup hrun⟩

/-! ### A file that overwrites memory -/

/-- The header of a segment with an end that wraps around to the address 1. -/
def wrappedSegment : ProgHdr := ⟨elfProgLoad, 0, 0x8000, 0, 2 ^ 64 - 0x8000 + 1⟩

theorem wrappedSegment_fits : wrappedSegment.Fits :=
  ⟨by decide, by decide, by decide, by decide, by decide⟩

/-- `alloc_uvm` adds no page for the file with this header, and the first page of physical memory is
overwritten. -/
theorem not_loadSystem_own : ∃ s P s₁ tr l, Prepared (oneHeaderFile wrappedSegment) s P s₁ ∧
    (loadSystem (p2v P) (p2v pluginBuf)).Run (.start s₁ (elfHdrAt s.vm.ram pluginBuf)) tr l ∧
      ¬∀ x ∈ tr, WritesOwn s.vm.log (p2v P) x := by
  obtain ⟨s, P, s₁, hp⟩ := exists_prepared (oneHeaderFile wrappedSegment)
  obtain ⟨kind₀, kind, h₀, hload, -⟩ := hp.loading
  have hstep₁ := hp.step_header_first wrappedSegment_fits rfl (by decide)
  -- the page is not mapped
  have hpage : walkedPage s₁.ram P 0x8000 = 0 := by
    by_contra hne
    have hnone := hload.vacant h₀ hp.home hp.setup 0x8000 (by decide)
    refine hload.translate_of_walkedPage h₀ ?_ hne hnone
    rw [pml4x_eq]
    decide
  generalize hl : Loader.segment (.start s₁ ⟨sizeofElfHdr, 1⟩) (p2v pluginBuf) wrappedSegment 4096
    s₁ = l₁ at hstep₁
  have hvm : l₁.vm = s₁ := by rw [← hl]; rfl
  have hva : l₁.call.va = 0x8000 := by rw [← hl]; rfl
  have hcount : l₁.call.len = 2 ^ 64 - 0x8000 + 1 := by rw [← hl]; rfl
  have hlt : l₁.call.va < 2 ^ 64 := by
    rw [hva]
    decide
  have hlen : 0 < l₁.call.len := by
    rw [hcount]
    decide
  have hsize : l₁.call.size = 4096 := by
    rw [CopyCall.size_eq hlt, hva, hcount]
    decide
  have hdst : l₁.call.dst s₁.ram P = 0 := by
    unfold CopyCall.dst
    rw [hva, hpage]
  have hread : l₁.call.buf.Readable 4096 := by
    rw [← hl]
    show KernelRange (add64 (p2v pluginBuf) 0) 4096
    rw [add64_p2v, kernelRange_p2v (by decide) (by decide)]
    decide
  have hcopy := (CopyCall.copyPage_eq_some (u := ()) hload.inv hload.top hlt hlen).2
    ⟨by rw [hdst, hsize]; decide, hsize ▸ hread, rfl⟩
  have hstep₂ : (loadSystem (p2v P) (p2v pluginBuf)).step l₁ .copy _ :=
    ⟨hlen, _, hvm ▸ hcopy, rfl⟩
  refine ⟨s, P, s₁, _, _, hp, (System.Run.single hstep₁).snoc hstep₂, fun hall => ?_⟩
  have hfirst : (0 : ℕ) ∈ l₁.call.written (p2v P) l₁.vm := by
    rw [hvm, CopyCall.written_eq hload.inv hload.top hlt]
    unfold CopyCall.target
    rw [hdst, hsize]
    exact ⟨le_rfl, by decide⟩
  have hown := hall _ (List.mem_append_right _ (List.mem_singleton_self _)) rfl 0 hfirst
  dsimp only at hown
  rw [hp.home, hvm] at hown
  exact hown.ne_zero hload.inv.blocks rfl

end MicroKernel
