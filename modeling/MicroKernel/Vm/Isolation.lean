import MicroKernel.Memblock.Image
import MicroKernel.Vm.Boot
import MicroKernel.Vm.KernelMap
import MicroKernel.Vm.UserMemory

/-!
# User memory belongs to one process

The memory of the machine as a transition system: processes are set up and grow, blocks are handed
out for other purposes, and code changes memory outside the page tables.  A block of user memory
need not fill its last page, but it starts at a page, so that no other block reaches into it.

* `vmSystem` : the system;
* `VmInv.user_page` : a page that a process may use starts in a block of its own memory;
* `vmSystem_isolated` : in every run, the pages of a process are its own.
-/

namespace MicroKernel

open Extent

attribute [local irreducible] p2v v2p pteAddr

/-! ### The system -/

/-- The memory of the machine, and the page tables of the processes that were set up. -/
structure UserSpaces where
  /-- The memory. -/
  vm : VmState
  /-- The field `pml4` of every process. -/
  procs : List ℕ

/-- What happens to the memory. -/
inductive VmCall where
  /-- A block is handed out for something else, `memblock_alloc(size, PGSIZE)`. -/
  | alloc (size : ℕ)
  /-- Memory changes outside the page tables. -/
  | store (ram : Ram)
  /-- `vm_init()`. -/
  | vmInit
  /-- `setup_user_memory_pages()`. -/
  | setup
  /-- `alloc_uvm(pml4, oldSize, newSize)` for a process. -/
  | grow (pml4 oldSize newSize : ℕ)

/-- The calls that return. -/
def vmSystem : System UserSpaces VmCall where
  step s c s' :=
    match c with
    | .alloc size =>
      s'.procs = s.procs ∧ ∃ p, Vm.memblockAlloc size pgsize .other s.vm = some (p, s'.vm)
    | .store ram => s'.procs = s.procs ∧ s'.vm = { s.vm with ram } ∧
        ∀ a, ram a ≠ s.vm.ram a → ∀ x ∈ s.vm.log, x.purpose = .pageTable → a ∉ x.toSet
    | .vmInit => s'.procs = s.procs ∧ MicroKernel.vmInit s.vm = some ((), s'.vm)
    | .setup => s.vm.kernPml4 ≠ 0 ∧ ∃ pml4, s'.procs = pml4 :: s.procs ∧
        setupUserMemoryPages s.vm = some (pml4, s'.vm)
    | .grow pml4 oldSize newSize =>
      s'.procs = s.procs ∧ pml4 ∈ s.procs ∧ oldSize < 2 ^ 64 ∧ newSize < 2 ^ 64 ∧
        ∃ r, allocUvm pml4 oldSize newSize s.vm = some (r, s'.vm)

/-- The memory after `memblock_init`. -/
def UserSpaces.boot (m : Memblock) (ram : Ram) : UserSpaces := ⟨⟨m, ram, 0, []⟩, []⟩

/-- The page of a physical address. -/
def pageOf (pa : ℕ) : Set ℕ := Set.Ico (pa / pgsize * pgsize) (pa / pgsize * pgsize + pgsize)

/-- The pages that a process may use in user mode are its own. -/
structure Isolated (s : UserSpaces) : Prop where
  /-- Every block that reaches into one is memory of the process. -/
  own : ∀ pml4 ∈ s.procs, ∀ va pa, translate true s.vm.ram (v2p pml4) va = some pa →
    ∀ x ∈ s.vm.log, ¬Disjoint x.toSet (pageOf pa) → x.purpose = .userMemory (v2p pml4)
  /-- Whatever the allocator has reserved in one is memory of the process. -/
  reserved : ∀ pml4 ∈ s.procs, ∀ va pa, translate true s.vm.ram (v2p pml4) va = some pa →
    ∀ a ∈ pageOf pa, a ∈ cover s.vm.memblock.reserved.regions →
      ∃ x ∈ s.vm.log, a ∈ x.toSet ∧ x.purpose = .userMemory (v2p pml4)
  /-- No other process may use it. -/
  alone : ∀ pml4 ∈ s.procs, ∀ pml4' ∈ s.procs, ∀ va va' pa pa',
    translate true s.vm.ram (v2p pml4) va = some pa →
      translate true s.vm.ram (v2p pml4') va' = some pa' → pageOf pa = pageOf pa' → pml4 = pml4'

/-! ### The pages of a process -/

namespace VmInv

variable {U : Set ℕ} {kind : Kinds} {s : VmState} {P Q b i l a va pa : ℕ}

/-- In user mode a walk stays in the tables of the process. -/
theorem kind_of_follow_true (h : VmInv U kind s) (hb : kind b = some ⟨some Q, l + 1⟩)
    (hi : i < 512) (hfollow : follow true s.ram b i = some a) : kind a = some ⟨some Q, l⟩ := by
  obtain ⟨hp, huser, rfl⟩ := follow_eq_some.1 hfollow
  rcases h.next hb hi hp with ⟨hnext, -⟩ | ⟨-, -, hnot⟩
  · exact hnext
  · exact absurd (huser rfl) hnot

/-- It ends at a page table of the process. -/
theorem kind_of_tableOf_true (h : VmInv U kind s) (hP : kind P = some ⟨some Q, 3⟩) {pt : ℕ}
    (htab : tableOf true s.ram P va = some pt) : kind pt = some ⟨some Q, 0⟩ := by
  obtain ⟨pdpt, pd, h₁, h₂, h₃⟩ := tableOf_eq_some.1 htab
  have hk₁ := h.kind_of_follow_true hP (pml4x_lt va) h₁
  have hk₂ := h.kind_of_follow_true hk₁ (pdptx_lt va) h₂
  exact h.kind_of_follow_true hk₂ (pdx_lt va) h₃

/-- The entries of a page table of the process lead to its memory. -/
theorem page_of_follow_true (h : VmInv U kind s) (hb : kind b = some ⟨some Q, 0⟩) (hi : i < 512)
    (hfollow : follow true s.ram b i = some a) :
    ∃ x ∈ s.log, x.purpose = .userMemory Q ∧ a ∈ x.toSet := by
  obtain ⟨hp, huser, rfl⟩ := follow_eq_some.1 hfollow
  have htarget := h.target b _ i hb hi hp
  generalize entry s.ram b i = pte at htarget
  cases htarget with
  | page _ mem purpose inside => exact ⟨_, mem, purpose, inside⟩

/-- A page that a process may use starts in a block of its memory. -/
theorem user_page (h : VmInv U kind s) (hP : kind P = some ⟨some Q, 3⟩)
    (hmap : translate true s.ram P va = some pa) :
    ∃ page x, pgsize ∣ page ∧ pa ∈ Set.Ico page (page + pgsize) ∧ x ∈ s.log ∧
      x.purpose = .userMemory Q ∧ page ∈ x.toSet := by
  obtain ⟨pt, page, htab, hpage, rfl⟩ := translate_eq_some.1 hmap
  obtain ⟨x, hx, hpurpose, hmem⟩ :=
    h.page_of_follow_true (h.kind_of_tableOf_true hP htab) (ptx_lt va) hpage
  have hdvd : pgsize ∣ page := (follow_eq_some.1 hpage).2.2 ▸ pteAddr_dvd (entry_lt _ _ _)
  have hoff : offset va < 4096 := offset_eq va ▸ Nat.mod_lt _ (by decide)
  exact ⟨page, x, hdvd, ⟨Nat.le_add_right _ _, Nat.add_lt_add_left hoff _⟩, hx, hpurpose, hmem⟩

/-- Every block that reaches into such a page is memory of the process. -/
theorem purpose_of_user (h : VmInv U kind s) (hP : kind P = some ⟨some Q, 3⟩)
    (hmap : translate true s.ram P va = some pa) {x : Owned} (hx : x ∈ s.log) (hax : a ∈ x.toSet)
    (ha : a ∈ pageOf pa) : x.purpose = .userMemory Q := by
  obtain ⟨page, y, hdvd, hpa, hy, hpurpose, hpage⟩ := h.user_page hP hmap
  have hstart : pa / pgsize * pgsize = page := by
    obtain ⟨h₁, h₂⟩ := hpa
    unfold pgsize at hdvd h₂ ⊢
    omega
  rw [pageOf, hstart] at ha
  have hsame := h.blocks.eq_of_mem hx hy (h.blocks.page_mem hx hdvd hax ha) hpage
  rw [hsame, hpurpose]

end VmInv

/-! ### The invariant -/

/-- The tables are what they should be, and every process has a page at 0. -/
def SpacesInv (U : Set ℕ) (s : UserSpaces) : Prop :=
  ∃ kind, VmInv U kind s.vm ∧ ∀ pml4 ∈ s.procs, ∃ P, pml4 = p2v P ∧
    kind P = some ⟨some P, 3⟩ ∧ translate true s.vm.ram P 0 ≠ none

theorem spacesInv_boot {map : List E820Entry} {m : Memblock} (ram : Ram)
    (hmap : ∀ x ∈ usableEntries map, x.addr + x.len < 2 ^ 64 - 1) (h : memblockInit map = .ok m) :
    SpacesInv (usableMemory map) (.boot m ram) := by
  have htables := tablesInv_init hmap h
  refine ⟨fun _ => none, ⟨allocInv_init hmap h, htables.lt_limit, ?_, ?_, ?_, ?_, ?_⟩, ?_⟩
  · exact fun _ _ hb => nomatch hb
  · exact fun _ _ hb => nomatch hb
  · exact fun _ _ _ hb => nomatch hb
  · rintro b i b' i' a ⟨⟨_, _, hb⟩, -⟩
    cases hb
  · exact fun hkern => absurd rfl hkern
  · exact fun _ hmem => absurd hmem (List.not_mem_nil)

namespace SpacesInv

variable {U : Set ℕ} {s s' : UserSpaces} {kind kind' : Kinds}

/-- The processes that were there, after a step that keeps tables and present entries. -/
theorem procs_of_entries (h : VmInv U kind s.vm)
    (hprocs : ∀ pml4 ∈ s.procs, ∃ P, pml4 = p2v P ∧ kind P = some ⟨some P, 3⟩ ∧
      translate true s.vm.ram P 0 ≠ none)
    (htables : ∀ b k, kind b = some k → kind' b = some k) {ram : Ram}
    (hentries : ∀ b k i, kind b = some k → i < 512 → Present (entry s.vm.ram b i) →
      entry ram b i = entry s.vm.ram b i) :
    ∀ pml4 ∈ s.procs, ∃ P, pml4 = p2v P ∧ kind' P = some ⟨some P, 3⟩ ∧
      translate true ram P 0 ≠ none := by
  intro pml4 hmem
  obtain ⟨P, hv, hP, hzero⟩ := hprocs pml4 hmem
  exact ⟨P, hv, htables P _ hP,
    ne_none_of_imp (fun a ha => h.translate_of_entries hP hentries ha) hzero⟩

theorem alloc {size p : ℕ} (h : SpacesInv U s) (hprocs : s'.procs = s.procs)
    (hcall : Vm.memblockAlloc size pgsize .other s.vm = some (p, s'.vm)) : SpacesInv U s' := by
  obtain ⟨kind, hinv, hall⟩ := h
  obtain ⟨hinv', -, hentry⟩ := hinv.alloc hcall
  refine ⟨kind, hinv', hprocs ▸ procs_of_entries hinv hall (fun _ _ hb => hb) ?_⟩
  exact fun b k i hb hi _ => hentry b k i hb hi

theorem store {ram : Ram} (h : SpacesInv U s) (hprocs : s'.procs = s.procs)
    (hvm : s'.vm = { s.vm with ram })
    (hout : ∀ a, ram a ≠ s.vm.ram a → ∀ x ∈ s.vm.log, x.purpose = .pageTable → a ∉ x.toSet) :
    SpacesInv U s' := by
  obtain ⟨kind, hinv, hall⟩ := h
  have hentry : ∀ b k i, kind b = some k → i < 512 → entry ram b i = entry s.vm.ram b i := by
    intro b k i hb hi
    refine entry_congr hi fun a ha => ?_
    by_contra hne
    exact hout a hne _ (hinv.table b k hb) rfl ha
  refine ⟨kind, ?_, ?_⟩
  · rw [hvm]
    exact hinv.mono hinv.blocks rfl (fun _ hx => hx) rfl hentry
  · rw [hprocs, hvm]
    exact procs_of_entries hinv hall (fun _ _ hb => hb) fun b k i hb hi _ => hentry b k i hb hi

theorem vmInit (h : SpacesInv U s) (hprocs : s'.procs = s.procs)
    (hcall : MicroKernel.vmInit s.vm = some ((), s'.vm)) : SpacesInv U s' := by
  obtain ⟨kind, hinv, hall⟩ := h
  obtain ⟨kind', K, pdpt, pd, pt, hinv', -, -, -, htables, hentry⟩ := vmInit_spec hinv hcall
  refine ⟨kind', hinv', hprocs ▸ procs_of_entries hinv hall htables ?_⟩
  exact fun b k i hb hi _ => hentry b k i hb hi

theorem setup {pml4 : ℕ} (h : SpacesInv U s) (hkern : s.vm.kernPml4 ≠ 0)
    (hprocs : s'.procs = pml4 :: s.procs)
    (hcall : setupUserMemoryPages s.vm = some (pml4, s'.vm)) : SpacesInv U s' := by
  obtain ⟨kind, hinv, hall⟩ := h
  obtain ⟨kind', P, hv, hinv', hgrows, hP, hzero⟩ := setupUserMemoryPages_spec hinv hkern hcall
  refine ⟨kind', hinv', ?_⟩
  rw [hprocs]
  intro q hq
  rcases List.mem_cons.1 hq with rfl | hq
  · exact ⟨P, hv, hP, hzero⟩
  · exact procs_of_entries hinv hall hgrows.tables hgrows.entries q hq

theorem grow {pml4 oldSize newSize : ℕ} {r : ℤ} (h : SpacesInv U s) (hprocs : s'.procs = s.procs)
    (hmem : pml4 ∈ s.procs) (hold : oldSize < 2 ^ 64) (hnew : newSize < 2 ^ 64)
    (hcall : allocUvm pml4 oldSize newSize s.vm = some (r, s'.vm)) : SpacesInv U s' := by
  obtain ⟨kind, hinv, hall⟩ := h
  obtain ⟨P, hv, hP, hzero⟩ := hall pml4 hmem
  have hzero' : translate false s.vm.ram P 0 ≠ none :=
    ne_none_of_imp (fun a ha => translate_false_of_translate ha) hzero
  rw [hv] at hcall
  obtain ⟨kind', hinv', hgrows, -⟩ := allocUvm_spec hinv hP hzero' hold hnew hcall
  exact ⟨kind', hinv', hprocs ▸ procs_of_entries hinv hall hgrows.tables hgrows.entries⟩

/-- Every step keeps the invariant. -/
theorem step {c : VmCall} (h : SpacesInv U s) (hstep : vmSystem.step s c s') : SpacesInv U s' := by
  cases c with
  | alloc size =>
    obtain ⟨hprocs, p, hcall⟩ := hstep
    exact h.alloc hprocs hcall
  | store ram =>
    obtain ⟨hprocs, hvm, hout⟩ := hstep
    exact h.store hprocs hvm hout
  | vmInit => exact h.vmInit hstep.1 hstep.2
  | setup =>
    obtain ⟨hkern, pml4, hprocs, hcall⟩ := hstep
    exact h.setup hkern hprocs hcall
  | grow pml4 oldSize newSize =>
    obtain ⟨hprocs, hmem, hold, hnew, r, hcall⟩ := hstep
    exact h.grow hprocs hmem hold hnew hcall

/-- What the invariant says about the pages of the processes. -/
theorem isolated (h : SpacesInv U s) : Isolated s := by
  obtain ⟨kind, hinv, hall⟩ := h
  have hproc : ∀ pml4 ∈ s.procs, kind (v2p pml4) = some ⟨some (v2p pml4), 3⟩ ∧
      pml4 = p2v (v2p pml4) := by
    intro pml4 hmem
    obtain ⟨P, hv, hP, -⟩ := hall pml4 hmem
    have hPlt := hinv.lt hP
    have hback : v2p pml4 = P := by rw [hv, AllocInv.v2p_p2v hPlt]
    rw [hback]
    exact ⟨hP, hv⟩
  refine ⟨fun pml4 hmem va pa hmap x hx hover => ?_, fun pml4 hmem va pa hmap a ha hres => ?_,
    fun pml4 hmem pml4' hmem' va va' pa pa' hmap hmap' hsame => ?_⟩
  · obtain ⟨a, hax, ha⟩ := Set.not_disjoint_iff.1 hover
    exact hinv.purpose_of_user (hproc pml4 hmem).1 hmap hx hax ha
  · rw [show s.vm.memblock = s.vm.blocks.mem from rfl, hinv.blocks.reserved.cover_eq] at hres
    obtain ⟨e, he, hae⟩ := hres
    obtain ⟨b, hb, rfl⟩ := List.mem_map.1 he
    obtain ⟨x, hx, rfl⟩ := List.mem_map.1 hb
    have hxlog := (List.mem_filter.1 hx).1
    exact ⟨x, hxlog, hae, hinv.purpose_of_user (hproc pml4 hmem).1 hmap hxlog hae ha⟩
  · -- the page starts in a block, which is memory of both
    obtain ⟨hP, hv⟩ := hproc pml4 hmem
    obtain ⟨hP', hv'⟩ := hproc pml4' hmem'
    obtain ⟨page, x, hdvd, hpa, hx, hpurpose, hpage⟩ := hinv.user_page hP hmap
    have hin : page ∈ pageOf pa := by
      obtain ⟨h₁, h₂⟩ := hpa
      unfold pageOf
      unfold pgsize at hdvd h₂ ⊢
      exact ⟨by omega, by omega⟩
    have hpurpose' := hinv.purpose_of_user hP' hmap' hx hpage (hsame ▸ hin)
    rw [hpurpose] at hpurpose'
    rw [hv, hv', Purpose.userMemory.inj hpurpose']

end SpacesInv

/-- In every run, the pages that a process may use are its own. -/
theorem vmSystem_isolated {map : List E820Entry} {m : Memblock} {ram : Ram} {s : UserSpaces}
    {tr : List (System.Step UserSpaces VmCall)}
    (hmap : ∀ x ∈ usableEntries map, x.addr + x.len < 2 ^ 64 - 1) (hinit : memblockInit map = .ok m)
    (hrun : vmSystem.Run (.boot m ram) tr s) :
    Isolated s ∧ ∀ x ∈ tr, Isolated x.pre ∧ Isolated x.post := by
  obtain ⟨hlast, hall⟩ := hrun.invariant (I := SpacesInv (usableMemory map)) (C := fun _ => True)
    (spacesInv_boot ram hmap hinit) (fun _ hstep _ h => h.step hstep) fun _ _ => trivial
  exact ⟨hlast.isolated, fun x hx => ⟨(hall x hx).1.isolated, (hall x hx).2.isolated⟩⟩

/-! ### A process -/

/-- A run in which `vm_init` is called and the buffer for programs is taken and filled; then a
process can be set up. -/
theorem exists_setup (ram : Ram) (f : ℕ → BitVec 8) : ∃ tr s pml4 s₁,
    vmSystem.Run (.boot (bootTables [⟨0, 0⟩] 0) ram) tr s ∧ s.procs = [] ∧ s.vm.kernPml4 ≠ 0 ∧
      ⟨⟨0x6ED000, 0x10000⟩, .other⟩ ∈ s.vm.log ∧ (∀ i < 0x10000, s.vm.ram (0x6ED000 + i) = f i) ∧
      setupUserMemoryPages s.vm = some (pml4, s₁) ∧
      s₁.memblock = bootTables [⟨0x6E8000, 0x118000⟩] 0x118000 := by
  have hinit : reservePages 259 (bootTables [⟨0, 0⟩] 0) =
      some (bootTables [⟨0x6FD000, 0x103000⟩] 0x103000) := by decide +kernel
  have hbuf : memblockAllocBase (bootTables [⟨0x6FD000, 0x103000⟩] 0x103000) 0x10000 pgsize
      memblockAllocAccessible = .ok (bootTables [⟨0x6ED000, 0x113000⟩] 0x113000, 0x6ED000) := by
    decide +kernel
  have hsetup : reservePages 5 (bootTables [⟨0x6ED000, 0x113000⟩] 0x113000) =
      some (bootTables [⟨0x6E8000, 0x118000⟩] 0x118000) := by decide +kernel
  obtain ⟨K, s₁, hK, h₁, hm₁, hkern⟩ := vmInit_returns
    (s := ⟨bootTables [⟨0, 0⟩] 0, ram, 0, []⟩) hinit
  rw [← hm₁] at hbuf
  obtain ⟨ram₂, h₂⟩ := memblockAllocBase_returns .other hbuf (by decide)
  generalize hs₂ : VmState.mk (bootTables [⟨0x6ED000, 0x113000⟩] 0x113000) ram₂ s₁.kernPml4
    (⟨⟨0x6ED000, 0x10000⟩, .other⟩ :: s₁.log) = s₂ at h₂
  have hkern₂ : s₂.kernPml4 = p2v K := hs₂ ▸ hkern
  have hne : s₂.kernPml4 ≠ 0 := by
    unfold pgsize at hK
    rw [hkern₂, p2v_eq (by omega)]
    unfold kernbase
    omega
  have hm₂ : s₂.memblock = bootTables [⟨0x6ED000, 0x113000⟩] 0x113000 := by rw [← hs₂]
  have hmem : (⟨⟨0x6ED000, 0x10000⟩, .other⟩ : Owned) ∈ s₂.log := hs₂ ▸ List.mem_cons_self
  have hstep₁ : vmSystem.step (.boot (bootTables [⟨0, 0⟩] 0) ram) .vmInit ⟨s₁, []⟩ := ⟨rfl, h₁⟩
  have hstep₂ : vmSystem.step ⟨s₁, []⟩ (.alloc 0x10000) ⟨s₂, []⟩ := ⟨rfl, _, h₂⟩
  -- no page table is in the buffer
  have hmap : ∀ x ∈ usableEntries bootMap, x.addr + x.len < 2 ^ 64 - 1 := by decide
  obtain ⟨kind, hinv, -⟩ := ((spacesInv_boot ram hmap (by decide)).step hstep₁).step hstep₂
  generalize hram₃ : s₂.ram.writeBytes 0x6ED000 0x10000 f = ram₃
  have hstep₃ : vmSystem.step ⟨s₂, []⟩ (.store ram₃) ⟨{ s₂ with ram := ram₃ }, []⟩ := by
    refine ⟨rfl, rfl, fun a ha x hx htable hax => ha ?_⟩
    rw [← hram₃]
    refine Ram.writeBytes_of_not_mem fun hin => ?_
    obtain rfl := hinv.blocks.eq_of_mem hx hmem hax hin
    cases htable
  rw [← hm₂] at hsetup
  obtain ⟨pml4, s₃, h₃, hm₃⟩ :=
    setupUserMemoryPages_returns (s := { s₂ with ram := ram₃ }) hkern₂ hK hsetup
  refine ⟨_, ⟨{ s₂ with ram := ram₃ }, []⟩, pml4, s₃,
    ((System.Run.single hstep₁).snoc hstep₂).snoc hstep₃, rfl, hne, hmem, fun i hi => ?_, h₃, hm₃⟩
  rw [← hram₃]
  exact Ram.writeBytes_add hi

end MicroKernel
