import MicroKernel.Vm.Isolation

/-!
# Blocks that the kernel can address

`memblock_alloc_kernel` returns the address `p2v p` of a block that lies anywhere in the memory that
the firmware reports, but `vm_init` maps the first 512 MB only.

* `directSystem` : the allocator and the memory after `vm_init`;
* `MemInv` : the tables of the kernel stay reserved, and nothing changes them;
* `directSystem_addressable_iff` : the blocks returned in a run are mapped exactly when every call
  found free blocks below 512 MB only.
-/

namespace MicroKernel

open Extent

attribute [local irreducible] p2v v2p pteAddr

/-! ### The system -/

/-- The allocator and the contents of memory. -/
structure MemState where
  /-- The allocator. -/
  memblock : Memblock
  /-- Physical memory. -/
  ram : Ram

/-- What happens after `vm_init`. -/
inductive DirectCall where
  /-- `memblock_alloc_kernel(size, align)` returns `v`. -/
  | allocKernel (size align v : ℕ)
  /-- A request for physical memory. -/
  | request (x : Answer)
  /-- Memory changes outside the tables of the kernel. -/
  | store (ram : Ram)

/-- Memory is as it was outside the block. -/
def ChangesIn (ram ram' : Ram) (x : Extent) : Prop := ∀ a, a ∉ x.toSet → ram' a = ram a

/-- The calls that find a block; the alignments are powers of two.  `tables` are the addresses of
the tables of the kernel. -/
def directSystem (tables : Set ℕ) : System MemState DirectCall where
  step s c s' :=
    match c with
    | .allocKernel size align v => (∃ k < 64, align = 2 ^ k) ∧
        memblockAllocKernel s.memblock size align = .ok (s'.memblock, v) ∧
          ChangesIn s.ram s'.ram ⟨v2p v, size⟩
    | .request x => (∃ k < 64, x.req.align = 2 ^ k) ∧
        x.req.call s.memblock = .ok (s'.memblock, x.addr) ∧ ChangesIn s.ram s'.ram x.block
    | .store ram => s' = { s with ram } ∧ ∀ a ∈ tables, ram a = s.ram a

/-- The addresses of the page tables among the blocks handed out. -/
def pageTables (log : List Owned) : Set ℕ := {a | ∃ x ∈ log, x.purpose = .pageTable ∧ a ∈ x.toSet}

/-- Every byte of the block that is returned is translated, by the tables at `K`, to the physical
address that was reserved. -/
def Addressable (K : ℕ) (x : System.Step MemState DirectCall) : Prop :=
  match x.ev with
  | .allocKernel size _ v =>
    ∀ i < size, translate false x.post.ram K (add64 v i) = some (v2p v + i)
  | _ => True

/-- The call asks for no memory, or all the room for it is mapped. -/
def RoomMapped (x : System.Step MemState DirectCall) : Prop :=
  match x.ev with
  | .allocKernel size align _ =>
    size = 0 ∨ ∀ q, FreeBlock x.pre.memblock size align q → q + size ≤ kernelMapped
  | _ => True

/-! ### The invariant -/

/-- What every call keeps: the tables of the allocator, and the tables of the kernel, which are
reserved. -/
structure MemInv (U tables : Set ℕ) (ram : Ram) (s : MemState) : Prop where
  /-- The allocator. -/
  blocks : TablesInv U s.memblock
  /-- The tables of the kernel are reserved. -/
  reserved : ∀ a ∈ tables, a ∈ cover s.memblock.reserved.regions
  /-- They are as they were. -/
  kept : ∀ a ∈ tables, s.ram a = ram a

namespace TablesInv

variable {U : Set ℕ} {m m' : Memblock} {size k p a : ℕ}

/-- What was reserved stays reserved, and is not in the block that is returned. -/
theorem reserved_of_alloc (h : TablesInv U m) (hk : k < 64)
    (hcall : memblockAlloc m size (2 ^ k) = .ok (m', p)) (ha : a ∈ cover m.reserved.regions) :
    a ∈ cover m'.reserved.regions ∧ a ∉ Set.Ico p (p + size) := by
  obtain ⟨R, hres⟩ := h.reserved
  rcases Nat.eq_zero_or_pos size with rfl | hsize
  · obtain ⟨-, -, -, hadd⟩ := memblockAllocBase_eq_ok hcall
    rw [memblockAddRegions_eq, if_pos rfl] at hadd
    refine ⟨Except.ok.inj hadd ▸ ha, fun hin => ?_⟩
    exact absurd (hin.1.trans_lt hin.2) (lt_irrefl p)
  · obtain ⟨-, -, hfree, -, hnew⟩ := memblockAllocBase_spec h.memory hres hsize hk hcall
    rw [hres.cover_eq] at ha
    refine ⟨?_, fun hin => (hfree a hin).2 ha⟩
    rw [hnew.cover_eq]
    exact Or.inl ha

theorem addr_lt (h : TablesInv U m) (hsize : 0 < size) (hk : k < 64)
    (hcall : memblockAlloc m size (2 ^ k) = .ok (m', p)) : p < 2 ^ 64 := by
  obtain ⟨R, hres⟩ := h.reserved
  obtain ⟨-, -, hfree, -⟩ := memblockAllocBase_spec h.memory hres hsize hk hcall
  have hlt := h.memory.lt_of_mem p (hfree p ⟨le_rfl, Nat.lt_add_of_pos_right hsize⟩).1
  omega

end TablesInv

theorem memblockAllocKernel_eq_ok {m m' : Memblock} {size align v : ℕ}
    (h : memblockAllocKernel m size align = .ok (m', v)) :
    ∃ p, memblockAlloc m size align = .ok (m', p) ∧ v = p2v p := by
  obtain ⟨⟨m₁, p⟩, hcall, hret⟩ := bind_eq_ok h
  cases hret
  exact ⟨p, hcall, rfl⟩

namespace MemInv

variable {U tables : Set ℕ} {ram : Ram} {s s' : MemState} {size k p : ℕ}

theorem alloc (h : MemInv U tables ram s) (hk : k < 64)
    (hcall : memblockAlloc s.memblock size (2 ^ k) = .ok (s'.memblock, p))
    (hram : ∀ a ∈ tables, a ∉ Set.Ico p (p + size) → s'.ram a = s.ram a) :
    MemInv U tables ram s' := by
  refine ⟨h.blocks.alloc hk hcall, fun a ha => ?_, fun a ha => ?_⟩
  · exact (h.blocks.reserved_of_alloc hk hcall (h.reserved a ha)).1
  · rw [hram a ha (h.blocks.reserved_of_alloc hk hcall (h.reserved a ha)).2, h.kept a ha]

theorem step {c : DirectCall} (h : MemInv U tables ram s)
    (hstep : (directSystem tables).step s c s') : MemInv U tables ram s' := by
  cases c with
  | allocKernel size align v =>
    obtain ⟨⟨k, hk, rfl⟩, hcall, hram⟩ := hstep
    obtain ⟨p, halloc, hv⟩ := memblockAllocKernel_eq_ok hcall
    refine h.alloc hk halloc fun a ha hout => hram a fun hin => ?_
    have hp := h.blocks.addr_lt (size_pos_of_mem hin) hk halloc
    have hback : v2p v = p := by rw [hv, AllocInv.v2p_p2v hp]
    rw [hback] at hin
    exact hout hin
  | request x =>
    obtain ⟨⟨k, hk, halign⟩, hcall, hram⟩ := hstep
    rw [Request.call_eq, halign] at hcall
    exact h.alloc hk hcall fun a _ hout => hram a hout
  | store ram' =>
    obtain ⟨rfl, hkept⟩ := hstep
    exact ⟨h.blocks, h.reserved, fun a ha => (hkept a ha).trans (h.kept a ha)⟩

end MemInv

/-! ### The tables of the kernel -/

section Tables

variable {U : Set ℕ} {kind : Kinds} {s : VmState} {ram : Ram} {K pdpt pd : ℕ} {pt : ℕ → ℕ}

theorem KernelMap.congr (h : KernelMap s.ram K pdpt pd pt) (hinv : VmInv U kind s)
    (htables : KernelTables kind K pdpt pd pt) (hram : ∀ a ∈ pageTables s.log, ram a = s.ram a) :
    KernelMap ram K pdpt pd pt := by
  have hfollow : ∀ b k i, kind b = some k → i < 512 →
      follow false ram b i = follow false s.ram b i := by
    intro b k i hb hi
    have hentry : entry ram b i = entry s.ram b i :=
      entry_congr hi fun a ha => hram a ⟨_, hinv.table b k hb, rfl, ha⟩
    unfold follow
    rw [hentry]
  refine ⟨fun i hi => ?_, fun i hi => ?_, fun i hi => ?_, fun d hd i hi => ?_⟩
  · rw [hfollow K _ i htables.top hi, h.top i hi]
  · rw [hfollow pdpt _ i htables.second hi, h.second i hi]
  · rw [hfollow pd _ i htables.third hi, h.third i hi]
  · rw [hfollow (pt d) _ i (htables.last d hd) hi, h.last d hd i hi]

theorem VmInv.memInv (h : VmInv U kind s) :
    MemInv U (pageTables s.log) s.ram ⟨s.memblock, s.ram⟩ := by
  refine ⟨⟨h.blocks.memory, ⟨_, h.blocks.reserved⟩, h.limit⟩, ?_, fun _ _ => rfl⟩
  rintro a ⟨x, hx, -, hax⟩
  have hreserved := h.blocks.reserved.cover_eq
  dsimp only [VmState.blocks] at hreserved
  rw [hreserved]
  exact ⟨x.toExtent, List.mem_map_of_mem (mem_blocks hx hax), hax⟩

end Tables

/-! ### Calls after `vm_init` -/

theorem MemInv.addressable_iff {U tables : Set ℕ} {ram : Ram} {K pdpt pd : ℕ} {pt : ℕ → ℕ}
    {x : System.Step MemState DirectCall} (h : MemInv U tables ram x.pre)
    (hkernel : ∀ ram', (∀ a ∈ tables, ram' a = ram a) → KernelMap ram' K pdpt pd pt)
    (hstep : (directSystem tables).step x.pre x.ev x.post) : Addressable K x ↔ RoomMapped x := by
  have hpost := h.step hstep
  have hmap := hkernel _ hpost.kept
  obtain ⟨pre, ev, post⟩ := x
  unfold Addressable RoomMapped
  cases ev with
  | request x => exact Iff.rfl
  | store ram' => exact Iff.rfl
  | allocKernel size align v =>
    obtain ⟨⟨k, hk, rfl⟩, hcall, -⟩ := hstep
    obtain ⟨p, halloc, rfl⟩ := memblockAllocKernel_eq_ok hcall
    dsimp only at h hmap halloc ⊢
    rcases Nat.eq_zero_or_pos size with rfl | hsize
    · simp
    have hp := h.blocks.addr_lt hsize hk halloc
    obtain ⟨hfree, hmax⟩ := h.blocks.highest hsize hk halloc
    rw [AllocInv.v2p_p2v hp]
    simp only [add64_p2v, hmap.translate_p2v_iff]
    constructor
    · intro hall
      refine Or.inr fun q hq => ?_
      have hlast := hall (size - 1) (by omega)
      have := hmax q hq
      omega
    · rintro (hzero | hroom) i hi
      · omega
      · have := hroom p hfree
        omega

theorem exists_kernelMap {map : List E820Entry} {m : Memblock} {ram : Ram} {s₀ : UserSpaces}
    {tr₀ : List (System.Step UserSpaces VmCall)} {s₁ : VmState}
    (hmap : ∀ x ∈ usableEntries map, x.addr + x.len < 2 ^ 64 - 1) (hinit : memblockInit map = .ok m)
    (hboot : vmSystem.Run (.boot m ram) tr₀ s₀) (hvm : vmInit s₀.vm = some ((), s₁)) :
    ∃ pdpt pd pt, MemInv (usableMemory map) (pageTables s₁.log) s₁.ram ⟨s₁.memblock, s₁.ram⟩ ∧
      ∀ ram', (∀ a ∈ pageTables s₁.log, ram' a = s₁.ram a) →
        KernelMap ram' (v2p s₁.kernPml4) pdpt pd pt := by
  obtain ⟨⟨kind₀, hinv₀, -⟩, -⟩ := hboot.invariant (I := SpacesInv (usableMemory map))
    (C := fun _ => True) (spacesInv_boot ram hmap hinit) (fun _ hstep _ h => h.step hstep)
    fun _ _ => trivial
  obtain ⟨kind, K, pdpt, pd, pt, hinv, hkern, htables, hkernel, -⟩ := vmInit_spec hinv₀ hvm
  have hK : v2p s₁.kernPml4 = K := by
    have hlow := hinv.low K _ htables.top
    rw [hkern, AllocInv.v2p_p2v (by omega)]
  rw [hK]
  exact ⟨pdpt, pd, pt, hinv.memInv, fun ram' hram => hkernel.congr hinv htables hram⟩

/-- In a run from the state after `vm_init`, every block that `memblock_alloc_kernel` returns is
mapped exactly when every call found free blocks below 512 MB only. -/
theorem directSystem_addressable_iff {map : List E820Entry} {m : Memblock} {ram : Ram}
    {s₀ : UserSpaces} {tr₀ : List (System.Step UserSpaces VmCall)} {s₁ : VmState} {s' : MemState}
    {tr : List (System.Step MemState DirectCall)}
    (hmap : ∀ x ∈ usableEntries map, x.addr + x.len < 2 ^ 64 - 1) (hinit : memblockInit map = .ok m)
    (hboot : vmSystem.Run (.boot m ram) tr₀ s₀) (hvm : vmInit s₀.vm = some ((), s₁))
    (hrun : (directSystem (pageTables s₁.log)).Run ⟨s₁.memblock, s₁.ram⟩ tr s') :
    (∀ x ∈ tr, Addressable (v2p s₁.kernPml4) x) ↔ ∀ x ∈ tr, RoomMapped x := by
  obtain ⟨pdpt, pd, pt, hinv, hkernel⟩ := exists_kernelMap hmap hinit hboot hvm
  exact hrun.forall_iff (I := MemInv (usableMemory map) (pageTables s₁.log) s₁.ram) hinv
    (fun x hstep _ h => h.step hstep) fun x hstep h => h.addressable_iff hkernel hstep

/-- A page is allocated on a machine with 8 MB. -/
theorem directSystem_addressable_iff_boot : ∃ s₁ x,
    vmInit ⟨bootTables [⟨0, 0⟩] 0, fun _ => 0, 0, []⟩ = some ((), s₁) ∧
      x.ev = .allocKernel 4096 4096 0xFFFFFFFF806FC000 ∧ Addressable (v2p s₁.kernPml4) x := by
  have hinit : reservePages 259 (bootTables [⟨0, 0⟩] 0) =
      some (bootTables [⟨0x6FD000, 0x103000⟩] 0x103000) := by decide +kernel
  obtain ⟨K, s₁, -, hvm, hm, -⟩ :=
    vmInit_returns (s := ⟨bootTables [⟨0, 0⟩] 0, fun _ => 0, 0, []⟩) hinit
  have hstep : (directSystem (pageTables s₁.log)).step ⟨s₁.memblock, s₁.ram⟩
      (.allocKernel 4096 4096 0xFFFFFFFF806FC000)
      ⟨bootTables [⟨0x6FC000, 0x104000⟩] 0x104000, s₁.ram⟩ := by
    have hcall : memblockAllocKernel (bootTables [⟨0x6FD000, 0x103000⟩] 0x103000) 4096 4096 =
        .ok (bootTables [⟨0x6FC000, 0x104000⟩] 0x104000, 0xFFFFFFFF806FC000) := by decide +kernel
    rw [← hm] at hcall
    exact ⟨⟨12, by decide, by decide⟩, hcall, fun _ _ => rfl⟩
  have hmap : ∀ x ∈ usableEntries bootMap, x.addr + x.len < 2 ^ 64 - 1 := by decide
  have hboot : vmSystem.Run (.boot (bootTables [⟨0, 0⟩] 0) fun _ => 0) []
      (.boot (bootTables [⟨0, 0⟩] 0) fun _ => 0) := .nil _
  refine ⟨s₁, ⟨_, _, _⟩, hvm, rfl, (directSystem_addressable_iff hmap (by decide) hboot hvm
    (System.Run.single hstep)).2 ?_ _ List.mem_cons_self⟩
  intro x hx
  obtain rfl := List.mem_singleton.1 hx
  refine Or.inr fun q hq => ?_
  -- the usable memory ends at 8 MB
  obtain ⟨r, hr, hqr⟩ := (hq.free q ⟨le_rfl, Nat.lt_add_of_pos_right (by decide)⟩).1
  dsimp only at hr
  rw [hm] at hr
  have hend : ∀ r ∈ (bootTables [⟨0x6FD000, 0x103000⟩] 0x103000).memory.regions,
      r.stop ≤ 0x800000 := by decide
  have hlt := hqr.2.trans_le (hend r hr)
  unfold kernelMapped
  omega

/-- A machine with 1 GB: memory from the first MB on. -/
def gigMap : List E820Entry := [⟨0x100000, 0x3FF00000, 1⟩]

/-- The tables built from `gigMap`, with the given reserved regions. -/
def gigTables (reserved : List MemblockRegion) (totalSize : ℕ) : Memblock :=
  { currentLimit := 0x40000000
    memory := ⟨[⟨0x100000, 0x3FF00000⟩], 0x3FF00000⟩
    reserved := ⟨reserved, totalSize⟩ }

/-- On a machine with 1 GB, the first page after `vm_init` lies above what is mapped. -/
theorem not_directSystem_addressable :
    ¬ ∀ (map : List E820Entry) (m : Memblock) (ram : Ram) (s₀ : UserSpaces)
      (tr₀ : List (System.Step UserSpaces VmCall)) (s₁ : VmState) (s' : MemState)
      (tr : List (System.Step MemState DirectCall)),
      (∀ x ∈ usableEntries map, x.addr + x.len < 2 ^ 64 - 1) → memblockInit map = .ok m →
        vmSystem.Run (.boot m ram) tr₀ s₀ → vmInit s₀.vm = some ((), s₁) →
          (directSystem (pageTables s₁.log)).Run ⟨s₁.memblock, s₁.ram⟩ tr s' →
            ∀ x ∈ tr, Addressable (v2p s₁.kernPml4) x := by
  intro hkept
  have hinit : memblockInit gigMap = .ok (gigTables [⟨0, 0⟩] 0) := by decide
  have hmap : ∀ x ∈ usableEntries gigMap, x.addr + x.len < 2 ^ 64 - 1 := by decide
  have hpages : reservePages 259 (gigTables [⟨0, 0⟩] 0) =
      some (gigTables [⟨0x3FEFD000, 0x103000⟩] 0x103000) := by decide +kernel
  have hcall : memblockAllocKernel (gigTables [⟨0x3FEFD000, 0x103000⟩] 0x103000) 4096 4096 =
      .ok (gigTables [⟨0x3FEFC000, 0x104000⟩] 0x104000, 0xFFFFFFFFBFEFC000) := by decide +kernel
  obtain ⟨K, s₁, -, hvm, hm, -⟩ :=
    vmInit_returns (s := ⟨gigTables [⟨0, 0⟩] 0, fun _ => 0, 0, []⟩) hpages
  have hboot : vmSystem.Run (.boot (gigTables [⟨0, 0⟩] 0) fun _ => 0) []
      (.boot (gigTables [⟨0, 0⟩] 0) fun _ => 0) := .nil _
  rw [← hm] at hcall
  have hstep : (directSystem (pageTables s₁.log)).step ⟨s₁.memblock, s₁.ram⟩
      (.allocKernel 4096 4096 0xFFFFFFFFBFEFC000)
      ⟨gigTables [⟨0x3FEFC000, 0x104000⟩] 0x104000, s₁.ram⟩ :=
    ⟨⟨12, by decide, by decide⟩, hcall, fun _ _ => rfl⟩
  have hfirst := hkept gigMap _ _ _ _ s₁ _ _ hmap hinit hboot hvm (System.Run.single hstep) _
    List.mem_cons_self 0 (by decide)
  -- the first byte of the block is not mapped
  obtain ⟨pdpt, pd, pt, -, hkernel⟩ := exists_kernelMap hmap hinit hboot hvm
  have hlt := (hkernel s₁.ram fun _ _ => rfl).lt_of_translate hfirst
  exact absurd hlt (by decide +kernel)

end MicroKernel
