import MicroKernel.Memblock.Highest
import MicroKernel.Memblock.Safety

/-!
# The kernel image and the allocator

The kernel is loaded into usable memory at `mboot_load_addr`, and `memblock_init` reserves nothing.
A request is served from the highest free block, so the image is handed out as soon as nothing
above it is large enough.

* `TablesInv` : the tables cover the usable memory, and the search reaches all of it;
* `TablesInv.highest` : a request is served from the highest free block;
* `requestSystem_image_iff` : the blocks returned in a run keep off the image exactly when every
  request found room above the image, or none in it.
-/

namespace MicroKernel

open Extent

/-! ### The limit of the search -/

theorem initLoop_limit (l : List E820Entry) : ∀ {m m' : Memblock} {s : Set ℕ},
    (∀ a ∈ s, a < m.currentLimit) → (∀ x ∈ usablePrefix l, x.addr + x.len < 2 ^ 64) →
      initLoop l m = .ok m' →
        ∀ a ∈ s ∪ cover ((usablePrefix l).map E820Entry.extent), a < m'.currentLimit := by
  induction l with
  | nil =>
    intro m m' s h _ hok
    cases hok
    simpa [usablePrefix] using h
  | cons x xs ih =>
    intro m m' s h hx hok
    rw [usablePrefix_cons] at hx ⊢
    simp only [initLoop] at hok
    split_ifs at hok hx ⊢ with h1 h2
    · cases hok
      simpa using h
    · obtain ⟨m₁, hcall, hok⟩ := bind_eq_ok hok
      obtain ⟨t, -, ht⟩ := bind_eq_ok hcall
      cases ht
      have hend := hx x List.mem_cons_self
      have hadd : add64 x.addr x.len = x.addr + x.len := add64_of_lt hend
      have hlimit : ∀ a ∈ s ∪ Set.Ico x.addr (x.addr + x.len),
          a < max m.currentLimit (add64 x.addr x.len) := by
        rintro a (ha | ha)
        · exact (h a ha).trans_le (le_max_left _ _)
        · exact (hadd ▸ ha.2 : a < add64 x.addr x.len).trans_le (le_max_right _ _)
      have hrest := ih hlimit (fun y hy => hx y (List.mem_cons_of_mem _ hy)) hok
      intro a ha
      refine hrest a ?_
      simp only [List.map_cons, Set.mem_union, mem_cover_cons, E820Entry.extent, stop,
        Set.mem_Ico] at ha ⊢
      tauto
    · exact ih h hx hok

/-- What every request keeps: the tables cover the usable memory `U` and some reserved ranges, and
the search reaches all usable memory. -/
structure TablesInv (U : Set ℕ) (m : Memblock) : Prop where
  /-- The memory table. -/
  memory : Represents m.memory U
  /-- The reserved table. -/
  reserved : ∃ R, Represents m.reserved R
  /-- The limit of the search. -/
  lt_limit : ∀ a ∈ U, a < m.currentLimit

theorem tablesInv_init {map : List E820Entry} {m : Memblock}
    (hmap : ∀ x ∈ usableEntries map, x.addr + x.len < 2 ^ 64 - 1) (h : memblockInit map = .ok m) :
    TablesInv (usableMemory map) m := by
  obtain ⟨hmem, hres⟩ := memblockInit_spec hmap h
  refine ⟨hmem, ⟨∅, hres⟩, fun a ha => ?_⟩
  refine initLoop_limit _ (s := ∅) (by simp) (fun x hx => (hmap x hx).trans (by decide)) h a ?_
  exact Or.inr ha

namespace TablesInv

variable {U : Set ℕ} {m m' : Memblock} {size k p : ℕ}

/-- A request keeps the invariant, one for no memory included. -/
theorem alloc (h : TablesInv U m) (hk : k < 64)
    (hcall : memblockAlloc m size (2 ^ k) = .ok (m', p)) : TablesInv U m' := by
  obtain ⟨R, hres⟩ := h.reserved
  obtain ⟨-, -, hm', hadd⟩ := memblockAllocBase_eq_ok hcall
  have hlimit : m'.currentLimit = m.currentLimit := by rw [hm']
  have hmemory : m'.memory = m.memory := by rw [hm']
  refine ⟨hmemory ▸ h.memory, ?_, hlimit ▸ h.lt_limit⟩
  rcases Nat.eq_zero_or_pos size with rfl | hsize
  · rw [memblockAddRegions_eq, if_pos rfl] at hadd
    exact ⟨R, Except.ok.inj hadd ▸ hres⟩
  · obtain ⟨-, -, -, -, hnew⟩ := memblockAllocBase_spec h.memory hres hsize hk hcall
    exact ⟨_, hnew⟩

/-- The block returned is free, and it is the highest free one. -/
theorem highest (h : TablesInv U m) (hsize : 0 < size) (hk : k < 64)
    (hcall : memblockAlloc m size (2 ^ k) = .ok (m', p)) :
    FreeBlock m size (2 ^ k) p ∧ ∀ q, FreeBlock m size (2 ^ k) q → q ≤ p := by
  obtain ⟨R, hres⟩ := h.reserved
  obtain ⟨hfree, hmax⟩ := memblockAllocBase_highest h.memory hres hsize hk hcall
  refine ⟨hfree, fun q hq => hmax q hq ?_⟩
  have hlast := (hq.free (q + size - 1) ⟨by omega, by omega⟩).1
  rw [h.memory.cover_eq] at hlast
  have := h.lt_limit _ hlast
  rw [if_pos rfl]
  omega

end TablesInv

/-! ### Requests -/

/-- A request for memory. -/
inductive Request where
  /-- `memblock_alloc(size, align)`. -/
  | alloc (size align : ℕ)
  /-- The system call `brk(num)`. -/
  | brk (num : ℕ)

namespace Request

/-- The size asked for. -/
def size : Request → ℕ
  | .alloc size _ => size
  | .brk num => num

/-- The alignment asked for. -/
def align : Request → ℕ
  | .alloc _ align => align
  | .brk _ => pgsize

/-- The call. -/
def call (m : Memblock) : Request → Except Fault (Memblock × ℕ)
  | .alloc size align => memblockAlloc m size align
  | .brk num => MicroKernel.brk m num

theorem call_eq (m : Memblock) (r : Request) : r.call m = memblockAlloc m r.size r.align := by
  cases r <;> rfl

end Request

/-- A request with the address that is returned. -/
structure Answer where
  /-- The request. -/
  req : Request
  /-- The address. -/
  addr : ℕ

/-- The block that is returned. -/
def Answer.block (x : Answer) : Extent := ⟨x.addr, x.req.size⟩

/-- The requests that return; the alignments are powers of two. -/
def requestSystem : System Memblock Answer where
  step m x m' := (∃ k < 64, x.req.align = 2 ^ k) ∧ x.req.call m = .ok (m', x.addr)

/-! ### The image -/

/-- `mboot_load_addr`, where the linker script places the kernel. -/
def mbootLoadAddr : ℕ := 0x100000

/-- The kernel image, up to the symbol `end`. -/
def kernelImage (end_ : ℕ) : Set ℕ := Set.Ico mbootLoadAddr end_

/-- The request is for no memory, or there is room for it above the image, or all the room for it is
below the image. -/
def RoomOutside (end_ : ℕ) (m : Memblock) (r : Request) : Prop :=
  r.size = 0 ∨ (∃ q, end_ ≤ q ∧ FreeBlock m r.size r.align q) ∨
    ∀ q, FreeBlock m r.size r.align q → q + r.size ≤ mbootLoadAddr

theorem Answer.disjoint_kernelImage_iff {U : Set ℕ} {m m' : Memblock} {x : Answer} {end_ : ℕ}
    (h : TablesInv U m) (hend : mbootLoadAddr < end_) (hstep : requestSystem.step m x m') :
    Disjoint x.block.toSet (kernelImage end_) ↔ RoomOutside end_ m x.req := by
  obtain ⟨⟨k, hk, halign⟩, hcall⟩ := hstep
  rw [Request.call_eq, halign] at hcall
  unfold RoomOutside
  rw [halign]
  have hblock : x.block.toSet = Set.Ico x.addr (x.addr + x.req.size) := rfl
  rw [hblock, kernelImage, Set.disjoint_left]
  rcases Nat.eq_zero_or_pos x.req.size with hzero | hsize
  · simp [hzero]
  obtain ⟨hfree, hmax⟩ := h.highest hsize hk hcall
  constructor
  · intro hdisj
    right
    -- a block that keeps off the image lies above or below it
    rcases Nat.lt_or_ge x.addr end_ with hlt | hge
    · refine Or.inr fun q hq => ?_
      have hq := hmax q hq
      have hlow : ¬ mbootLoadAddr < x.addr + x.req.size := fun hover =>
        hdisj (a := max x.addr mbootLoadAddr) ⟨le_max_left _ _, by omega⟩
          ⟨le_max_right _ _, by omega⟩
      omega
    · exact Or.inl ⟨x.addr, hge, hfree⟩
  · rintro (hzero | ⟨q, hq, hroom⟩ | hlow) a ha hin
    · omega
    · have := hmax q hroom
      have := ha.1
      have := hin.2
      omega
    · have := hlow x.addr hfree
      have := ha.2
      have := hin.1
      omega

/-- In a run from the tables that `memblock_init` builds, no block that is returned overlaps the
image exactly when every request had room above the image, or no room that ends above its start. -/
theorem requestSystem_image_iff {map : List E820Entry} {m m' : Memblock} {end_ : ℕ}
    {tr : List (System.Step Memblock Answer)}
    (hmap : ∀ x ∈ usableEntries map, x.addr + x.len < 2 ^ 64 - 1) (hinit : memblockInit map = .ok m)
    (hend : mbootLoadAddr < end_) (hrun : requestSystem.Run m tr m') :
    (∀ x ∈ tr, Disjoint x.ev.block.toSet (kernelImage end_)) ↔
      ∀ x ∈ tr, RoomOutside end_ x.pre x.ev.req := by
  refine hrun.forall_iff (I := TablesInv (usableMemory map)) (tablesInv_init hmap hinit) ?_
    fun x hstep h => x.ev.disjoint_kernelImage_iff h hend hstep
  rintro x ⟨⟨k, hk, halign⟩, hcall⟩ - h
  rw [Request.call_eq, halign] at hcall
  exact h.alloc hk hcall

/-- A page is requested, with an image of 1 MB. -/
theorem requestSystem_image_iff_boot :
    (∀ x ∈ [(⟨bootTables [⟨0, 0⟩] 0, ⟨.brk 4096, 0x7ff000⟩, bootTables [⟨0x7ff000, 4096⟩] 4096⟩ :
      System.Step Memblock Answer)], Disjoint x.ev.block.toSet (kernelImage 0x200000)) ↔
    ∀ x ∈ [(⟨bootTables [⟨0, 0⟩] 0, ⟨.brk 4096, 0x7ff000⟩, bootTables [⟨0x7ff000, 4096⟩] 4096⟩ :
      System.Step Memblock Answer)], RoomOutside 0x200000 x.pre x.ev.req := by
  have hstep : requestSystem.step (bootTables [⟨0, 0⟩] 0) ⟨.brk 4096, 0x7ff000⟩
      (bootTables [⟨0x7ff000, 4096⟩] 4096) := ⟨⟨12, by decide, by decide⟩, by decide⟩
  have hmap : ∀ x ∈ usableEntries bootMap, x.addr + x.len < 2 ^ 64 - 1 := by decide
  exact requestSystem_image_iff hmap (by decide) (by decide) (System.Run.single hstep)

/-- A request for all 7 MB above the first one is given the image. -/
theorem not_requestSystem_image :
    ¬ ∀ (map : List E820Entry) (m m' : Memblock) (end_ : ℕ)
      (tr : List (System.Step Memblock Answer)),
      (∀ x ∈ usableEntries map, x.addr + x.len < 2 ^ 64 - 1) → memblockInit map = .ok m →
        mbootLoadAddr < end_ → kernelImage end_ ⊆ usableMemory map → requestSystem.Run m tr m' →
          ∀ x ∈ tr, Disjoint x.ev.block.toSet (kernelImage end_) := by
  intro hkept
  have hstep : requestSystem.step (bootTables [⟨0, 0⟩] 0) ⟨.brk 0x700000, 0x100000⟩
      (bootTables [⟨0x100000, 0x700000⟩] 0x700000) := ⟨⟨12, by decide, by decide⟩, by decide⟩
  have himage : kernelImage 0x200000 ⊆ usableMemory bootMap := fun a ha =>
    ⟨⟨0x100000, 0x700000⟩, by decide, ha.1, ha.2.trans (by decide)⟩
  have hdisj := hkept bootMap _ _ 0x200000 _ (by decide) (by decide) (by decide) himage
    (System.Run.single hstep) _ List.mem_cons_self
  have hblock : 0x100000 ∈ (⟨0x100000, 0x700000⟩ : Extent).toSet := ⟨le_rfl, by decide⟩
  have hstart : 0x100000 ∈ kernelImage 0x200000 := ⟨le_rfl, by decide⟩
  exact Set.disjoint_left.1 hdisj hblock hstart

end MicroKernel
