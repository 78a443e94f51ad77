import Mathlib.Order.CompletePartialOrder
import MicroKernel.System.Run
import MicroKernel.Memblock.Find

/-!
# Blocks handed out by the allocator

The allocator as a transition system: the state is the two tables together with the blocks that
were returned and not freed.  A call that ends with a fault (no free block, a full table) does
not return, so it is not a step.

* `memblockInit_spec` : the table `memblock_init` builds covers the usable entries of the map;
* `AllocInv.step` : every call keeps the reserved table equal to the union of the live blocks;
* `allocSystem_safe` : in every state reached, the live blocks are pairwise disjoint, aligned, in
  usable memory and not in the first page.
-/

namespace MicroKernel

open Extent

/-! ### Initialisation -/

/-- The entries of usable memory before the first entry that ends the map. -/
def usablePrefix (l : List E820Entry) : List E820Entry :=
  (l.takeWhile fun x => 1 ≤ x.type ∧ x.type ≤ 4).filter fun x => x.type = 1

/-- The entries of usable memory that `memblock_init` reads. -/
def usableEntries (map : List E820Entry) : List E820Entry := usablePrefix (map.take 32)

/-- The addresses of an entry of the map. -/
def E820Entry.extent (x : E820Entry) : Extent := ⟨x.addr, x.len⟩

/-- The addresses of usable memory. -/
def usableMemory (map : List E820Entry) : Set ℕ := cover ((usableEntries map).map E820Entry.extent)

theorem represents_empty : Represents ⟨[⟨0, 0⟩], 0⟩ ∅ :=
  ⟨by decide, Or.inl rfl, cover_sentinel⟩

theorem Represents.addRegions' {t t' : MemblockType} {s : Set ℕ} {base size : ℕ}
    (h : Represents t s) (hend : base + size < 2 ^ 64)
    (hok : memblockAddRegions t base size = .ok t') :
    Represents t' (s ∪ Set.Ico base (base + size)) := by
  rcases Nat.eq_zero_or_pos size with rfl | hsize
  · rw [memblockAddRegions_eq, if_pos rfl] at hok
    cases hok
    simpa using h
  · exact h.addRegions hsize hend hok

theorem usablePrefix_cons (x : E820Entry) (xs : List E820Entry) :
    usablePrefix (x :: xs) =
      if x.type < 1 ∨ 4 < x.type then []
      else if x.type = 1 then x :: usablePrefix xs else usablePrefix xs := by
  unfold usablePrefix
  split_ifs with h1 h2
  · have : ¬ (1 ≤ x.type ∧ x.type ≤ 4) := by omega
    simp [this]
  · simp [h2]
  · have : 1 ≤ x.type ∧ x.type ≤ 4 := by omega
    simp [this, h2]

/-- The loop over the entries adds the usable ones to the memory table. -/
theorem initLoop_spec (l : List E820Entry) : ∀ {m m' : Memblock} {s : Set ℕ},
    Represents m.memory s → (∀ x ∈ usablePrefix l, x.addr + x.len < 2 ^ 64) →
      initLoop l m = .ok m' → m'.reserved = m.reserved ∧
        Represents m'.memory (s ∪ cover ((usablePrefix l).map E820Entry.extent)) := by
  induction l with
  | nil =>
    intro m m' s h _ hok
    cases hok
    exact ⟨rfl, by simpa [usablePrefix] using h⟩
  | cons x xs ih =>
    intro m m' s h hx hok
    rw [usablePrefix_cons] at hx ⊢
    simp only [initLoop] at hok
    split_ifs at hok hx ⊢ with h1 h2
    · cases hok
      exact ⟨rfl, by simpa using h⟩
    · obtain ⟨m₁, hcall, hok⟩ := bind_eq_ok hok
      obtain ⟨t, hadd, ht⟩ := bind_eq_ok hcall
      cases ht
      obtain ⟨hres, hmem⟩ := ih (h.addRegions' (hx x List.mem_cons_self) hadd)
        (fun y hy => hx y (List.mem_cons_of_mem _ hy)) hok
      refine ⟨hres, ?_⟩
      convert hmem using 1
      ext a
      simp only [List.map_cons, Set.mem_union, mem_cover_cons, E820Entry.extent, stop, Set.mem_Ico]
      tauto
    · exact ih h hx hok

/-- The memory table covers the usable entries of the map; nothing is reserved. -/
theorem memblockInit_spec {map : List E820Entry} {m : Memblock}
    (hmap : ∀ x ∈ usableEntries map, x.addr + x.len < 2 ^ 64 - 1) (h : memblockInit map = .ok m) :
    Represents m.memory (usableMemory map) ∧ Represents m.reserved ∅ := by
  obtain ⟨hres, hmem⟩ := initLoop_spec _ represents_empty
    (fun x hx => (hmap x hx).trans (by decide)) h
  exact ⟨by simpa [usableMemory, usableEntries] using hmem, hres ▸ represents_empty⟩

/-! ### The system -/

/-- A block that was handed out: its physical addresses and the alignment asked for. -/
structure Block extends Extent where
  /-- The alignment. -/
  align : ℕ
  deriving DecidableEq

/-- The tables and the live blocks. -/
structure AllocState where
  /-- The tables. -/
  mem : Memblock
  /-- The blocks returned and not freed. -/
  live : List Block

/-- Calls of the allocator. -/
inductive AllocCall where
  /-- `memblock_alloc(size, align)`. -/
  | alloc (size align : ℕ)
  /-- `memblock_alloc_kernel(size, align)`. -/
  | allocKernel (size align : ℕ)
  /-- The system call `brk(num)`. -/
  | brk (num : ℕ)
  /-- `memblock_free` of the physical addresses of a block. -/
  | free (b : Block)

/-- What a call that returns does: the sizes are positive, the alignments powers of two, and a
block that is freed is live. -/
def allocSystem : System AllocState AllocCall where
  step s c s' :=
    match c with
    | .alloc size align => 0 < size ∧ (∃ k < 64, align = 2 ^ k) ∧ ∃ p,
        memblockAlloc s.mem size align = .ok (s'.mem, p) ∧ s'.live = ⟨⟨p, size⟩, align⟩ :: s.live
    | .allocKernel size align => 0 < size ∧ (∃ k < 64, align = 2 ^ k) ∧ ∃ v,
        memblockAllocKernel s.mem size align = .ok (s'.mem, v) ∧
          s'.live = ⟨⟨v2p v, size⟩, align⟩ :: s.live
    | .brk num => 0 < num ∧ ∃ p,
        brk s.mem num = .ok (s'.mem, p) ∧ s'.live = ⟨⟨p, num⟩, pgsize⟩ :: s.live
    | .free b => b ∈ s.live ∧ memblockFree s.mem b.base b.size = .ok s'.mem ∧
        s'.live = s.live.erase b

/-- What the allocator promises about the live blocks, for the usable memory `U`. -/
structure BlocksSafe (U : Set ℕ) (live : List Block) : Prop where
  /-- No address is in two blocks. -/
  disjoint : live.Pairwise fun x y => Disjoint x.toSet y.toSet
  /-- The blocks are in usable memory. -/
  usable : ∀ b ∈ live, b.toSet ⊆ U
  /-- The blocks are aligned as asked for. -/
  aligned : ∀ b ∈ live, b.align ∣ b.base
  /-- The first page is not handed out. -/
  pgsize_le : ∀ b ∈ live, pgsize ≤ b.base

/-- The invariant: the reserved ranges are the live blocks. -/
structure AllocInv (U : Set ℕ) (s : AllocState) : Prop where
  /-- The memory table covers the usable memory. -/
  memory : Represents s.mem.memory U
  /-- The reserved table covers the live blocks. -/
  reserved : Represents s.mem.reserved (cover (s.live.map Block.toExtent))
  /-- No block is empty. -/
  size_pos : ∀ b ∈ s.live, 0 < b.size
  /-- The promise. -/
  safe : BlocksSafe U s.live

theorem allocInv_init {map : List E820Entry} {m : Memblock}
    (hmap : ∀ x ∈ usableEntries map, x.addr + x.len < 2 ^ 64 - 1) (h : memblockInit map = .ok m) :
    AllocInv (usableMemory map) ⟨m, []⟩ := by
  obtain ⟨hmem, hres⟩ := memblockInit_spec hmap h
  exact ⟨hmem, by simpa using hres, by simp, ⟨by simp, by simp, by simp, by simp⟩⟩

namespace AllocInv

variable {U : Set ℕ} {s s' : AllocState}

theorem alloc (h : AllocInv U s) {size k maxAddr p : ℕ} (hsize : 0 < size) (hk : k < 64)
    (hmem : memblockAllocBase s.mem size (2 ^ k) maxAddr = .ok (s'.mem, p))
    (hlive : s'.live = ⟨⟨p, size⟩, 2 ^ k⟩ :: s.live) : AllocInv U s' := by
  obtain ⟨hdvd, hpage, hfree, hmemory, hres⟩ := memblockAllocBase_spec h.memory h.reserved hsize hk
    hmem
  have hnew : Extent.toSet ⟨p, size⟩ = Set.Ico p (p + size) := rfl
  refine ⟨hmemory ▸ h.memory, ?_, ?_, ?_⟩
  · convert hres using 1
    ext a
    simp only [hlive, List.map_cons, mem_cover_cons, stop, Set.mem_union, Set.mem_Ico]
    tauto
  · rw [hlive]
    simpa [hsize] using h.size_pos
  · rw [hlive]
    refine ⟨List.pairwise_cons.2 ⟨fun b hb => ?_, h.safe.disjoint⟩, ?_, ?_, ?_⟩
    · rw [Set.disjoint_left]
      intro a ha hab
      exact (hfree a ha).2 ⟨b.toExtent, List.mem_map_of_mem hb, hab⟩
    · simpa [hnew] using ⟨fun a ha => (hfree a ha).1, h.safe.usable⟩
    · simpa [hdvd] using h.safe.aligned
    · simpa [hpage] using h.safe.pgsize_le

/-- Freeing a live block removes its addresses from the set of live addresses. -/
theorem cover_erase (h : AllocInv U s) {b : Block} (hb : b ∈ s.live) :
    cover ((s.live.erase b).map Block.toExtent) =
      cover (s.live.map Block.toExtent) \ b.toSet := by
  have hperm := List.perm_cons_erase hb
  have hdisj := (hperm.pairwise_iff fun h => Disjoint.symm h).1 h.safe.disjoint
  have hsep := (List.pairwise_cons.1 hdisj).1
  ext a
  have hmem : a ∈ cover (s.live.map Block.toExtent) ↔
      a ∈ cover ((b :: s.live.erase b).map Block.toExtent) := by
    simp only [mem_cover, (hperm.map Block.toExtent).mem_iff]
  rw [Set.mem_sdiff, hmem, List.map_cons, mem_cover_cons]
  constructor
  · intro ha
    refine ⟨Or.inr ha, fun hab => ?_⟩
    obtain ⟨x, hx, hax⟩ := ha
    obtain ⟨y, hy, rfl⟩ := List.mem_map.1 hx
    exact Set.disjoint_left.1 (hsep y hy) hab hax
  · rintro ⟨ha | ha, hab⟩
    · exact absurd ha hab
    · exact ha

theorem free (h : AllocInv U s) {b : Block} (hb : b ∈ s.live)
    (hmem : memblockFree s.mem b.base b.size = .ok s'.mem) (hlive : s'.live = s.live.erase b) :
    AllocInv U s' := by
  have hpos := h.size_pos b hb
  have hlast : b.base + b.size - 1 ∈ U := h.safe.usable b hb ⟨by omega, by simp only [stop]; omega⟩
  have hend : b.base + b.size < 2 ^ 64 := by
    have := h.memory.lt_of_mem _ hlast
    omega
  obtain ⟨t, hrem, ht⟩ := bind_eq_ok hmem
  have hmem' : s'.mem = { s.mem with reserved := t } := (Except.ok.inj ht).symm
  have hsub : s.live.erase b ⊆ s.live := List.erase_subset
  refine ⟨by rw [hmem']; exact h.memory, ?_, ?_, ?_⟩
  · rw [hmem', hlive, h.cover_erase hb]
    exact h.reserved.removeRange hpos hend hrem
  · exact fun x hx => h.size_pos x (hsub (hlive ▸ hx))
  · rw [hlive]
    exact ⟨h.safe.disjoint.sublist List.erase_sublist, fun x hx => h.safe.usable x (hsub hx),
      fun x hx => h.safe.aligned x (hsub hx), fun x hx => h.safe.pgsize_le x (hsub hx)⟩

theorem v2p_p2v {a : ℕ} (h : a < 2 ^ 64) : v2p (p2v a) = a := by
  simp only [v2p, p2v, add64, sub64, kernbase]
  omega

/-- Every call keeps the invariant. -/
theorem step {c : AllocCall} (h : AllocInv U s) (hstep : allocSystem.step s c s') :
    AllocInv U s' := by
  cases c with
  | alloc size align =>
    obtain ⟨hsize, ⟨k, hk, rfl⟩, p, hmem, hlive⟩ := hstep
    exact h.alloc hsize hk hmem hlive
  | allocKernel size align =>
    obtain ⟨hsize, ⟨k, hk, rfl⟩, v, hmem, hlive⟩ := hstep
    obtain ⟨⟨m', p⟩, hbase, hpair⟩ := bind_eq_ok hmem
    obtain ⟨rfl, rfl⟩ : m' = s'.mem ∧ p2v p = v := by simpa using Except.ok.inj hpair
    have hp := memblockAllocBase_spec h.memory h.reserved hsize hk hbase
    have hlt : p < 2 ^ 64 := by
      have := h.memory.lt_of_mem p (hp.2.2.1 p ⟨le_rfl, by omega⟩).1
      omega
    rw [v2p_p2v hlt] at hlive
    exact h.alloc hsize hk hbase hlive
  | brk num =>
    obtain ⟨hsize, p, hmem, hlive⟩ := hstep
    exact h.alloc (k := 12) hsize (by decide) hmem hlive
  | free b =>
    obtain ⟨hb, hmem, hlive⟩ := hstep
    exact h.free hb hmem hlive

end AllocInv

/-- In every state reached from the tables that `memblock_init` builds, by any sequence of calls
that return, the live blocks are pairwise disjoint, in usable memory, aligned and not in the first
page. -/
theorem allocSystem_safe {map : List E820Entry} {m : Memblock} {s : AllocState}
    {tr : List (System.Step AllocState AllocCall)}
    (hmap : ∀ x ∈ usableEntries map, x.addr + x.len < 2 ^ 64 - 1) (hinit : memblockInit map = .ok m)
    (hrun : allocSystem.Run ⟨m, []⟩ tr s) : BlocksSafe (usableMemory map) s.live := by
  have := hrun.invariant (I := AllocInv (usableMemory map)) (C := fun _ => True)
    (allocInv_init hmap hinit) (fun _ hstep _ h => h.step hstep) (fun _ _ => trivial)
  exact this.1.safe

/-- A memory map as a small machine reports it. -/
def bootMap : List E820Entry :=
  [⟨0, 0x9f000, 1⟩, ⟨0x9f000, 0x1000, 2⟩, ⟨0x100000, 0x700000, 1⟩]

/-- The tables built from `bootMap`, with the given reserved regions. -/
def bootTables (reserved : List MemblockRegion) (totalSize : ℕ) : Memblock :=
  { currentLimit := 0x800000
    memory := ⟨[⟨0, 0x9f000⟩, ⟨0x100000, 0x700000⟩], 0x79f000⟩
    reserved := ⟨reserved, totalSize⟩ }

/-- Two blocks are allocated, the first one is freed again. -/
theorem allocSystem_safe_boot :
    BlocksSafe (usableMemory bootMap) [⟨⟨0x7fde00, 512⟩, 512⟩] := by
  have h₁ : allocSystem.step ⟨bootTables [⟨0, 0⟩] 0, []⟩ (.alloc 8192 4096)
      ⟨bootTables [⟨0x7fe000, 8192⟩] 8192, [⟨⟨0x7fe000, 8192⟩, 4096⟩]⟩ :=
    ⟨by decide, ⟨12, by decide, by decide⟩, 0x7fe000, by decide, rfl⟩
  have h₂ : allocSystem.step ⟨bootTables [⟨0x7fe000, 8192⟩] 8192, [⟨⟨0x7fe000, 8192⟩, 4096⟩]⟩
      (.allocKernel 512 512)
      ⟨bootTables [⟨0x7fde00, 8704⟩] 8704,
        [⟨⟨0x7fde00, 512⟩, 512⟩, ⟨⟨0x7fe000, 8192⟩, 4096⟩]⟩ :=
    ⟨by decide, ⟨9, by decide, by decide⟩, p2v 0x7fde00, by decide +kernel, by decide⟩
  have h₃ : allocSystem.step
      ⟨bootTables [⟨0x7fde00, 8704⟩] 8704, [⟨⟨0x7fde00, 512⟩, 512⟩, ⟨⟨0x7fe000, 8192⟩, 4096⟩]⟩
      (.free ⟨⟨0x7fe000, 8192⟩, 4096⟩)
      ⟨bootTables [⟨0x7fde00, 512⟩] 512, [⟨⟨0x7fde00, 512⟩, 512⟩]⟩ :=
    ⟨by decide, by decide, by decide⟩
  have hmap : ∀ x ∈ usableEntries bootMap, x.addr + x.len < 2 ^ 64 - 1 := by decide
  exact allocSystem_safe hmap (by decide)
    (((System.Run.nil _).snoc h₁).snoc h₂ |>.snoc h₃)

end MicroKernel
