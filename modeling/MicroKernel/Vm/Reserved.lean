import MicroKernel.Kernel.Boundary
import MicroKernel.Vm.Effects
import MicroKernel.Vm.Scan

/-!
# Loading the plugins

`load_plugin` as a whole: a buffer is allocated, and for each of the two plugins a kernel stack; the
file is searched on the disk and then loaded.  Whatever is on the disk, what was reserved stays
reserved: the memory that is allocated on the way is new, and none is given back.

* `loadPlugins` : the function;
* `ReservesOnly` : what a program does to the tables of the allocator;
* `loadPlugins_reservesOnly` : `load_plugin` reserves memory and does nothing else to the tables.
-/

namespace MicroKernel

open Asm (Kernel)

/-! ### The code -/

/-- `alloc_proc`: the kernel stack is allocated and laid out. -/
def allocProc (K : Kernel) : VmM ℕ := do
  let kStack ← Vm.memblockAllocKernel pgsize pgsize .other
  modify fun s => { s with ram := (Asm.allocProc K (v2p kStack) s.ram).mem }
  return kStack

/-- The search on the disk for the next plugin, with the variable `pluginSector`, which it
returns. -/
def searchPlugin (disk : Ram) (fuel pluginElf pluginSector : ℕ) : VmM ℕ := fun s =>
  (search disk (v2p pluginElf) fuel ⟨s.ram, pluginSector, 0, 0, []⟩).map fun scan =>
    (scan.pluginSector, { s with ram := scan.ram })

/-- What an iteration of `load_plugin` stores in its thread. -/
structure Loaded where
  /-- `kStack`. -/
  kStack : ℕ
  /-- What comes from the file. -/
  plugin : Plugin

/-- An iteration of the loop of `load_plugin`. -/
def loadNext (K : Kernel) (disk : Ram) (fuel pluginElf pluginSector : ℕ) : VmM (Loaded × ℕ) := do
  let kStack ← allocProc K
  let pluginSector ← searchPlugin disk fuel pluginElf pluginSector
  let plugin ← loadPlugin pluginElf
  return (⟨kStack, plugin⟩, pluginSector)

/-- `load_plugin`, for the two plugins. -/
def loadPlugins (K : Kernel) (disk : Ram) (fuel : ℕ) : VmM (Loaded × Loaded) := do
  let pluginElf ← Vm.memblockAllocKernel bufferSize pgsize .other
  let (x₀, pluginSector) ← loadNext K disk fuel pluginElf 0
  let (x₁, _) ← loadNext K disk fuel pluginElf pluginSector
  return (x₀, x₁)

/-! ### What is reserved -/

/-- The tables of the allocator, for the memory `U`. -/
structure HasTables (U : Set ℕ) (m : Memblock) : Prop where
  /-- The memory. -/
  memory : Represents m.memory U
  /-- The reserved memory. -/
  reserved : ∃ R, Represents m.reserved R

/-- What is reserved in `m` is reserved in `m'`. -/
def KeepsReserved (m m' : Memblock) : Prop :=
  ∀ R, Represents m.reserved R → ∃ R', Represents m'.reserved R' ∧ R ⊆ R'

instance : IsPreorder VmState fun s s' => KeepsReserved s.memblock s'.memblock where
  refl _ R hR := ⟨R, hR, subset_rfl⟩
  trans _ _ _ h h' R hR := by
    obtain ⟨R₁, hR₁, hsub⟩ := h R hR
    obtain ⟨R₂, hR₂, hsub'⟩ := h' R₁ hR₁
    exact ⟨R₂, hR₂, hsub.trans hsub'⟩

/-- The program reserves memory and gives none back. -/
def ReservesOnly {α : Type} (U : Set ℕ) (x : VmM α) : Prop :=
  Frames (fun s => HasTables U s.memblock) (fun s s' => KeepsReserved s.memblock s'.memblock) x
    fun _ => True

section Reserved

variable {U : Set ℕ} {size maxAddr : ℕ} {purpose : Purpose}

/-- A block is reserved; an empty one is not. -/
theorem reservesOnly_reserveBlock : ReservesOnly U (reserveBlock size pgsize maxAddr purpose) := by
  intro s p s' hs h
  obtain ⟨m, hm, rfl⟩ := reserveBlock_eq_some.1 h
  obtain ⟨R, hR⟩ := hs.reserved
  rcases Nat.eq_zero_or_pos size with rfl | hsize
  · obtain ⟨-, -, hm', hadd⟩ := memblockAllocBase_eq_ok hm
    rw [memblockAddRegions_eq, if_pos rfl] at hadd
    rw [← Except.ok.inj hadd] at hm'
    obtain rfl : m = s.memblock := hm'
    exact ⟨hs, fun Q hQ => ⟨Q, hQ, subset_rfl⟩, trivial⟩
  · have hspec {Q : Set ℕ} (hQ : Represents s.memblock.reserved Q) :=
      memblockAllocBase_spec (k := 12) hs.memory hQ hsize (by decide) hm
    obtain ⟨-, -, -, hmemory, hreserved⟩ := hspec hR
    exact ⟨⟨hmemory ▸ hs.memory, _, hreserved⟩,
      fun Q hQ => ⟨_, (hspec hQ).2.2.2.2, Set.subset_union_left⟩, trivial⟩

/-- All functions that load a process reserve memory only. -/
theorem effects_reserves (U : Set ℕ) : Effects (fun s => HasTables U s.memblock)
    (fun s s' => KeepsReserved s.memblock s'.memblock) Set.univ where
  ram _ _ hs := ⟨hs, fun R hR => ⟨R, hR, subset_rfl⟩⟩
  reserve _ _ _ _ := reservesOnly_reserveBlock

variable {K : Kernel} {disk : Ram} {fuel pluginElf pluginSector : ℕ}

theorem reservesOnly_loadNext :
    ReservesOnly U (loadNext K disk fuel pluginElf pluginSector) := by
  have hstack : ReservesOnly U (allocProc K) := by
    refine Frames.bind ((effects_reserves U).memblockAllocKernel trivial) fun kStack _ => ?_
    refine Frames.bind ((effects_reserves U).of_ram fun s _ s' h => ?_) fun _ _ =>
      Frames.pure trivial
    cases h
    exact ⟨_, rfl⟩
  have hsearch : ReservesOnly U (searchPlugin disk fuel pluginElf pluginSector) := by
    refine (effects_reserves U).of_ram fun s _ s' h => ?_
    obtain ⟨scan, -, hscan⟩ := Option.map_eq_some_iff.1 h
    cases hscan
    exact ⟨_, rfl⟩
  refine Frames.bind hstack fun _ _ => Frames.bind hsearch fun _ _ => ?_
  exact Frames.bind (effects_reserves U).loadPlugin fun _ _ => Frames.pure trivial

/-- Whatever is on the disk, `load_plugin` reserves memory and gives none back. -/
theorem loadPlugins_reservesOnly (U : Set ℕ) (K : Kernel) (disk : Ram) (fuel : ℕ) :
    ReservesOnly U (loadPlugins K disk fuel) := by
  refine Frames.bind ((effects_reserves U).memblockAllocKernel trivial) fun pluginElf _ => ?_
  refine Frames.bind reservesOnly_loadNext fun _ _ => ?_
  exact Frames.bind reservesOnly_loadNext fun _ _ => Frames.pure trivial

end Reserved

end MicroKernel
