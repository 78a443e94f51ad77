import MicroKernel.Ram.Basic
import Mathlib.Data.List.Basic
import Mathlib.Logic.Function.Basic

/-!
# The page server

The plugin for physical memory asks the kernel for a block with `brk` and keeps the pages in a list
of links, from which it takes the first one for each request.

* `allocatorInit`, `physicalMemoryAlloc` : the functions of the plugin;
* `initLoop_spec` : what the loop leaves;
* `results_allocatorInit` : only the last page is handed out;
* `not_handsOut` : it is not a page of the block.
-/

namespace MicroKernel

namespace PageServer

/-! ### The plugin -/

/-- `struct Link`. -/
structure Link where
  /-- The address of the next link. -/
  next : BitVec 64
  /-- The page. -/
  data : BitVec 64

/-- The memory of the plugin. -/
structure Server where
  /-- The links at their addresses. -/
  links : BitVec 64 → Link
  /-- How many links were made. -/
  count : ℕ
  /-- `memoryAllocator.freeList`. -/
  freeList : BitVec 64

/-- The argument of `brk`, which is a number of bytes. -/
def brkNum : ℕ := 32768

/-- The last value of `index`. -/
def lastIndex : ℕ := 32768

/-- The address of the link number `i`, as `new_link` gets the memory for it. -/
abbrev Places := ℕ → BitVec 64

/-- `&new_link(next, data)`. -/
def newLink (place : Places) (next data : BitVec 64) (s : Server) : BitVec 64 × Server :=
  (place s.count, ⟨Function.update s.links (place s.count) ⟨next, data⟩, s.count + 1, s.freeList⟩)

/-- `memoryAllocator.freeList.next = p`. -/
def Server.setNext (s : Server) (p : BitVec 64) : Server :=
  { s with links := Function.update s.links s.freeList { s.links s.freeList with next := p } }

/-- One iteration of the loop of `allocator_init`. -/
def addPage (place : Places) (index : ℕ) (memoryAddress : BitVec 64) (s : Server) : Server :=
  if index = 1 then
    let (p, s) := newLink place 0 memoryAddress s
    { s with freeList := p }
  else
    let (p, s) := newLink place 0 memoryAddress s
    let s := s.setNext p
    { s with freeList := (s.links s.freeList).next }

/-- The loop from an iteration on, with the number of iterations that are left. -/
def initLoop (place : Places) : ℕ → ℕ → BitVec 64 → Server → Server
  | 0, _, _, s => s
  | n + 1, index, memoryAddress, s =>
    initLoop place n (index + 1) (memoryAddress + 0x1000) (addPage place index memoryAddress s)

/-- `allocator_init`, where `brk` returned `memoryStart`. -/
def allocatorInit (place : Places) (memoryStart : BitVec 64) (s : Server) : Server :=
  initLoop place lastIndex 1 memoryStart s

/-- `physical_memory_alloc`. -/
def physicalMemoryAlloc (s : Server) : BitVec 64 × Server :=
  if s.freeList ≠ 0 then
    ((s.links s.freeList).data, { s with freeList := (s.links s.freeList).next })
  else (0, s)

/-- The results of the first `k` calls. -/
def results : ℕ → Server → List (BitVec 64)
  | 0, _ => []
  | k + 1, s => (physicalMemoryAlloc s).1 :: results k (physicalMemoryAlloc s).2

/-! ### What it is for -/

/-- The server hands out all pages of the block, each once, and then none. -/
structure HandsOut (memoryStart : BitVec 64) (s : Server) : Prop where
  /-- No page twice. -/
  distinct : ∀ k, ((results k s).filter (· ≠ 0)).Nodup
  /-- Pages of the block that `brk` returned. -/
  inside : ∀ k, ∀ p ∈ results k s, p ≠ 0 → 4096 ∣ p.toNat ∧
    Set.Ico p.toNat (p.toNat + 4096) ⊆ Set.Ico memoryStart.toNat (memoryStart.toNat + brkNum)
  /-- All of them. -/
  all : ∀ p ∈ results lastIndex s, p ≠ 0
  /-- Then none. -/
  after : ∀ k, ∀ p ∈ (results k s).drop lastIndex, p = 0

/-! ### What it does -/

section Results

variable {place : Places} {s : Server} {index n : ℕ} {memoryAddress : BitVec 64}

theorem count_addPage : (addPage place index memoryAddress s).count = s.count + 1 := by
  unfold addPage
  split_ifs <;> rfl

/-- The head of the list is the new link, whichever branch is taken. -/
theorem addPage_spec (place : Places) (index : ℕ) (memoryAddress : BitVec 64) (s : Server) :
    (addPage place index memoryAddress s).freeList = place s.count ∧
      ((addPage place index memoryAddress s).links (place s.count)).data = memoryAddress := by
  unfold addPage
  split_ifs with hindex
  · refine ⟨rfl, ?_⟩
    simp only [newLink, Function.update_self]
  · simp only [newLink, Server.setNext, Function.update_self, true_and]
    -- the link is the head already if its address is taken again
    by_cases hp : place s.count = s.freeList
    · rw [hp, Function.update_self, Function.update_self]
    · rw [Function.update_of_ne hp, Function.update_self]

/-- After the loop the list begins with the link of the last page. -/
theorem initLoop_spec (n : ℕ) : ∀ (index : ℕ) (memoryAddress : BitVec 64) (s : Server),
    let s' := initLoop place (n + 1) index memoryAddress s
    s'.freeList = place (s.count + n) ∧
      (s'.links s'.freeList).data = memoryAddress + BitVec.ofNat 64 (n * 0x1000) := by
  induction n with
  | zero =>
    intro index memoryAddress s
    obtain ⟨hfree, hdata⟩ := addPage_spec place index memoryAddress s
    refine ⟨hfree, ?_⟩
    simp only [initLoop]
    rw [hfree, hdata]
    simp
  | succ n ih =>
    intro index memoryAddress s
    obtain ⟨hfree, hdata⟩ := ih (index + 1) (memoryAddress + 0x1000)
      (addPage place index memoryAddress s)
    rw [count_addPage] at hfree
    refine ⟨hfree.trans (congrArg place (by omega)), hdata.trans ?_⟩
    rw [BitVec.add_assoc]
    refine congrArg (memoryAddress + ·) (BitVec.eq_of_toNat_eq ?_)
    have hpage : (0x1000 : BitVec 64).toNat = 0x1000 := rfl
    rw [BitVec.toNat_add, hpage, BitVec.toNat_ofNat, BitVec.toNat_ofNat]
    omega

/-- The page that is handed out first. -/
def lastPage (memoryStart : BitVec 64) : BitVec 64 :=
  memoryStart + BitVec.ofNat 64 ((lastIndex - 1) * 0x1000)

theorem allocatorInit_spec (place : Places) (memoryStart : BitVec 64) (s : Server) :
    let s' := allocatorInit place memoryStart s
    s'.freeList = place (s.count + (lastIndex - 1)) ∧
      (s'.links s'.freeList).data = lastPage memoryStart := by
  obtain ⟨n, hn⟩ : ∃ n, lastIndex = n + 1 := ⟨32767, rfl⟩
  rw [allocatorInit, lastPage, hn, Nat.add_sub_cancel]
  exact initLoop_spec n _ _ _

theorem lastPage_toNat (memoryStart : BitVec 64) :
    (lastPage memoryStart).toNat = (memoryStart.toNat + 134213632) % 2 ^ 64 := by
  rw [lastPage, BitVec.toNat_add, BitVec.toNat_ofNat]
  rfl

/-- The last of the pages that the loop counts is not a page of the block. -/
theorem not_lastPage_subset (memoryStart : BitVec 64) :
    ¬Set.Ico (lastPage memoryStart).toNat ((lastPage memoryStart).toNat + 4096) ⊆
      Set.Ico memoryStart.toNat (memoryStart.toNat + brkNum) := by
  intro hsub
  have hlt := memoryStart.isLt
  obtain ⟨hlow, hhigh⟩ := hsub ⟨le_rfl, Nat.lt_add_of_pos_right (by decide)⟩
  rw [lastPage_toNat] at hlow hhigh
  unfold brkNum at hhigh
  omega

theorem HandsOut.first {memoryStart : BitVec 64} (h : HandsOut memoryStart s) :
    Set.Ico (s.links s.freeList).data.toNat ((s.links s.freeList).data.toNat + 4096) ⊆
      Set.Ico memoryStart.toNat (memoryStart.toNat + brkNum) := by
  have hfirst : (physicalMemoryAlloc s).1 ∈ results 1 s := List.mem_cons_self
  have hne := h.all (physicalMemoryAlloc s).1 (by
    obtain ⟨n, hn⟩ : ∃ n, lastIndex = n + 1 := ⟨32767, rfl⟩
    rw [hn]
    exact List.mem_cons_self)
  have hinside := (h.inside 1 _ hfirst hne).2
  unfold physicalMemoryAlloc at hne hinside
  split_ifs at hne hinside with hfree
  · exact hinside
  · exact absurd rfl hne

/-- Wherever the links are and whatever block `brk` returned, the first request is answered with an
address that is not in the block, or with none. -/
theorem not_handsOut (place : Places) (memoryStart : BitVec 64) (s : Server) :
    ¬HandsOut memoryStart (allocatorInit place memoryStart s) := by
  intro h
  have hfirst := h.first
  rw [(allocatorInit_spec place memoryStart s).2] at hfirst
  exact not_lastPage_subset memoryStart hfirst

/-- The links are in memory one after the other, and the block begins at 16 MB. -/
theorem not_allocatorInit_handsOut :
    ¬∀ (place : Places) (memoryStart : BitVec 64) (s : Server),
      HandsOut memoryStart (allocatorInit place memoryStart s) := by
  intro hall
  have hfirst := (hall (fun i => BitVec.ofNat 64 (16 * (i + 1))) 0x1000000
    ⟨fun _ => ⟨0, 0⟩, 0, 0⟩).first
  rw [(allocatorInit_spec _ _ _).2] at hfirst
  exact not_lastPage_subset _ hfirst

end Results

/-! ### Links at different addresses -/

section Fresh

variable {place : Places} {s : Server} {index n : ℕ} {memoryAddress : BitVec 64}

theorem addPage_next (h : index ≠ 1 → place s.count ≠ s.freeList) :
    ((addPage place index memoryAddress s).links (place s.count)).next = 0 := by
  unfold addPage
  split_ifs with hindex
  · simp only [newLink, Function.update_self]
  · simp only [newLink, Server.setNext]
    rw [Function.update_of_ne (h hindex), Function.update_self]

theorem initLoop_next (hplace : Function.Injective place) (n : ℕ) : ∀ {index : ℕ}
    {memoryAddress : BitVec 64} {s : Server},
    (index ≠ 1 → ∃ i < s.count, s.freeList = place i) → 1 ≤ index →
      let s' := initLoop place (n + 1) index memoryAddress s
      (s'.links s'.freeList).next = 0 := by
  induction n with
  | zero =>
    intro index memoryAddress s hfree _
    have hne : index ≠ 1 → place s.count ≠ s.freeList := fun hindex heq => by
      obtain ⟨i, hi, hplace'⟩ := hfree hindex
      exact Nat.ne_of_lt hi (hplace (hplace'.symm.trans heq.symm))
    simp only [initLoop]
    rw [(addPage_spec place index memoryAddress s).1, addPage_next hne]
  | succ n ih =>
    intro index memoryAddress s hfree hindex
    refine ih (fun _ => ⟨s.count, ?_, (addPage_spec ..).1⟩) (by omega)
    rw [count_addPage]
    omega

theorem allocatorInit_next (hplace : Function.Injective place) (memoryStart : BitVec 64)
    (s : Server) : ((allocatorInit place memoryStart s).links
      (allocatorInit place memoryStart s).freeList).next = 0 := by
  obtain ⟨n, hn⟩ : ∃ n, lastIndex = n + 1 := ⟨32767, rfl⟩
  rw [allocatorInit, hn]
  exact initLoop_next hplace n (fun h => absurd rfl h) le_rfl

theorem results_empty (k : ℕ) (h : s.freeList = 0) : results k s = List.replicate k 0 := by
  induction k with
  | zero => rfl
  | succ k ih => rw [results, physicalMemoryAlloc, if_neg (not_not.2 h), ih, List.replicate_succ]

theorem results_one (k : ℕ) (hfree : s.freeList ≠ 0) (hnext : (s.links s.freeList).next = 0) :
    results (k + 1) s = (s.links s.freeList).data :: List.replicate k 0 := by
  rw [results, physicalMemoryAlloc, if_pos hfree]
  exact congrArg (List.cons _) (results_empty k hnext)

/-- The server hands out the last page, and then none. -/
theorem results_allocatorInit (hplace : Function.Injective place) (hnull : ∀ i, place i ≠ 0)
    (memoryStart : BitVec 64) (s : Server) (k : ℕ) :
    results (k + 1) (allocatorInit place memoryStart s) =
      lastPage memoryStart :: List.replicate k 0 := by
  obtain ⟨hfree, hdata⟩ := allocatorInit_spec place memoryStart s
  rw [results_one k (by rw [hfree]; exact hnull _) (allocatorInit_next hplace memoryStart s), hdata]

end Fresh

end PageServer

end MicroKernel
