import MicroKernel.System.Run
import MicroKernel.Memblock.Find

/-!
# The length of the region tables

The check that a table has room for the regions about to be inserted is commented out in
`memblock_add_regions`.  `CallFits` is that check, for every call: a sequence of calls keeps within
the arrays if and only if each of its calls passes it (`memSystem_inBounds_iff`).  It is not
always passed: 129 calls of `brk(1)` overrun the table of reserved ranges
(`not_memSystem_inBounds`).
-/

namespace MicroKernel

/-- Calls that change a table, with arguments of type `u64`. -/
inductive MemCall where
  /-- `memblock_reserve(base, size)`. -/
  | reserve (base size : BitVec 64)
  /-- `memblock_add(base, size)`. -/
  | add (base size : BitVec 64)
  /-- `memblock_alloc(size, align)`. -/
  | alloc (size align : BitVec 64)
  /-- The system call `brk(num)`. -/
  | brk (num : BitVec 64)
  /-- `memblock_free(base, size)`. -/
  | free (base size : BitVec 64)

/-- The tables after a call. -/
def MemCall.exec (m : Memblock) : MemCall → Except Fault Memblock
  | .reserve base size => memblockReserve m base.toNat size.toNat
  | .add base size => memblockAdd m base.toNat size.toNat
  | .alloc size align => memblockAlloc m size.toNat align.toNat >>= fun r => .ok r.1
  | .brk num => MicroKernel.brk m num.toNat >>= fun r => .ok r.1
  | .free base size => memblockFree m base.toNat size.toNat

/-- Sequences of calls; after a fault there is no next call. -/
def memSystem : System (Except Fault Memblock) MemCall where
  step s c s' := ∃ m, s = .ok m ∧ s' = c.exec m

/-- No region was written past the end of an array, and both counts are at most 128. -/
def InBounds (s : Except Fault Memblock) : Prop :=
  s ≠ .error .overflow ∧ ∀ m, s = .ok m → m.memory.cnt ≤ maxRegions ∧ m.reserved.cnt ≤ maxRegions

/-- A block that is found can be reserved. -/
def AllocFits (m : Memblock) (size align : ℕ) : Prop :=
  ∀ p, memblockFindInRange m size align 0 memblockAllocAccessible = .ok p → p ≠ 0 →
    AddFits m.reserved p size

/-- The table that the call changes has room for the regions it inserts. -/
def CallFits (m : Memblock) : MemCall → Prop
  | .reserve base size => AddFits m.reserved base.toNat size.toNat
  | .add base size => AddFits m.memory base.toNat size.toNat
  | .alloc size align => AllocFits m size.toNat align.toNat
  | .brk num => AllocFits m num.toNat pgsize
  | .free base size => RemoveFits m.reserved base.toNat size.toNat

theorem inBounds_ok {m : Memblock} :
    InBounds (.ok m) ↔ m.memory.cnt ≤ maxRegions ∧ m.reserved.cnt ≤ maxRegions := by
  simp [InBounds]

theorem not_inBounds_overflow : ¬InBounds (.error .overflow) := fun h => h.1 rfl

instance (s : Except Fault Memblock) : Decidable (InBounds s) :=
  match s with
  | .ok _ => decidable_of_iff _ inBounds_ok.symm
  | .error e => decidable_of_iff (e ≠ .overflow) (by simp [InBounds])

section Calls

variable {m : Memblock} (hmem : m.memory.cnt ≤ maxRegions) (hres : m.reserved.cnt ≤ maxRegions)

include hmem hres in
theorem inBounds_reserve (base size : ℕ) :
    InBounds (memblockReserve m base size) ↔ AddFits m.reserved base size := by
  unfold memblockReserve
  refine ⟨fun h => ?_, fun h => ?_⟩
  · by_contra hno
    rw [memblockAddRegions_overflow hres hno] at h
    exact not_inBounds_overflow h
  · obtain ⟨t, ht, hcnt⟩ := memblockAddRegions_ok hres h
    rw [ht]
    exact inBounds_ok.2 ⟨hmem, hcnt⟩

include hmem hres in
theorem inBounds_add (base size : ℕ) :
    InBounds (memblockAdd m base size) ↔ AddFits m.memory base size := by
  unfold memblockAdd
  refine ⟨fun h => ?_, fun h => ?_⟩
  · by_contra hno
    rw [memblockAddRegions_overflow hmem hno] at h
    exact not_inBounds_overflow h
  · obtain ⟨t, ht, hcnt⟩ := memblockAddRegions_ok hmem h
    rw [ht]
    exact inBounds_ok.2 ⟨hcnt, hres⟩

include hmem hres in
theorem inBounds_free {base : ℕ} (hb : base < 2 ^ 64) (size : ℕ) :
    InBounds (memblockFree m base size) ↔ RemoveFits m.reserved base size := by
  unfold memblockFree
  refine ⟨fun h => ?_, fun h => ?_⟩
  · by_contra hno
    rw [memblockRemoveRange_overflow hb hres hno] at h
    exact not_inBounds_overflow h
  · obtain ⟨t, ht, hcnt⟩ := memblockRemoveRange_ok hb hres h
    rw [ht]
    exact inBounds_ok.2 ⟨hmem, hcnt⟩

include hmem hres in
theorem inBounds_alloc (size align : ℕ) :
    InBounds (memblockAlloc m size align >>= fun r => .ok r.1) ↔ AllocFits m size align := by
  obtain ⟨p, hp, -⟩ := memblockFindInRange_spec hmem hres size align 0 memblockAllocAccessible
  simp only [AllocFits, hp, Except.ok.injEq, forall_eq']
  simp only [memblockAlloc, memblockAllocBase, memblockAllocRange, hp, ok_bind]
  by_cases hz : p = 0
  · rw [if_pos hz]
    simp only [hz, ne_eq, not_true_eq_false, false_implies, iff_true]
    exact ⟨by rintro ⟨⟩, by rintro m' ⟨⟩⟩
  · have hiff := inBounds_reserve hmem hres p size
    rw [if_neg hz, ← hiff]
    simp only [ne_eq, hz, not_false_eq_true, forall_const]
    cases hr : memblockReserve m p size with
    | error e => rfl
    | ok m' => simp [hz, pure, Except.pure]

include hmem hres in
/-- One call keeps within the arrays exactly if it fits. -/
theorem inBounds_exec_iff (c : MemCall) : InBounds (c.exec m) ↔ CallFits m c := by
  cases c with
  | reserve base size => exact inBounds_reserve hmem hres _ _
  | add base size => exact inBounds_add hmem hres _ _
  | alloc size align => exact inBounds_alloc hmem hres _ _
  | brk num => exact inBounds_alloc hmem hres _ _
  | free base size => exact inBounds_free hmem hres base.isLt _

end Calls

/-- Building the tables from a map does not leave them too long. -/
theorem initLoop_inBounds (l : List E820Entry) : ∀ {m m' : Memblock},
    InBounds (.ok m) → initLoop l m = .ok m' → InBounds (.ok m') := by
  induction l with
  | nil =>
    intro m m' h hok
    cases hok
    exact h
  | cons x xs ih =>
    intro m m' h hok
    simp only [initLoop] at hok
    split_ifs at hok with h1 h2
    · cases hok
      exact h
    · obtain ⟨hmem, hres⟩ := inBounds_ok.1 h
      obtain ⟨m₁, hcall, hok⟩ := bind_eq_ok hok
      have h₁ : InBounds (.ok m₁) := by
        rw [← hcall, inBounds_add hmem hres]
        by_contra hno
        rw [memblockAdd, memblockAddRegions_overflow hmem hno] at hcall
        cases hcall
      obtain ⟨hmem₁, hres₁⟩ := inBounds_ok.1 h₁
      refine ih ?_ hok
      exact inBounds_ok.2 ⟨hmem₁, hres₁⟩
    · exact ih h hok

/-- A machine with 16 MB of memory. -/
def smallMap : List E820Entry := [⟨0, 0x1000000, 1⟩]

/-- The tables built from `smallMap`. -/
def smallTables : Memblock :=
  { currentLimit := 0x1000000, memory := ⟨[⟨0, 0x1000000⟩], 0x1000000⟩, reserved := ⟨[⟨0, 0⟩], 0⟩ }

/-- A sequence of calls keeps within the arrays if and only if every call, when it is made, finds
room for the regions it inserts. -/
theorem memSystem_inBounds_iff {map : List E820Entry} {m : Memblock} {s : Except Fault Memblock}
    {tr : List (System.Step (Except Fault Memblock) MemCall)} (hinit : memblockInit map = .ok m)
    (hrun : memSystem.Run (.ok m) tr s) :
    (∀ x ∈ tr, InBounds x.post) ↔ ∀ x ∈ tr, ∀ m, x.pre = .ok m → CallFits m x.ev := by
  have h₀ : InBounds (.ok m) :=
    initLoop_inBounds _ (inBounds_ok.2 ⟨by decide, by decide⟩) hinit
  have hiff : ∀ x : System.Step (Except Fault Memblock) MemCall, memSystem.step x.pre x.ev x.post →
      InBounds x.pre → (InBounds x.post ↔ ∀ m, x.pre = .ok m → CallFits m x.ev) := by
    rintro ⟨pre, c, post⟩ ⟨m, hpre, hpost⟩ h
    dsimp only at hpre hpost h ⊢
    subst hpre hpost
    obtain ⟨hmem, hres⟩ := inBounds_ok.1 h
    simpa using inBounds_exec_iff hmem hres c
  exact hrun.forall_iff h₀ (fun x hstep hC hI => (hiff x hstep hI).2 hC) hiff

/-- The next call, unless the last one ended with a fault. -/
def memStep (s : Except Fault Memblock) (c : MemCall) : Option (Except Fault Memblock) :=
  match s with
  | .ok m => some (c.exec m)
  | .error _ => none

theorem memSystem_run {cs : List MemCall} {s : Except Fault Memblock}
    (h : System.possible memStep s cs = true) :
    memSystem.Run s (System.trace memStep s cs) (System.final memStep s cs) := by
  have hsystem : memSystem = System.ofStep memStep := by
    refine congrArg System.mk (funext fun s => funext fun c => funext fun s' => ?_)
    cases s with
    | ok m => simp [memStep, eq_comm]
    | error e => simp [memStep]
  rw [hsystem]
  exact System.Run.of_possible h

/-- Calls that take blocks of several sizes, split a reserved range and join ranges. -/
def smallCalls : List MemCall :=
  [.brk 1, .reserve 0x200000 0x4000, .free 0x201000 0x1000, .brk 0x1800, .alloc 0x3000 0x2000,
    .add 0x1000000 0x800000, .reserve 0x201000 0x1000]

/-- Each of these calls finds room. -/
theorem memSystem_inBounds_iff_calls :
    (System.trace memStep (.ok smallTables) smallCalls).length = 7 ∧
      ∀ x ∈ System.trace memStep (.ok smallTables) smallCalls, ∀ m, x.pre = .ok m →
        CallFits m x.ev := by
  have hinit : memblockInit smallMap = .ok smallTables := by decide
  have hpossible : System.possible memStep (.ok smallTables) smallCalls = true := by
    decide +kernel
  exact ⟨rfl, (memSystem_inBounds_iff hinit (memSystem_run hpossible)).1 (by decide +kernel)⟩

theorem exists_run_ok {cs : List MemCall} {m m' : Memblock}
    (h : cs.foldlM MemCall.exec m = .ok m') : ∃ tr, memSystem.Run (.ok m) tr (.ok m') := by
  induction cs using List.reverseRecOn generalizing m' with
  | nil =>
    cases h
    exact ⟨[], System.Run.nil _⟩
  | append_singleton cs c ih =>
    rw [List.foldlM_append] at h
    obtain ⟨m₁, h₁, h⟩ := bind_eq_ok h
    obtain ⟨tr, hrun⟩ := ih h₁
    exact ⟨_, hrun.snoc ⟨m₁, rfl, by simpa using h.symm⟩⟩

theorem exists_run_error {cs : List MemCall} {m : Memblock} {e : Fault}
    (h : cs.foldlM MemCall.exec m = .error e) :
    ∃ tr s, memSystem.Run (.ok m) tr s ∧ ∃ x ∈ tr, x.post = .error e := by
  induction cs using List.reverseRecOn with
  | nil => cases h
  | append_singleton cs c ih =>
    rw [List.foldlM_append] at h
    cases hcs : cs.foldlM MemCall.exec m with
    | error e' =>
      rw [hcs] at h
      cases h
      exact ih hcs
    | ok m₁ =>
      rw [hcs] at h
      obtain ⟨tr, hrun⟩ := exists_run_ok hcs
      exact ⟨_, _, hrun.snoc ⟨m₁, rfl, rfl⟩, _, List.mem_append_right _ (List.mem_singleton_self _),
        by simpa using h⟩

/-- After 128 calls of `brk(1)` the table of reserved ranges is full, and the next one writes past
its end. -/
theorem brk_overflow :
    (List.replicate 129 (MemCall.brk 1)).foldlM MemCall.exec smallTables = .error .overflow := by
  decide +kernel

/-- Some sequence of calls overruns an array. -/
theorem not_memSystem_inBounds :
    ¬∀ (map : List E820Entry) (m : Memblock) (s : Except Fault Memblock)
      (tr : List (System.Step (Except Fault Memblock) MemCall)), memblockInit map = .ok m →
      memSystem.Run (.ok m) tr s → ∀ x ∈ tr, InBounds x.post := by
  intro hall
  obtain ⟨tr, s, hrun, x, hx, hpost⟩ := exists_run_error brk_overflow
  have hinit : memblockInit smallMap = .ok smallTables := by decide
  exact not_inBounds_overflow (hpost ▸ hall smallMap smallTables s tr hinit hrun x hx)

end MicroKernel
