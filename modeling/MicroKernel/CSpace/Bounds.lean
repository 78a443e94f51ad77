import MicroKernel.Object.References

/-!
# The reach of a capability pointer

`lookup_slot` adds the pointer of the user to the address of the root CNode.  It reads neither the
size of the CNode nor the length of the guard, and it leaves its status unset.

* `Confined` : a lookup fails or finds a slot of the CNode;
* `lookupSlot_confined_iff` : that is so exactly for the pointers that are offsets of slots of the
  CNode, unless the status happens to be a failure;
* `not_lookupSlot_confined` : the pointer behind the last byte finds a slot behind the CNode.
-/

namespace MicroKernel

/-- The capability in the slot `tcbCTable` of a thread. -/
def threadRoot (thread : Ptr) (s : KState) : Cap := (s.ctes (tcbPtrCtePtr thread tcbCTable)).cap

/-- A slot lies in the object of `size` bytes at `base`. -/
def SlotInside (base : Ptr) (size : ℕ) (slot : Ptr) : Prop :=
  base.toNat ≤ slot.toNat ∧ slot.toNat + sizeofCte.toNat ≤ base.toNat + size

/-- A lookup with the status `status` fails or finds a slot in the object of `size` bytes at
`base`. -/
def Confined (status : U64) (thread : Ptr) (capptr : U64) (s : KState) (base : Ptr) (size : ℕ) :
    Prop :=
  status ≠ exceptionNone ∨ SlotInside base size (lookupSlot thread capptr s)

theorem lookupSlot_eq (thread : Ptr) (capptr : U64) (s : KState) :
    lookupSlot thread capptr s = cnodeAddr (threadRoot thread s) + capptr := rfl

/-- From the address of an object, an offset leads to a slot in it exactly if the slot ends within
the size; no offset leads there around the end of the address space. -/
theorem slotInside_add_iff {base offset : U64} {size : ℕ} (hsize : base.toNat + size ≤ 2 ^ 64) :
    SlotInside base size (base + offset) ↔ offset.toNat + sizeofCte.toNat ≤ size := by
  have hcte : sizeofCte.toNat = 40 := by decide
  have hoffset := offset.isLt
  rw [SlotInside, BitVec.toNat_add, hcte]
  constructor
  · rintro ⟨hbase, hend⟩
    by_cases hwrap : base.toNat + offset.toNat < 2 ^ 64
    · rw [Nat.mod_eq_of_lt hwrap] at hend
      omega
    · -- around the end the slot lies below the object
      omega
  · intro h
    rw [Nat.mod_eq_of_lt (by omega)]
    omega

/-- For a thread whose root CNode has `size` bytes at `base`, a lookup is confined to the CNode
exactly if the pointer is the offset of a slot in it, or the status that is left unset happens to be
that of a failure. -/
theorem lookupSlot_confined_iff (u : Undef) (i : ℕ) {thread base : Ptr} {s : KState} {size : ℕ}
    (hroot : cnodeAddr (threadRoot thread s) = base) (hsize : base.toNat + size ≤ 2 ^ 64)
    (capptr : U64) :
    Confined (u.lookupSlotStatus i) thread capptr s base size ↔
      u.lookupSlotStatus i ≠ exceptionNone ∨ capptr.toNat + sizeofCte.toNat ≤ size := by
  rw [Confined, lookupSlot_eq, hroot, slotInside_add_iff hsize]

/-- The root CNode that `ipc_test` makes for a thread: a page, the address of which is passed
shifted. -/
def rootedThread : KState :=
  KState.zero.modCte (tcbPtrCtePtr 0xFFFFFFFF9FEC1400 tcbCTable) fun c =>
    { c with cap := createObject ⟨0, 0, 0⟩ .capTable ((0xFFFFFFFF9FEC2000 : Ptr) >>> 1) 0 false }

theorem threadRoot_rootedThread : threadRoot 0xFFFFFFFF9FEC1400 rootedThread =
    createObject ⟨0, 0, 0⟩ .capTable ((0xFFFFFFFF9FEC2000 : Ptr) >>> 1) 0 false := by
  simp only [threadRoot, rootedThread, KState.modCte, Function.update_self]

theorem cnodeAddr_rootedThread :
    cnodeAddr (threadRoot 0xFFFFFFFF9FEC1400 rootedThread) = 0xFFFFFFFF9FEC2000 := by
  rw [threadRoot_rootedThread]
  exact (cnodeAddr_half_iff (by decide) _ _ _).2 (by decide)

/-- The second slot of the page. -/
theorem lookupSlot_confined_iff_page :
    Confined (Undef.benign.lookupSlotStatus 0) 0xFFFFFFFF9FEC1400 0x28 rootedThread
        0xFFFFFFFF9FEC2000 4096 ↔
      Undef.benign.lookupSlotStatus 0 ≠ exceptionNone ∨
        (0x28 : U64).toNat + sizeofCte.toNat ≤ 4096 :=
  lookupSlot_confined_iff _ _ cnodeAddr_rootedThread (by decide) _

/-- Some pointer leads out of the CNode. -/
theorem not_lookupSlot_confined :
    ¬∀ (u : Undef) (i : ℕ) (thread base : Ptr) (s : KState) (size : ℕ) (capptr : U64),
      cnodeAddr (threadRoot thread s) = base → base.toNat + size ≤ 2 ^ 64 →
        Confined (u.lookupSlotStatus i) thread capptr s base size := by
  intro hall
  have hconfined := hall Undef.benign 0 0xFFFFFFFF9FEC1400 0xFFFFFFFF9FEC2000 rootedThread 4096
    0x1000 cnodeAddr_rootedThread (by decide)
  rcases hconfined with hstatus | hinside
  · exact hstatus rfl
  · rw [lookupSlot_eq, cnodeAddr_rootedThread, slotInside_add_iff (by decide)] at hinside
    exact absurd hinside (by decide)

end MicroKernel
