import MicroKernel.Ipc.Notification

/-!
# References in bit fields

Addresses of objects are kept in bit fields of 44 to 48 bits.  Each reader takes the address from
the field in its own way.

* `Reference.readBack` : an address as its reader gets it, for each kind of reference;
* `readBack_eq_iff` : the address of an object of the kernel comes back exactly from the field of an
  endpoint capability, and from that of the root CNode, which is given half the address.
-/

namespace MicroKernel

/-- The references that are kept in bit fields. -/
inductive Reference where
  /-- The endpoint of a capability. -/
  | capEPPtr
  /-- The CNode of a capability, as `create_new_objects` has it made. -/
  | capCNodePtr
  /-- The root CNode of a thread, for which `ipc_test` passes half the address. -/
  | rootCNodePtr
  /-- The last thread of the queue of an endpoint. -/
  | epQueueTail
  /-- The endpoint that a thread waits at. -/
  | blockingObject
  /-- The first thread of the queue of a notification. -/
  | ntfnQueueHead
  /-- The thread that is bound to a notification. -/
  | ntfnBoundTCB
  /-- The next node of the derivation tree. -/
  | mdbNext
  deriving DecidableEq, Repr

/-- The address that is read after `p` was stored.  Endpoint, thread, notification or slot are at
`o`; `g` is what the local variable of `create_object` holds before. -/
def Reference.readBack (g : Cap) (o : Ptr) (s : KState) (p : Ptr) : Reference → Ptr
  | capEPPtr => epAddr (createObject g .endpoint p 0 false).endpointCap.capEPPtr
  | capCNodePtr => cnodeAddr (createObject g .capTable p 0 false)
  | rootCNodePtr => cnodeAddr (createObject g .capTable (p >>> 1) 0 false)
  | epQueueTail =>
    let queue := epptrGetQueue o s
    (epptrGetQueue o (epptrSetQueue .bitFields o { queue with tail := p } s)).tail
  | blockingObject =>
    ((s.modState o (blockedOnSend .bitFields false 0 false false p)).tcbs o).tcbState.blockingObject
  | ntfnQueueHead =>
    let tail := (s.notifications o).ntfnQueueTail
    ((ntfnPtrSetQueue .bitFields o ⟨p, tail⟩ s).notifications o).ntfnQueueHead
  | ntfnBoundTCB => ((bindNotification .bitFields p o s).notifications o).ntfnBoundTCB
  | mdbNext => ((cteInsert .bitFields g o p s).ctes o).cteMdbNode.mdbNext

/-! ### Fields that are read as they are -/

section Width

variable {p : Ptr}

theorem setWidth_ne_of_kernBase_le (h : kernBase ≤ p) {n : ℕ} (hn : n < 64) :
    (p.setWidth n).setWidth 64 ≠ p := by
  intro heq
  have hn' : ¬63 < n := by omega
  have h63 := getLsbD_of_kernBase_le h (i := 63) (by decide) (by decide)
  rw [← heq, BitVec.getLsbD_setWidth, BitVec.getLsbD_setWidth] at h63
  simp [hn'] at h63

theorem mdbNext_cteInsert (P : Packing) (newCap : Cap) (srcSlot destSlot : Ptr) (s : KState) :
    ((cteInsert P newCap srcSlot destSlot s).ctes srcSlot).cteMdbNode.mdbNext =
      P.mdbNext destSlot := by
  simp only [cteInsert]
  split_ifs with hnext
  · by_cases heq : srcSlot = (s.ctes srcSlot).cteMdbNode.mdbNext
    · simp only [KState.modCte]
      rw [← heq]
      simp
    · simp [KState.modCte, Function.update_of_ne heq]
  · simp [KState.modCte]

end Width

/-! ### Fields that are extended -/

section Extended

variable {p : Ptr}

theorem epAddr_setWidth (h : kernBase ≤ p) : epAddr ((p.setWidth 48).setWidth 64) = p := by
  have hmask : ∀ i < 64, (0xFFFF000000000000 : U64).getLsbD i = decide (48 ≤ i) := by decide
  refine BitVec.eq_of_getLsbD_eq fun i hi => ?_
  rw [epAddr, BitVec.getLsbD_or, hmask i hi]
  by_cases h48 : i < 48
  · simp [h48, hi]
  · have hp := getLsbD_of_kernBase_le h (i := i) (by omega) hi
    simp [hp, Nat.not_lt.1 h48]

/-- The bits of the address of a CNode: those of the field, shifted up by one, below the upper 17
bits. -/
theorem getLsbD_cnodeAddr (g : Cap) (r userSize : U64) (device : Bool) {i : ℕ} (hi : i < 64) :
    (cnodeAddr (createObject g .capTable r userSize device)).getLsbD i =
      (decide (47 ≤ i) || decide (1 ≤ i) && r.getLsbD (i - 1)) := by
  have hmask : ∀ i < 64, (0xFFFF800000000000 : U64).getLsbD i = decide (47 ≤ i) := by decide
  have hfield := capCNodePtr_toCap g.w2
    ⟨userSize, bits g.w1 0 5, 0, 0, r⟩
  rw [cnodeAddr, CNodeCap.ptrShl, createObject, BitVec.getLsbD_or, hmask i hi, hfield, bits]
  by_cases h47 : i < 47
  · have hsub : i - 1 < 47 := by omega
    have hsub' : i - 1 < 64 := by omega
    by_cases hi0 : i < 1
    · simp [hi0, Nat.not_le.2 h47]
    · simp [h47, hi, hi0, hsub, hsub', Nat.not_lt.1 hi0, Nat.not_le.2 h47]
  · simp [Nat.not_lt.1 h47]

/-- The address of a CNode of the kernel is not recovered from the field. -/
theorem cnodeAddr_ne (h : kernBase ≤ p) (g : Cap) (userSize : U64) (device : Bool) :
    cnodeAddr (createObject g .capTable p userSize device) ≠ p := by
  intro heq
  -- every bit is the one below it, and the lowest one is 0
  have hzero : ∀ i < 47, p.getLsbD i = false := by
    intro i
    induction i with
    | zero =>
      intro _
      rw [← heq, getLsbD_cnodeAddr _ _ _ _ (by decide)]
      simp
    | succ i ih =>
      intro hi
      have h47 : ¬47 ≤ i + 1 := by omega
      rw [← heq, getLsbD_cnodeAddr _ _ _ _ (by omega)]
      simp [h47, ih (by omega)]
  have h31 := getLsbD_of_kernBase_le h (i := 31) le_rfl (by decide)
  rw [hzero 31 (by decide)] at h31
  exact absurd h31 (by decide)

/-- Half the address of an object at an even address is recovered from the field. -/
theorem cnodeAddr_half_iff (h : kernBase ≤ p) (g : Cap) (userSize : U64) (device : Bool) :
    cnodeAddr (createObject g .capTable (p >>> 1) userSize device) = p ↔ p.toNat % 2 = 0 := by
  have hbit0 : p.getLsbD 0 = decide (p.toNat % 2 = 1) := by
    rw [BitVec.getLsbD, Nat.testBit_zero]
  constructor
  · intro heq
    have h0 := congrArg (fun x => x.getLsbD 0) heq
    simp only [getLsbD_cnodeAddr g (p >>> 1) userSize device (i := 0) (by decide), hbit0] at h0
    simpa using h0
  · intro heven
    refine BitVec.eq_of_getLsbD_eq fun i hi => ?_
    rw [getLsbD_cnodeAddr _ _ _ _ hi]
    by_cases h47 : 47 ≤ i
    · simp [h47, getLsbD_of_kernBase_le h (i := i) (by omega) hi]
    · by_cases hi0 : i = 0
      · subst hi0
        rw [hbit0]
        simp [heven]
      · have hone : 1 ≤ i := by omega
        have hidx : 1 + (i - 1) = i := by omega
        simp [h47, hone, BitVec.getLsbD_ushiftRight, hidx]

end Extended

/-- The address of an object of the kernel comes back from the field of an endpoint capability, and
from that of the root CNode if it is even; it comes back from no other field. -/
theorem readBack_eq_iff (g : Cap) (o : Ptr) (s : KState) {p : Ptr} (h : kernBase ≤ p)
    (r : Reference) :
    r.readBack g o s p = p ↔ r = .capEPPtr ∨ r = .rootCNodePtr ∧ p.toNat % 2 = 0 := by
  have hne : ∀ {n : ℕ}, n < 64 → (p.setWidth n).setWidth 64 ≠ p := setWidth_ne_of_kernBase_le h
  cases r with
  | capEPPtr =>
    simp only [Reference.readBack, createObject, capEPPtr_toCap, epAddr_setWidth h, true_or]
  | capCNodePtr => simpa [Reference.readBack] using cnodeAddr_ne h g 0 false
  | rootCNodePtr => simpa [Reference.readBack] using cnodeAddr_half_iff h g 0 false
  | epQueueTail =>
    simpa [Reference.readBack, epptrGetQueue, epptrSetQueue, KState.modEndpoint,
      Packing.bitFields] using hne (n := 48) (by decide)
  | blockingObject =>
    simpa [Reference.readBack, KState.modState, blockedOnSend, Packing.bitFields] using
      hne (n := 44) (by decide)
  | ntfnQueueHead =>
    simpa [Reference.readBack, ntfnPtrSetQueue, KState.modNotification, Packing.bitFields] using
      hne (n := 48) (by decide)
  | ntfnBoundTCB =>
    simpa [Reference.readBack, bindNotification, KState.modNotification, KState.modTcb,
      Packing.bitFields] using hne (n := 48) (by decide)
  | mdbNext =>
    rw [Reference.readBack, mdbNext_cteInsert]
    simpa [Packing.bitFields] using hne (n := 46) (by decide)

/-- The endpoint of `ipc_test` comes back from its capability. -/
theorem readBack_eq_iff_endpoint :
    Reference.capEPPtr.readBack ⟨0, 0, 0⟩ 0 KState.zero 0xFFFFFFFF9FEC0000 = 0xFFFFFFFF9FEC0000 ↔
      Reference.capEPPtr = .capEPPtr ∨ Reference.capEPPtr = .rootCNodePtr ∧
        (0xFFFFFFFF9FEC0000 : Ptr).toNat % 2 = 0 :=
  readBack_eq_iff _ _ _ (by decide) _

/-- The endpoint that a thread waits at does not come back from the state of the thread. -/
theorem not_readBack_eq :
    ¬∀ (g : Cap) (o : Ptr) (s : KState) (p : Ptr) (r : Reference), kernBase ≤ p →
      p.toNat % 8 = 0 → r.readBack g o s p = p := by
  intro hall
  have hne := setWidth_ne_of_kernBase_le (p := 0xFFFFFFFF9FEC0000) (n := 44) (by decide) (by decide)
  have heq := hall ⟨0, 0, 0⟩ 0 KState.zero 0xFFFFFFFF9FEC0000 .blockingObject (by decide)
    (by decide)
  simp only [Reference.readBack, KState.modState, KState.tcbs_modTcb_self, blockedOnSend,
    Packing.bitFields] at heq
  exact hne heq

end MicroKernel
