import MicroKernel.CSpace.Bounds
import MicroKernel.Object.Tags

/-!
# The outcome of a lookup

`lookup_slot_for_cnode_op` and `resolve_address_bits` share three fields of a result, one of which
is not set when the latter refuses the root.

* `Resolves` : the condition under which a slot is found;
* `lookupSlotForCnodeOpRet_outcome` : a slot is found exactly then, and otherwise there is an error
  and no slot, whatever the field that is not set holds;
* `lookups_agree_iff` : when the two lookups of the kernel find the same slot;
* `lookups_disagree` : for a CNode of the kernel they never do.
-/

namespace MicroKernel

/-! ### The record that is returned -/

/-- `LookupSlotRet`. -/
structure LookupSlotRet where
  /-- The status. -/
  status : U64
  /-- The slot. -/
  slot : Ptr
  deriving DecidableEq

/-- The result as its callers use it: they look at the slot only if the status is
`EXCEPTION_NONE`. -/
def LookupSlotRet.toExcept (r : LookupSlotRet) : Except U64 Ptr :=
  if r.status = exceptionNone then .ok r.slot else .error r.status

/-- `lookup_slot_for_cnode_op` with the record that it returns. -/
def lookupSlotForCnodeOpRet (u : Undef) (isSource : Bool) (root : Cap) (capptr depth : U64)
    (s : KState) : KState × LookupSlotRet :=
  if root.capType ≠ capCnodeCap then
    let s := failedLookup isSource s
    ({ s with currentLookupFault := { s.currentLookupFault with lufType := invalidRoot } },
      ⟨exceptionSyscallError, NULL⟩)
  else if depth < 1 ∨ wordBits < depth then
    ({ s with
        currentSyscallError :=
          { s.currentSyscallError with
            type := osRangeError
            rangeErrorMin := 1
            rangeErrorMax := wordBits.toNat } },
      ⟨exceptionSyscallError, NULL⟩)
  else
    let resRet := resolveAddressBits u root capptr depth
    if resRet.status ≠ exceptionNone then
      (failedLookup isSource s, ⟨exceptionSyscallError, NULL⟩)
    else if resRet.bitsRemaining ≠ 0 then
      let s := failedLookup isSource s
      ({ s with
          currentLookupFault :=
            { s.currentLookupFault with
              type := depthMismatch
              bitsRemaining := resRet.bitsRemaining } },
        ⟨exceptionSyscallError, NULL⟩)
    else (s, ⟨exceptionNone, resRet.slot⟩)

section Outcome

variable {u : Undef} {isSource : Bool} {root : Cap} {capptr depth : U64} {s : KState}

theorem toExcept_lookupSlotForCnodeOpRet :
    lookupSlotForCnodeOp u isSource root capptr depth s =
      ((lookupSlotForCnodeOpRet u isSource root capptr depth s).1,
        (lookupSlotForCnodeOpRet u isSource root capptr depth s).2.toExcept) := by
  have hne : exceptionSyscallError ≠ exceptionNone := by decide
  simp only [lookupSlotForCnodeOp, lookupSlotForCnodeOpRet]
  split_ifs <;> simp [LookupSlotRet.toExcept, hne]

/-! ### Success and failure -/

/-- `1 ≤ depth ≤ wordBits`. -/
def DepthInRange (depth : U64) : Prop := 1 ≤ depth.toNat ∧ depth.toNat ≤ 64

/-- The generic tag of the root is that of a CNode, the depth is in range and the level fits it. -/
def Resolves (root : Cap) (depth : U64) : Prop :=
  root.capType = capCnodeCap ∧ DepthInRange depth ∧
    root.cnodeCap.capCNodeRadix.toNat + root.cnodeCap.capCNodeGuardSize.toNat ≤ depth.toNat

/-- The slot that `resolve_address_bits` computes. -/
def addressedSlot (root : Cap) (capptr : U64) : Ptr := root.cnodeCap.ptrShl + capptr * sizeofCte

theorem depthInRange_iff : DepthInRange depth ↔ ¬(depth < 1 ∨ wordBits < depth) := by
  have hone : (1 : U64).toNat = 1 := rfl
  have hword : wordBits.toNat = 64 := rfl
  rw [DepthInRange, BitVec.lt_def, BitVec.lt_def, hone, hword]
  omega

theorem levelBits_lt_iff (c : Cap) (nBits : U64) :
    nBits < c.cnodeCap.capCNodeRadix + c.cnodeCap.capCNodeGuardSize ↔
      nBits.toNat < c.cnodeCap.capCNodeRadix.toNat + c.cnodeCap.capCNodeGuardSize.toNat := by
  have hbits : ∀ (w : U64) (start : ℕ), (bits w start 6).toNat < 2 ^ 6 := fun w start => by
    have hlt := (w.extractLsb' start 6).isLt
    rw [bits, BitVec.toNat_setWidth]
    exact Nat.mod_lt_of_lt hlt
  have hradix : c.cnodeCap.capCNodeRadix.toNat < 2 ^ 6 := hbits c.w1 11
  have hguard : c.cnodeCap.capCNodeGuardSize.toNat < 2 ^ 6 := hbits c.w1 5
  rw [BitVec.lt_def, BitVec.toNat_add, Nat.mod_eq_of_lt (by omega)]

theorem resolveAddressBits_cnode (hroot : root.capType = capCnodeCap) :
    resolveAddressBits u root capptr depth =
      if depth.toNat <
          root.cnodeCap.capCNodeRadix.toNat + root.cnodeCap.capCNodeGuardSize.toNat then
        ⟨u.resolveStatus, NULL, depth⟩
      else ⟨exceptionNone, addressedSlot root capptr, 0⟩ := by
  rw [resolveAddressBits, if_neg (not_not.2 hroot)]
  simp only [levelBits_lt_iff]
  rfl

theorem lookupSlotForCnodeOpRet_of_resolves (h : Resolves root depth) :
    lookupSlotForCnodeOpRet u isSource root capptr depth s =
      (s, ⟨exceptionNone, addressedSlot root capptr⟩) := by
  obtain ⟨hroot, hdepth, hlevel⟩ := h
  simp only [lookupSlotForCnodeOpRet, hroot, ne_eq, not_true_eq_false, if_false,
    depthInRange_iff.1 hdepth, resolveAddressBits_cnode hroot, Nat.not_lt.2 hlevel]

/-- The error that is reported. -/
def lookupError (isSource : Bool) (root : Cap) (depth : U64) (e : SyscallError) : SyscallError :=
  if root.capType = capCnodeCap ∧ (depth < 1 ∨ wordBits < depth) then
    { e with type := osRangeError, rangeErrorMin := 1, rangeErrorMax := wordBits.toNat }
  else { e with type := osFailedLookup, failedLookupWasSource := isSource }

theorem lookupSlotForCnodeOpRet_of_not_resolves (u : Undef) (isSource : Bool) (capptr : U64)
    (s : KState) (h : ¬Resolves root depth) :
    (lookupSlotForCnodeOpRet u isSource root capptr depth s).2 = ⟨exceptionSyscallError, NULL⟩ ∧
      (lookupSlotForCnodeOpRet u isSource root capptr depth s).1.currentSyscallError =
        lookupError isSource root depth s.currentSyscallError := by
  rw [lookupSlotForCnodeOpRet, lookupError]
  by_cases hroot : root.capType = capCnodeCap
  · rw [if_neg (not_not.2 hroot)]
    by_cases hdepth : depth < 1 ∨ wordBits < depth
    · rw [if_pos hdepth, if_pos ⟨hroot, hdepth⟩]
      exact ⟨rfl, rfl⟩
    · have hlevel : depth.toNat <
          root.cnodeCap.capCNodeRadix.toNat + root.cnodeCap.capCNodeGuardSize.toNat :=
        Nat.not_le.1 fun hle => h ⟨hroot, depthInRange_iff.2 hdepth, hle⟩
      have hne : depth ≠ 0 := by
        rintro rfl
        exact hdepth (Or.inl (by decide))
      have hcase : ¬(root.capType = capCnodeCap ∧ (depth < 1 ∨ wordBits < depth)) :=
        fun h' => hdepth h'.2
      rw [if_neg hdepth, if_neg hcase, resolveAddressBits_cnode hroot, if_pos hlevel]
      -- the status is not set: both cases report a failed lookup
      dsimp only
      split_ifs
      · exact ⟨rfl, rfl⟩
      · exact ⟨rfl, rfl⟩
  · rw [if_pos hroot, if_neg fun h' => hroot h'.1]
    exact ⟨rfl, rfl⟩

/-- The status is `EXCEPTION_NONE`, with the addressed slot, if and only if the generic tag of the
root is that of a CNode, the depth is between 1 and 64 and not below radix and guard size together.
Otherwise it is `EXCEPTION_SYSCALL_ERROR`, without a slot; the error is that the depth is out of
range if the root is a CNode and it is, and that the lookup failed in all other cases. -/
theorem lookupSlotForCnodeOpRet_outcome (u : Undef) (isSource : Bool) (root : Cap)
    (capptr depth : U64) (s : KState) :
    let s' := (lookupSlotForCnodeOpRet u isSource root capptr depth s).1
    let ret := (lookupSlotForCnodeOpRet u isSource root capptr depth s).2
    (ret = ⟨exceptionNone, addressedSlot root capptr⟩ ↔ Resolves root depth) ∧
      (ret.status = exceptionNone ↔ Resolves root depth) ∧
      (¬Resolves root depth → ret = ⟨exceptionSyscallError, NULL⟩) ∧
      (root.capType = capCnodeCap → ¬DepthInRange depth →
        s'.currentSyscallError.type = osRangeError) ∧
      (¬Resolves root depth → (root.capType ≠ capCnodeCap ∨ DepthInRange depth) →
        s'.currentSyscallError.type = osFailedLookup ∧
          s'.currentSyscallError.failedLookupWasSource = isSource) := by
  have hne : exceptionSyscallError ≠ exceptionNone := by decide
  intro s' ret
  by_cases h : Resolves root depth
  · have hcall : ret = ⟨exceptionNone, addressedSlot root capptr⟩ :=
      congrArg Prod.snd (lookupSlotForCnodeOpRet_of_resolves h)
    exact ⟨iff_of_true hcall h, iff_of_true (by rw [hcall]) h, fun h' => absurd h h',
      fun _ h' => absurd h.2.1 h', fun h' => absurd h h'⟩
  · obtain ⟨hret, herror⟩ := lookupSlotForCnodeOpRet_of_not_resolves u isSource capptr s h
    have hstatus : ret.status ≠ exceptionNone := by
      rw [show ret = _ from hret]
      exact hne
    refine ⟨iff_of_false (fun heq => hstatus (by rw [heq])) h, iff_of_false hstatus h,
      fun _ => hret, fun hroot hdepth => ?_, fun _ hcase => ?_⟩
    · rw [show s'.currentSyscallError = _ from herror, lookupError,
        if_pos ⟨hroot, not_not.1 fun h' => hdepth (depthInRange_iff.2 h')⟩]
    · rw [show s'.currentSyscallError = _ from herror, lookupError, if_neg ?_]
      · exact ⟨rfl, rfl⟩
      · rintro ⟨hroot, hdepth⟩
        exact hcase.elim (fun h' => h' hroot) fun h' => depthInRange_iff.1 h' hdepth

/-- A depth that is out of range is not reported for a root that is no CNode. -/
theorem not_lookupSlotForCnodeOpRet_outcome :
    ¬∀ (u : Undef) (isSource : Bool) (root : Cap) (capptr depth : U64) (s : KState),
      let s' := (lookupSlotForCnodeOpRet u isSource root capptr depth s).1
      let ret := (lookupSlotForCnodeOpRet u isSource root capptr depth s).2
      (ret = ⟨exceptionNone, addressedSlot root capptr⟩ ↔ Resolves root depth) ∧
        (¬Resolves root depth → ret = ⟨exceptionSyscallError, NULL⟩ ∧
          (¬DepthInRange depth → s'.currentSyscallError.type = osRangeError) ∧
          (DepthInRange depth → s'.currentSyscallError.type = osFailedLookup ∧
            s'.currentSyscallError.failedLookupWasSource = isSource)) := by
  intro hall
  have hclaim := (hall Undef.benign false ⟨0, 0, 0⟩ 0 0 KState.zero).2 fun h =>
    absurd h.1 (by decide)
  exact absurd (hclaim.2.1 fun h => absurd h.1 (by decide)) (by decide)

end Outcome

/-! ### Two lookups of one slot -/

section Agreement

variable {u : Undef} {thread p : Ptr} {root g : Cap} {capptr userSize : U64} {device : Bool}
  {s : KState}

/-- `lookup_target_slot` with all bits of the address finds the slot that `lookup_slot` returns
exactly if the root is taken for a CNode, radix and guard are no longer than an address, and the
index of a slot of 40 bytes leads where the offset in bytes does from the same address with its
upper bits put back. -/
theorem lookups_agree_iff :
    (lookupTargetSlot u (threadRoot thread s) capptr wordBits s).2 =
        .ok (lookupSlot thread capptr s) ↔
      Resolves (threadRoot thread s) wordBits ∧
        addressedSlot (threadRoot thread s) capptr = cnodeAddr (threadRoot thread s) + capptr := by
  have hne : exceptionSyscallError ≠ exceptionNone := by decide
  rw [lookupTargetSlot, toExcept_lookupSlotForCnodeOpRet, lookupSlot_eq]
  by_cases h : Resolves (threadRoot thread s) wordBits
  · rw [lookupSlotForCnodeOpRet_of_resolves h]
    simp [LookupSlotRet.toExcept, h]
  · rw [(lookupSlotForCnodeOpRet_of_not_resolves u false capptr s h).1]
    simp [LookupSlotRet.toExcept, h, hne]

/-- The capability for a CNode at an address of the kernel, given in full or halved, is not taken
for one of a CNode. -/
theorem capType_capTable_ne {r : U64} (hp : kernBase ≤ p) (hr : r = p ∨ r = p >>> 1) :
    (createObject g .capTable r userSize device).capType ≠ capCnodeCap := by
  have hbits : bits r 31 5 = 31 := by
    refine BitVec.eq_of_getLsbD_eq fun i hi => ?_
    have hones : ∀ i < 64, (31 : U64).getLsbD i = decide (i < 5) := by decide
    rw [hones i hi, bits, BitVec.getLsbD_setWidth, BitVec.getLsbD_extractLsb']
    by_cases h5 : i < 5
    · have hbit : r.getLsbD (31 + i) = true := by
        rcases hr with rfl | rfl
        · exact getLsbD_of_kernBase_le hp (by omega) (by omega)
        · rw [BitVec.getLsbD_ushiftRight]
          exact getLsbD_of_kernBase_le hp (by omega) (by omega)
      simp [h5, hi, hbit]
    · simp [h5]
  have htype :=
    (SpecificCap.capType_toCap (.cnode ⟨userSize, bits g.w1 0 5, 0, 0, r⟩) g.w2).trans hbits
  intro h
  exact absurd (htype.symm.trans h) (by decide)

/-- For a thread whose root is a CNode of the kernel, as `create_object` makes the capability from
the address or from half the address, the lookups find the same slot for no pointer. -/
theorem lookups_disagree (u : Undef) (thread : Ptr) (capptr : U64) (s : KState) {p : Ptr} {g : Cap}
    {r userSize : U64} {device : Bool} (hp : kernBase ≤ p) (hr : r = p ∨ r = p >>> 1)
    (hroot : threadRoot thread s = createObject g .capTable r userSize device) :
    ¬(lookupTargetSlot u (threadRoot thread s) capptr wordBits s).2 =
      .ok (lookupSlot thread capptr s) := by
  intro h
  have hresolves := (lookups_agree_iff.1 h).1
  rw [hroot] at hresolves
  exact capType_capTable_ne hp hr hresolves.1

/-- The first slot of the CNode of `rootedThread`. -/
theorem lookups_disagree_first :
    ¬(lookupTargetSlot Undef.benign (threadRoot 0xFFFFFFFF9FEC1400 rootedThread) 0 wordBits
      rootedThread).2 = .ok (lookupSlot 0xFFFFFFFF9FEC1400 0 rootedThread) := by
  exact lookups_disagree (p := 0xFFFFFFFF9FEC2000) Undef.benign 0xFFFFFFFF9FEC1400 0 rootedThread
    (by decide) (Or.inr rfl) threadRoot_rootedThread

/-- The slots of a page that a thread has as its root CNode are found by one lookup only. -/
theorem not_lookups_agree :
    ¬∀ (u : Undef) (thread : Ptr) (capptr : U64) (s : KState) (p : Ptr) (g : Cap) (userSize : U64)
      (device : Bool), kernBase ≤ p → capptr.toNat + sizeofCte.toNat ≤ 4096 →
        threadRoot thread s = createObject g .capTable (p >>> 1) userSize device →
          (lookupTargetSlot u (threadRoot thread s) capptr wordBits s).2 =
            .ok (lookupSlot thread capptr s) := by
  intro hall
  have hagree := hall Undef.benign 0xFFFFFFFF9FEC1400 0x28 rootedThread 0xFFFFFFFF9FEC2000 ⟨0, 0, 0⟩
    0 false (by decide) (by decide) threadRoot_rootedThread
  have hresolves := (lookups_agree_iff.1 hagree).1
  rw [threadRoot_rootedThread] at hresolves
  exact capType_capTable_ne (p := 0xFFFFFFFF9FEC2000) (by decide) (Or.inr rfl) hresolves.1

end Agreement

end MicroKernel
