import MicroKernel.Object.Structures

/-!
# Capabilities and their lookup

A capability is three words; each kind of capability is a way to read the first two.  The kernel
finds slots in two ways: `lookup_slot` adds the user's pointer to the address of the root node,
`resolve_address_bits` (for the slot that receives a capability) checks type and depth first.

* `Cap.endpointCap`, `Cap.cnodeCap`, `Cap.capType` : the views of a capability;
* `lookupSlot`, `lookupCap`, `lookupSlotForCnodeOp`, `getReceiveSlots` : the lookups;
* `cteInsert` : insertion into the derivation tree;
* `getReceiveSlots_frame`, `eraseData_cteInsert` : they leave threads and queues alone.
-/

namespace MicroKernel

/-! ### Views of a capability -/

/-- The field of `len` bits that starts at the bit `start` of a word. -/
def bits (w : U64) (start len : ℕ) : U64 := (w.extractLsb' start len).setWidth 64

/-- `cap_null_cap`. -/
def capNullCap : U64 := 0

/-- `cap_endpoint_cap`. -/
def capEndpointCap : U64 := 4

/-- `cap_cnode_cap`. -/
def capCnodeCap : U64 := 10

/-- `struct _EndpointCap`. -/
structure EndpointCap where
  /-- The badge. -/
  capEPBadge : U64
  /-- The kind of capability. -/
  capType : U64
  /-- The right to grant a reply. -/
  capCanGrantReply : Bool
  /-- The right to grant. -/
  capCanGrant : Bool
  /-- The right to receive. -/
  capCanReceive : Bool
  /-- The right to send. -/
  capCanSend : Bool
  /-- The low bits of the address of the endpoint. -/
  capEPPtr : U64
  deriving DecidableEq

/-- `struct _CnodeCap`. -/
structure CNodeCap where
  /-- The guard. -/
  capCNodeGuard : U64
  /-- The kind of capability. -/
  capType : U64
  /-- The length of the guard. -/
  capCNodeGuardSize : U64
  /-- The number of slots, as a power of two. -/
  capCNodeRadix : U64
  /-- The address of the node, without its lowest bit. -/
  capCNodePtr : U64
  deriving DecidableEq

namespace Cap

variable (c : Cap)

/-- The capability as an `EndpointCap`. -/
def endpointCap : EndpointCap where
  capEPBadge := c.w0
  capType := bits c.w1 0 5
  capCanGrantReply := c.w1.getLsbD 5
  capCanGrant := c.w1.getLsbD 6
  capCanReceive := c.w1.getLsbD 7
  capCanSend := c.w1.getLsbD 8
  capEPPtr := bits c.w1 16 48

/-- The capability as a `CNodeCap`. -/
def cnodeCap : CNodeCap where
  capCNodeGuard := c.w0
  capType := bits c.w1 0 5
  capCNodeGuardSize := bits c.w1 5 6
  capCNodeRadix := bits c.w1 11 6
  capCNodePtr := bits c.w1 17 47

/-- The type as it is read through `struct _Cap` itself, where it lies behind a pointer of 48
bits. -/
def capType : U64 := bits c.w1 48 5

end Cap

/-- `capCNodePtr << 1`, which has the 47 bits of the field. -/
def CNodeCap.ptrShl (c : CNodeCap) : U64 := bits (c.capCNodePtr <<< 1) 0 47

/-! ### Lookup -/

/-- `sizeof(Cte)`. -/
def sizeofCte : U64 := 40

/-- `wordBits`. -/
def wordBits : U64 := 64

/-- `tcbCTable`. -/
def tcbCTable : U64 := 0

/-- `TCB_PTR_CTE_PTR`: the slot number `i` of the capability table in front of a thread. -/
def tcbPtrCtePtr (p : Ptr) (i : U64) : Ptr := (p &&& ~~~(0x800 - 1)) + i * sizeofCte

/-- `EXCEPTION_NONE`. -/
def exceptionNone : U64 := 0

/-- `EXCEPTION_SYSCALL_ERROR`. -/
def exceptionSyscallError : U64 := 3

/-- Nothing that the source leaves undefined goes wrong. -/
def Undef.benign : Undef where
  tcbEpAppend := id
  copyMRs := 0
  lookupSlotStatus _ := exceptionNone
  resolveStatus := exceptionNone
  dcRet _ := (exceptionNone, ⟨0, 0, 0⟩)
  sysResult := 0
  ntfnQueueEnd := NULL

/-- `OsRangeError`. -/
def osRangeError : ℕ := 4

/-- `OsFailedLookup`. -/
def osFailedLookup : ℕ := 6

/-- `invalidRoot`. -/
def invalidRoot : ℕ := 0

/-- `depthMismatch`. -/
def depthMismatch : ℕ := 2

/-- The slot that `lookup_slot` finds; it does not check the kind of the root capability. -/
def lookupSlot (thread : Ptr) (capptr : U64) (s : KState) : Ptr :=
  let threadRoot := (s.ctes (tcbPtrCtePtr thread tcbCTable)).cap
  (threadRoot.cnodeCap.ptrShl ||| 0xFFFF800000000000) + capptr

/-- `lookup_cap`; `status` is the status that `lookup_slot` leaves unset. -/
def lookupCap (status : U64) (thread : Ptr) (cPtr : U64) (s : KState) : Except U64 Cap :=
  if status ≠ exceptionNone then .error status else .ok (s.ctes (lookupSlot thread cPtr s)).cap

/-- `ResolveAddressBitsRet`. -/
structure ResolveAddressBitsRet where
  /-- The status. -/
  status : U64
  /-- The slot. -/
  slot : Ptr
  /-- The bits of the address that were not used. -/
  bitsRemaining : U64

/-- `resolve_address_bits`. -/
def resolveAddressBits (u : Undef) (nodeCap : Cap) (capPtr nBits : U64) : ResolveAddressBitsRet :=
  if nodeCap.capType ≠ capCnodeCap then ⟨u.resolveStatus, NULL, nBits⟩
  else
    let cnodeCap := nodeCap.cnodeCap
    let levelBits := cnodeCap.capCNodeRadix + cnodeCap.capCNodeGuardSize
    if nBits < levelBits then ⟨u.resolveStatus, NULL, nBits⟩
    else
      -- the address is an index into this node, whatever its radix
      ⟨exceptionNone, cnodeCap.ptrShl + capPtr * sizeofCte, 0⟩

/-- The error of a failed lookup. -/
def failedLookup (isSource : Bool) (s : KState) : KState :=
  { s with
    currentSyscallError :=
      { s.currentSyscallError with type := osFailedLookup, failedLookupWasSource := isSource } }

/-- `lookup_slot_for_cnode_op`. -/
def lookupSlotForCnodeOp (u : Undef) (isSource : Bool) (root : Cap) (capptr depth : U64)
    (s : KState) : KState × Except U64 Ptr :=
  if root.capType ≠ capCnodeCap then
    let s := failedLookup isSource s
    ({ s with currentLookupFault := { s.currentLookupFault with lufType := invalidRoot } },
      .error exceptionSyscallError)
  else if depth < 1 ∨ wordBits < depth then
    ({ s with
        currentSyscallError :=
          { s.currentSyscallError with
            type := osRangeError
            rangeErrorMin := 1
            rangeErrorMax := wordBits.toNat } },
      .error exceptionSyscallError)
  else
    let resRet := resolveAddressBits u root capptr depth
    if resRet.status ≠ exceptionNone then (failedLookup isSource s, .error exceptionSyscallError)
    else if resRet.bitsRemaining ≠ 0 then
      let s := failedLookup isSource s
      ({ s with
          currentLookupFault :=
            { s.currentLookupFault with
              type := depthMismatch
              bitsRemaining := resRet.bitsRemaining } },
        .error exceptionSyscallError)
    else (s, .ok resRet.slot)

/-- `lookup_target_slot`. -/
def lookupTargetSlot (u : Undef) (root : Cap) (capptr depth : U64) (s : KState) :
    KState × Except U64 Ptr :=
  lookupSlotForCnodeOp u false root capptr depth s

/-! ### The slot that receives a capability -/

/-- `Os_MsgMaxLength`. -/
def osMsgMaxLength : ℕ := 120

/-- `Os_MsgMaxExtraCaps`. -/
def osMsgMaxExtraCaps : ℕ := 3

/-- `CapTransfer`. -/
structure CapTransfer where
  /-- The root of the lookup. -/
  ctReceiveRoot : U64
  /-- The address of the slot. -/
  ctReceiveIndex : U64
  /-- How many bits of the address to use. -/
  ctReceiveDepth : U64

/-- `load_cap_transfer`. -/
def loadCapTransfer (buffer : Ptr) (s : KState) : CapTransfer :=
  let offset := osMsgMaxLength + osMsgMaxExtraCaps + 2
  ⟨s.ipcBuffers buffer offset, s.ipcBuffers buffer (offset + 1), s.ipcBuffers buffer (offset + 2)⟩

/-- `get_receive_slots`: an empty slot, or `NULL`. -/
def getReceiveSlots (u : Undef) (thread buffer : Ptr) (s : KState) : KState × Ptr :=
  if buffer = NULL then (s, NULL)
  else
    let ct := loadCapTransfer buffer s
    match lookupCap (u.lookupSlotStatus osMsgMaxExtraCaps) thread ct.ctReceiveRoot s with
    | .error _ => (s, NULL)
    | .ok cnode =>
      match lookupTargetSlot u cnode ct.ctReceiveIndex ct.ctReceiveDepth s with
      | (s, .error _) => (s, NULL)
      | (s, .ok slot) => if (s.ctes slot).cap.capType ≠ capNullCap then (s, NULL) else (s, slot)

/-- `cte_insert`. -/
def cteInsert (P : Packing) (newCap : Cap) (srcSlot destSlot : Ptr) (s : KState) : KState :=
  let srcMDB := (s.ctes srcSlot).cteMdbNode
  let newMDB :=
    { srcMDB with
      mdbPrev := srcSlot
      mdbRevocable := false
      mdbFirstBadged := false }
  let s := s.modCte destSlot fun _ => ⟨newCap, newMDB⟩
  let s := s.modCte srcSlot fun c =>
    { c with cteMdbNode := { c.cteMdbNode with mdbNext := P.mdbNext destSlot } }
  if newMDB.mdbNext ≠ 0 then
    s.modCte newMDB.mdbNext fun c =>
      { c with cteMdbNode := { c.cteMdbNode with mdbPrev := destSlot } }
  else s

/-! ### What they leave alone -/

section Frame

variable (u : Undef) (s : KState)

theorem lookupSlotForCnodeOp_frame (isSource : Bool) (root : Cap) (capptr depth : U64) :
    (lookupSlotForCnodeOp u isSource root capptr depth s).1.eraseData = s.eraseData ∧
      (lookupSlotForCnodeOp u isSource root capptr depth s).1.ipcBuffers = s.ipcBuffers ∧
      (lookupSlotForCnodeOp u isSource root capptr depth s).1.ctes = s.ctes ∧
      (lookupSlotForCnodeOp u isSource root capptr depth s).1.excaprefs = s.excaprefs := by
  simp only [lookupSlotForCnodeOp]
  split_ifs <;> exact ⟨rfl, rfl, rfl, rfl⟩

theorem lookupSlotForCnodeOp_snd (isSource : Bool) (root : Cap) (capptr depth : U64) (s' : KState) :
    (lookupSlotForCnodeOp u isSource root capptr depth s').2 =
      (lookupSlotForCnodeOp u isSource root capptr depth s).2 := by
  simp only [lookupSlotForCnodeOp]
  split_ifs <;> rfl

theorem getReceiveSlots_frame (thread buffer : Ptr) :
    (getReceiveSlots u thread buffer s).1.eraseData = s.eraseData ∧
      (getReceiveSlots u thread buffer s).1.ipcBuffers = s.ipcBuffers ∧
      (getReceiveSlots u thread buffer s).1.ctes = s.ctes ∧
      (getReceiveSlots u thread buffer s).1.excaprefs = s.excaprefs := by
  simp only [getReceiveSlots]
  split_ifs
  · exact ⟨rfl, rfl, rfl, rfl⟩
  · split
    · exact ⟨rfl, rfl, rfl, rfl⟩
    · rename_i cnode _
      have h := lookupSlotForCnodeOp_frame u s false cnode
        (loadCapTransfer buffer s).ctReceiveIndex (loadCapTransfer buffer s).ctReceiveDepth
      rw [lookupTargetSlot]
      split <;> rename_i heq <;> rw [heq] at h
      · exact h
      · split_ifs <;> exact h

theorem getReceiveSlots_snd (thread buffer : Ptr) : (getReceiveSlots u thread buffer s).2 =
    if buffer = NULL then NULL
    else match lookupCap (u.lookupSlotStatus osMsgMaxExtraCaps) thread
        (loadCapTransfer buffer s).ctReceiveRoot s with
      | .error _ => NULL
      | .ok cnode =>
        match (lookupTargetSlot u cnode (loadCapTransfer buffer s).ctReceiveIndex
          (loadCapTransfer buffer s).ctReceiveDepth s).2 with
        | .error _ => NULL
        | .ok slot => if (s.ctes slot).cap.capType ≠ capNullCap then NULL else slot := by
  simp only [getReceiveSlots]
  split_ifs
  · rfl
  · cases hcap : lookupCap (u.lookupSlotStatus osMsgMaxExtraCaps) thread
        (loadCapTransfer buffer s).ctReceiveRoot s with
    | error e => rfl
    | ok cnode =>
      obtain ⟨-, -, hctes, -⟩ := lookupSlotForCnodeOp_frame u s false cnode
        (loadCapTransfer buffer s).ctReceiveIndex (loadCapTransfer buffer s).ctReceiveDepth
      dsimp only
      rw [lookupTargetSlot]
      generalize lookupSlotForCnodeOp u false cnode (loadCapTransfer buffer s).ctReceiveIndex
        (loadCapTransfer buffer s).ctReceiveDepth s = r at hctes
      obtain ⟨k, e | slot⟩ := r
      · rfl
      · dsimp only at hctes ⊢
        rw [hctes]
        split_ifs <;> rfl

theorem eraseData_cteInsert (P : Packing) (newCap : Cap) (srcSlot destSlot : Ptr) :
    (cteInsert P newCap srcSlot destSlot s).eraseData = s.eraseData := by
  simp only [cteInsert]
  split_ifs <;> rfl

theorem excaprefs_cteInsert (P : Packing) (newCap : Cap) (srcSlot destSlot : Ptr) :
    (cteInsert P newCap srcSlot destSlot s).excaprefs = s.excaprefs := by
  rw [cteInsert]
  split_ifs <;> rfl

theorem ipcBuffers_cteInsert (P : Packing) (newCap : Cap) (srcSlot destSlot : Ptr) :
    (cteInsert P newCap srcSlot destSlot s).ipcBuffers = s.ipcBuffers := by
  rw [cteInsert]
  split_ifs <;> rfl

end Frame

end MicroKernel
