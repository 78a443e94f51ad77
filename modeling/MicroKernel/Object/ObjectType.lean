import MicroKernel.CSpace.Lookup

/-!
# Capabilities as they are written

A capability is written through the view of its kind, field by field, into a variable of 16 bytes
and then read as a `struct _Cap`, which has a third word.  The bits without a name and the third
word keep what was there before.

* `EndpointCap.toCap`, `NotificationCap.toCap`, `CNodeCap.toCap`, `UntypedCap.toCap`,
  `ThreadCap.toCap` : the words that are written through the five views;
* `SpecificCap` : a capability written through any of them;
* `createObject` : the capability for a new object;
* `getLsbD_of_kernBase_le` : the bits that all addresses of the kernel have in common.
-/

namespace MicroKernel

/-! ### Views -/

/-- `cap_untyped_cap`. -/
def capUntypedCap : U64 := 2

/-- `cap_notification_cap`. -/
def capNotificationCap : U64 := 6

/-- `cap_thread_cap`. -/
def capThreadCap : U64 := 12

/-- `struct _NotificationCap`. -/
structure NotificationCap where
  /-- The badge. -/
  capNtfnBadge : U64
  /-- The kind of capability. -/
  capType : U64
  /-- The right to receive. -/
  capNtfnCanReceive : Bool
  /-- The right to send. -/
  capNtfnCanSend : Bool
  /-- The low bits of the address of the notification. -/
  capNtfnPtr : U64
  deriving DecidableEq

/-- `struct _UntypedCap`. -/
structure UntypedCap where
  /-- How much of the memory is used. -/
  capFreeIndex : U64
  /-- Whether it is the memory of a device. -/
  capIsDevice : Bool
  /-- The size, as a power of two. -/
  capBlockSize : U64
  /-- The kind of capability. -/
  capType : U64
  /-- The low bits of the address of the memory. -/
  capPtr : U64
  deriving DecidableEq

/-- `struct _ThreadCap`. -/
structure ThreadCap where
  /-- The first word. -/
  padding : U64
  /-- The kind of capability. -/
  capType : U64
  /-- The low bits of the address of the thread. -/
  capTCBPtr : U64
  deriving DecidableEq

/-- The capability as a `NotificationCap`. -/
def Cap.notificationCap (c : Cap) : NotificationCap where
  capNtfnBadge := c.w0
  capType := bits c.w1 0 5
  capNtfnCanReceive := c.w1.getLsbD 5
  capNtfnCanSend := c.w1.getLsbD 6
  capNtfnPtr := bits c.w1 16 48

/-! ### Writing through a view -/

/-- The words of an `EndpointCap`; `pad` are its bits without a name, `w2` is the word behind it. -/
def EndpointCap.toCap (c : EndpointCap) (pad : BitVec 7) (w2 : U64) : Cap where
  w0 := c.capEPBadge
  w1 := c.capEPPtr.setWidth 48 ++ pad ++ BitVec.ofBool c.capCanSend ++
    BitVec.ofBool c.capCanReceive ++ BitVec.ofBool c.capCanGrant ++
    BitVec.ofBool c.capCanGrantReply ++ c.capType.setWidth 5
  w2 := w2

/-- The words of a `NotificationCap`. -/
def NotificationCap.toCap (c : NotificationCap) (pad : BitVec 9) (w2 : U64) : Cap where
  w0 := c.capNtfnBadge
  w1 := c.capNtfnPtr.setWidth 48 ++ pad ++ BitVec.ofBool c.capNtfnCanSend ++
    BitVec.ofBool c.capNtfnCanReceive ++ c.capType.setWidth 5
  w2 := w2

/-- The words of a `CNodeCap`, which has no bits without a name. -/
def CNodeCap.toCap (c : CNodeCap) (w2 : U64) : Cap where
  w0 := c.capCNodeGuard
  w1 := c.capCNodePtr.setWidth 47 ++ c.capCNodeRadix.setWidth 6 ++ c.capCNodeGuardSize.setWidth 6 ++
    c.capType.setWidth 5
  w2 := w2

/-- The words of an `UntypedCap`, which has bits without a name in both words. -/
def UntypedCap.toCap (c : UntypedCap) (pad₀ : BitVec 9) (pad₁ : BitVec 11) (w2 : U64) : Cap where
  w0 := c.capBlockSize.setWidth 6 ++ BitVec.ofBool c.capIsDevice ++ pad₀ ++
    c.capFreeIndex.setWidth 48
  w1 := c.capPtr.setWidth 48 ++ pad₁ ++ c.capType.setWidth 5
  w2 := w2

/-- The words of a `ThreadCap`. -/
def ThreadCap.toCap (c : ThreadCap) (pad : BitVec 11) (w2 : U64) : Cap where
  w0 := c.padding
  w1 := c.capTCBPtr.setWidth 48 ++ pad ++ c.capType.setWidth 5
  w2 := w2

/-- A capability that is written through the view of its kind, with the bits without a name. -/
inductive SpecificCap where
  /-- Written as an `EndpointCap`. -/
  | endpoint (c : EndpointCap) (pad : BitVec 7)
  /-- Written as a `NotificationCap`. -/
  | notification (c : NotificationCap) (pad : BitVec 9)
  /-- Written as a `CNodeCap`. -/
  | cnode (c : CNodeCap)
  /-- Written as an `UntypedCap`. -/
  | untyped (c : UntypedCap) (pad₀ : BitVec 9) (pad₁ : BitVec 11)
  /-- Written as a `ThreadCap`. -/
  | thread (c : ThreadCap) (pad : BitVec 11)

namespace SpecificCap

/-- The tag that is written. -/
def tag : SpecificCap → U64
  | endpoint c _ => c.capType
  | notification c _ => c.capType
  | cnode c => c.capType
  | untyped c _ _ => c.capType
  | thread c _ => c.capType

/-- The words that are written, and the word behind them. -/
def toCap (w2 : U64) : SpecificCap → Cap
  | endpoint c pad => c.toCap pad w2
  | notification c pad => c.toCap pad w2
  | cnode c => c.toCap w2
  | untyped c pad₀ pad₁ => c.toCap pad₀ pad₁ w2
  | thread c pad => c.toCap pad w2

end SpecificCap

/-! ### Reading through the same view -/

section RoundTrip

variable (w2 : U64)

theorem capEPPtr_toCap (c : EndpointCap) (pad : BitVec 7) :
    (c.toCap pad w2).endpointCap.capEPPtr = (c.capEPPtr.setWidth 48).setWidth 64 := by
  simp only [Cap.endpointCap, EndpointCap.toCap, bits]
  simp (disch := omega) only [BitVec.extractLsb'_append_eq_of_le]
  congr 1
  exact BitVec.extractLsb'_eq_self

theorem capCNodePtr_toCap (c : CNodeCap) :
    (c.toCap w2).cnodeCap.capCNodePtr = (c.capCNodePtr.setWidth 47).setWidth 64 := by
  simp only [Cap.cnodeCap, CNodeCap.toCap, bits]
  simp (disch := omega) only [BitVec.extractLsb'_append_eq_of_le]
  congr 1
  exact BitVec.extractLsb'_eq_self

end RoundTrip

/-! ### Addresses of the kernel -/

/-- `KERNBASE`. -/
def kernBase : Ptr := 0xFFFFFFFF80000000

theorem getLsbD_of_kernBase_le {p : Ptr} (h : kernBase ≤ p) {i : ℕ} (hi : 31 ≤ i) (hi' : i < 64) :
    p.getLsbD i = true := by
  have hhigh : p.extractLsb' 31 33 = BitVec.allOnes 33 := by
    have hle : 0xFFFFFFFF80000000 ≤ p.toNat := h
    have hlt := p.isLt
    refine BitVec.eq_of_toNat_eq ?_
    simp only [BitVec.extractLsb'_toNat, Nat.shiftRight_eq_div_pow, BitVec.toNat_allOnes]
    omega
  have hbit := congrArg (fun x => x.getLsbD (i - 31)) hhigh
  rw [BitVec.getLsbD_extractLsb', BitVec.getLsbD_allOnes] at hbit
  have hidx : 31 + (i - 31) = i := by omega
  have hlt : i - 31 < 33 := by omega
  simpa [hidx, hlt] using hbit

/-- The address that `lookup_slot` takes from a capability for a CNode. -/
def cnodeAddr (root : Cap) : Ptr := root.cnodeCap.ptrShl ||| 0xFFFF800000000000

/-! ### New objects -/

/-- `OSObjectType`. -/
inductive ObjectType where
  /-- `osUntypedObject`. -/
  | untyped
  /-- `osTCBObject`. -/
  | tcb
  /-- `osEndpointObject`. -/
  | endpoint
  /-- `osNotificationObject`. -/
  | notification
  /-- `osCapTableObject`. -/
  | capTable
  deriving DecidableEq, Repr

/-- The capability that `create_object` returns; `g` is what its local variable holds before.  The
case of a thread has no `return` and goes on with that of an endpoint. -/
def createObject (g : Cap) (objectType : ObjectType) (regionBase userSize : U64)
    (deviceMemory : Bool) : Cap :=
  match objectType with
  | .tcb | .endpoint =>
    EndpointCap.toCap
      { capEPBadge := 0
        capType := capEndpointCap
        capCanGrantReply := true
        capCanGrant := true
        capCanReceive := true
        capCanSend := true
        capEPPtr := regionBase }
      (g.w1.extractLsb' 9 7) g.w2
  | .notification =>
    NotificationCap.toCap
      { capNtfnBadge := g.w0
        capType := capNotificationCap
        capNtfnCanReceive := true
        capNtfnCanSend := true
        capNtfnPtr := regionBase }
      (g.w1.extractLsb' 7 9) g.w2
  | .capTable =>
    -- `capType` is not written
    CNodeCap.toCap
      { capCNodeGuard := userSize
        capType := bits g.w1 0 5
        capCNodeGuardSize := 0
        capCNodeRadix := 0
        capCNodePtr := regionBase }
      g.w2
  | .untyped =>
    UntypedCap.toCap
      { capFreeIndex := 0
        capIsDevice := deviceMemory
        capBlockSize := userSize
        capType := capUntypedCap
        capPtr := regionBase }
      (g.w0.extractLsb' 48 9) (g.w1.extractLsb' 5 11) g.w2

end MicroKernel
