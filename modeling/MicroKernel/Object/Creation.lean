import MicroKernel.Object.References
import MicroKernel.Object.Untyped

/-!
# Capabilities for new objects

What `create_object` returns is read again through the view of the kind of object that was asked
for.  The case of a thread falls through to that of an endpoint, and that of a CNode does not write
the tag.  An address in a field of 48 bits is read in two ways: `send` and `receive_ipc` put its
upper bits back, `receive_signal` and `invoke_untyped_retype` take it as it is.

* `NamesObject` : a capability has the tag of its kind and leads to the object;
* `createObject_names_iff` : `create_object` makes such a capability for an object of the kernel
  exactly if it is not a thread, the tag of a CNode happens to be there already and the upper bits
  are put back.
-/

namespace MicroKernel

/-! ### Reading through a view -/

/-- The capability as a `ThreadCap`. -/
def Cap.threadCap (c : Cap) : ThreadCap where
  padding := c.w0
  capType := bits c.w1 0 5
  capTCBPtr := bits c.w1 16 48

/-- The tag of the capabilities for a kind of object. -/
def ObjectType.capTag : ObjectType → U64
  | .untyped => capUntypedCap
  | .tcb => capThreadCap
  | .endpoint => capEndpointCap
  | .notification => capNotificationCap
  | .capTable => capCnodeCap

/-- The address in a field of 48 bits, where `upper` says whether the upper bits are put back. -/
def fieldPtr (upper : Bool) (field : U64) : Ptr := if upper then epAddr field else field

/-- The tag that the view of a kind of object shows. -/
def Cap.viewTag (c : Cap) : ObjectType → U64
  | .untyped => c.untypedCap.capType
  | .tcb => c.threadCap.capType
  | .endpoint => c.endpointCap.capType
  | .notification => c.notificationCap.capType
  | .capTable => c.cnodeCap.capType

/-- The address that is taken from the view of a kind of object. -/
def Cap.viewPtr (c : Cap) (upper : ObjectType → Bool) : ObjectType → Ptr
  | .untyped => fieldPtr (upper .untyped) c.untypedCap.capPtr
  | .tcb => fieldPtr (upper .tcb) c.threadCap.capTCBPtr
  | .endpoint => fieldPtr (upper .endpoint) c.endpointCap.capEPPtr
  | .notification => fieldPtr (upper .notification) c.notificationCap.capNtfnPtr
  | .capTable => cnodeAddr c

/-- The readers of the source: only the ones of endpoints put the upper bits back. -/
def sourceUpper : ObjectType → Bool
  | .endpoint => true
  | _ => false

/-- The capability `c` has the tag for `objectType` and leads to the address `a`. -/
structure NamesObject (upper : ObjectType → Bool) (objectType : ObjectType) (c : Cap) (a : Ptr) :
    Prop where
  /-- The tag. -/
  tag : c.viewTag objectType = objectType.capTag
  /-- The address. -/
  ptr : c.viewPtr upper objectType = a

/-- `TCB_OFFSET`. -/
def tcbOffset : U64 := 0x400

/-- The address of the object in the memory at `regionBase`: the control block of a thread lies in
the upper half. -/
def objectAddr (objectType : ObjectType) (regionBase : Ptr) : Ptr :=
  match objectType with
  | .tcb => regionBase + tcbOffset
  | _ => regionBase

theorem objectAddr_of_ne {objectType : ObjectType} (h : objectType ≠ .tcb) (p : Ptr) :
    objectAddr objectType p = p := by
  cases objectType with
  | tcb => exact absurd rfl h
  | untyped | endpoint | notification | capTable => rfl

section Reading

variable {p : Ptr} {upper : ObjectType → Bool}

theorem SpecificCap.bits_tag (c : SpecificCap) (w2 : U64) :
    bits (c.toCap w2).w1 0 5 = (c.tag.setWidth 5).setWidth 64 := by
  cases c with
  | endpoint c pad =>
    simp only [toCap, tag, EndpointCap.toCap, bits, BitVec.extractLsb'_append_eq_right]
  | notification c pad =>
    simp only [toCap, tag, NotificationCap.toCap, bits, BitVec.extractLsb'_append_eq_right]
  | cnode c =>
    simp only [toCap, tag, CNodeCap.toCap, bits, BitVec.extractLsb'_append_eq_right]
  | untyped c pad₀ pad₁ =>
    simp only [toCap, tag, UntypedCap.toCap, bits, BitVec.extractLsb'_append_eq_right]
  | thread c pad =>
    simp only [toCap, tag, ThreadCap.toCap, bits, BitVec.extractLsb'_append_eq_right]

theorem capNtfnPtr_toCap (c : NotificationCap) (pad : BitVec 9) (w2 : U64) :
    (c.toCap pad w2).notificationCap.capNtfnPtr = (c.capNtfnPtr.setWidth 48).setWidth 64 := by
  simp only [Cap.notificationCap, NotificationCap.toCap, bits]
  simp (disch := omega) only [BitVec.extractLsb'_append_eq_of_le]
  congr 1
  exact BitVec.extractLsb'_eq_self

/-- With the upper bits put back exactly the addresses at the end of the address space come back, as
it is exactly those at its start. -/
theorem fieldPtr_eq_iff (up : Bool) : fieldPtr up ((p.setWidth 48).setWidth 64) = p ↔
    if up then 0xFFFF000000000000 ≤ p.toNat else p.toNat < 2 ^ 48 := by
  have hlow : ((p.setWidth 48).setWidth 64 : U64).toNat = p.toNat % 2 ^ 48 := by
    rw [BitVec.toNat_setWidth, BitVec.toNat_setWidth]
    exact Nat.mod_eq_of_lt (by omega)
  have hp := p.isLt
  cases up with
  | true =>
    have hor : (epAddr ((p.setWidth 48).setWidth 64)).toNat =
        0xFFFF000000000000 + p.toNat % 2 ^ 48 := by
      rw [epAddr, BitVec.toNat_or, hlow, Nat.or_comm]
      exact (Nat.two_pow_add_eq_or_of_lt (i := 48) (by omega) 0xFFFF).symm
    rw [fieldPtr, if_pos rfl, if_pos rfl, ← BitVec.toNat_inj, hor]
    omega
  | false =>
    rw [fieldPtr, if_neg Bool.false_ne_true, if_neg Bool.false_ne_true, ← BitVec.toNat_inj, hlow]
    omega

end Reading

/-! ### What `create_object` returns -/

section Creation

variable {upper : ObjectType → Bool} {g : Cap} {objectType : ObjectType} {r p a : Ptr}
  {userSize : U64} {device : Bool}

theorem not_namesObject_tcb :
    ¬NamesObject upper .tcb (createObject g .tcb r userSize device) a := by
  intro h
  have htag := (SpecificCap.bits_tag (.endpoint ⟨0, capEndpointCap, true, true, true, true, r⟩
    (g.w1.extractLsb' 9 7)) g.w2).symm.trans h.tag
  exact absurd htag (by simp only [SpecificCap.tag]; decide)

theorem namesObject_capTable_iff :
    NamesObject upper .capTable (createObject g .capTable r userSize device) a ↔
      bits g.w1 0 5 = capCnodeCap ∧ cnodeAddr (createObject g .capTable r userSize device) = a := by
  have htag : bits (createObject g .capTable r userSize device).w1 0 5 = bits g.w1 0 5 :=
    (SpecificCap.bits_tag (.cnode ⟨userSize, bits g.w1 0 5, 0, 0, r⟩) g.w2).trans
      (setWidth_bits _ _ _ (by decide))
  constructor
  · intro h
    exact ⟨htag.symm.trans h.tag, h.ptr⟩
  · intro h
    exact ⟨htag.trans h.1, h.2⟩

/-- Objects that are no threads and no CNodes have their tags, and their addresses are in fields of
48 bits. -/
theorem namesObject_iff (htcb : objectType ≠ .tcb) (hcap : objectType ≠ .capTable) :
    NamesObject upper objectType (createObject g objectType r userSize device) a ↔
      fieldPtr (upper objectType) ((r.setWidth 48).setWidth 64) = a := by
  have hread : (createObject g objectType r userSize device).viewTag objectType =
        objectType.capTag ∧
      (createObject g objectType r userSize device).viewPtr upper objectType =
        fieldPtr (upper objectType) ((r.setWidth 48).setWidth 64) := by
    cases objectType with
    | tcb => exact absurd rfl htcb
    | capTable => exact absurd rfl hcap
    | endpoint =>
      refine ⟨(SpecificCap.bits_tag (.endpoint _ _) _).trans ?_, ?_⟩
      · simp only [SpecificCap.tag]
        decide
      · rw [Cap.viewPtr, createObject, capEPPtr_toCap]
    | notification =>
      refine ⟨(SpecificCap.bits_tag (.notification _ _) _).trans ?_, ?_⟩
      · simp only [SpecificCap.tag]
        decide
      · rw [Cap.viewPtr, createObject, capNtfnPtr_toCap]
    | untyped =>
      refine ⟨(SpecificCap.bits_tag (.untyped _ _ _) _).trans ?_, ?_⟩
      · simp only [SpecificCap.tag]
        decide
      · rw [Cap.viewPtr, createObject, (untypedCap_toCap _ _ _ _).2.1]
  exact ⟨fun h => hread.2.symm.trans h.ptr, fun h => ⟨hread.1, hread.2.trans h⟩⟩

/-- The argument for an object at `p`: for a CNode half its address. -/
def createArg (objectType : ObjectType) (p : Ptr) : U64 :=
  match objectType with
  | .capTable => p >>> 1
  | _ => p

/-- For the memory at an address `p` of the kernel `create_object` makes a capability that names the
object there if and only if the object is not a thread, the variable happens to hold the tag already
if it is a CNode, and otherwise the reader puts the upper bits of the address back. -/
theorem createObject_names_iff (upper : ObjectType → Bool) (g : Cap) (objectType : ObjectType)
    {p : Ptr} (userSize : U64) (device : Bool) (hp : kernBase ≤ p)
    (halign : objectType = .capTable → p.toNat % 2 = 0) :
    NamesObject upper objectType
        (createObject g objectType (createArg objectType p) userSize device)
        (objectAddr objectType p) ↔
      objectType ≠ .tcb ∧ (objectType = .capTable → bits g.w1 0 5 = capCnodeCap) ∧
        (objectType ≠ .capTable → upper objectType = true) := by
  have hle : 0xFFFFFFFF80000000 ≤ p.toNat := hp
  by_cases htcb : objectType = .tcb
  · subst htcb
    exact iff_of_false not_namesObject_tcb fun h => h.1 rfl
  · by_cases hcap : objectType = .capTable
    · subst hcap
      have haddr : cnodeAddr (createObject g .capTable (p >>> 1) userSize device) = p :=
        (cnodeAddr_half_iff hp g userSize device).2 (halign rfl)
      rw [createArg, objectAddr_of_ne htcb, namesObject_capTable_iff]
      exact ⟨fun h => ⟨htcb, fun _ => h.1, fun h' => absurd rfl h'⟩, fun h => ⟨h.2.1 rfl, haddr⟩⟩
    · have harg : createArg objectType p = p := by
        cases objectType with
        | capTable => exact absurd rfl hcap
        | untyped | tcb | endpoint | notification => rfl
      have hfield : (if upper objectType then 0xFFFF000000000000 ≤ p.toNat else p.toNat < 2 ^ 48) ↔
          upper objectType = true := by
        split_ifs with hup
        · exact iff_of_true (by omega) hup
        · exact iff_of_false (by omega) hup
      rw [harg, objectAddr_of_ne htcb, namesObject_iff htcb hcap, fieldPtr_eq_iff, hfield]
      exact ⟨fun h => ⟨htcb, fun h' => absurd h' hcap, fun _ => h⟩, fun h => h.2.2 hcap⟩

/-- The capability for an endpoint. -/
theorem createObject_names_iff_endpoint :
    NamesObject sourceUpper .endpoint
        (createObject ⟨0, 0, 0⟩ .endpoint (createArg .endpoint 0xFFFFFFFF9FEC0000) 0 false)
        (objectAddr .endpoint 0xFFFFFFFF9FEC0000) ↔
      ObjectType.endpoint ≠ .tcb ∧
        (ObjectType.endpoint = .capTable → bits (⟨0, 0, 0⟩ : Cap).w1 0 5 = capCnodeCap) ∧
        (ObjectType.endpoint ≠ .capTable → sourceUpper .endpoint = true) :=
  createObject_names_iff sourceUpper ⟨0, 0, 0⟩ .endpoint 0 false (by decide) (by decide)

/-- The capability for a thread does not name it, however its field is read. -/
theorem not_createObject_names : ¬∃ upper, ∀ (g : Cap) (objectType : ObjectType) (p : Ptr)
    (userSize : U64) (device : Bool), kernBase ≤ p →
      p.toNat % 2 ^ (getObjectSize objectType userSize).toNat = 0 →
        NamesObject upper objectType
          (createObject g objectType (createArg objectType p) userSize device)
          (objectAddr objectType p) := by
  rintro ⟨upper, hall⟩
  exact not_namesObject_tcb
    (hall ⟨0, 0, 0⟩ .tcb 0xFFFFFFFF9FEC0000 0 false (by decide) (by decide))

end Creation

end MicroKernel
