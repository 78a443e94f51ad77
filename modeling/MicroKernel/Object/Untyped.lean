import Mathlib.Order.CompletePartialOrder
import Mathlib.Order.Interval.Set.Basic
import MicroKernel.Object.ObjectType
import MicroKernel.System.Run

/-!
# Retyping untyped memory

A capability for untyped memory records in `capFreeIndex` how much of the memory is used, so that
new objects are created behind the old ones.  `invoke_untyped_retype` writes 0 there: the macro that
computes the index is commented out.

* `invokeUntypedRetype_cap` : what a call does to the capability;
* `retypeSystem_fresh_iff` : the regions of different calls stay apart, and the index covers the
  objects created, if and only if no object is created;
* `not_retypeSystem_disjoint` : two calls that get the same memory.
-/

namespace MicroKernel

/-! ### The code -/

/-- `OsTCBBits`. -/
def osTCBBits : U64 := 11

/-- `OsEndpointBits`. -/
def osEndpointBits : U64 := 4

/-- `OsNotificationBits`. -/
def osNotificationBits : U64 := 5

/-- `OsSlotBits`. -/
def osSlotBits : U64 := 5

/-- `get_object_size`, as a power of two. -/
def getObjectSize (objectType : ObjectType) (userObjectSize : U64) : U64 :=
  match objectType with
  | .tcb => osTCBBits
  | .endpoint => osEndpointBits
  | .notification => osNotificationBits
  | .capTable => osSlotBits + userObjectSize
  | .untyped => userObjectSize

/-- The capability as an `UntypedCap`. -/
def Cap.untypedCap (c : Cap) : UntypedCap where
  capFreeIndex := bits c.w0 0 48
  capIsDevice := c.w0.getLsbD 57
  capBlockSize := bits c.w0 58 6
  capType := bits c.w1 0 5
  capPtr := bits c.w1 16 48

/-- `insert_new_cap`. -/
def insertNewCap (slot : Ptr) (cap : Cap) (s : KState) : KState :=
  s.modCte slot fun c => { c with cap }

/-- The arguments of a call of `invoke_untyped_retype`, with what the variables that it reads before
it has written them hold. -/
structure RetypeCall where
  /-- The address of the first new object. -/
  retypeBase : U64
  /-- The kind of object. -/
  newType : ObjectType
  /-- The size that the user asks for. -/
  userSize : U64
  /-- The node that the capabilities for the new objects go to. -/
  destCNode : Ptr
  /-- The slot of the first one. -/
  destOffset : U64
  /-- The number of objects. -/
  destLength : U64
  /-- Whether the memory is that of a device. -/
  deviceMemory : Bool
  /-- The variable of `create_object`, for each object. -/
  locals : ℕ → Cap
  /-- The word behind the variable `untypedCap`. -/
  behind : U64

namespace RetypeCall

variable (c : RetypeCall)

/-- The slot `&destCNode[destOffset + i]`. -/
def slot (i : ℕ) : Ptr := c.destCNode + (c.destOffset + BitVec.ofNat 64 i) * sizeofCte

/-- The size of an object, as a power of two. -/
def objectBits : U64 := getObjectSize c.newType c.userSize

/-- The loop of `create_new_objects` from index `i` on. -/
def createNewObjects (i : ℕ) : ℕ → KState → KState
  | 0, s => s
  | n + 1, s =>
    let cap := createObject (c.locals i) c.newType
      (c.retypeBase + (BitVec.ofNat 64 i <<< c.objectBits)) c.userSize c.deviceMemory
    createNewObjects (i + 1) n (insertNewCap (c.slot i) cap s)

end RetypeCall

/-- The capability that is written back: `capFreeIndex` is 0, and the third word is whatever lies
behind the variable. -/
def writtenBack (cap : Cap) (behind : U64) : Cap :=
  let untypedCap := { cap.untypedCap with capFreeIndex := 0 }
  untypedCap.toCap (cap.w0.extractLsb' 48 9) (cap.w1.extractLsb' 5 11) behind

/-- `invoke_untyped_retype`; the position behind the new objects is computed and not used. -/
def invokeUntypedRetype (srcSlot : Ptr) (c : RetypeCall) (s : KState) : KState :=
  let cap := (s.ctes srcSlot).cap
  let s := s.modCte srcSlot fun slot => { slot with cap := writtenBack cap c.behind }
  c.createNewObjects 0 c.destLength.toNat s

/-! ### The capability after a call -/

section Capability

variable {srcSlot : Ptr} {c : RetypeCall} {s : KState}

theorem untypedCap_toCap (u : UntypedCap) (pad₀ : BitVec 9) (pad₁ : BitVec 11) (w2 : U64) :
    (u.toCap pad₀ pad₁ w2).untypedCap.capFreeIndex = (u.capFreeIndex.setWidth 48).setWidth 64 ∧
    (u.toCap pad₀ pad₁ w2).untypedCap.capPtr = (u.capPtr.setWidth 48).setWidth 64 ∧
    (u.toCap pad₀ pad₁ w2).untypedCap.capBlockSize = (u.capBlockSize.setWidth 6).setWidth 64 := by
  refine ⟨?_, ?_, ?_⟩
  · simp only [Cap.untypedCap, UntypedCap.toCap, bits, BitVec.extractLsb'_append_eq_right]
  · simp only [Cap.untypedCap, UntypedCap.toCap, bits]
    simp (disch := omega) only [BitVec.extractLsb'_append_eq_of_le]
    congr 1
    exact BitVec.extractLsb'_eq_self
  · simp only [Cap.untypedCap, UntypedCap.toCap, bits]
    simp (disch := omega) only [BitVec.extractLsb'_append_eq_of_le]
    congr 1
    exact BitVec.extractLsb'_eq_self

theorem setWidth_bits (w : U64) (start len : ℕ) (hlen : len ≤ 64) :
    ((bits w start len).setWidth len).setWidth 64 = bits w start len := by
  unfold bits
  rw [BitVec.setWidth_setWidth_of_le _ hlen, BitVec.setWidth_eq]

theorem createNewObjects_ctes (n : ℕ) : ∀ {i : ℕ} {s : KState},
    (∀ j, i ≤ j → j < i + n → c.slot j ≠ srcSlot) →
      (c.createNewObjects i n s).ctes srcSlot = s.ctes srcSlot := by
  induction n with
  | zero => exact fun _ => rfl
  | succ n ih =>
    intro i s h
    have hne : srcSlot ≠ c.slot i := (h i le_rfl (by omega)).symm
    rw [RetypeCall.createNewObjects, ih fun j hj hlt => h j (by omega) (by omega)]
    exact Function.update_of_ne hne ..

/-- After a call the capability is for the same memory, and records that none of it is used. -/
theorem invokeUntypedRetype_cap (h : ∀ i < c.destLength.toNat, c.slot i ≠ srcSlot) :
    let cap := (s.ctes srcSlot).cap
    let cap' := ((invokeUntypedRetype srcSlot c s).ctes srcSlot).cap
    cap'.untypedCap.capFreeIndex = 0 ∧ cap'.untypedCap.capPtr = cap.untypedCap.capPtr ∧
      cap'.untypedCap.capBlockSize = cap.untypedCap.capBlockSize := by
  intro cap cap'
  have hcap : cap' = writtenBack cap c.behind := by
    have hother := @createNewObjects_ctes srcSlot c c.destLength.toNat 0
      (s.modCte srcSlot fun slot => { slot with cap := writtenBack cap c.behind })
      (fun j _ hj => h j (by omega))
    have hself := congrArg Cte.cap hother
    simp only [KState.modCte, Function.update_self] at hself
    exact hself
  obtain ⟨hfree, hptr, hsize⟩ := untypedCap_toCap { cap.untypedCap with capFreeIndex := 0 }
    (cap.w0.extractLsb' 48 9) (cap.w1.extractLsb' 5 11) c.behind
  rw [hcap]
  refine ⟨hfree.trans (show ((0 : U64).setWidth 48).setWidth 64 = 0 by decide), hptr.trans ?_,
    hsize.trans ?_⟩
  · exact setWidth_bits _ _ _ (by decide)
  · exact setWidth_bits _ _ _ (by decide)

end Capability

/-! ### Sequences of calls -/

/-- The memory of the objects that a call creates. -/
def RetypeCall.region (c : RetypeCall) : Set ℕ :=
  Set.Ico c.retypeBase.toNat (c.retypeBase.toNat + c.destLength.toNat * 2 ^ c.objectBits.toNat)

section Retype

-- how the field `capPtr` stands for an address, and how many bytes the index counts at a time
variable (addr : U64 → ℕ) (unit : ℕ)

/-- The free position that the capability records. -/
def Cap.freePosition (c : Cap) : ℕ :=
  addr c.untypedCap.capPtr + unit * c.untypedCap.capFreeIndex.toNat

/-- The end of the memory that the capability is for. -/
def Cap.blockEnd (c : Cap) : ℕ := addr c.untypedCap.capPtr + 2 ^ c.untypedCap.capBlockSize.toNat

/-- Calls on the capability in the slot `srcSlot`, which create their objects from the free position
on and inside the memory, and put no other capability in this slot. -/
def retypeSystem (srcSlot : Ptr) : System KState RetypeCall where
  step s c s' :=
    let cap := (s.ctes srcSlot).cap
    cap.freePosition addr unit ≤ c.retypeBase.toNat ∧
      c.retypeBase.toNat + c.destLength.toNat * 2 ^ c.objectBits.toNat ≤ cap.blockEnd addr ∧
      (∀ i < c.destLength.toNat, c.slot i ≠ srcSlot) ∧ s' = invokeUntypedRetype srcSlot c s

/-- The regions of different calls are disjoint, and after each call the free position is not below
the end of the objects just created. -/
structure Fresh (srcSlot : Ptr) (tr : List (System.Step KState RetypeCall)) : Prop where
  /-- No memory is given out twice. -/
  disjoint : tr.Pairwise fun x y => Disjoint x.ev.region y.ev.region
  /-- The index covers the new objects. -/
  recorded : ∀ x ∈ tr, ∀ a ∈ x.ev.region, a < (x.post.ctes srcSlot).cap.freePosition addr unit

variable {addr unit} {srcSlot : Ptr} {s s' : KState} {tr : List (System.Step KState RetypeCall)}

theorem region_eq_empty {c : RetypeCall} (h : c.destLength = 0) : c.region = ∅ := by
  simp [RetypeCall.region, h]

/-- A call records that nothing is used, so it covers its objects only if there are none. -/
theorem recorded_iff {x : System.Step KState RetypeCall}
    (hstep : (retypeSystem addr unit srcSlot).step x.pre x.ev x.post) :
    (∀ a ∈ x.ev.region, a < (x.post.ctes srcSlot).cap.freePosition addr unit) ↔
      x.ev.destLength = 0 := by
  obtain ⟨hfree, -, hslot, hpost⟩ := hstep
  obtain ⟨hindex, hptr, -⟩ := invokeUntypedRetype_cap (s := x.pre) hslot
  constructor
  · intro h
    by_contra hne
    have hpos : 0 < x.ev.destLength.toNat := by
      refine Nat.pos_of_ne_zero fun hz => hne ?_
      exact BitVec.eq_of_toNat_eq hz
    have hmem : x.ev.retypeBase.toNat ∈ x.ev.region :=
      ⟨le_rfl, Nat.lt_add_of_pos_right (Nat.mul_pos hpos (Nat.two_pow_pos _))⟩
    have hlt := h _ hmem
    -- the free position is the start of the memory again
    unfold Cap.freePosition at hlt hfree
    rw [hpost, hindex, hptr] at hlt
    change _ < _ + unit * 0 at hlt
    omega
  · intro h
    rw [region_eq_empty h]
    exact fun a ha => ha.elim

/-- Memory is not given out twice and the free position covers what was created, in a sequence of
calls, if and only if no call creates an object. -/
theorem retypeSystem_fresh_iff (hrun : (retypeSystem addr unit srcSlot).Run s tr s') :
    Fresh addr unit srcSlot tr ↔ ∀ x ∈ tr, x.ev.destLength = 0 := by
  constructor
  · exact fun h x hx => (recorded_iff (hrun.step_of_mem x hx)).1 (h.recorded x hx)
  · intro h
    refine ⟨List.pairwise_of_forall_mem_list fun x hx y _ => ?_, fun x hx => ?_⟩
    · rw [region_eq_empty (h x hx)]
      exact Set.empty_disjoint _
    · exact (recorded_iff (hrun.step_of_mem x hx)).2 (h x hx)

/-- A capability for 4 KB of unused memory at `0x100000`, in the slot `0x2000`. -/
def untypedStart : KState :=
  KState.zero.modCte 0x2000 fun c =>
    { c with cap := UntypedCap.toCap ⟨0, false, 12, capUntypedCap, 0x100000⟩ 0 0 0 }

/-- A call that creates `n` endpoints at the start of this memory, with their capabilities in a node
at `0x3000`. -/
def endpointCall (n : U64) : RetypeCall :=
  ⟨0x100000, .endpoint, 0, 0x3000, 0, n, false, fun _ => ⟨0, 0, 0⟩, 0⟩

/-- The case of a call that creates no object. -/
theorem retypeSystem_fresh_iff_none :
    Fresh BitVec.toNat 16 0x2000 [⟨untypedStart, endpointCall 0,
        invokeUntypedRetype 0x2000 (endpointCall 0) untypedStart⟩] ↔
      ∀ x ∈ [(⟨untypedStart, endpointCall 0, invokeUntypedRetype 0x2000
        (endpointCall 0) untypedStart⟩ :
        System.Step KState RetypeCall)], x.ev.destLength = 0 := by
  have hstep : (retypeSystem BitVec.toNat 16 0x2000).step untypedStart (endpointCall 0)
      (invokeUntypedRetype 0x2000 (endpointCall 0) untypedStart) :=
    ⟨by decide, by decide, by decide, rfl⟩
  exact retypeSystem_fresh_iff (System.Run.single hstep)

/-- Two calls on one capability may be given the same memory. -/
theorem not_retypeSystem_disjoint :
    ¬∀ (addr : U64 → ℕ) (unit : ℕ) (srcSlot : Ptr) (s s' : KState)
      (tr : List (System.Step KState RetypeCall)),
      (s.ctes srcSlot).cap.untypedCap.capType = capUntypedCap →
      (retypeSystem addr unit srcSlot).Run s tr s' →
        tr.Pairwise fun x y => Disjoint x.ev.region y.ev.region := by
  intro hall
  have hstep₁ : (retypeSystem BitVec.toNat 16 0x2000).step untypedStart (endpointCall 1)
      (invokeUntypedRetype 0x2000 (endpointCall 1) untypedStart) :=
    ⟨by decide, by decide, by decide, rfl⟩
  have hstep₂ : (retypeSystem BitVec.toNat 16 0x2000).step
      (invokeUntypedRetype 0x2000 (endpointCall 1) untypedStart) (endpointCall 1)
      (invokeUntypedRetype 0x2000 (endpointCall 1)
        (invokeUntypedRetype 0x2000 (endpointCall 1) untypedStart)) :=
    ⟨by decide, by decide, by decide, rfl⟩
  have hpair := hall _ _ _ _ _ _ (by decide) ((System.Run.single hstep₁).snoc hstep₂)
  have hdisj := (List.pairwise_cons.1 hpair).1 _ List.mem_cons_self
  have hmem : 0x100000 ∈ (endpointCall 1).region := ⟨by decide, by decide⟩
  exact Set.disjoint_left.1 hdisj hmem hmem

end Retype

end MicroKernel
