import MicroKernel.Object.Creation

/-!
# The memory of new objects

`create_new_objects` places objects one behind the other, at distances of `get_object_size`, a power
of two.  The kernel uses as much memory of an object as its structure has.

* `objectMemory_subset` : the structures fit their sizes, except the table of a CNode, of which the
  slots have 40 bytes and not 32;
* `createNewObjects_apart_iff` : the capabilities name the objects and their memory is disjoint and
  inside the region exactly if no object is created, or endpoints, notifications or untyped memory
  are, and their addresses come back from the field.
-/

namespace MicroKernel

/-! ### The structures -/

/-- `sizeof(Tcb)`. -/
def sizeofTcb : ℕ := 328

/-- `sizeof(Endpoint)`. -/
def sizeofEndpoint : ℕ := 16

/-- `sizeof(Notification)`. -/
def sizeofNotification : ℕ := 32

/-- `tcbCNodeEntries`. -/
def tcbCNodeEntries : ℕ := 5

/-- The memory that the kernel uses of an object at the address `a`; a thread has a table of slots
in front of its control block. -/
def objectMemory (objectType : ObjectType) (userSize : U64) (a : Ptr) : Set ℕ :=
  match objectType with
  | .untyped => Set.Ico a.toNat (a.toNat + 2 ^ userSize.toNat)
  | .tcb =>
    let table := tcbPtrCtePtr a tcbCTable
    Set.Ico table.toNat (table.toNat + tcbCNodeEntries * sizeofCte.toNat) ∪
      Set.Ico a.toNat (a.toNat + sizeofTcb)
  | .endpoint => Set.Ico a.toNat (a.toNat + sizeofEndpoint)
  | .notification => Set.Ico a.toNat (a.toNat + sizeofNotification)
  | .capTable => Set.Ico a.toNat (a.toNat + 2 ^ userSize.toNat * sizeofCte.toNat)

section Sizes

variable {objectType : ObjectType} {userSize : U64} {p : Ptr}

/-- The table of slots lies at the start of the memory of a thread. -/
theorem tcbPtrCtePtr_objectAddr (halign : p.toNat % 2 ^ 11 = 0) :
    tcbPtrCtePtr (objectAddr .tcb p) tcbCTable = p := by
  have hmask : ∀ q : U64, q &&& ~~~(0x800 - 1 : U64) = (q >>> 11) <<< 11 := by
    intro q
    refine BitVec.eq_of_getLsbD_eq fun i hi => ?_
    have hbit : ∀ i < 64, (~~~(0x800 - 1 : U64)).getLsbD i = decide (11 ≤ i) := by decide
    rw [BitVec.getLsbD_and, hbit i hi, BitVec.getLsbD_shiftLeft, BitVec.getLsbD_ushiftRight]
    by_cases h11 : i < 11
    · simp [h11, Nat.not_le.2 h11]
    · have hidx : 11 + (i - 11) = i := by omega
      simp [h11, hi, Nat.not_lt.1 h11, hidx]
  have hp := p.isLt
  have htable : tcbPtrCtePtr (objectAddr .tcb p) tcbCTable =
      ((p + 0x400) >>> 11) <<< 11 := (BitVec.add_zero _).trans (hmask _)
  have hadd : (p + 0x400).toNat = p.toNat + 0x400 := by
    rw [BitVec.toNat_add]
    exact Nat.mod_eq_of_lt (show p.toNat + 0x400 < 2 ^ 64 by omega)
  refine BitVec.eq_of_toNat_eq ?_
  rw [htable, BitVec.toNat_shiftLeft, BitVec.toNat_ushiftRight, hadd, Nat.shiftLeft_eq,
    Nat.shiftRight_eq_div_pow]
  omega

/-- The structures fit the sizes of objects, but for the table of a CNode. -/
theorem objectMemory_subset (hcap : objectType ≠ .capTable)
    (halign : objectType = .tcb → p.toNat % 2 ^ 11 = 0) :
    objectMemory objectType userSize (objectAddr objectType p) ⊆
      Set.Ico p.toNat (p.toNat + 2 ^ (getObjectSize objectType userSize).toNat) := by
  cases objectType with
  | capTable => exact absurd rfl hcap
  | untyped => exact subset_rfl
  | endpoint => exact subset_rfl
  | notification => exact subset_rfl
  | tcb =>
    have hp := p.isLt
    have hmod := halign rfl
    have haddr : (objectAddr .tcb p).toNat = p.toNat + 0x400 := by
      rw [objectAddr, tcbOffset, BitVec.toNat_add]
      exact Nat.mod_eq_of_lt (show p.toNat + 0x400 < 2 ^ 64 by omega)
    simp only [objectMemory, tcbPtrCtePtr_objectAddr hmod, haddr]
    change Set.Ico _ (_ + 5 * 40) ∪ Set.Ico _ (_ + 0x400 + 328) ⊆ Set.Ico _ (_ + 2 ^ 11)
    refine Set.union_subset ?_ ?_
    · exact Set.Ico_subset_Ico le_rfl (by omega)
    · exact Set.Ico_subset_Ico (by omega) (by omega)

/-- The table of a CNode is larger than the object. -/
theorem two_pow_getObjectSize_lt (userSize : U64) :
    2 ^ (getObjectSize .capTable userSize).toNat < 2 ^ userSize.toNat * sizeofCte.toNat := by
  have hle : (getObjectSize .capTable userSize).toNat ≤ 5 + userSize.toNat := by
    rw [getObjectSize, BitVec.toNat_add]
    exact Nat.mod_le _ _
  have hcte : sizeofCte.toNat = 40 := by decide
  have hpos := Nat.two_pow_pos userSize.toNat
  calc 2 ^ (getObjectSize .capTable userSize).toNat ≤ 2 ^ (5 + userSize.toNat) :=
        Nat.pow_le_pow_right (by decide) hle
    _ = 32 * 2 ^ userSize.toNat := by rw [Nat.pow_add]
    _ < 2 ^ userSize.toNat * sizeofCte.toNat := by
        rw [hcte]
        omega

end Sizes

/-! ### The loop -/

namespace RetypeCall

variable (c : RetypeCall)

/-- The memory of the object number `i`. -/
def objectBase (i : ℕ) : Ptr := c.retypeBase + (BitVec.ofNat 64 i <<< c.objectBits)

/-- The capability for the object number `i`. -/
def newCap (i : ℕ) : Cap :=
  createObject (c.locals i) c.newType (c.objectBase i) c.userSize c.deviceMemory

/-- The region of the objects does not go around the end of the address space. -/
def RegionFits : Prop := c.retypeBase.toNat + c.destLength.toNat * 2 ^ c.objectBits.toNat ≤ 2 ^ 64

/-- Neither do the slots. -/
def SlotsFit : Prop :=
  c.destCNode.toNat + (c.destOffset.toNat + c.destLength.toNat) * sizeofCte.toNat ≤ 2 ^ 64

variable {c} {s : KState} {i j n : ℕ}

theorem objectBase_toNat (h : c.RegionFits) (hi : i < c.destLength.toNat) :
    (c.objectBase i).toNat = c.retypeBase.toNat + i * 2 ^ c.objectBits.toNat := by
  have hlen := c.destLength.isLt
  have hpow := Nat.two_pow_pos c.objectBits.toNat
  have hmul : (i + 1) * 2 ^ c.objectBits.toNat ≤ c.destLength.toNat * 2 ^ c.objectBits.toNat :=
    Nat.mul_le_mul_right _ hi
  rw [Nat.succ_mul] at hmul
  unfold RegionFits at h
  rw [objectBase, BitVec.toNat_add, BitVec.shiftLeft_eq', BitVec.toNat_shiftLeft,
    BitVec.toNat_ofNat, Nat.mod_eq_of_lt (a := i) (by omega), Nat.shiftLeft_eq,
    Nat.mod_eq_of_lt (a := i * _) (by omega), Nat.mod_eq_of_lt (by omega)]

theorem slot_toNat (h : c.SlotsFit) (hi : i < c.destLength.toNat) :
    (c.slot i).toNat = c.destCNode.toNat + (c.destOffset.toNat + i) * 40 := by
  have hlen := c.destLength.isLt
  have hcte : sizeofCte.toNat = 40 := by decide
  unfold SlotsFit at h
  rw [hcte] at h
  rw [slot, BitVec.toNat_add, BitVec.toNat_mul, BitVec.toNat_add, BitVec.toNat_ofNat, hcte,
    Nat.mod_eq_of_lt (a := i) (by omega), Nat.mod_eq_of_lt (a := c.destOffset.toNat + i) (by omega),
    Nat.mod_eq_of_lt (a := (c.destOffset.toNat + i) * 40) (by omega), Nat.mod_eq_of_lt (by omega)]

theorem slot_injective (h : c.SlotsFit) (hi : i < c.destLength.toNat)
    (hj : j < c.destLength.toNat) (heq : c.slot i = c.slot j) : i = j := by
  have hnat := congrArg BitVec.toNat heq
  rw [slot_toNat h hi, slot_toNat h hj] at hnat
  omega

theorem rest_createNewObjects (n : ℕ) : ∀ {i : ℕ} {s : KState},
    { c.createNewObjects i n s with ctes := s.ctes } = s := by
  induction n with
  | zero => exact rfl
  | succ n ih =>
    intro i s
    rw [createNewObjects]
    exact congrArg (fun t : KState => { t with ctes := s.ctes }) ih

/-- Every slot gets its capability, and no later round writes it. -/
theorem createNewObjects_slot (n : ℕ) : ∀ {i : ℕ} {s : KState},
    (∀ j k, i ≤ j → j < i + n → i ≤ k → k < i + n → c.slot j = c.slot k → j = k) →
      ∀ j, i ≤ j → j < i + n → ((c.createNewObjects i n s).ctes (c.slot j)).cap = c.newCap j := by
  induction n with
  | zero =>
    intro i s _ j hij hj
    omega
  | succ n ih =>
    intro i s hinj j hij hj
    rw [createNewObjects]
    by_cases hji : j = i
    · subst hji
      have hlater : ∀ k, j + 1 ≤ k → k < j + 1 + n → c.slot k ≠ c.slot j := fun k hk hkn heq => by
        have := hinj k j (by omega) (by omega) le_rfl (by omega) heq
        omega
      rw [createNewObjects_ctes n hlater]
      exact congrArg Cte.cap (Function.update_self (c.slot j) _ s.ctes)
    · refine ih (fun k l hk hkn hl hln => hinj k l (by omega) (by omega) (by omega) (by omega)) j
        (by omega) (by omega)

theorem cap_createNewObjects (h : c.SlotsFit) (hi : i < c.destLength.toNat) :
    ((c.createNewObjects 0 c.destLength.toNat s).ctes (c.slot i)).cap = c.newCap i :=
  createNewObjects_slot _ (fun j k _ hj _ hk => slot_injective h (by omega) (by omega)) i
    (Nat.zero_le i) (by omega)

end RetypeCall

/-! ### Objects apart -/

section Apart

variable {upper : ObjectType → Bool} {c : RetypeCall} {s : KState} {i j : ℕ}

/-- The memory that the kernel uses through the capability in the slot number `i`. -/
def usedMemory (upper : ObjectType → Bool) (c : RetypeCall) (s : KState) (i : ℕ) : Set ℕ :=
  objectMemory c.newType c.userSize ((s.ctes (c.slot i)).cap.viewPtr upper c.newType)

/-- A call that leads from `s` to `s'` writes the slots of the new objects only, their capabilities
name the objects, and the memory of different objects is disjoint and inside the region. -/
structure CreatedApart (upper : ObjectType → Bool) (c : RetypeCall) (s s' : KState) : Prop where
  /-- Other slots. -/
  frame : ∀ slot, (∀ i < c.destLength.toNat, slot ≠ c.slot i) → s'.ctes slot = s.ctes slot
  /-- The rest of the state. -/
  rest : { s' with ctes := s.ctes } = s
  /-- The capabilities. -/
  names : ∀ i < c.destLength.toNat, NamesObject upper c.newType (s'.ctes (c.slot i)).cap
    (objectAddr c.newType (c.objectBase i))
  /-- No memory is used twice. -/
  disjoint : ∀ i < c.destLength.toNat, ∀ j < c.destLength.toNat, i ≠ j →
    Disjoint (usedMemory upper c s' i) (usedMemory upper c s' j)
  /-- No other memory is used. -/
  inside : ∀ i < c.destLength.toNat, usedMemory upper c s' i ⊆ c.region

/-- The addresses of the objects come back from fields of 48 bits. -/
def AddressesFit (upper : ObjectType → Bool) (c : RetypeCall) : Prop :=
  if upper c.newType then 0xFFFF000000000000 ≤ c.retypeBase.toNat
  else c.retypeBase.toNat + (c.destLength.toNat - 1) * 2 ^ c.objectBits.toNat < 2 ^ 48

/-- The pieces of a region at equal distances are disjoint and inside the region. -/
theorem disjoint_pieces {b d : ℕ} (hij : i ≠ j) :
    Disjoint (Set.Ico (b + i * d) (b + i * d + d)) (Set.Ico (b + j * d) (b + j * d + d)) := by
  refine Set.disjoint_left.2 fun x hx hx' => ?_
  obtain ⟨hx₁, hx₂⟩ := hx
  obtain ⟨hx₁', hx₂'⟩ := hx'
  rcases Nat.lt_or_gt_of_ne hij with hlt | hlt
  · have hle : (i + 1) * d ≤ j * d := Nat.mul_le_mul_right d hlt
    rw [Nat.succ_mul] at hle
    omega
  · have hle : (j + 1) * d ≤ i * d := Nat.mul_le_mul_right d hlt
    rw [Nat.succ_mul] at hle
    omega

theorem piece_subset {b d n : ℕ} (hi : i < n) :
    Set.Ico (b + i * d) (b + i * d + d) ⊆ Set.Ico b (b + n * d) := by
  have hle : (i + 1) * d ≤ n * d := Nat.mul_le_mul_right d hi
  rw [Nat.succ_mul] at hle
  exact Set.Ico_subset_Ico (by omega) (by omega)

/-- All addresses come back if the one that is nearest to the end of the range does. -/
theorem AddressesFit.fieldPtr_eq (h : AddressesFit upper c) (hregion : c.RegionFits)
    (hi : i < c.destLength.toNat) :
    fieldPtr (upper c.newType) (((c.objectBase i).setWidth 48).setWidth 64) = c.objectBase i := by
  have hle : i * 2 ^ c.objectBits.toNat ≤ (c.destLength.toNat - 1) * 2 ^ c.objectBits.toNat :=
    Nat.mul_le_mul_right _ (by omega)
  unfold AddressesFit at h
  rw [fieldPtr_eq_iff, RetypeCall.objectBase_toNat hregion hi]
  split_ifs at h ⊢ <;> omega

/-- Endpoints, notifications and untyped memory that are named are apart. -/
theorem CreatedApart.of_fit (hregion : c.RegionFits) (hslots : c.SlotsFit)
    (htcb : c.newType ≠ .tcb) (hcap : c.newType ≠ .capTable) (hfit : AddressesFit upper c) :
    CreatedApart upper c s (c.createNewObjects 0 c.destLength.toNat s) := by
  have hnames : ∀ i < c.destLength.toNat, NamesObject upper c.newType
      (((c.createNewObjects 0 c.destLength.toNat s).ctes (c.slot i)).cap)
      (objectAddr c.newType (c.objectBase i)) := fun i hi => by
    rw [RetypeCall.cap_createNewObjects hslots hi, RetypeCall.newCap, objectAddr_of_ne htcb]
    exact (namesObject_iff htcb hcap).2 (hfit.fieldPtr_eq hregion hi)
  -- the memory of an object lies in its piece of the region
  have hused : ∀ i < c.destLength.toNat,
      usedMemory upper c (c.createNewObjects 0 c.destLength.toNat s) i ⊆
        Set.Ico (c.retypeBase.toNat + i * 2 ^ c.objectBits.toNat)
          (c.retypeBase.toNat + i * 2 ^ c.objectBits.toNat + 2 ^ c.objectBits.toNat) :=
    fun i hi => by
      rw [usedMemory, (hnames i hi).ptr, ← RetypeCall.objectBase_toNat hregion hi]
      exact objectMemory_subset hcap fun h => absurd h htcb
  refine ⟨fun slot hslot => ?_, RetypeCall.rest_createNewObjects _, hnames,
    fun i hi j hj hij => ?_, fun i hi => (hused i hi).trans (piece_subset hi)⟩
  · exact createNewObjects_ctes _ fun j _ hj => (hslot j (by omega)).symm
  · exact (disjoint_pieces hij).mono (hused i hi) (hused j hj)

theorem CreatedApart.newType_ne_tcb (hslots : c.SlotsFit) (hpos : 0 < c.destLength.toNat)
    (h : CreatedApart upper c s (c.createNewObjects 0 c.destLength.toNat s)) :
    c.newType ≠ .tcb := by
  intro htcb
  have hname := h.names 0 hpos
  rw [RetypeCall.cap_createNewObjects hslots hpos, RetypeCall.newCap, htcb] at hname
  exact not_namesObject_tcb hname

theorem CreatedApart.newType_ne_capTable (hregion : c.RegionFits) (hpos : 0 < c.destLength.toNat)
    {s' : KState} (h : CreatedApart upper c s s') : c.newType ≠ .capTable := by
  intro hcap
  have hlast : c.destLength.toNat - 1 < c.destLength.toNat := Nat.sub_one_lt_of_lt hpos
  have hsub := h.inside _ hlast
  have hbits : c.objectBits = getObjectSize .capTable c.userSize := by
    rw [RetypeCall.objectBits, hcap]
  have hlt := two_pow_getObjectSize_lt c.userSize
  have hmul : (c.destLength.toNat - 1) * 2 ^ c.objectBits.toNat + 2 ^ c.objectBits.toNat =
      c.destLength.toNat * 2 ^ c.objectBits.toNat := by
    rw [← Nat.succ_mul, Nat.succ_eq_add_one, Nat.sub_add_cancel hpos]
  have htcb : c.newType ≠ .tcb := fun htcb => ObjectType.noConfusion (hcap.symm.trans htcb)
  rw [usedMemory, (h.names _ hlast).ptr, objectAddr_of_ne htcb, hcap, objectMemory,
    RetypeCall.region, RetypeCall.objectBase_toNat hregion hlast, hbits] at hsub
  rw [hbits] at hmul
  generalize 2 ^ (getObjectSize .capTable c.userSize).toNat = d at hlt hmul hsub
  -- the byte behind the piece of the last object
  have hmem := hsub (a := c.retypeBase.toNat + c.destLength.toNat * d) ⟨by omega, by omega⟩
  exact Nat.lt_irrefl _ hmem.2

theorem CreatedApart.addressesFit (hregion : c.RegionFits) (hslots : c.SlotsFit)
    (hpos : 0 < c.destLength.toNat) (htcb : c.newType ≠ .tcb) (hcap : c.newType ≠ .capTable)
    (h : CreatedApart upper c s (c.createNewObjects 0 c.destLength.toNat s)) :
    AddressesFit upper c := by
  have hfield : ∀ i < c.destLength.toNat, if upper c.newType then
      0xFFFF000000000000 ≤ (c.objectBase i).toNat else (c.objectBase i).toNat < 2 ^ 48 :=
    fun i hi => by
      have hname := h.names i hi
      rw [RetypeCall.cap_createNewObjects hslots hi, RetypeCall.newCap,
        objectAddr_of_ne htcb] at hname
      exact (fieldPtr_eq_iff _).1 ((namesObject_iff htcb hcap).1 hname)
  have hfirst := hfield 0 hpos
  have hlast := hfield (c.destLength.toNat - 1) (Nat.sub_one_lt_of_lt hpos)
  rw [RetypeCall.objectBase_toNat hregion hpos] at hfirst
  rw [RetypeCall.objectBase_toNat hregion (Nat.sub_one_lt_of_lt hpos)] at hlast
  unfold AddressesFit
  split_ifs at hfirst hlast ⊢ <;> omega

/-- New objects are named and apart if and only if there is none, or they are endpoints,
notifications or untyped memory and their addresses come back from the fields. -/
theorem createNewObjects_apart_iff (upper : ObjectType → Bool) (c : RetypeCall) (s : KState)
    (hregion : c.RegionFits) (hslots : c.SlotsFit) :
    CreatedApart upper c s (c.createNewObjects 0 c.destLength.toNat s) ↔
      c.destLength.toNat = 0 ∨
        c.newType ≠ .tcb ∧ c.newType ≠ .capTable ∧ AddressesFit upper c := by
  constructor
  · intro h
    refine or_iff_not_imp_left.2 fun hne => ?_
    have hpos := Nat.pos_of_ne_zero hne
    have htcb := h.newType_ne_tcb hslots hpos
    have hcap := h.newType_ne_capTable hregion hpos
    exact ⟨htcb, hcap, h.addressesFit hregion hslots hpos htcb hcap⟩
  · rintro (hzero | ⟨htcb, hcap, hfit⟩)
    · rw [hzero]
      refine ⟨fun _ _ => rfl, rfl, ?_, ?_, ?_⟩ <;>
        · intro i hi
          rw [hzero] at hi
          exact absurd hi (Nat.not_lt_zero i)
    · exact CreatedApart.of_fit hregion hslots htcb hcap hfit

/-- Two objects in the page at `0xFFFFFFFF9FEC0000`, with their capabilities at
`0xFFFFFFFF9FEC2000`. -/
def pairCall (newType : ObjectType) : RetypeCall :=
  ⟨0xFFFFFFFF9FEC0000, newType, 0, 0xFFFFFFFF9FEC2000, 0, 2, false,
    fun _ => ⟨0, (capCnodeCap : U64), 0⟩, 0⟩

/-- The case of two endpoints. -/
theorem createNewObjects_apart_iff_pair :
    CreatedApart sourceUpper (pairCall .endpoint) KState.zero
        ((pairCall .endpoint).createNewObjects 0 (pairCall .endpoint).destLength.toNat
          KState.zero) ↔
      (pairCall .endpoint).destLength.toNat = 0 ∨
        (pairCall .endpoint).newType ≠ .tcb ∧ (pairCall .endpoint).newType ≠ .capTable ∧
          AddressesFit sourceUpper (pairCall .endpoint) :=
  createNewObjects_apart_iff sourceUpper (pairCall .endpoint) KState.zero
    (show _ ≤ _ by decide) (show _ ≤ _ by decide)

/-- Two CNodes of one slot each: each uses more memory than it was given. -/
theorem not_createNewObjects_apart : ¬∃ upper, ∀ (c : RetypeCall) (s : KState), c.RegionFits →
    c.SlotsFit → CreatedApart upper c s (c.createNewObjects 0 c.destLength.toNat s) := by
  rintro ⟨upper, hall⟩
  have hfits : (pairCall .capTable).RegionFits := show _ ≤ _ by decide
  have h := hall (pairCall .capTable) KState.zero hfits (show _ ≤ _ by decide)
  exact h.newType_ne_capTable hfits (by decide) rfl

end Apart

end MicroKernel
