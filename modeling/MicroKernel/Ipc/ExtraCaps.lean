import MicroKernel.Ipc.Grant
import MicroKernel.System.Run

/-!
# The list of extra capabilities

The slots that `lookup_extra_caps` finds reach `transfer_caps` through the global array
`currentExtraCaps`, which keeps what it holds from one message to the next.  The list ends with a
`NULL` or with the array.

* `lookedUpSlots`, `scannedEntries` : what a transfer looks up, and what it reads from the array;
* `lookupExtraCapsTrace_fst`, `transferCapsTrace_fst` : they belong to the two functions;
* `transferSystem` : transfers one after the other, of any threads;
* `transferSystem_noLeak` : no transfer sees a slot that another one looked up.
-/

namespace MicroKernel

/-! ### What is looked up -/

/-- The loop of `lookup_extra_caps` with the slots that it has found. -/
def lookupExtraCapsTrace (u : Undef) (thread bufferPtr : Ptr) :
    ℕ → ℕ → KState → (KState × U64) × List Ptr
  | 0, i, s => ((if i < osMsgMaxExtraCaps then s.setExcapref i NULL else s, exceptionNone), [])
  | n + 1, i, s =>
    let slot := lookupSlot thread (getExtraCptr bufferPtr i s) s
    if u.lookupSlotStatus i ≠ exceptionNone then ((s, u.lookupSlotStatus i), [])
    else
      let (result, slots) := lookupExtraCapsTrace u thread bufferPtr n (i + 1)
        (s.setExcapref i slot)
      (result, slot :: slots)

/-- The slots that `lookup_extra_caps` finds when `do_normal_transfer` calls it. -/
def lookedUpSlots (u : Undef) (sender sendBuffer : Ptr) (canGrant : Bool) (s : KState) : List Ptr :=
  if canGrant = true ∨ sendBuffer = NULL then []
  else (lookupExtraCapsTrace u sender sendBuffer (sentTag sender s).extraCaps.toNat 0 s).2

section LookedUp

variable {u : Undef} {sender sendBuffer : Ptr} {s : KState}

theorem lookupExtraCapsTrace_fst (thread bufferPtr : Ptr) (n : ℕ) : ∀ (i : ℕ) (s : KState),
    (lookupExtraCapsTrace u thread bufferPtr n i s).1 =
      lookupExtraCapsLoop u thread bufferPtr n i s := by
  induction n with
  | zero => exact fun _ _ => rfl
  | succ n ih =>
    intro i s
    simp only [lookupExtraCapsTrace, lookupExtraCapsLoop]
    split_ifs
    · rfl
    · exact ih _ _

theorem lookupExtraCapsTrace_snd (n : ℕ) : ∀ (i : ℕ) (s : KState),
    (∀ j, i ≤ j → j < i + n → u.lookupSlotStatus j = exceptionNone) →
      ∀ j, i ≤ j → j < i + n →
        extraSlot sender sendBuffer s j ∈ (lookupExtraCapsTrace u sender sendBuffer n i s).2 := by
  induction n with
  | zero =>
    intro i s _ j hj hlt
    omega
  | succ n ih =>
    intro i s hok j hj hlt
    simp only [lookupExtraCapsTrace]
    rw [if_neg (not_not.2 (hok i le_rfl (by omega)))]
    rcases Nat.eq_or_lt_of_le hj with rfl | hj
    · exact List.mem_cons_self
    · refine List.mem_cons_of_mem _ ?_
      rw [← extraSlot_setExcapref i]
      exact ih _ _ (fun k hk hk' => hok k (by omega) (by omega)) j hj (by omega)

/-- The extra capabilities of a message were looked up for this message. -/
theorem tagCaps_subset_lookedUpSlots :
    tagCaps u sender sendBuffer (sentTag sender s) s ⊆
      lookedUpSlots u sender sendBuffer false s := by
  intro slot hslot
  rw [tagCaps] at hslot
  split_ifs at hslot with h
  · cases hslot
  · obtain ⟨hbuffer, hok⟩ := not_or.1 h
    simp only [not_exists, not_and, not_not] at hok
    obtain ⟨i, hi, rfl⟩ := List.mem_map.1 ((List.takeWhile_sublist _).subset hslot)
    rw [lookedUpSlots, if_neg (by simp [hbuffer])]
    exact lookupExtraCapsTrace_snd _ 0 s (fun j _ hj => hok j (by omega)) i (Nat.zero_le _)
      (by have := List.mem_range.1 hi; omega)

end LookedUp

/-! ### What is read -/

/-- The loop of `transfer_caps` with the entries of the array that it has read, and what it has
found there. -/
def transferCapsTrace (P : Packing) (u : Undef) (endpoint receiveBuffer : Ptr) :
    ℕ → ℕ → Ptr → BitVec 3 → KState → (KState × ℕ × BitVec 3) × List (ℕ × Ptr)
  | 0, i, _, unwrapped, s => ((s, i, unwrapped), [])
  | n + 1, i, destSlot, unwrapped, s =>
    let slot := s.excaprefs i
    if slot = NULL then ((s, i, unwrapped), [(i, slot)])
    else
      let cap := (s.ctes slot).cap
      if cap.endpointCap.capType = capEndpointCap ∧ cap.endpointCap.capEPPtr = endpoint then
        let (result, entries) := transferCapsTrace P u endpoint receiveBuffer n (i + 1) destSlot
          (unwrapped ||| (1 <<< i)) (setExtraBadge receiveBuffer cap.w0 i s)
        (result, (i, slot) :: entries)
      else if destSlot = NULL then ((s, i, unwrapped), [(i, slot)])
      else if (u.dcRet i).1 ≠ exceptionNone then ((s, i, unwrapped), [(i, slot)])
      else if (u.dcRet i).2.capType ≠ capNullCap then ((s, i, unwrapped), [(i, slot)])
      else
        let (result, entries) := transferCapsTrace P u endpoint receiveBuffer n (i + 1) NULL
          unwrapped (cteInsert P (u.dcRet i).2 slot destSlot s)
        (result, (i, slot) :: entries)

/-- The entries that `transfer_caps` reads. -/
def scannedEntries (P : Packing) (u : Undef) (endpoint receiver receiveBuffer : Ptr) (s : KState) :
    List (ℕ × Ptr) :=
  (0, s.excaprefs 0) ::
    if s.excaprefs 0 = NULL ∨ receiveBuffer = NULL then []
    else
      let (s, destSlot) := getReceiveSlots u receiver receiveBuffer s
      (transferCapsTrace P u endpoint receiveBuffer osMsgMaxExtraCaps 0 destSlot 0 s).2

section Scanned

variable {P : Packing} {u : Undef} {endpoint receiver receiveBuffer : Ptr} {s : KState}

theorem transferCapsTrace_fst (n : ℕ) :
    ∀ (i : ℕ) (destSlot : Ptr) (unwrapped : BitVec 3) (s : KState),
      (transferCapsTrace P u endpoint receiveBuffer n i destSlot unwrapped s).1 =
        transferCapsLoop P u endpoint receiveBuffer n i destSlot unwrapped s := by
  induction n with
  | zero => exact fun _ _ _ _ => rfl
  | succ n ih =>
    intro i destSlot unwrapped s
    simp only [transferCapsTrace, transferCapsLoop]
    split_ifs
    case pos => rfl
    case pos => exact ih _ _ _ _
    case neg => exact ih _ _ _ _
    all_goals rfl

/-- The loop reads one entry after the other, and stops at the first `NULL`. -/
theorem transferCapsTrace_snd (n : ℕ) :
    ∀ (i : ℕ) (destSlot : Ptr) (unwrapped : BitVec 3) (s : KState),
      ∀ x ∈ (transferCapsTrace P u endpoint receiveBuffer n i destSlot unwrapped s).2,
        i ≤ x.1 ∧ x.1 < i + n ∧ x.2 = s.excaprefs x.1 ∧
          ∀ k, i ≤ k → k < x.1 → s.excaprefs k ≠ NULL := by
  induction n with
  | zero =>
    intro i destSlot unwrapped s x hx
    cases hx
  | succ n ih =>
    intro i destSlot unwrapped s x hx
    -- the entry read first, and the others
    have hfirst : x = (i, s.excaprefs i) → i ≤ x.1 ∧ x.1 < i + (n + 1) ∧ x.2 = s.excaprefs x.1 ∧
        ∀ k, i ≤ k → k < x.1 → s.excaprefs k ≠ NULL := by
      rintro rfl
      exact ⟨le_rfl, by omega, rfl, fun k hk hlt => absurd hlt (Nat.not_lt.2 hk)⟩
    have hrest : ∀ s' : KState, s'.excaprefs = s.excaprefs → s.excaprefs i ≠ NULL →
        (i + 1 ≤ x.1 ∧ x.1 < i + 1 + n ∧ x.2 = s'.excaprefs x.1 ∧
          ∀ k, i + 1 ≤ k → k < x.1 → s'.excaprefs k ≠ NULL) →
        i ≤ x.1 ∧ x.1 < i + (n + 1) ∧ x.2 = s.excaprefs x.1 ∧
          ∀ k, i ≤ k → k < x.1 → s.excaprefs k ≠ NULL := by
      rintro s' hrefs hslot ⟨h₁, h₂, h₃, h₄⟩
      rw [hrefs] at h₃ h₄
      refine ⟨by omega, by omega, h₃, fun k hk hlt => ?_⟩
      rcases Nat.eq_or_lt_of_le hk with rfl | hk
      · exact hslot
      · exact h₄ k hk hlt
    simp only [transferCapsTrace] at hx
    split_ifs at hx with hslot hunwrap
    · exact hfirst (List.mem_singleton.1 hx)
    · rcases List.mem_cons.1 hx with hx | hx
      · exact hfirst hx
      · exact hrest (setExtraBadge receiveBuffer (s.ctes (s.excaprefs i)).cap.w0 i s) rfl hslot
          (ih _ _ _ _ x hx)
    · exact hfirst (List.mem_singleton.1 hx)
    · exact hfirst (List.mem_singleton.1 hx)
    · exact hfirst (List.mem_singleton.1 hx)
    · rcases List.mem_cons.1 hx with hx | hx
      · exact hfirst hx
      · exact hrest _ (excaprefs_cteInsert _ _ _ _ _) hslot (ih _ _ _ _ x hx)

theorem mem_handedCaps {k : ℕ} (hk : k < osMsgMaxExtraCaps) (h : ∀ j ≤ k, s.excaprefs j ≠ NULL) :
    s.excaprefs k ∈ handedCaps s := by
  have hrange : List.range osMsgMaxExtraCaps = [0, 1, 2] := rfl
  rw [handedCaps, hrange]
  have h₀ := h 0 (Nat.zero_le _)
  have hk' : k < 3 := hk
  obtain rfl | rfl | rfl : k = 0 ∨ k = 1 ∨ k = 2 := by omega
  · simp [h₀]
  · simp [h₀, h 1 le_rfl]
  · simp [h₀, h 1 (by omega), h 2 le_rfl]

/-- All entries that are read lie in the array, and those that are not `NULL` belong to the list. -/
theorem scannedEntries_spec :
    ∀ x ∈ scannedEntries P u endpoint receiver receiveBuffer s,
      x.1 < osMsgMaxExtraCaps ∧ (x.2 ≠ NULL → x.2 ∈ handedCaps s) := by
  have hmem : ∀ x : ℕ × Ptr, x.1 < osMsgMaxExtraCaps → x.2 = s.excaprefs x.1 →
      (∀ k < x.1, s.excaprefs k ≠ NULL) → x.2 ≠ NULL → x.2 ∈ handedCaps s := by
    intro x hlt heq hbefore hne
    rw [heq] at hne ⊢
    refine mem_handedCaps hlt fun j hj => ?_
    rcases Nat.eq_or_lt_of_le hj with rfl | hj
    · exact hne
    · exact hbefore j hj
  intro x hx
  rcases List.mem_cons.1 hx with rfl | hx
  · have hlt : 0 < osMsgMaxExtraCaps := by decide
    exact ⟨hlt, hmem _ hlt rfl fun k hk => absurd hk (Nat.not_lt_zero k)⟩
  · split_ifs at hx
    · cases hx
    · obtain ⟨-, h₂, h₃, h₄⟩ := transferCapsTrace_snd osMsgMaxExtraCaps 0
        (getReceiveSlots u receiver receiveBuffer s).2 0
        (getReceiveSlots u receiver receiveBuffer s).1 x hx
      rw [(getReceiveSlots_frame u s receiver receiveBuffer).2.2.2] at h₃ h₄
      have hlt : x.1 < osMsgMaxExtraCaps := by omega
      exact ⟨hlt, hmem x hlt h₃ fun k hk => h₄ k (Nat.zero_le _) hk⟩

end Scanned

/-! ### Transfers one after the other -/

/-- The arguments of a call of `do_normal_transfer`, and what the source leaves undefined in it. -/
structure TransferCall where
  /-- What the source leaves undefined. -/
  undef : Undef
  /-- The sender. -/
  sender : Ptr
  /-- Its buffer. -/
  sendBuffer : Ptr
  /-- The endpoint. -/
  endpoint : Ptr
  /-- The badge. -/
  badge : U64
  /-- The right to grant. -/
  canGrant : Bool
  /-- The receiver. -/
  receiver : Ptr
  /-- Its buffer. -/
  receiveBuffer : Ptr

/-- A transfer, or something else. -/
inductive TransferEvent where
  /-- `do_normal_transfer` is called. -/
  | transfer (call : TransferCall)
  /-- Other code runs, which has no access to the array. -/
  | other

/-- Transfers, between which all but the array may change. -/
def transferSystem (P : Packing) : System KState TransferEvent where
  step s ev s' :=
    match ev with
    | .transfer c => doNormalTransfer P c.undef c.sender c.sendBuffer c.endpoint c.badge c.canGrant
        c.receiver c.receiveBuffer s = some s'
    | .other => s'.excaprefs = s.excaprefs

/-- In a transfer from `s`, `transfer_caps` reads entries of the array only, and the slots that it
finds there were looked up in the same call. -/
def NoLeak (P : Packing) (c : TransferCall) (s : KState) : Prop :=
  ∃ s₂, transferState c.undef c.sender c.sendBuffer c.canGrant c.receiveBuffer s = some s₂ ∧
    ∀ x ∈ scannedEntries P c.undef c.endpoint c.receiver c.receiveBuffer s₂,
      x.1 < osMsgMaxExtraCaps ∧
        (x.2 ≠ NULL → x.2 ∈ lookedUpSlots c.undef c.sender c.sendBuffer c.canGrant s)

/-- One transfer, whatever the array holds before it. -/
theorem noLeak_of_transfer {P : Packing} {c : TransferCall} {s s' : KState}
    (h : doNormalTransfer P c.undef c.sender c.sendBuffer c.endpoint c.badge c.canGrant c.receiver
      c.receiveBuffer s = some s') : NoLeak P c s := by
  obtain ⟨s₂, hstate, -⟩ := doNormalTransfer_eq_some h
  refine ⟨s₂, hstate, fun x hx => ?_⟩
  obtain ⟨hlt, hmem⟩ := scannedEntries_spec x hx
  refine ⟨hlt, fun hne => ?_⟩
  have hhanded : handedCaps s₂ =
      handedCaps (fillExcaprefs c.undef c.sender c.sendBuffer c.canGrant s) := by
    rw [handedCaps, handedCaps, (transferState_eq_some hstate).2.1]
  have hslot := hmem hne
  rw [hhanded] at hslot
  cases hgrant : c.canGrant with
  | true =>
    have hempty : handedCaps (fillExcaprefs c.undef c.sender c.sendBuffer true s) = [] := by
      rw [handedCaps_eq_nil_iff, fillExcaprefs, if_neg (by decide)]
      simp [excaprefs_setExcapref]
    rw [hgrant, hempty] at hslot
    cases hslot
  | false =>
    rw [hgrant, fillExcaprefs, if_pos rfl] at hslot
    exact tagCaps_subset_lookedUpSlots (handedCaps_lookupExtraCaps ▸ hslot)

/-- In every run of transfers, no transfer sees a slot that another one looked up. -/
theorem transferSystem_noLeak {P : Packing} {s s' : KState}
    {tr : List (System.Step KState TransferEvent)} (hrun : (transferSystem P).Run s tr s') :
    ∀ x ∈ tr, ∀ c, x.ev = .transfer c → NoLeak P c x.pre := by
  intro x hx c hev
  have hstep := hrun.step_of_mem x hx
  rw [hev] at hstep
  exact noLeak_of_transfer hstep

/-- The transfer of a message that names one capability. -/
def sendWithCapCall : TransferCall where
  undef := Undef.benign
  sender := 0xFFFFFFFF9FEC1400
  sendBuffer := 0xFFFFFFFF9FEC3000
  endpoint := 0xFFFFFFFF9FEC0000
  badge := 1
  canGrant := false
  receiver := 0xFFFFFFFF9FEC5400
  receiveBuffer := 0xFFFFFFFF9FEC6000

/-- The sender names `n` capabilities. -/
def nameCaps (n : BitVec 2) (s : KState) : KState :=
  s.modTcb 0xFFFFFFFF9FEC1400 fun t =>
    { t with tf := { t.tf with rsi := u64FromMessageinfo ⟨0, 0, n, 0⟩ } }

/-- The transfer by this call. -/
def sentCaps (s : KState) : Option KState :=
  doNormalTransfer .recoverable sendWithCapCall.undef sendWithCapCall.sender
    sendWithCapCall.sendBuffer sendWithCapCall.endpoint sendWithCapCall.badge
    sendWithCapCall.canGrant sendWithCapCall.receiver sendWithCapCall.receiveBuffer s

/-- Three capabilities are sent, and then the sender names one. -/
def threeThenOne : KState := nameCaps 1 ((sentCaps (nameCaps 3 KState.zero)).getD KState.zero)

/-- In the run of both transfers: the array still holds the third slot of the first one, which the
second one does not see. -/
theorem transferSystem_noLeak_threeThenOne :
    threeThenOne.excaprefs 2 ≠ NULL ∧ NoLeak .recoverable sendWithCapCall threeThenOne := by
  have hfirst : (sentCaps (nameCaps 3 KState.zero)).isSome := by decide +kernel
  have hsecond : (sentCaps threeThenOne).isSome := by decide +kernel
  obtain ⟨s₁, h₁⟩ := Option.isSome_iff_exists.1 hfirst
  obtain ⟨s₂, h₂⟩ := Option.isSome_iff_exists.1 hsecond
  have hstep₁ : (transferSystem .recoverable).step (nameCaps 3 KState.zero)
      (.transfer sendWithCapCall) s₁ := h₁
  have hother : (transferSystem .recoverable).step s₁ .other threeThenOne := by
    rw [threeThenOne, h₁]
    rfl
  have hstep₂ : (transferSystem .recoverable).step threeThenOne (.transfer sendWithCapCall) s₂ := h₂
  refine ⟨by decide +kernel, ?_⟩
  exact transferSystem_noLeak (((System.Run.single hstep₁).snoc hother).snoc hstep₂) _
    (List.mem_append_right _ (List.mem_singleton_self _)) _ rfl

end MicroKernel
