import MicroKernel.CSpace.Lookup

/-!
# Message transfer

`do_ipc_transfer` copies the words of a message from the buffer of the sender to the buffer of the
receiver, hands over capabilities and gives the receiver the badge.  The source checks no pointer
for `NULL`; here an access to it ends the call (`deref`), also where the first page of a process is
mapped at the address 0 and the source goes on with what is in this page.

* `copyMRs`, `lookupExtraCaps`, `transferCaps`, `doNormalTransfer`, `doIpcTransfer` : the functions
  of the source;
* `doIpcTransfer_erase` : a transfer leaves queues, thread states and endpoints alone;
* `doIpcTransfer_spec` : what the receiver gets.
-/

namespace MicroKernel

/-- Access to a thread, which is taken to fault at `NULL`. -/
def deref (p : Ptr) : Option Unit := if p = NULL then none else some ()

theorem deref_eq_some {p : Ptr} {x : Unit} : deref p = some x ↔ p ≠ NULL := by
  simp [deref]

/-! ### Message info -/

/-- `OsMessageInfo`. -/
structure OsMessageInfo where
  /-- The label. -/
  label : BitVec 52
  /-- Which capabilities were unwrapped. -/
  capsUnwrapped : BitVec 3
  /-- The number of capabilities. -/
  extraCaps : BitVec 2
  /-- The number of words. -/
  length : BitVec 7
  deriving DecidableEq

/-- `messageinfo_from_u64`. -/
def messageinfoFromU64 (w : U64) : OsMessageInfo :=
  let mi : OsMessageInfo :=
    ⟨w.extractLsb' 0 52, w.extractLsb' 52 3, w.extractLsb' 55 2, w.extractLsb' 57 7⟩
  if osMsgMaxLength < mi.length.toNat then { mi with length := BitVec.ofNat 7 osMsgMaxLength }
  else mi

/-- `u64_from_messageinfo`. -/
def u64FromMessageinfo (mi : OsMessageInfo) : U64 :=
  mi.length ++ mi.extraCaps ++ mi.capsUnwrapped ++ mi.label

/-! ### Words and capabilities -/

/-- `lookup_ipc_buffer`. -/
def lookupIpcBuffer (thread : Ptr) (s : KState) : Ptr := (s.tcbs thread).tcbIPCBuffer

/-- The loop of `copyMRs`, on the words behind the first one of both buffers. -/
def copyWords (sendBuffer recvBuffer : Ptr) (n : ℕ) (s : KState) : KState :=
  (List.range n).foldl
    (fun s i => s.setBufferWord recvBuffer (1 + i) (s.ipcBuffers sendBuffer (1 + i))) s

/-- `copyMRs`, which faults if it is to copy from or to `NULL`. -/
def copyMRs (sendBuffer recvBuffer : Ptr) (n : ℕ) (s : KState) : Option KState :=
  let n := min n osMsgMaxLength
  if 0 < n ∧ (sendBuffer = NULL ∨ recvBuffer = NULL) then none
  else some (copyWords sendBuffer recvBuffer n s)

/-- `get_extra_cptr`. -/
def getExtraCptr (bufferPtr : Ptr) (i : ℕ) (s : KState) : U64 :=
  s.ipcBuffers bufferPtr (osMsgMaxLength + 2 + i)

/-- `set_extra_badge`. -/
def setExtraBadge (bufferPtr : Ptr) (badge : U64) (i : ℕ) (s : KState) : KState :=
  s.setBufferWord bufferPtr (osMsgMaxLength + 2 + i) badge

/-- The loop of `lookup_extra_caps`, with `n` rounds to go. -/
def lookupExtraCapsLoop (u : Undef) (thread bufferPtr : Ptr) : ℕ → ℕ → KState → KState × U64
  | 0, i, s => (if i < osMsgMaxExtraCaps then s.setExcapref i NULL else s, exceptionNone)
  | n + 1, i, s =>
    let cptr := getExtraCptr bufferPtr i s
    if u.lookupSlotStatus i ≠ exceptionNone then (s, u.lookupSlotStatus i)
    else lookupExtraCapsLoop u thread bufferPtr n (i + 1)
      (s.setExcapref i (lookupSlot thread cptr s))

/-- `lookup_extra_caps`. -/
def lookupExtraCaps (u : Undef) (thread bufferPtr : Ptr) (info : OsMessageInfo) (s : KState) :
    KState × U64 :=
  if bufferPtr = NULL then (s.setExcapref 0 NULL, exceptionNone)
  else lookupExtraCapsLoop u thread bufferPtr info.extraCaps.toNat 0 s

/-- The loop of `transfer_caps`, with at most `n` rounds to go; the results are the number of rounds
and `capsUnwrapped`. -/
def transferCapsLoop (P : Packing) (u : Undef) (endpoint receiveBuffer : Ptr) :
    ℕ → ℕ → Ptr → BitVec 3 → KState → KState × ℕ × BitVec 3
  | 0, i, _, unwrapped, s => (s, i, unwrapped)
  | n + 1, i, destSlot, unwrapped, s =>
    let slot := s.excaprefs i
    if slot = NULL then (s, i, unwrapped)
    else
      let cap := (s.ctes slot).cap
      if cap.endpointCap.capType = capEndpointCap ∧ cap.endpointCap.capEPPtr = endpoint then
        transferCapsLoop P u endpoint receiveBuffer n (i + 1) destSlot (unwrapped ||| (1 <<< i))
          (setExtraBadge receiveBuffer cap.w0 i s)
      else if destSlot = NULL then (s, i, unwrapped)
      else if (u.dcRet i).1 ≠ exceptionNone then (s, i, unwrapped)
      else if (u.dcRet i).2.capType ≠ capNullCap then (s, i, unwrapped)
      else
        transferCapsLoop P u endpoint receiveBuffer n (i + 1) NULL unwrapped
          (cteInsert P (u.dcRet i).2 slot destSlot s)

/-- `transfer_caps`. -/
def transferCaps (P : Packing) (u : Undef) (info : OsMessageInfo)
    (endpoint receiver receiveBuffer : Ptr) (s : KState) : KState × OsMessageInfo :=
  let info := { info with extraCaps := 0, capsUnwrapped := 0 }
  if s.excaprefs 0 = NULL ∨ receiveBuffer = NULL then (s, info)
  else
    let (s, destSlot) := getReceiveSlots u receiver receiveBuffer s
    let (s, i, unwrapped) :=
      transferCapsLoop P u endpoint receiveBuffer osMsgMaxExtraCaps 0 destSlot 0 s
    (s, { info with extraCaps := BitVec.ofNat 2 i, capsUnwrapped := unwrapped })

/-! ### Transfers -/

/-- `do_normal_transfer`. -/
def doNormalTransfer (P : Packing) (u : Undef) (sender sendBuffer endpoint : Ptr) (badge : U64)
    (canGrant : Bool) (receiver receiveBuffer : Ptr) (s : KState) : Option KState := do
  let tag := messageinfoFromU64 (s.tcbs sender).tf.rsi
  let s :=
    if canGrant = false then
      let (s, status) := lookupExtraCaps u sender sendBuffer tag s
      if status ≠ exceptionNone then s.setExcapref 0 NULL else s
    else s.setExcapref 0 NULL
  let s ← copyMRs sendBuffer receiveBuffer tag.length.toNat s
  let (s, tag) := transferCaps P u tag endpoint receiver receiveBuffer s
  let tag := { tag with length := u.copyMRs.setWidth 7 }
  let s := s.setRegister receiver msgInfoRegister (u64FromMessageinfo tag)
  return s.setRegister receiver badgeRegister badge

/-- `do_fault_transfer`, whose body is empty. -/
def doFaultTransfer (s : KState) : KState := s

/-- `do_ipc_transfer`. -/
def doIpcTransfer (P : Packing) (u : Undef) (sender endpoint : Ptr) (badge : U64) (grant : Bool)
    (receiver : Ptr) (s : KState) : Option KState := do
  deref receiver
  let receiveBuffer := lookupIpcBuffer receiver s
  deref sender
  if (s.tcbs sender).osFaultType = 0 then
    let sendBuffer := lookupIpcBuffer sender s
    doNormalTransfer P u sender sendBuffer endpoint badge grant receiver receiveBuffer s
  else return doFaultTransfer s

/-! ### Words -/

section Words

variable {P : Packing} {u : Undef} {s s' : KState} {b : Ptr} {j : ℕ}

theorem ipcBuffers_setBufferWord (buffer : Ptr) (i : ℕ) (w : U64) :
    (s.setBufferWord buffer i w).ipcBuffers b j =
      if b = buffer ∧ j = i then w else s.ipcBuffers b j := by
  by_cases hb : b = buffer
  · subst hb
    by_cases hj : j = i <;> simp [KState.setBufferWord, hj]
  · simp [KState.setBufferWord, hb]

/-- The loop copies the words 1, …, `n`. -/
theorem copyWords_word (sendBuffer recvBuffer : Ptr) (n : ℕ) :
    (copyWords sendBuffer recvBuffer n s).ipcBuffers b j =
      if b = recvBuffer ∧ 1 ≤ j ∧ j ≤ n then s.ipcBuffers sendBuffer j else s.ipcBuffers b j := by
  induction n generalizing b j with
  | zero => rw [copyWords, List.range_zero, List.foldl_nil, if_neg (by omega)]
  | succ n ih =>
    have hstep : copyWords sendBuffer recvBuffer (n + 1) s =
        (copyWords sendBuffer recvBuffer n s).setBufferWord recvBuffer (1 + n)
          ((copyWords sendBuffer recvBuffer n s).ipcBuffers sendBuffer (1 + n)) := by
      rw [copyWords, List.range_succ, List.foldl_append]
      rfl
    rw [hstep, ipcBuffers_setBufferWord, ih, ih]
    by_cases hb : b = recvBuffer
    · by_cases hj : j = 1 + n
      · -- the word read in this round is not one of those written before
        rw [if_pos ⟨hb, hj⟩, if_neg (by omega), if_pos ⟨hb, by omega⟩, hj]
      · rw [if_neg (by tauto)]
        simp only [hb, true_and]
        congr 1
        exact propext (by omega)
    · simp [hb]

theorem eraseData_copyWords (sendBuffer recvBuffer : Ptr) (n : ℕ) :
    (copyWords sendBuffer recvBuffer n s).eraseData = s.eraseData := by
  rw [copyWords]
  induction List.range n generalizing s with
  | nil => rfl
  | cons i is ih => rw [List.foldl_cons, ih, KState.eraseData_setBufferWord]

theorem lookupExtraCapsLoop_frame (thread bufferPtr : Ptr) (n : ℕ) : ∀ (i : ℕ) (s : KState),
    (lookupExtraCapsLoop u thread bufferPtr n i s).1.eraseData = s.eraseData ∧
      (lookupExtraCapsLoop u thread bufferPtr n i s).1.ipcBuffers = s.ipcBuffers := by
  induction n with
  | zero =>
    intro i s
    simp only [lookupExtraCapsLoop]
    split_ifs <;> exact ⟨rfl, rfl⟩
  | succ n ih =>
    intro i s
    simp only [lookupExtraCapsLoop]
    split_ifs
    · exact ⟨rfl, rfl⟩
    · exact ih _ _

theorem lookupExtraCaps_frame (thread bufferPtr : Ptr) (info : OsMessageInfo) :
    (lookupExtraCaps u thread bufferPtr info s).1.eraseData = s.eraseData ∧
      (lookupExtraCaps u thread bufferPtr info s).1.ipcBuffers = s.ipcBuffers := by
  rw [lookupExtraCaps]
  split_ifs
  · exact ⟨rfl, rfl⟩
  · exact lookupExtraCapsLoop_frame thread bufferPtr _ _ _

/-- The badges that take the place of capabilities go to words of their own, and nothing else is
written to a buffer. -/
theorem transferCapsLoop_frame (endpoint receiveBuffer : Ptr) (n : ℕ) :
    ∀ (i : ℕ) (destSlot : Ptr) (unwrapped : BitVec 3) (s : KState),
      (transferCapsLoop P u endpoint receiveBuffer n i destSlot unwrapped s).1.eraseData =
          s.eraseData ∧
        ∀ b j, (b = receiveBuffer → j < osMsgMaxLength + 2 + i ∨ osMsgMaxLength + 2 + i + n ≤ j) →
          (transferCapsLoop P u endpoint receiveBuffer n i destSlot unwrapped s).1.ipcBuffers b j =
            s.ipcBuffers b j := by
  induction n with
  | zero => exact fun _ _ _ _ => ⟨rfl, fun _ _ _ => rfl⟩
  | succ n ih =>
    intro i destSlot unwrapped s
    have hrest : ∀ {b : Ptr} {j : ℕ}, (b = receiveBuffer →
        j < osMsgMaxLength + 2 + i ∨ osMsgMaxLength + 2 + i + (n + 1) ≤ j) → b = receiveBuffer →
        j < osMsgMaxLength + 2 + (i + 1) ∨ osMsgMaxLength + 2 + (i + 1) + n ≤ j := by
      intro b j h hb
      have := h hb
      omega
    simp only [transferCapsLoop]
    split_ifs
    case pos => exact ⟨rfl, fun _ _ _ => rfl⟩
    case pos =>
      refine ⟨(ih _ _ _ _).1, fun b j hj => ((ih _ _ _ _).2 b j (hrest hj)).trans ?_⟩
      rw [setExtraBadge, ipcBuffers_setBufferWord, if_neg]
      rintro ⟨hb, rfl⟩
      have := hj hb
      omega
    case neg =>
      refine ⟨(ih _ _ _ _).1.trans (eraseData_cteInsert s P _ _ _), fun b j hj => ?_⟩
      rw [(ih _ _ _ _).2 b j (hrest hj), ipcBuffers_cteInsert]
    all_goals exact ⟨rfl, fun _ _ _ => rfl⟩

/-- The word `j` of the buffer `b` is not one for badges of a message to `receiveBuffer`. -/
def NoBadge (receiveBuffer b : Ptr) (j : ℕ) : Prop :=
  b = receiveBuffer → j < osMsgMaxLength + 2 ∨ osMsgMaxLength + 2 + osMsgMaxExtraCaps ≤ j

theorem transferCaps_frame (info : OsMessageInfo) (endpoint receiver receiveBuffer : Ptr) :
    (transferCaps P u info endpoint receiver receiveBuffer s).1.eraseData = s.eraseData ∧
      ∀ b j, NoBadge receiveBuffer b j →
        (transferCaps P u info endpoint receiver receiveBuffer s).1.ipcBuffers b j =
          s.ipcBuffers b j := by
  simp only [transferCaps]
  split_ifs
  · exact ⟨rfl, fun _ _ _ => rfl⟩
  · obtain ⟨herase, hword⟩ := transferCapsLoop_frame (P := P) (u := u) endpoint receiveBuffer
      osMsgMaxExtraCaps 0 (getReceiveSlots u receiver receiveBuffer s).2 0
      (getReceiveSlots u receiver receiveBuffer s).1
    refine ⟨herase.trans (getReceiveSlots_frame u s receiver receiveBuffer).1, fun b j hj => ?_⟩
    rw [hword b j hj, (getReceiveSlots_frame u s receiver receiveBuffer).2.1]

theorem transferCaps_label (info : OsMessageInfo) (endpoint receiver receiveBuffer : Ptr) :
    (transferCaps P u info endpoint receiver receiveBuffer s).2.label = info.label := by
  simp only [transferCaps]
  split_ifs <;> rfl

theorem copyMRs_eq_some {sendBuffer recvBuffer : Ptr} {n : ℕ}
    (h : copyMRs sendBuffer recvBuffer n s = some s') :
    s' = copyWords sendBuffer recvBuffer (min n osMsgMaxLength) s := by
  simp only [copyMRs] at h
  split_ifs at h
  exact (Option.some.inj h).symm

theorem messageinfoFromU64_length_le (w : U64) :
    (messageinfoFromU64 w).length.toNat ≤ osMsgMaxLength := by
  simp only [messageinfoFromU64]
  split_ifs with h
  · simp [osMsgMaxLength]
  · exact Nat.le_of_not_lt h

/-- A message info is read back from the word it is stored in, with a length that is possible. -/
theorem messageinfoFromU64_u64 (mi : OsMessageInfo) :
    messageinfoFromU64 (u64FromMessageinfo mi) =
      { mi with length := BitVec.ofNat 7 (min mi.length.toNat osMsgMaxLength) } := by
  obtain ⟨label, unwrapped, caps, length⟩ := mi
  have h₁ : (length ++ caps ++ unwrapped ++ label).extractLsb' 0 52 = label :=
    BitVec.extractLsb'_append_eq_right
  have h₂ : (length ++ caps ++ unwrapped ++ label).extractLsb' 52 3 = unwrapped := by
    rw [BitVec.extractLsb'_append_eq_of_le (by omega)]
    exact BitVec.extractLsb'_append_eq_right
  have h₃ : (length ++ caps ++ unwrapped ++ label).extractLsb' 55 2 = caps := by
    rw [BitVec.extractLsb'_append_eq_of_le (by omega),
      BitVec.extractLsb'_append_eq_of_le (by omega)]
    exact BitVec.extractLsb'_append_eq_right
  have h₄ : (length ++ caps ++ unwrapped ++ label).extractLsb' 57 7 = length := by
    rw [BitVec.extractLsb'_append_eq_of_le (by omega),
      BitVec.extractLsb'_append_eq_of_le (by omega)]
    exact BitVec.extractLsb'_append_eq_left
  simp only [messageinfoFromU64, u64FromMessageinfo, h₁, h₂, h₃, h₄]
  split_ifs with h
  · rw [min_eq_right (Nat.le_of_lt h)]
  · rw [min_eq_left (Nat.le_of_not_lt h), BitVec.ofNat_toNat, BitVec.setWidth_eq]

theorem messageinfoFromU64_u64FromMessageinfo {mi : OsMessageInfo}
    (h : mi.length.toNat ≤ osMsgMaxLength) : messageinfoFromU64 (u64FromMessageinfo mi) = mi := by
  rw [messageinfoFromU64_u64, min_eq_left h, BitVec.ofNat_toNat, BitVec.setWidth_eq]

end Words

/-! ### What a transfer does -/

section Transfer

variable {P : Packing} {u : Undef} {sender endpoint receiver : Ptr} {badge : U64}
  {grant : Bool} {s s' : KState}

theorem doNormalTransfer_spec {sendBuffer receiveBuffer : Ptr}
    (h : doNormalTransfer P u sender sendBuffer endpoint badge grant receiver receiveBuffer s =
      some s') :
    s'.eraseData = s.eraseData ∧ (s'.tcbs receiver).registers badgeRegister = badge ∧
      (∃ tag : OsMessageInfo, tag.label = (messageinfoFromU64 (s.tcbs sender).tf.rsi).label ∧
        tag.length = u.copyMRs.setWidth 7 ∧
        (s'.tcbs receiver).registers msgInfoRegister = u64FromMessageinfo tag) ∧
      ∀ b j, NoBadge receiveBuffer b j → s'.ipcBuffers b j =
        if b = receiveBuffer ∧ 1 ≤ j ∧
          j ≤ (messageinfoFromU64 (s.tcbs sender).tf.rsi).length.toNat
        then s.ipcBuffers sendBuffer j else s.ipcBuffers b j := by
  simp only [doNormalTransfer, bind, Option.bind_eq_some_iff, pure, Option.some.injEq] at h
  obtain ⟨s₂, hcopy, rfl⟩ := h
  have hcopy' := copyMRs_eq_some hcopy
  rw [min_eq_left (messageinfoFromU64_length_le _)] at hcopy'
  have hextra := lookupExtraCaps_frame (u := u) (s := s) sender sendBuffer
    (messageinfoFromU64 (s.tcbs sender).tf.rsi)
  -- the state in which the words are copied
  obtain ⟨s₁, hs₁, herase₁, hbuffers₁⟩ : ∃ s₁, s₂ = copyWords sendBuffer receiveBuffer _ s₁ ∧
      s₁.eraseData = s.eraseData ∧ s₁.ipcBuffers = s.ipcBuffers := by
    refine ⟨_, hcopy', ?_⟩
    split_ifs
    · exact hextra
    · exact hextra
    · exact ⟨rfl, rfl⟩
  have hcaps := transferCaps_frame (P := P) (u := u) (s := s₂)
    (messageinfoFromU64 (s.tcbs sender).tf.rsi) endpoint receiver receiveBuffer
  refine ⟨?_, by simp [KState.setRegister],
    ⟨{ (transferCaps P u (messageinfoFromU64 (s.tcbs sender).tf.rsi) endpoint receiver
        receiveBuffer s₂).2 with length := u.copyMRs.setWidth 7 },
      transferCaps_label _ _ _ _, rfl, ?_⟩, fun b j hj => ?_⟩
  · rw [KState.eraseData_setRegister, KState.eraseData_setRegister, hcaps.1, hs₁,
      eraseData_copyWords, herase₁]
  · simp [KState.setRegister, badgeRegister, msgInfoRegister]
  · refine (hcaps.2 b j hj).trans ?_
    rw [hs₁, copyWords_word, hbuffers₁]

/-- A transfer leaves queues, thread states and endpoints alone. -/
theorem doIpcTransfer_erase
    (h : doIpcTransfer P u sender endpoint badge grant receiver s = some s') :
    receiver ≠ NULL ∧ sender ≠ NULL ∧ s'.eraseData = s.eraseData := by
  simp only [doIpcTransfer, bind, Option.bind_eq_some_iff, deref_eq_some,
    exists_const] at h
  obtain ⟨hr, hs, h⟩ := h
  refine ⟨hr, hs, ?_⟩
  split_ifs at h
  · exact (doNormalTransfer_spec h).1
  · rw [← Option.some.inj h, doFaultTransfer]

/-- From a sender without a fault the receiver gets the badge and the label, and the words of the
message in its buffer; no other word of a message buffer changes. -/
theorem doIpcTransfer_spec (hfault : (s.tcbs sender).osFaultType = 0)
    (h : doIpcTransfer P u sender endpoint badge grant receiver s = some s') :
    (s'.tcbs receiver).registers badgeRegister = badge ∧
      (∃ tag : OsMessageInfo, tag.label = (messageinfoFromU64 (s.tcbs sender).tf.rsi).label ∧
        tag.length = u.copyMRs.setWidth 7 ∧
        (s'.tcbs receiver).registers msgInfoRegister = u64FromMessageinfo tag) ∧
      ∀ b, ∀ j ≤ osMsgMaxLength, s'.ipcBuffers b j =
        if b = lookupIpcBuffer receiver s ∧ 1 ≤ j ∧
          j ≤ (messageinfoFromU64 (s.tcbs sender).tf.rsi).length.toNat
        then s.ipcBuffers (lookupIpcBuffer sender s) j else s.ipcBuffers b j := by
  simp only [doIpcTransfer, bind, Option.bind_eq_some_iff, deref_eq_some,
    exists_const, hfault, if_true] at h
  obtain ⟨-, hbadge, htag, hwords⟩ := doNormalTransfer_spec h.2.2
  refine ⟨hbadge, htag, fun b j hj => hwords b j fun _ => Or.inl ?_⟩
  exact Nat.lt_of_le_of_lt hj (by omega)

theorem doIpcTransfer_isSome (hreceiver : receiver ≠ NULL) (hsender : sender ≠ NULL)
    (hrecvBuffer : lookupIpcBuffer receiver s ≠ NULL)
    (hsendBuffer : lookupIpcBuffer sender s ≠ NULL) :
    (doIpcTransfer P u sender endpoint badge grant receiver s).isSome := by
  have hcopy : ∀ n s', copyMRs (lookupIpcBuffer sender s) (lookupIpcBuffer receiver s) n s' =
      some (copyWords (lookupIpcBuffer sender s) (lookupIpcBuffer receiver s)
        (min n osMsgMaxLength) s') := fun n s' => by
    simp [copyMRs, hrecvBuffer, hsendBuffer]
  simp only [doIpcTransfer, deref, hreceiver, hsender, if_false, bind, Option.bind_some]
  split_ifs
  · simp only [doNormalTransfer, hcopy, bind, Option.bind_some, pure, Option.isSome_some]
  · rfl

end Transfer

end MicroKernel
