import MicroKernel.Ipc.Grant

/-!
# The delivered message

`do_normal_transfer` writes the words of the message and the badges of unwrapped capabilities into
one array of words, and gives the receiver a new message info in a register.  The length in it is
what `copyMRs` returns, which has no `return`.

* `IpcBuffer`, `KState.ipcBuffer` : the array as the structure of the source;
* `doNormalTransfer_message` : what a transfer writes to the two buffers;
* `doNormalTransfer_describes_iff` : when the message info describes the message.
-/

namespace MicroKernel

/-! ### The buffers -/

/-- `struct _IpcBuffer`. -/
structure IpcBuffer where
  /-- The message info. -/
  tag : U64
  /-- The words of the message, `Os_MsgMaxLength` of them. -/
  msg : ℕ → U64
  /-- A word for the user. -/
  userData : U64
  /-- Capabilities to send, or badges that were received, `Os_MsgMaxExtraCaps` of them. -/
  capsOrBadges : ℕ → U64
  /-- The root for the slot to receive in. -/
  receiveCNode : U64
  /-- The address of this slot. -/
  receiveIndex : U64
  /-- How many bits of the address to use. -/
  receiveDepth : U64

/-- The buffer at an address. -/
def KState.ipcBuffer (s : KState) (buffer : Ptr) : IpcBuffer where
  tag := s.ipcBuffers buffer 0
  msg i := s.ipcBuffers buffer (1 + i)
  userData := s.ipcBuffers buffer (1 + osMsgMaxLength)
  capsOrBadges i := s.ipcBuffers buffer (2 + osMsgMaxLength + i)
  receiveCNode := s.ipcBuffers buffer (2 + osMsgMaxLength + osMsgMaxExtraCaps)
  receiveIndex := s.ipcBuffers buffer (3 + osMsgMaxLength + osMsgMaxExtraCaps)
  receiveDepth := s.ipcBuffers buffer (4 + osMsgMaxLength + osMsgMaxExtraCaps)

/-- The number of words that a message has: the length in the message info of the sender, as far as
there is room. -/
def messageWords (sender : Ptr) (s : KState) : ℕ :=
  min ((s.tcbs sender).tf.rsi.extractLsb' 57 7).toNat osMsgMaxLength

/-- Of the buffer `recv`, the first `k` words of the message are those of `send` afterwards, and
everything else but the badges is as it was. -/
structure MessageCopied (k : ℕ) (send recv recv' : IpcBuffer) : Prop where
  /-- The words of the message. -/
  copied : ∀ i < k, recv'.msg i = send.msg i
  /-- The words behind it. -/
  rest : ∀ i, k ≤ i → i < osMsgMaxLength → recv'.msg i = recv.msg i
  /-- The message info. -/
  tag : recv'.tag = recv.tag
  /-- The word for the user. -/
  userData : recv'.userData = recv.userData
  /-- The root for the slot. -/
  receiveCNode : recv'.receiveCNode = recv.receiveCNode
  /-- The address of the slot. -/
  receiveIndex : recv'.receiveIndex = recv.receiveIndex
  /-- The bits of the address. -/
  receiveDepth : recv'.receiveDepth = recv.receiveDepth

section Message

variable {P : Packing} {u : Undef} {sender sendBuffer endpoint receiver receiveBuffer : Ptr}
  {badge : U64} {canGrant : Bool} {s s' : KState}

theorem messageinfoFromU64_length (w : U64) :
    (messageinfoFromU64 w).length.toNat = min (w.extractLsb' 57 7).toNat osMsgMaxLength := by
  simp only [messageinfoFromU64]
  split_ifs with h
  · rw [min_eq_right (Nat.le_of_lt h)]
    simp [osMsgMaxLength]
  · exact (min_eq_left (Nat.le_of_not_lt h)).symm

theorem sentTag_length (sender : Ptr) (s : KState) :
    (sentTag sender s).length.toNat = messageWords sender s := messageinfoFromU64_length _

variable (P u sender endpoint badge canGrant receiver s) in
theorem doNormalTransfer_isSome (hsend : sendBuffer ≠ NULL) (hrecv : receiveBuffer ≠ NULL) :
    (doNormalTransfer P u sender sendBuffer endpoint badge canGrant receiver receiveBuffer
      s).isSome := by
  have hcopy : ∀ n k, copyMRs sendBuffer receiveBuffer n k =
      some (copyWords sendBuffer receiveBuffer (min n osMsgMaxLength) k) := fun n k => by
    simp [copyMRs, hsend, hrecv]
  simp only [doNormalTransfer, hcopy, bind, Option.bind_some, pure, Option.isSome_some]

/-- The words of the message go to the receiver, badges go to the words for them, and nothing else
of a buffer is written. -/
theorem messageCopied_of_transfer
    (h : doNormalTransfer P u sender sendBuffer endpoint badge canGrant receiver receiveBuffer s =
      some s') :
    MessageCopied (messageWords sender s) (s.ipcBuffer sendBuffer) (s.ipcBuffer receiveBuffer)
        (s'.ipcBuffer receiveBuffer) ∧
      ∀ b ≠ receiveBuffer, s'.ipcBuffers b = s.ipcBuffers b := by
  obtain ⟨-, -, -, hwords⟩ := doNormalTransfer_spec h
  have hlen := sentTag_length sender s
  rw [sentTag] at hlen
  rw [hlen] at hwords
  have hle : messageWords sender s ≤ osMsgMaxLength := min_le_right _ _
  -- the words behind the message
  have hkeep : ∀ j, j = 0 ∨ messageWords sender s < j →
      j < osMsgMaxLength + 2 ∨ osMsgMaxLength + 2 + osMsgMaxExtraCaps ≤ j →
      s'.ipcBuffers receiveBuffer j = s.ipcBuffers receiveBuffer j := by
    intro j hj hbadge
    rw [hwords receiveBuffer j fun _ => hbadge, if_neg]
    rintro ⟨-, h1, h2⟩
    omega
  constructor
  · constructor
    · intro i hi
      refine (hwords receiveBuffer (1 + i) fun _ => Or.inl (by omega)).trans ?_
      exact if_pos ⟨rfl, by omega, by omega⟩
    · exact fun i hi hlt => hkeep (1 + i) (Or.inr (by omega)) (Or.inl (by omega))
    · exact hkeep 0 (Or.inl rfl) (Or.inl (by omega))
    · exact hkeep _ (Or.inr (by omega)) (Or.inl (by omega))
    · exact hkeep _ (Or.inr (by omega)) (Or.inr (by omega))
    · exact hkeep _ (Or.inr (by omega)) (Or.inr (by omega))
    · exact hkeep _ (Or.inr (by omega)) (Or.inr (by omega))
  · intro b hb
    funext j
    rw [hwords b j fun heq => absurd heq hb, if_neg fun h => hb h.1]

/-- Between two buffers a transfer copies the words of the message, at most `Os_MsgMaxLength` of
them.  The other words of the receiver are as they were, but for the badges, and the buffer of the
sender is as it was. -/
theorem doNormalTransfer_message (hsend : sendBuffer ≠ NULL) (hrecv : receiveBuffer ≠ NULL)
    (hdisjoint : sendBuffer ≠ receiveBuffer) :
    ∃ s', doNormalTransfer P u sender sendBuffer endpoint badge canGrant receiver receiveBuffer s =
        some s' ∧
      MessageCopied (messageWords sender s) (s.ipcBuffer sendBuffer) (s.ipcBuffer receiveBuffer)
        (s'.ipcBuffer receiveBuffer) ∧
      s'.ipcBuffers sendBuffer = s.ipcBuffers sendBuffer := by
  obtain ⟨s', h⟩ := Option.isSome_iff_exists.1
    (doNormalTransfer_isSome P u sender endpoint receiver badge canGrant s hsend hrecv)
  obtain ⟨hcopied, hother⟩ := messageCopied_of_transfer h
  exact ⟨s', h, hcopied, hother sendBuffer hdisjoint⟩

end Message

/-- The thread at `0xFFFFFFFF9FEC1400` sends a message of three words. -/
def sendThreeWords : KState :=
  { KState.zero.modTcb 0xFFFFFFFF9FEC1400 fun t =>
      { t with tf := { t.tf with rsi := u64FromMessageinfo ⟨0, 0, 0, 3⟩ } } with
    ipcBuffers := fun b i => if b = 0xFFFFFFFF9FEC3000 then BitVec.ofNat 64 (11 * i) else 5 }

/-- The three words arrive, and the next one is as it was. -/
theorem doNormalTransfer_message_threeWords :
    ∃ s', doNormalTransfer .recoverable Undef.benign 0xFFFFFFFF9FEC1400 0xFFFFFFFF9FEC3000
        0xFFFFFFFF9FEC0000 1 true 0xFFFFFFFF9FEC5400 0xFFFFFFFF9FEC6000 sendThreeWords = some s' ∧
      (s'.ipcBuffer 0xFFFFFFFF9FEC6000).msg 0 = 11 ∧ (s'.ipcBuffer 0xFFFFFFFF9FEC6000).msg 1 = 22 ∧
      (s'.ipcBuffer 0xFFFFFFFF9FEC6000).msg 2 = 33 ∧
      (s'.ipcBuffer 0xFFFFFFFF9FEC6000).msg 3 = 5 := by
  obtain ⟨s', h, hcopied, -⟩ := @doNormalTransfer_message .recoverable Undef.benign
    0xFFFFFFFF9FEC1400 0xFFFFFFFF9FEC3000 0xFFFFFFFF9FEC0000 0xFFFFFFFF9FEC5400 0xFFFFFFFF9FEC6000 1
    true sendThreeWords (by decide) (by decide) (by decide)
  have hwords : messageWords 0xFFFFFFFF9FEC1400 sendThreeWords = 3 := by decide
  rw [hwords] at hcopied
  exact ⟨s', h, hcopied.copied 0 (by decide), hcopied.copied 1 (by decide),
    hcopied.copied 2 (by decide), hcopied.rest 3 (by decide) (by decide)⟩

/-! ### The message info -/

/-- After a transfer from `s` to `s'`, the message info of the receiver has the label of the sender,
the number of words that were copied, and what `transfer_caps` has put in. -/
def Describes (P : Packing) (u : Undef) (sender sendBuffer endpoint : Ptr) (canGrant : Bool)
    (receiver receiveBuffer : Ptr) (s s' : KState) : Prop :=
  ∃ s₂, transferState u sender sendBuffer canGrant receiveBuffer s = some s₂ ∧
    let caps := (transferCaps P u (sentTag sender s) endpoint receiver receiveBuffer s₂).2
    (receivedTag receiver s').label = (sentTag sender s).label ∧
      (receivedTag receiver s').length.toNat = messageWords sender s ∧
      (receivedTag receiver s').extraCaps = caps.extraCaps ∧
      (receivedTag receiver s').capsUnwrapped = caps.capsUnwrapped

/-- The length in the message info is what is found in place of the value of `copyMRs`. -/
theorem receivedTag_length {P : Packing} {u : Undef}
    {sender sendBuffer endpoint receiver receiveBuffer : Ptr} {badge : U64} {canGrant : Bool}
    {s s' : KState}
    (h : doNormalTransfer P u sender sendBuffer endpoint badge canGrant receiver receiveBuffer s =
      some s') :
    (receivedTag receiver s').length.toNat = min (u.copyMRs.toNat % 2 ^ 7) osMsgMaxLength := by
  obtain ⟨s₂, -, -, htag⟩ := doNormalTransfer_eq_some h
  have hlt : min (u.copyMRs.toNat % 2 ^ 7) osMsgMaxLength < 2 ^ 7 :=
    Nat.lt_of_le_of_lt (min_le_right _ _) (by decide)
  rw [htag]
  simp only [BitVec.toNat_setWidth, BitVec.toNat_ofNat]
  exact Nat.mod_eq_of_lt hlt

/-- The message info describes the message if and only if the value that `copyMRs` does not return,
cut to 7 bits and limited as any length, happens to be the number of words. -/
theorem doNormalTransfer_describes_iff {P : Packing} {u : Undef}
    {sender sendBuffer endpoint receiver receiveBuffer : Ptr} {badge : U64} {canGrant : Bool}
    {s s' : KState}
    (h : doNormalTransfer P u sender sendBuffer endpoint badge canGrant receiver receiveBuffer s =
      some s') :
    Describes P u sender sendBuffer endpoint canGrant receiver receiveBuffer s s' ↔
      min (u.copyMRs.toNat % 2 ^ 7) osMsgMaxLength = messageWords sender s := by
  obtain ⟨s₂, hstate, -, htag⟩ := doNormalTransfer_eq_some h
  rw [Describes, ← receivedTag_length h]
  refine ⟨?_, fun hlen => ⟨s₂, hstate, ?_, hlen, by rw [htag], by rw [htag]⟩⟩
  · rintro ⟨-, -, -, hlen, -⟩
    exact hlen
  · rw [htag]
    exact transferCaps_label _ _ _ _

/-- The message of three words, where the value that is not returned happens to be `128 + 3`. -/
theorem doNormalTransfer_describes_iff_threeWords :
    ∃ s', doNormalTransfer .recoverable { Undef.benign with copyMRs := 131 } 0xFFFFFFFF9FEC1400
        0xFFFFFFFF9FEC3000 0xFFFFFFFF9FEC0000 1 true 0xFFFFFFFF9FEC5400 0xFFFFFFFF9FEC6000
        sendThreeWords = some s' ∧
      Describes .recoverable { Undef.benign with copyMRs := 131 } 0xFFFFFFFF9FEC1400
        0xFFFFFFFF9FEC3000 0xFFFFFFFF9FEC0000 true 0xFFFFFFFF9FEC5400 0xFFFFFFFF9FEC6000
        sendThreeWords s' := by
  have hsome : (doNormalTransfer .recoverable { Undef.benign with copyMRs := 131 }
      0xFFFFFFFF9FEC1400 0xFFFFFFFF9FEC3000 0xFFFFFFFF9FEC0000 1 true 0xFFFFFFFF9FEC5400
      0xFFFFFFFF9FEC6000 sendThreeWords).isSome :=
    doNormalTransfer_isSome _ _ _ _ _ _ _ _ (by decide) (by decide)
  obtain ⟨s', h⟩ := Option.isSome_iff_exists.1 hsome
  exact ⟨s', h, (doNormalTransfer_describes_iff h).2 (by decide)⟩

/-- The thread at `0xFFFFFFFF9FEC1400` sends a message of one word. -/
def sendOneWord : KState :=
  KState.zero.modTcb 0xFFFFFFFF9FEC1400 fun t =>
    { t with tf := { t.tf with rsi := u64FromMessageinfo ⟨0, 0, 0, 1⟩ } }

/-- A message of one word, for which 0 is found in place of the value. -/
theorem not_doNormalTransfer_describes :
    ¬∀ (P : Packing) (u : Undef) (sender sendBuffer endpoint : Ptr) (badge : U64) (canGrant : Bool)
      (receiver receiveBuffer : Ptr) (s s' : KState),
      doNormalTransfer P u sender sendBuffer endpoint badge canGrant receiver receiveBuffer s =
          some s' →
        Describes P u sender sendBuffer endpoint canGrant receiver receiveBuffer s s' := by
  intro hall
  have hsome : (doNormalTransfer .recoverable Undef.benign 0xFFFFFFFF9FEC1400 0xFFFFFFFF9FEC3000
      0xFFFFFFFF9FEC0000 1 true 0xFFFFFFFF9FEC5400 0xFFFFFFFF9FEC6000 sendOneWord).isSome :=
    doNormalTransfer_isSome _ _ _ _ _ _ _ _ (by decide) (by decide)
  have h := (Option.some_get hsome).symm
  obtain ⟨s₂, -, -, hlen, -⟩ := hall _ _ _ _ _ _ _ _ _ _ _ h
  have hwords : messageWords 0xFFFFFFFF9FEC1400 sendOneWord = 1 := by decide
  rw [receivedTag_length h, hwords] at hlen
  exact absurd hlen (by decide)

end MicroKernel
