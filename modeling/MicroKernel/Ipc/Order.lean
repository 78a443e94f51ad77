import MicroKernel.Kernel.Resume

/-!
# The order of messages at an endpoint

Any number of threads send to one endpoint and receive from it.  The kernel is taken with the
widths of its bit fields and with any values for what it leaves undefined.

* `Message`, `outbox`, `inbox` : the message that a thread sends, and the one that it finds;
* `Channel`, `channelSystem` : the calls on one endpoint, with the messages sent and received;
* `Exchanged` : what a step should guarantee: the messages received are the first ones sent, in
  order, the others are queued, and a receiver that finds no sender waits;
* `ChannelInv` : the invariant, with the queue of senders;
* `channelSystem_exchanged` : it holds at every step of a run in which no queued thread goes on, no
  receiver has to wait and the undefined values happen to be right (`Proper`);
* `not_channelSystem_exchanged` : a receiver that finds no sender brings the kernel down.
-/

namespace MicroKernel

open DList

/-! ### Messages -/

/-- A message. -/
@[ext]
structure Message where
  /-- The badge of the capability that was used. -/
  badge : U64
  /-- The label. -/
  label : BitVec 52
  /-- The words. -/
  words : List U64
  deriving DecidableEq

/-- The first `n` words behind the first one of a message buffer. -/
def bufferWords (buffer : Ptr) (n : ℕ) (s : KState) : List U64 :=
  (List.range n).map fun i => s.ipcBuffers buffer (1 + i)

/-- The message that is described by `info`, in the buffer of a thread. -/
def messageIn (t : Ptr) (badge info : U64) (s : KState) : Message :=
  let mi := messageinfoFromU64 info
  ⟨badge, mi.label, bufferWords (lookupIpcBuffer t s) mi.length.toNat s⟩

/-- The message that a thread sends. -/
def outbox (t : Ptr) (badge : U64) (s : KState) : Message :=
  messageIn t badge (s.tcbs t).tf.rsi s

/-- The message that a thread finds in its registers and its buffer. -/
def inbox (t : Ptr) (s : KState) : Message :=
  messageIn t ((s.tcbs t).registers badgeRegister) ((s.tcbs t).registers msgInfoRegister) s

/-- The message of a thread that waits for a receiver. -/
def pending (t : Ptr) (s : KState) : Message := outbox t (s.tcbs t).tcbState.blockingIPCBadge s

/-! ### The calls on one endpoint -/

/-- The kernel, and the messages sent and received so far. -/
structure Channel where
  /-- The kernel. -/
  kernel : KState
  /-- The messages sent. -/
  sent : List Message
  /-- The messages received. -/
  received : List Message

/-- The events on a channel. -/
inductive ChannelEvent where
  /-- In user mode a thread writes a message into its buffer, and its message info. -/
  | compose (t : Ptr) (words : ℕ → U64) (info : U64)
  /-- A blocking `send_ipc`. -/
  | send (u : Undef) (t : Ptr) (badge : U64) (doCall canGrant canGrantReply : Bool)
  /-- `receive_ipc`. -/
  | receive (u : Undef) (t : Ptr) (cap : Cap) (isBlocking : Bool)

/-- The thread is in the queue of the endpoint. -/
def Queued (e t : Ptr) (s : KState) : Prop :=
  Reaches NULL s.epLinks (s.endpoints e).epQueueHead t

/-- A sender is queued. -/
def SenderQueued (e : Ptr) (s : KState) : Prop :=
  (s.endpoints e).state = .send ∧ (s.endpoints e).epQueueHead ≠ NULL

instance (e : Ptr) (s : KState) : Decidable (SenderQueued e s) :=
  inferInstanceAs (Decidable (_ ∧ _))

/-- Write the message buffer of a thread and its message info. -/
def compose (t : Ptr) (words : ℕ → U64) (info : U64) (s : KState) : KState :=
  { s.modTcb t fun tcb => { tcb with tf := { tcb.tf with rsi := info } } with
    ipcBuffers := Function.update s.ipcBuffers (lookupIpcBuffer t s) words }

/-- The channel after an event, if the kernel returns.  A `send` that finds a receiver is received
at once; a `receive` gets a message if it finds a sender and takes no signal. -/
def Channel.step (e : Ptr) (c : Channel) : ChannelEvent → Option Channel
  | .compose t words info => some { c with kernel := compose t words info c.kernel }
  | .send u t badge doCall canGrant canGrantReply => do
    let s ← sendIpc .bitFields u true doCall badge canGrant canGrantReply t e c.kernel
    let sent := c.sent ++ [outbox t badge c.kernel]
    if (c.kernel.endpoints e).state = .recv then
      return ⟨s, sent, c.received ++ [inbox (c.kernel.endpoints e).epQueueHead s]⟩
    else return ⟨s, sent, c.received⟩
  | .receive u t cap isBlocking => do
    let s ← receiveIpc .bitFields u t cap isBlocking c.kernel
    if ¬HasSignal t c.kernel ∧ SenderQueued e c.kernel then
      return ⟨s, c.sent, c.received ++ [inbox t s]⟩
    else return ⟨s, c.sent, c.received⟩

/-- The event is one of the threads `T`, on the endpoint `e`. -/
def ChannelEvent.On (T : Set Ptr) (e : Ptr) : ChannelEvent → Prop
  | .compose t _ _ => t ∈ T
  | .send _ t _ _ _ _ => t ∈ T
  | .receive _ t cap _ => t ∈ T ∧ epAddr cap.endpointCap.capEPPtr = e

/-- The step for an event; after a fault in the kernel there is no state, and no step. -/
def channelStep (e : Ptr) (o : Option Channel) (ev : ChannelEvent) : Option (Option Channel) :=
  o.map fun c => c.step e ev

/-- The threads `T` use the endpoint `e`. -/
def channelSystem (T : Set Ptr) (e : Ptr) : System (Option Channel) ChannelEvent :=
  (System.ofStep (channelStep e)).restrict fun x => x.ev.On T e

/-- The threads `T` have message buffers of their own, and no faults. -/
structure OwnBuffers (T : Set Ptr) (s : KState) : Prop where
  /-- Threads are objects. -/
  null_notMem : NULL ∉ T
  /-- They have no fault. -/
  noFault : ∀ t ∈ T, (s.tcbs t).osFaultType = 0
  /-- They have message buffers. -/
  buffer_ne : ∀ t ∈ T, lookupIpcBuffer t s ≠ NULL
  /-- No two of them have the same buffer. -/
  buffer_inj : ∀ t ∈ T, ∀ t' ∈ T, lookupIpcBuffer t s = lookupIpcBuffer t' s → t = t'

/-- The start: the endpoint is idle and empty. -/
structure ChannelBoot (T : Set Ptr) (e : Ptr) (c : Channel) : Prop where
  /-- The endpoint. -/
  endpoint : c.kernel.endpoints e = ⟨NULL, NULL, .idle⟩
  /-- No message has been sent. -/
  sent_eq : c.sent = []
  /-- No message has been received. -/
  received_eq : c.received = []
  /-- The message buffers. -/
  buffers : OwnBuffers T c.kernel

/-! ### What should hold -/

/-- The thread waits at the endpoint for a sender. -/
structure WaitsToReceive (e t : Ptr) (s : KState) : Prop where
  /-- The endpoint. -/
  endpoint : (s.endpoints e).state = .recv
  /-- The thread. -/
  thread : (s.tcbs t).tcbState.tsType = .blockedOnReceive
  /-- Its place. -/
  queued : Queued e t s

/-- The messages received are the first ones that were sent, in order; the others are still with
the senders that are queued. -/
def InOrder (e : Ptr) (c : Channel) : Prop :=
  c.received <+: c.sent ∧ ∃ Q,
    NextChain NULL c.kernel.epLinks (c.kernel.endpoints e).epQueueHead Q ∧
    c.sent.length = c.received.length + if (c.kernel.endpoints e).state = .send then Q.length else 0

/-- The step ends in a state with the messages in order; if it is a `receive` that finds no sender
and no signal, nobody is dequeued and the receiver waits. -/
def Exchanged (e : Ptr) (x : System.Step (Option Channel) ChannelEvent) : Prop :=
  ∃ c', x.post = some c' ∧ InOrder e c' ∧
    ∀ c u t cap isBlocking, x.pre = some c → x.ev = .receive u t cap isBlocking →
      ¬HasSignal t c.kernel → ¬SenderQueued e c.kernel →
      (∀ t', Queued e t' c.kernel → Queued e t' c'.kernel) ∧ WaitsToReceive e t c'.kernel

/-- The tail stored in the endpoint is the last thread of the queue. -/
def TailStored (e : Ptr) (s : KState) : Prop :=
  (s.endpoints e).epQueueHead ≠ NULL →
    Queued e (s.endpoints e).epQueueTail s ∧ s.epLinks.next (s.endpoints e).epQueueTail = NULL

/-- The condition on an event.  A thread that is queued does not go on, except that the first one
may receive its own message; a receiver finds a signal or a sender; and the values that
`tcb_ep_append` and `copyMRs` do not return are right as far as they matter. -/
def Proper (e : Ptr) (c : Channel) : ChannelEvent → Prop
  | .compose t _ _ => ¬Queued e t c.kernel
  | .send u t _ _ _ _ =>
    ¬Queued e t c.kernel ∧ TailStored e c.kernel ∧
      ∀ queue, (u.tcbEpAppend queue).head = queue.head
  | .receive u t _ _ =>
    HasSignal t c.kernel ∨ SenderQueued e c.kernel ∧
      (Queued e t c.kernel → t = (c.kernel.endpoints e).epQueueHead) ∧
      u.copyMRs.setWidth 7 =
        (messageinfoFromU64 (c.kernel.tcbs (c.kernel.endpoints e).epQueueHead).tf.rsi).length

/-! ### The invariant -/

/-- The invariant: the threads `Q` are queued, and their messages are the ones that have been sent
and not received. -/
structure ChannelInv (T : Set Ptr) (e : Ptr) (c : Channel) (Q : List Ptr) : Prop where
  /-- The queue is well formed, except for the tail that is stored. -/
  repr : Repr NULL c.kernel.epLinks ⟨(c.kernel.endpoints e).epQueueHead, Q.getLastD NULL⟩ Q
  /-- The tail that is stored for an empty queue. -/
  tail : Q = [] → (c.kernel.endpoints e).epQueueTail = NULL
  /-- The state of the endpoint. -/
  state : (c.kernel.endpoints e).state = if Q = [] then .idle else .send
  /-- The queued threads. -/
  mem : ∀ t ∈ Q, t ∈ T
  /-- Their messages. -/
  messages : c.sent = c.received ++ Q.map fun t => pending t c.kernel
  /-- The message buffers. -/
  buffers : OwnBuffers T c.kernel

section Messages

variable {s s' s'' : KState} {T : Set Ptr} {t t' : Ptr}

theorem bufferWords_congr {b b' : Ptr} {n : ℕ}
    (h : ∀ j, 1 ≤ j → j ≤ n → s'.ipcBuffers b' j = s.ipcBuffers b j) :
    bufferWords b' n s' = bufferWords b n s :=
  List.map_congr_left fun i hi => h (1 + i) (by omega) (by have := List.mem_range.1 hi; omega)

/-- What a thread keeps of a message that it sends, and its fault. -/
def Tcb.mail (t : Tcb) : U64 × U64 × Ptr × ℕ :=
  (t.tcbState.blockingIPCBadge, t.tf.rsi, t.tcbIPCBuffer, t.osFaultType)

theorem rsi_of_mail (h : (s'.tcbs t).mail = (s.tcbs t).mail) :
    (s'.tcbs t).tf.rsi = (s.tcbs t).tf.rsi := by
  simp only [Tcb.mail, Prod.mk.injEq] at h
  exact h.2.1

theorem lookupIpcBuffer_of_mail (h : (s'.tcbs t).mail = (s.tcbs t).mail) :
    lookupIpcBuffer t s' = lookupIpcBuffer t s := by
  simp only [Tcb.mail, Prod.mk.injEq] at h
  exact h.2.2.1

theorem pending_congr (hmail : (s'.tcbs t).mail = (s.tcbs t).mail)
    (hwords : ∀ j ≤ osMsgMaxLength,
      s'.ipcBuffers (lookupIpcBuffer t s) j = s.ipcBuffers (lookupIpcBuffer t s) j) :
    pending t s' = pending t s := by
  have hbuffer := lookupIpcBuffer_of_mail hmail
  simp only [Tcb.mail, Prod.mk.injEq] at hmail
  simp only [pending, outbox, messageIn, hmail.1, hmail.2.1, hbuffer, Message.mk.injEq, true_and]
  have hlen := messageinfoFromU64_length_le (s.tcbs t).tf.rsi
  exact bufferWords_congr fun j _ hj => hwords j (hj.trans hlen)

theorem OwnBuffers.congr (h : OwnBuffers T s)
    (hfault : ∀ t, (s'.tcbs t).osFaultType = (s.tcbs t).osFaultType)
    (hbuffer : ∀ t, lookupIpcBuffer t s' = lookupIpcBuffer t s) : OwnBuffers T s' where
  null_notMem := h.null_notMem
  noFault t ht := (hfault t).trans (h.noFault t ht)
  buffer_ne t ht := hbuffer t ▸ h.buffer_ne t ht
  buffer_inj t ht t' ht' := by
    rw [hbuffer, hbuffer]
    exact h.buffer_inj t ht t' ht'

theorem OwnBuffers.of_mail (h : OwnBuffers T s) (hmail : ∀ t, (s'.tcbs t).mail = (s.tcbs t).mail) :
    OwnBuffers T s' := by
  refine h.congr (fun t => ?_) fun t => lookupIpcBuffer_of_mail (hmail t)
  have hfault := hmail t
  simp only [Tcb.mail, Prod.mk.injEq] at hfault
  exact hfault.2.2.2

/-- The two states have the same endpoints, and every thread the same messages. -/
structure SameMail (s s' : KState) : Prop where
  /-- The links of the queues. -/
  links : s'.epLinks = s.epLinks
  /-- The endpoints. -/
  endpoints : s'.endpoints = s.endpoints
  /-- The message buffers. -/
  words : s'.ipcBuffers = s.ipcBuffers
  /-- What the threads send. -/
  mail : ∀ t, (s'.tcbs t).mail = (s.tcbs t).mail
  /-- What they receive. -/
  registers : ∀ t, (s'.tcbs t).registers = (s.tcbs t).registers

namespace SameMail

theorem refl (s : KState) : SameMail s s := ⟨rfl, rfl, rfl, fun _ => rfl, fun _ => rfl⟩

theorem setTsType (s : KState) (p : Ptr) (ts : ThreadStateType) :
    SameMail s (s.setTsType p ts) where
  links := epLinks_modState _
  endpoints := rfl
  words := rfl
  mail t := s.field_modTcb (f := fun t => { t with tcbState := { t.tcbState with tsType := ts } })
    Tcb.mail (fun _ => rfl) t
  registers t := s.field_modTcb
    (f := fun t => { t with tcbState := { t.tcbState with tsType := ts } })
    Tcb.registers (fun _ => rfl) t

theorem possibleSwitchTo (h : SameMail s s') (t : Ptr) :
    SameMail s (possibleSwitchTo t s') := by
  have herase := eraseSched_possibleSwitchTo (s := s') (t := t)
  refine ⟨?_, ?_, ?_, fun t' => ?_, fun t' => ?_⟩
  · exact (KState.eq_of_eraseSched herase KState.epLinks fun _ => rfl).trans h.links
  · exact (KState.eq_of_eraseSched herase KState.endpoints fun _ => rfl).trans h.endpoints
  · exact (KState.eq_of_eraseSched herase KState.ipcBuffers fun _ => rfl).trans h.words
  · exact (KState.eq_of_eraseSched herase (fun s => (s.tcbs t').mail) fun _ => rfl).trans
      (h.mail t')
  · exact (KState.eq_of_eraseSched herase (fun s => (s.tcbs t').registers) fun _ => rfl).trans
      (h.registers t')

theorem pending (h : SameMail s s') (t : Ptr) : pending t s' = pending t s :=
  pending_congr (h.mail t) fun _ _ => by rw [h.words]

theorem inbox (h : SameMail s s') (t : Ptr) : inbox t s' = inbox t s := by
  simp only [MicroKernel.inbox, messageIn, h.registers, lookupIpcBuffer_of_mail (h.mail t),
    bufferWords, h.words]

end SameMail

/-- The receiver finds the message of the sender, and messages in other buffers stay as they are. -/
theorem inbox_doIpcTransfer {u : Undef} {P : Packing} {sender e receiver : Ptr} {badge : U64}
    {grant : Bool} (hfault : (s.tcbs sender).osFaultType = 0)
    (hcopy : u.copyMRs.setWidth 7 = (messageinfoFromU64 (s.tcbs sender).tf.rsi).length)
    (h : doIpcTransfer P u sender e badge grant receiver s = some s') :
    inbox receiver s' = outbox sender badge s ∧
      ∀ t, lookupIpcBuffer t s ≠ lookupIpcBuffer receiver s → pending t s' = pending t s := by
  obtain ⟨hbadge, ⟨tag, hlabel, hlength, hinfo⟩, hwords⟩ := doIpcTransfer_spec hfault h
  have hmail : ∀ t, (s'.tcbs t).mail = (s.tcbs t).mail := fun t =>
    KState.eq_of_eraseData (doIpcTransfer_erase h).2.2 (fun s => (s.tcbs t).mail) fun _ => rfl
  have hle := messageinfoFromU64_length_le (s.tcbs sender).tf.rsi
  rw [hcopy] at hlength
  refine ⟨?_, fun t ht => pending_congr (hmail t) fun j hj => ?_⟩
  · have hread : messageinfoFromU64 (u64FromMessageinfo tag) = tag :=
      messageinfoFromU64_u64FromMessageinfo (by rwa [hlength])
    rw [inbox, outbox, messageIn, messageIn, hbadge, hinfo, hread]
    refine Message.ext rfl hlabel ?_
    dsimp only
    rw [hlength]
    refine bufferWords_congr fun j hj₁ hj => ?_
    rw [lookupIpcBuffer_of_mail (hmail receiver), hwords _ j (hj.trans hle),
      if_pos ⟨rfl, hj₁, hj⟩]
  · rw [hwords _ j hj, if_neg fun hb => ht hb.1]

end Messages

section Steps

variable {T : Set Ptr} {e t : Ptr} {c c' : Channel} {Q : List Ptr} {u : Undef} {s' : KState}

namespace ChannelInv

theorem queued_iff (h : ChannelInv T e c Q) : Queued e t c.kernel ↔ t ∈ Q :=
  h.repr.nextChain.reaches_iff

theorem inOrder (h : ChannelInv T e c Q) : InOrder e c := by
  refine ⟨⟨_, h.messages.symm⟩, Q, h.repr.nextChain, ?_⟩
  rw [h.messages, h.state]
  by_cases hQ : Q = [] <;> simp [hQ]

theorem senderQueued_iff (h : ChannelInv T e c Q) : SenderQueued e c.kernel ↔ Q ≠ [] := by
  rw [SenderQueued, h.state, Ne, h.repr.head_eq_null_iff]
  by_cases hQ : Q = [] <;> simp [hQ]

theorem congr (h : ChannelInv T e c Q) (hlinks : s'.epLinks = c.kernel.epLinks)
    (hendpoints : s'.endpoints e = c.kernel.endpoints e)
    (hpending : ∀ t ∈ Q, pending t s' = pending t c.kernel) (hbuffers : OwnBuffers T s') :
    ChannelInv T e ⟨s', c.sent, c.received⟩ Q where
  repr := by rw [hlinks, hendpoints]; exact h.repr
  tail := by rw [hendpoints]; exact h.tail
  state := by rw [hendpoints]; exact h.state
  mem := h.mem
  messages := by rw [List.map_congr_left hpending]; exact h.messages
  buffers := hbuffers

theorem compose {words : ℕ → U64} {info : U64} (h : ChannelInv T e c Q) (ht : t ∈ T)
    (hqueued : ¬Queued e t c.kernel) :
    ChannelInv T e ⟨compose t words info c.kernel, c.sent, c.received⟩ Q := by
  have hother : ∀ t' ≠ t, (MicroKernel.compose t words info c.kernel).tcbs t' =
      c.kernel.tcbs t' := fun t' ht' => by
    simp [MicroKernel.compose, ht']
  refine h.congr (c.kernel.epLinks_modTcb (f := fun tcb => { tcb with
    tf := { tcb.tf with rsi := info } }) (fun _ => rfl) fun _ => rfl) rfl (fun t' ht' => ?_) ?_
  · have hne : t' ≠ t := fun heq => hqueued (h.queued_iff.2 (heq ▸ ht'))
    refine pending_congr (by rw [hother t' hne]) fun j _ => ?_
    have hbuffer : lookupIpcBuffer t' c.kernel ≠ lookupIpcBuffer t c.kernel := fun heq =>
      hne (h.buffers.buffer_inj t' (h.mem t' ht') t ht heq)
    simp [MicroKernel.compose, hbuffer]
  · refine h.buffers.congr (fun t' => ?_) fun t' => ?_
    · exact c.kernel.field_modTcb (f := fun tcb => { tcb with tf := { tcb.tf with rsi := info } })
        Tcb.osFaultType (fun _ => rfl) t'
    · exact c.kernel.field_modTcb (f := fun tcb => { tcb with tf := { tcb.tf with rsi := info } })
        Tcb.tcbIPCBuffer (fun _ => rfl) t'

theorem queue_eq (h : ChannelInv T e c Q) (htail : TailStored e c.kernel) :
    epptrGetQueue e c.kernel = ⟨(c.kernel.endpoints e).epQueueHead, Q.getLastD NULL⟩ := by
  by_cases hQ : Q = []
  · rw [epptrGetQueue, h.tail hQ, hQ]
    rfl
  · obtain ⟨hmem, hnext⟩ := htail fun hnull => hQ (h.repr.head_eq_null_iff.1 hnull)
    rw [epptrGetQueue, h.repr.eq_getLastD (h.queued_iff.1 hmem) hnext]

/-- A thread that is not queued sends: it is queued with its message. -/
theorem send {badge : U64} {doCall canGrant canGrantReply : Bool} (h : ChannelInv T e c Q)
    (ht : t ∈ T) (hqueued : ¬Queued e t c.kernel) (htail : TailStored e c.kernel)
    (hhead : ∀ queue, (u.tcbEpAppend queue).head = queue.head)
    (hsend : sendIpc .bitFields u true doCall badge canGrant canGrantReply t e c.kernel = some s') :
    ChannelInv T e ⟨s', c.sent ++ [outbox t badge c.kernel], c.received⟩ (Q ++ [t]) := by
  have hstate : (c.kernel.endpoints e).state ≠ .recv := by
    rw [h.state]
    split_ifs <;> nofun
  obtain ⟨hne, hlinks, hendpoints, herase⟩ := sendIpc_block hstate hsend
  rw [h.queue_eq htail] at hlinks hendpoints
  have hendpoint := congrFun hendpoints e
  rw [Function.update_self] at hendpoint
  have hrepr := h.repr.pushBack (fun hmem => hqueued (h.queued_iff.2 hmem)) hne
  have hcongr : ∀ {β : Type} (g : KState → β), (∀ s, g s.eraseEP = g s) →
      g s' = g (c.kernel.modState t
        (blockedOnSend .bitFields doCall badge canGrant canGrantReply e)) :=
    fun g hg => KState.eq_of_eraseEP herase g hg
  have hother : ∀ t' ∈ Q, pending t' s' = pending t' c.kernel := fun t' ht' => by
    have hne' : t' ≠ t := fun heq => hqueued (h.queued_iff.2 (heq ▸ ht'))
    rw [hcongr (pending t') fun _ => rfl]
    refine pending_congr ?_ fun _ _ => rfl
    rw [KState.modState, KState.tcbs_modTcb_of_ne _ hne']
  have hself : pending t s' = outbox t badge c.kernel := by
    rw [hcongr (pending t) fun _ => rfl]
    simp only [pending, outbox, messageIn, KState.modState, blockedOnSend, lookupIpcBuffer,
      KState.tcbs_modTcb_self]
    rfl
  refine ⟨?_, fun hnil => absurd hnil (by simp), ?_, ?_, ?_, ?_⟩
  · rw [hlinks, hendpoint]
    exact { hrepr with head_eq := (hhead _).trans hrepr.head_eq, tail_eq := rfl }
  · rw [hendpoint, if_neg (by simp)]
  · simpa [or_imp, forall_and] using ⟨h.mem, ht⟩
  · rw [h.messages]
    simp [List.map_congr_left hother, hself]
  · refine h.buffers.congr (fun t' => ?_) fun t' => ?_
    · rw [hcongr (fun s => (s.tcbs t').osFaultType) fun _ => rfl]
      exact c.kernel.field_modTcb Tcb.osFaultType (by exact fun _ => rfl) t'
    · refine (hcongr (lookupIpcBuffer t') fun _ => rfl).trans ?_
      exact c.kernel.field_modTcb Tcb.tcbIPCBuffer (by exact fun _ => rfl) t'

theorem dequeue {t₀ : Ptr} (h : ChannelInv T e c (t₀ :: Q))
    (hdequeue : epDequeue .bitFields t₀ e c.kernel = some s') :
    Repr NULL s'.epLinks ⟨(s'.endpoints e).epQueueHead, Q.getLastD NULL⟩ Q ∧
      (Q = [] → (s'.endpoints e).epQueueTail = NULL) ∧
      (s'.endpoints e).state = if Q = [] then .idle else .send := by
  obtain ⟨-, hlinks, hendpoints, -⟩ := epDequeue_spec hdequeue
  have hendpoint := congrFun hendpoints e
  rw [Function.update_self] at hendpoint
  have hrepr := h.repr.remove List.mem_cons_self
  rw [List.erase_cons_head, remove_fst _ (epptrGetQueue e c.kernel), ← hlinks] at hrepr
  have hrepr₀ : Repr NULL c.kernel.epLinks _ ([] ++ t₀ :: Q) := h.repr
  obtain ⟨hprev, hnext⟩ := hrepr₀.prev_next_eq
  change c.kernel.epLinks.prev t₀ = NULL at hprev
  have hhead : (s'.endpoints e).epQueueHead = Q.headD NULL := by
    rw [hendpoint, head_remove, if_neg (not_not.2 hprev), hnext]
  have hrepr' : Repr NULL s'.epLinks ⟨(s'.endpoints e).epQueueHead, Q.getLastD NULL⟩ Q :=
    { hrepr with head_eq := hhead, tail_eq := rfl }
  refine ⟨hrepr', fun hQ => ?_, ?_⟩
  · rw [hendpoint, tail_remove, hprev, hnext, hQ]
    rfl
  · have hsend : (c.kernel.endpoints e).state = .send := by
      rw [h.state, if_neg (List.cons_ne_nil _ _)]
    have hnull : Q.headD NULL = NULL ↔ Q = [] := by
      rw [← hhead]
      exact hrepr'.head_eq_null_iff
    rw [hendpoint, head_remove, if_neg (not_not.2 hprev), hnext, hsend]
    exact if_congr hnull rfl rfl

/-- A thread that is not queued behind the first one receives the message of the first one. -/
theorem receive {t₀ : Ptr} {capCanGrant : Bool} (h : ChannelInv T e c (t₀ :: Q)) (ht : t ∈ T)
    (hqueued : Queued e t c.kernel → t = t₀)
    (hcopy : u.copyMRs.setWidth 7 = (messageinfoFromU64 (c.kernel.tcbs t₀).tf.rsi).length)
    (hreceive : receiveFromSender .bitFields u t e capCanGrant c.kernel = some s') :
    ChannelInv T e ⟨s', c.sent, c.received ++ [inbox t s']⟩ Q := by
  obtain ⟨s₁, s₂, hdequeue, htransfer, hs'⟩ := receiveFromSender_spec hreceive
  have hhead : (epptrGetQueue e c.kernel).head = t₀ := h.repr.head_eq
  rw [hhead] at hdequeue htransfer hs'
  have hmail' : SameMail s₂ s' := by
    rw [hs']
    split_ifs
    · exact .refl _
    · exact .setTsType _ _ _
    · exact (SameMail.setTsType _ _ _).possibleSwitchTo _
  obtain ⟨-, -, -, herase₁⟩ := epDequeue_spec hdequeue
  have herase₂ := (doIpcTransfer_erase htransfer).2.2
  have hmail₁ : ∀ t', (s₁.tcbs t').mail = (c.kernel.tcbs t').mail := fun t' =>
    KState.eq_of_eraseEP herase₁ (fun s => (s.tcbs t').mail) fun _ => rfl
  have hpending₁ : ∀ t', pending t' s₁ = pending t' c.kernel := fun t' =>
    KState.eq_of_eraseEP herase₁ (pending t') fun _ => rfl
  have hmail₂ : ∀ t', (s₂.tcbs t').mail = (c.kernel.tcbs t').mail := fun t' =>
    (KState.eq_of_eraseData herase₂ (fun s => (s.tcbs t').mail) fun _ => rfl).trans (hmail₁ t')
  have hlinks : s'.epLinks = s₁.epLinks :=
    hmail'.links.trans (KState.eq_of_eraseData herase₂ KState.epLinks fun _ => rfl)
  have hendpoints : s'.endpoints = s₁.endpoints :=
    hmail'.endpoints.trans (KState.eq_of_eraseData herase₂ KState.endpoints fun _ => rfl)
  have hbuffers₁ := h.buffers.of_mail hmail₁
  have ht₀ := h.mem t₀ List.mem_cons_self
  obtain ⟨hinbox, hpending⟩ := inbox_doIpcTransfer (hbuffers₁.noFault t₀ ht₀)
    (by rwa [rsi_of_mail (hmail₁ t₀)]) htransfer
  obtain ⟨hrepr, htail, hstate⟩ := h.dequeue hdequeue
  refine ⟨?_, ?_, ?_, ?_, ?_, ?_⟩
  · rw [hlinks, hendpoints]
    exact hrepr
  · rw [hendpoints]
    exact htail
  · rw [hendpoints]
    exact hstate
  · exact fun t' ht' => h.mem t' (List.mem_cons_of_mem _ ht')
  · have hfirst : inbox t s' = pending t₀ c.kernel := by
      rw [hmail'.inbox, hinbox]
      exact KState.eq_of_eraseEP herase₁ (outbox t₀ _) fun _ => rfl
    have hothers : ∀ t' ∈ Q, pending t' s' = pending t' c.kernel := fun t' ht' => by
      have hne : t' ≠ t := by
        rintro rfl
        have hmem := List.mem_cons_of_mem t₀ ht'
        rw [hqueued (h.queued_iff.2 hmem)] at ht'
        exact (List.nodup_cons.1 h.repr.nodup).1 ht'
      have hbuffer : lookupIpcBuffer t' s₁ ≠ lookupIpcBuffer t s₁ := fun heq =>
        hne (hbuffers₁.buffer_inj t' (h.mem t' (List.mem_cons_of_mem _ ht')) t ht heq)
      rw [hmail'.pending, hpending t' hbuffer, hpending₁]
    rw [h.messages, List.map_congr_left hothers, hfirst]
    simp
  · exact h.buffers.of_mail fun t' => (hmail'.mail t').trans (hmail₂ t')

theorem signal (h : ChannelInv T e c Q) (n : Ptr) :
    ChannelInv T e ⟨completeSignal n t c.kernel, c.sent, c.received⟩ Q := by
  have hi := SameIpc.completeSignal c.kernel n t
  have hmail : ∀ t', ((completeSignal n t c.kernel).tcbs t').mail = (c.kernel.tcbs t').mail := by
    intro t'
    rw [completeSignal]
    split_ifs
    · exact c.kernel.field_modTcb (f := fun tcb => { tcb with
        registers := Function.update tcb.registers badgeRegister
          (c.kernel.notifications n).ntfnMsgIdentifier }) Tcb.mail (fun _ => rfl) t'
    · rfl
  have hwords : (completeSignal n t c.kernel).ipcBuffers = c.kernel.ipcBuffers := by
    rw [completeSignal]
    split_ifs <;> rfl
  exact h.congr hi.links (congrFun hi.endpoints e)
    (fun t' _ => pending_congr (hmail t') fun _ _ => by rw [hwords]) (h.buffers.of_mail hmail)

/-- A call that meets the condition returns and keeps the invariant. -/
theorem step {ev : ChannelEvent} (h : ChannelInv T e c Q) (hon : ev.On T e)
    (hC : Proper e c ev) : ∃ c', c.step e ev = some c' ∧ ∃ Q', ChannelInv T e c' Q' := by
  have hstate : (c.kernel.endpoints e).state ≠ .recv := by
    rw [h.state]
    split_ifs <;> nofun
  have hne : ∀ t ∈ T, t ≠ NULL := fun t ht heq => h.buffers.null_notMem (heq ▸ ht)
  cases ev with
  | compose t words info => exact ⟨_, rfl, Q, h.compose hon hC⟩
  | send u t badge doCall canGrant canGrantReply =>
    obtain ⟨hqueued, htail, hhead⟩ := hC
    have htail' : (epptrGetQueue e c.kernel).head ≠ NULL →
        (epptrGetQueue e c.kernel).tail ≠ NULL := by
      rw [h.queue_eq htail]
      intro hq
      exact h.repr.ne_null (h.repr.tail_mem hq)
    have hreturns : (sendIpc .bitFields u true doCall badge canGrant canGrantReply t e
        c.kernel).isSome := sendIpc_isSome hstate (hne t hon) htail'
    obtain ⟨s', hsend⟩ := Option.isSome_iff_exists.1 hreturns
    refine ⟨_, ?_, _, h.send hon hqueued htail hhead hsend⟩
    simp [Channel.step, hsend, hstate]
  | receive u t cap isBlocking =>
    obtain ⟨ht, rfl⟩ := hon
    by_cases hsignal : HasSignal t c.kernel
    · refine ⟨_, ?_, _, h.signal (t := t) (c.kernel.tcbs t).tcbBoundNotification⟩
      simp [Channel.step, receiveIpc, deref, hne t ht, hsignal]
    · obtain ⟨hsender, hqueued, hcopy⟩ := hC.resolve_left hsignal
      obtain ⟨t₀, Q, rfl⟩ := List.exists_cons_of_ne_nil (h.senderQueued_iff.1 hsender)
      have hhead : (epptrGetQueue (epAddr cap.endpointCap.capEPPtr) c.kernel).head = t₀ :=
        h.repr.head_eq
      have ht₀ := h.mem t₀ List.mem_cons_self
      have hreturns : (receiveIpc .bitFields u t cap isBlocking c.kernel).isSome := by
        refine receiveIpc_isSome hsignal (hne t ht)
          (receiveFromSender_isSome (hne t ht) hsender.2 (h.buffers.buffer_ne t ht) ?_)
        rw [hhead]
        exact h.buffers.buffer_ne t₀ ht₀
      obtain ⟨s', hs'⟩ := Option.isSome_iff_exists.1 hreturns
      refine ⟨⟨s', c.sent, c.received ++ [inbox t s']⟩, ?_, Q, ?_⟩
      · simp [Channel.step, hs', hsignal, hsender]
      · change (c.kernel.endpoints _).epQueueHead = t₀ at hhead
        rw [hhead] at hqueued hcopy
        exact h.receive ht hqueued hcopy (receiveIpc_dequeue hsignal hs').2

end ChannelInv

theorem ChannelBoot.inv (h : ChannelBoot T e c) : ChannelInv T e c [] where
  repr := by
    rw [h.endpoint]
    exact .nil
  tail _ := by rw [h.endpoint]
  state := by rw [h.endpoint]; rfl
  mem t ht := absurd ht List.not_mem_nil
  messages := by rw [h.sent_eq, h.received_eq]; rfl
  buffers := h.buffers

end Steps

/-- In a run whose calls meet the condition, no call fails, the messages are received in the order
in which they were sent, and none is lost or received twice. -/
theorem channelSystem_exchanged {T : Set Ptr} {e : Ptr} {c : Channel} {c' : Option Channel}
    {tr : List (System.Step (Option Channel) ChannelEvent)} (h₀ : ChannelBoot T e c)
    (hrun : (channelSystem T e).Run (some c) tr c')
    (hC : ∀ x ∈ tr, ∀ c, x.pre = some c → Proper e c x.ev) : ∀ x ∈ tr, Exchanged e x := by
  have hstep : ∀ x : System.Step (Option Channel) ChannelEvent,
      (channelSystem T e).step x.pre x.ev x.post → (∀ c, x.pre = some c → Proper e c x.ev) →
      (∃ c Q, x.pre = some c ∧ ChannelInv T e c Q) →
      ∃ c Q, x.post = some c ∧ ChannelInv T e c Q := by
    rintro ⟨_, ev, post⟩ ⟨hpost, hon⟩ hx ⟨c, Q, rfl, h⟩
    obtain ⟨c', hc', Q', h'⟩ := h.step hon (hx c rfl)
    exact ⟨c', Q', (Option.some.inj hpost).symm.trans hc', h'⟩
  intro x hx
  obtain ⟨⟨c₁, -, hc₁, -⟩, c₂, Q, hc₂, h₂⟩ :=
    (hrun.invariant (I := fun o => ∃ c Q, o = some c ∧ ChannelInv T e c Q)
      ⟨c, [], rfl, h₀.inv⟩ hstep hC).2 x hx
  refine ⟨c₂, hc₂, h₂.inOrder, fun c u t cap isBlocking hc hev hsignal hsender => ?_⟩
  have hproper := hC x hx c hc
  rw [hev] at hproper
  exact absurd (hproper.resolve_left hsignal).1 hsender

/-! ### A receiver that finds no sender -/

/-- Two threads with message buffers, and an idle endpoint. -/
def bootChannel : Channel where
  kernel := { KState.zero with
    tcbs := fun t => { Tcb.zero with tcbIPCBuffer := t } }
  sent := []
  received := []

/-- The undefined values, if all happen to be right for a message of `n` words. -/
def Undef.copied (n : U64) : Undef := { Undef.benign with copyMRs := n }

/-- A capability for the endpoint. -/
def receiveCap : Cap := ⟨0, 0x30000184, 0⟩

/-- A message of two words is sent and received. -/
def exchangeEvents : List ChannelEvent :=
  [.compose 0x1C00 (fun i => BitVec.ofNat 64 i) 0x400000000000000,
    .send Undef.benign 0x1C00 7 false true true,
    .receive (Undef.copied 2) 0x2C00 receiveCap true]

/-- The threads. -/
def bootThreads : Set Ptr := {0x1C00, 0x2C00}

theorem bootChannel_boot : ChannelBoot bootThreads 0xFFFF000000003000 bootChannel where
  endpoint := rfl
  sent_eq := rfl
  received_eq := rfl
  buffers := by
    refine ⟨by simp [bootThreads, NULL], fun _ _ => rfl, ?_, fun t _ t' _ h => h⟩
    rintro t ht heq
    change t = NULL at heq
    simp [bootThreads, heq, NULL] at ht

theorem exchangeEvents_possible :
    System.possible (channelStep 0xFFFF000000003000) (some bootChannel) exchangeEvents = true := by
  decide +kernel

/-- The steps. -/
def exchangeTrace : List (System.Step (Option Channel) ChannelEvent) :=
  System.trace (channelStep 0xFFFF000000003000) (some bootChannel) exchangeEvents

theorem of_map_eq {α β : Type*} {o : Option α} {c : α} {g : α → β} {v : β} (hc : o = some c)
    (h : o.map g = some v) : g c = v := by
  rw [hc] at h
  exact Option.some.inj h

theorem not_queued_of_head {e t : Ptr} {s : KState} (h : (s.endpoints e).epQueueHead = NULL) :
    ¬Queued e t s := by
  rw [Queued, h]
  exact not_reaches_null

theorem exchangeTrace_proper :
    ∀ x ∈ exchangeTrace, ∀ c, x.pre = some c → Proper 0xFFFF000000003000 c x.ev := by
  simp only [exchangeTrace, exchangeEvents, System.trace, List.forall_mem_cons]
  refine ⟨fun c hc => ?_, fun c hc => ?_, fun c hc => ?_, by simp⟩
  · have hhead := of_map_eq (g := fun c => (c.kernel.endpoints 0xFFFF000000003000).epQueueHead)
      (v := NULL) hc (by decide +kernel)
    exact not_queued_of_head hhead
  · have hhead := of_map_eq (g := fun c => (c.kernel.endpoints 0xFFFF000000003000).epQueueHead)
      (v := NULL) hc (by decide +kernel)
    exact ⟨not_queued_of_head hhead, fun hne => absurd hhead hne, fun _ => rfl⟩
  · have hready : SenderQueued 0xFFFF000000003000 c.kernel ∧
        c.kernel.epLinks.next (c.kernel.endpoints 0xFFFF000000003000).epQueueHead = NULL ∧
        (Undef.copied 2).copyMRs.setWidth 7 = (messageinfoFromU64 (c.kernel.tcbs
          (c.kernel.endpoints 0xFFFF000000003000).epQueueHead).tf.rsi).length :=
      of_decide_eq_true (of_map_eq (g := fun c : Channel => decide (
        SenderQueued 0xFFFF000000003000 c.kernel ∧
        c.kernel.epLinks.next (c.kernel.endpoints 0xFFFF000000003000).epQueueHead = NULL ∧
        (Undef.copied 2).copyMRs.setWidth 7 = (messageinfoFromU64 (c.kernel.tcbs
          (c.kernel.endpoints 0xFFFF000000003000).epQueueHead).tf.rsi).length)) hc
        (by decide +kernel))
    exact Or.inr ⟨hready.1, fun hqueued => Reaches.eq_head hqueued hready.2.1, hready.2.2⟩

theorem exchangeTrace_on : ∀ x ∈ exchangeTrace, x.ev.On bootThreads 0xFFFF000000003000 := by
  have hcap : epAddr receiveCap.endpointCap.capEPPtr = 0xFFFF000000003000 := by decide
  simp [exchangeTrace, exchangeEvents, System.trace, ChannelEvent.On, bootThreads, hcap]

/-- The theorem for these three calls. -/
theorem channelSystem_exchanged_boot :
    exchangeTrace.length = 3 ∧ ∀ x ∈ exchangeTrace, Exchanged 0xFFFF000000003000 x :=
  ⟨rfl, channelSystem_exchanged bootChannel_boot
    ((System.Run.of_possible exchangeEvents_possible).restrict exchangeTrace_on)
    exchangeTrace_proper⟩

/-- A receiver that finds no sender does not wait: the kernel faults. -/
theorem not_channelSystem_exchanged :
    ¬∀ (T : Set Ptr) (e : Ptr) (c : Channel) (c' : Option Channel)
      (tr : List (System.Step (Option Channel) ChannelEvent)), ChannelBoot T e c →
      (channelSystem T e).Run (some c) tr c' → ∀ x ∈ tr, Exchanged e x := by
  intro hall
  have hon : (ChannelEvent.receive Undef.benign 0x2C00 receiveCap true).On bootThreads
      0xFFFF000000003000 := ⟨by simp [bootThreads], by decide⟩
  have hfault : bootChannel.step 0xFFFF000000003000
      (.receive Undef.benign 0x2C00 receiveCap true) = none :=
    Option.isNone_iff_eq_none.1 (by decide +kernel)
  have hstep : (channelSystem bootThreads 0xFFFF000000003000).step (some bootChannel)
      (.receive Undef.benign 0x2C00 receiveCap true) none := ⟨congrArg some hfault, hon⟩
  obtain ⟨c', hc', -⟩ := hall _ _ _ _ _ bootChannel_boot (.single hstep) _
    (List.mem_singleton.2 rfl)
  cases hc'

end MicroKernel
