import MicroKernel.Ipc.Transfer
import MicroKernel.Sched.Scheduler

/-!
# Endpoints

Sending to an endpoint, receiving from it and leaving its queue, and the two system calls that do
so for the current thread.

* `tcbEpAppend`, `tcbEpDequeue`, `epDequeue` : the operations on the queue of an endpoint;
* `sendIpc`, `receiveIpc`, `cancelIpc`, `send`, `receive` : the functions of the source;
* `tcbEpDequeue_erase` : a thread is erased from the list of a queue;
* `sendIpc_block`, `sendIpc_deliver`, `receiveIpc_signal`, `receiveIpc_dequeue`,
  `receiveFromSender_spec`, `cancelIpc_cases` : what they do, one lemma for each case.
-/

namespace MicroKernel

open DList

/-! ### Queues of endpoints -/

/-- `epptr_get_queue`. -/
def epptrGetQueue (epptr : Ptr) (s : KState) : TcbQueue :=
  ⟨(s.endpoints epptr).epQueueHead, (s.endpoints epptr).epQueueTail⟩

/-- `epptr_set_queue`. -/
def epptrSetQueue (P : Packing) (epptr : Ptr) (queue : TcbQueue) (s : KState) : KState :=
  s.modEndpoint epptr fun e =>
    { e with epQueueHead := queue.head, epQueueTail := P.epQueueTail queue.tail }

/-- Add a thread to the queue of an endpoint.  The source does not return the queue it builds. -/
def tcbEpAppend (tcb : Ptr) (queue : TcbQueue) (s : KState) : Option (KState × TcbQueue) := do
  let (s, queue) ←
    if queue.head = NULL then some (s, { queue with head := tcb })
    else do
      deref queue.tail
      pure (s.setEPNext queue.tail tcb, queue)
  let s := s.setEPPrev tcb queue.tail
  let s := s.setEPNext tcb NULL
  return (s, { queue with tail := tcb })

/-- Remove a thread from the queue of an endpoint. -/
def tcbEpDequeue (tcb : Ptr) (queue : TcbQueue) (s : KState) : Option (KState × TcbQueue) := do
  deref tcb
  let (s, queue) :=
    if (s.tcbs tcb).tcbEPPrev ≠ NULL then
      (s.setEPNext (s.tcbs tcb).tcbEPPrev (s.tcbs tcb).tcbEPNext, queue)
    else (s, { queue with head := (s.tcbs tcb).tcbEPNext })
  let (s, queue) :=
    if (s.tcbs tcb).tcbEPNext ≠ NULL then
      (s.setEPPrev (s.tcbs tcb).tcbEPNext (s.tcbs tcb).tcbEPPrev, queue)
    else (s, { queue with tail := (s.tcbs tcb).tcbEPPrev })
  return (s, queue)

/-- Take a thread out of the queue of `epptr`, which is idle when no thread is left. -/
def epDequeue (P : Packing) (tcb epptr : Ptr) (s : KState) : Option KState := do
  let queue := epptrGetQueue epptr s
  let (s, queue) ← tcbEpDequeue tcb queue s
  let s := epptrSetQueue P epptr queue s
  return if queue.head = NULL then s.modEndpoint epptr fun e => { e with state := .idle } else s

/-! ### Sending and receiving -/

/-- `setup_caller_cap`, whose body is empty. -/
def setupCallerCap (_sender _receiver : Ptr) (_canGrant : Bool) (s : KState) : KState := s

/-- The state of a thread that waits at `epptr` for a receiver. -/
def blockedOnSend (P : Packing) (doCall : Bool) (badge : U64) (canGrant canGrantReply : Bool)
    (epptr : Ptr) (st : ThreadState) : ThreadState :=
  { st with
    tsType := .blockedOnSend
    blockingObject := P.blockingObject epptr
    blockingIPCBadge := badge
    blockingIPCCanGrant := canGrant
    blockingIPCCangrantreply := canGrantReply
    blockingIPCIscall := doCall }

/-- `send_ipc`. -/
def sendIpc (P : Packing) (u : Undef) (blocking doCall : Bool) (badge : U64)
    (canGrant canGrantReply : Bool) (thread epptr : Ptr) (s : KState) : Option KState :=
  match (s.endpoints epptr).state with
  | .idle | .send =>
    if blocking then do
      deref thread
      let s := s.modState thread (blockedOnSend P doCall badge canGrant canGrantReply epptr)
      let (s, queue) ← tcbEpAppend thread (epptrGetQueue epptr s) s
      let s := s.modEndpoint epptr fun e => { e with state := .send }
      return epptrSetQueue P epptr (u.tcbEpAppend queue) s
    else return s
  | .recv => do
    let dest := (epptrGetQueue epptr s).head
    let s ← epDequeue P dest epptr s
    let s ← doIpcTransfer P u thread epptr badge canGrant dest s
    let replyCanGrant := (s.tcbs dest).tcbState.blockingIPCCanGrant
    let s := possibleSwitchTo dest (s.setTsType dest .running)
    if doCall then
      if canGrant || canGrantReply then return setupCallerCap thread dest replyCanGrant s
      else return s.setTsType thread .running
    else return s

/-- `complete_signal`. -/
def completeSignal (ntfnPtr tcb : Ptr) (s : KState) : KState :=
  if tcb ≠ NULL ∧ (s.notifications ntfnPtr).state = .active then
    let badge := (s.notifications ntfnPtr).ntfnMsgIdentifier
    let s := s.setRegister tcb badgeRegister badge
    s.modNotification ntfnPtr fun n => { n with state := .idle }
  else s

/-- The case `EPState_Send` of `receive_ipc`. -/
def receiveFromSender (P : Packing) (u : Undef) (thread epptr : Ptr) (capCanGrant : Bool)
    (s : KState) : Option KState := do
  let sender := (epptrGetQueue epptr s).head
  let s ← epDequeue P sender epptr s
  let badge := (s.tcbs sender).tcbState.blockingIPCBadge
  let canGrant := (s.tcbs sender).tcbState.blockingIPCCanGrant
  let canGrantReply := (s.tcbs sender).tcbState.blockingIPCCangrantreply
  let s ← doIpcTransfer P u sender epptr badge canGrant thread s
  let doCall := (s.tcbs sender).tcbState.blockingIPCIscall
  if doCall then
    if canGrant || canGrantReply then return setupCallerCap sender thread capCanGrant s
    else return s.setTsType sender .inactive
  else return possibleSwitchTo sender (s.setTsType sender .running)

/-- The address of an endpoint, from the bits that a capability keeps. -/
def epAddr (capEPPtr : U64) : Ptr := capEPPtr ||| 0xFFFF000000000000

/-- The bound notification of a thread has a signal for it. -/
def HasSignal (thread : Ptr) (s : KState) : Prop :=
  (s.tcbs thread).tcbBoundNotification ≠ NULL ∧
    (s.notifications (s.tcbs thread).tcbBoundNotification).state = .active

instance (thread : Ptr) (s : KState) : Decidable (HasSignal thread s) :=
  inferInstanceAs (Decidable (_ ∧ _))

/-- `receive_ipc`.  For a blocking call the source has an empty statement. -/
def receiveIpc (P : Packing) (u : Undef) (thread : Ptr) (cap : Cap) (_isBlocking : Bool)
    (s : KState) : Option KState := do
  let endpointCap := cap.endpointCap
  let epptr := epAddr endpointCap.capEPPtr
  deref thread
  if HasSignal thread s then
    return completeSignal (s.tcbs thread).tcbBoundNotification thread s
  else
    match (s.endpoints epptr).state with
    | .idle | .recv =>  -- falls through
      receiveFromSender P u thread epptr endpointCap.capCanGrant s
    | .send => receiveFromSender P u thread epptr endpointCap.capCanGrant s

/-- `cancel_ipc`. -/
def cancelIpc (P : Packing) (tptr : Ptr) (s : KState) : Option KState := do
  deref tptr
  match (s.tcbs tptr).tcbState.tsType with
  | .blockedOnSend | .blockedOnReceive => do
    let s ← epDequeue P tptr (s.tcbs tptr).tcbState.blockingObject s
    return s.setTsType tptr .inactive
  | _ => return s

/-- `send`. -/
def send (P : Packing) (u : Undef) (dest : U64) (s : KState) : Option KState :=
  let endpointCap := (s.ctes (lookupSlot s.ksCurThread dest s)).cap.endpointCap
  sendIpc P u true false 0 endpointCap.capCanGrant endpointCap.capCanGrantReply s.ksCurThread
    (epAddr endpointCap.capEPPtr) s

/-- `receive`. -/
def receive (P : Packing) (u : Undef) (dest : U64) (s : KState) : Option KState :=
  receiveIpc P u s.ksCurThread (s.ctes (lookupSlot s.ksCurThread dest s)).cap true s

/-- The capability in the slot that the current thread names by `dest`. -/
def slotCap (dest : U64) (s : KState) : Cap := (s.ctes (lookupSlot s.ksCurThread dest s)).cap

/-- The endpoint that a system call on `dest` is about, whatever capability is in the slot. -/
def slotEndpoint (dest : U64) (s : KState) : Ptr := epAddr (slotCap dest s).endpointCap.capEPPtr

@[simp] theorem epLinks_modState {s : KState} {t : Ptr} (f : ThreadState → ThreadState) :
    (s.modState t f).epLinks = s.epLinks :=
  s.epLinks_modTcb (fun _ => rfl) fun _ => rfl

/-! ### The queue operations as operations on linked lists -/

section Queues

variable {P : Packing} {tcb epptr : Ptr} {queue queue' : TcbQueue} {s s' : KState}

theorem tcbEpAppend_spec (h : tcbEpAppend tcb queue s = some (s', queue')) :
    s'.epLinks = (pushBack NULL tcb s.epLinks queue).1 ∧
      queue' = (pushBack NULL tcb s.epLinks queue).2 ∧ s'.endpoints = s.endpoints ∧
      s'.eraseEP = s.eraseEP := by
  by_cases hq : queue.head = NULL
  · simp only [tcbEpAppend, hq, if_true, bind, Option.bind_some, pure, Option.some.injEq,
      Prod.mk.injEq] at h
    obtain ⟨rfl, rfl⟩ := h
    exact ⟨by simp [pushBack, hq], by simp [pushBack, hq], rfl, by simp⟩
  · simp only [tcbEpAppend, hq, if_false, bind, Option.bind_eq_some_iff, pure, Option.some.injEq,
      Prod.mk.injEq] at h
    obtain ⟨_, -, _, rfl, rfl, rfl⟩ := h
    exact ⟨by simp [pushBack, hq], by simp [pushBack, hq], rfl, by simp⟩

theorem tcbEpDequeue_spec (h : tcbEpDequeue tcb queue s = some (s', queue')) :
    tcb ≠ NULL ∧ s'.epLinks = (remove NULL tcb s.epLinks queue).1 ∧
      queue' = (remove NULL tcb s.epLinks queue).2 ∧ s'.endpoints = s.endpoints ∧
      s'.eraseEP = s.eraseEP := by
  have hp : ∀ s : KState, (s.tcbs tcb).tcbEPPrev = s.epLinks.prev tcb := fun _ => rfl
  have hn : ∀ s : KState, (s.tcbs tcb).tcbEPNext = s.epLinks.next tcb := fun _ => rfl
  simp only [tcbEpDequeue, bind, Option.bind_eq_some_iff, deref_eq_some, pure, exists_const,
    Option.some.injEq, Prod.mk.injEq] at h
  obtain ⟨hne, rfl, rfl⟩ := h
  refine ⟨hne, ?_⟩
  by_cases h₁ : s.epLinks.prev tcb = NULL
  · by_cases h₂ : s.epLinks.next tcb = NULL <;>
      simp [remove, hp, hn, h₁, h₂]
  · by_cases h₂ : (s.epLinks.setNext (s.epLinks.prev tcb) (s.epLinks.next tcb)).next tcb = NULL <;>
      simp [remove, hp, hn, h₁, h₂]

theorem tcbEpDequeue_isSome (hne : tcb ≠ NULL) (queue : TcbQueue) (s : KState) :
    ∃ s' queue', tcbEpDequeue tcb queue s = some (s', queue') := by
  rw [tcbEpDequeue, deref, if_neg hne]
  exact ⟨_, _, rfl⟩

/-- `tcb_ep_dequeue` erases a thread from the list that a queue holds.  No other thread is changed,
and of the threads only the links. -/
theorem tcbEpDequeue_erase {l : List Ptr} (h : Repr NULL s.epLinks queue l) (hmem : tcb ∈ l) :
    ∃ s' queue', tcbEpDequeue tcb queue s = some (s', queue') ∧
      Repr NULL s'.epLinks queue' (l.erase tcb) ∧ (∀ t ∉ l, s'.tcbs t = s.tcbs t) ∧
      s'.eraseEP = s.eraseEP ∧ s'.endpoints = s.endpoints := by
  obtain ⟨s', queue', hdequeue⟩ := tcbEpDequeue_isSome (h.ne_null hmem) queue s
  obtain ⟨-, hlinks, rfl, hendpoints, herase⟩ := tcbEpDequeue_spec hdequeue
  refine ⟨s', _, hdequeue, ?_, fun t ht => ?_, herase, hendpoints⟩
  · rw [hlinks]
    exact h.remove hmem
  · obtain ⟨hnext, hprev⟩ := h.remove_frame ht hmem
    rw [← hlinks] at hnext hprev
    exact Tcb.eq_of_eraseEP (congrFun (congrArg KState.tcbs herase) t) hnext hprev

/-- Three threads in a queue. -/
def threeThreads : KState :=
  let s := (KState.zero.setEPNext 0x1000 0x2000).setEPPrev 0x2000 0x1000
  (s.setEPNext 0x2000 0x3000).setEPPrev 0x3000 0x2000

theorem repr_threeThreads :
    Repr NULL threeThreads.epLinks ⟨0x1000, 0x3000⟩ [0x1000, 0x2000, 0x3000] :=
  ⟨by decide, by decide, ⟨rfl, rfl, rfl, rfl, rfl, rfl, trivial⟩, rfl, rfl⟩

/-- The second of three threads. -/
theorem tcbEpDequeue_erase_second : ∃ s' queue',
    tcbEpDequeue 0x2000 ⟨0x1000, 0x3000⟩ threeThreads = some (s', queue') ∧
      Repr NULL s'.epLinks queue' [0x1000, 0x3000] ∧
      (∀ t ∉ [0x1000, 0x2000, 0x3000], s'.tcbs t = threeThreads.tcbs t) ∧
      s'.eraseEP = threeThreads.eraseEP ∧ s'.endpoints = threeThreads.endpoints :=
  tcbEpDequeue_erase repr_threeThreads (by decide)

theorem epDequeue_spec (h : epDequeue P tcb epptr s = some s') :
    let r := remove NULL tcb s.epLinks (epptrGetQueue epptr s)
    tcb ≠ NULL ∧ s'.epLinks = r.1 ∧
      s'.endpoints = Function.update s.endpoints epptr ⟨r.2.head, P.epQueueTail r.2.tail,
        if r.2.head = NULL then .idle else (s.endpoints epptr).state⟩ ∧
      s'.eraseEP = s.eraseEP := by
  simp only [epDequeue, bind, Option.bind_eq_some_iff, pure, Option.some.injEq, Prod.exists] at h
  obtain ⟨s₁, queue, hdequeue, rfl⟩ := h
  obtain ⟨hne, hlinks, rfl, hendpoints, herase⟩ := tcbEpDequeue_spec hdequeue
  refine ⟨hne, ?_, ?_, ?_⟩
  · rw [← hlinks]
    split_ifs <;> rfl
  · rw [← hendpoints]
    split_ifs <;> simp [epptrSetQueue, KState.modEndpoint]
  · rw [← herase]
    split_ifs <;> simp [epptrSetQueue]

end Queues

/-! ### The cases of the calls -/

section Cases

variable {P : Packing} {u : Undef} {s s' : KState}

/-- A thread waits for a receiver: it becomes the last one of the queue. -/
theorem sendIpc_block {doCall canGrant canGrantReply : Bool} {badge : U64} {thread epptr : Ptr}
    (hstate : (s.endpoints epptr).state ≠ .recv)
    (h : sendIpc P u true doCall badge canGrant canGrantReply thread epptr s = some s') :
    let r := pushBack NULL thread s.epLinks (epptrGetQueue epptr s)
    let queue := u.tcbEpAppend r.2
    thread ≠ NULL ∧ s'.epLinks = r.1 ∧
      s'.endpoints =
        Function.update s.endpoints epptr ⟨queue.head, P.epQueueTail queue.tail, .send⟩ ∧
      s'.eraseEP =
        (s.modState thread
          (blockedOnSend P doCall badge canGrant canGrantReply epptr)).eraseEP := by
  have hget : epptrGetQueue epptr
      (s.modState thread (blockedOnSend P doCall badge canGrant canGrantReply epptr)) =
      epptrGetQueue epptr s := rfl
  cases hs : (s.endpoints epptr).state with
  | recv => exact absurd hs hstate
  | idle | send =>
    simp only [sendIpc, hs, if_true, bind, Option.bind_eq_some_iff, deref_eq_some, pure,
      Option.some.injEq, exists_const, hget] at h
    obtain ⟨hne, ⟨s₁, queue⟩, happend, rfl⟩ := h
    obtain ⟨hlinks, rfl, hendpoints, herase⟩ := tcbEpAppend_spec happend
    rw [epLinks_modState] at hlinks ⊢
    refine ⟨hne, hlinks, ?_, herase⟩
    change s₁.endpoints = s.endpoints at hendpoints
    simp [epptrSetQueue, KState.modEndpoint, hendpoints]

/-- A thread sends to the first thread that waits. -/
theorem sendIpc_deliver {blocking doCall canGrant canGrantReply : Bool} {badge : U64}
    {thread epptr : Ptr} (hstate : (s.endpoints epptr).state = .recv)
    (h : sendIpc P u blocking doCall badge canGrant canGrantReply thread epptr s = some s') :
    let dest := (epptrGetQueue epptr s).head
    ∃ s₁ s₂, epDequeue P dest epptr s = some s₁ ∧
      doIpcTransfer P u thread epptr badge canGrant dest s₁ = some s₂ ∧
      s' = if doCall && !(canGrant || canGrantReply) then
          (possibleSwitchTo dest (s₂.setTsType dest .running)).setTsType thread .running
        else possibleSwitchTo dest (s₂.setTsType dest .running) := by
  simp only [sendIpc, hstate, bind, Option.bind_eq_some_iff, pure] at h
  obtain ⟨s₁, hdequeue, s₂, htransfer, h⟩ := h
  refine ⟨s₁, s₂, hdequeue, htransfer, ?_⟩
  cases doCall <;> cases canGrant <;> cases canGrantReply <;>
    simpa [setupCallerCap, eq_comm] using h

/-- A thread with a signal takes it. -/
theorem receiveIpc_signal {thread : Ptr} {cap : Cap} {blocking : Bool}
    (hsignal : HasSignal thread s)
    (h : receiveIpc P u thread cap blocking s = some s') :
    thread ≠ NULL ∧
      s' = completeSignal (s.tcbs thread).tcbBoundNotification thread s := by
  simp only [receiveIpc, hsignal, if_true, bind, Option.bind_eq_some_iff, deref_eq_some, pure,
    Option.some.injEq, exists_const] at h
  exact ⟨h.1, h.2.symm⟩

/-- A thread without a signal takes the first thread out of the queue, whatever the state of the
endpoint. -/
theorem receiveIpc_dequeue {thread : Ptr} {cap : Cap} {blocking : Bool}
    (hsignal : ¬HasSignal thread s) (h : receiveIpc P u thread cap blocking s = some s') :
    thread ≠ NULL ∧ receiveFromSender P u thread (epAddr cap.endpointCap.capEPPtr)
      cap.endpointCap.capCanGrant s = some s' := by
  simp only [receiveIpc, hsignal, if_false, bind, Option.bind_eq_some_iff, deref_eq_some,
    exists_const] at h
  refine ⟨h.1, ?_⟩
  cases hs : (s.endpoints (epAddr cap.endpointCap.capEPPtr)).state <;> simpa only [hs] using h.2

/-- The first thread of the queue hands over its message and goes on, unless it waits for a
reply. -/
theorem receiveFromSender_spec {thread epptr : Ptr} {capCanGrant : Bool}
    (h : receiveFromSender P u thread epptr capCanGrant s = some s') :
    let sender := (epptrGetQueue epptr s).head
    let st := (s.tcbs sender).tcbState
    ∃ s₁ s₂, epDequeue P sender epptr s = some s₁ ∧
      doIpcTransfer P u sender epptr st.blockingIPCBadge st.blockingIPCCanGrant thread s₁ =
        some s₂ ∧
      s' = if st.blockingIPCIscall then
          if st.blockingIPCCanGrant || st.blockingIPCCangrantreply then s₂
          else s₂.setTsType sender .inactive
        else possibleSwitchTo sender (s₂.setTsType sender .running) := by
  simp only [receiveFromSender, bind, Option.bind_eq_some_iff, pure] at h
  obtain ⟨s₁, hdequeue, s₂, htransfer, h⟩ := h
  have hstate₁ : ∀ t, (s₁.tcbs t).tcbState = (s.tcbs t).tcbState := fun t =>
    KState.eq_of_eraseEP (epDequeue_spec hdequeue).2.2.2 (fun s => (s.tcbs t).tcbState)
      fun _ => rfl
  have hstate₂ : ∀ t, (s₂.tcbs t).tcbState = (s₁.tcbs t).tcbState := fun t =>
    KState.eq_of_eraseData (doIpcTransfer_erase htransfer).2.2 (fun s => (s.tcbs t).tcbState)
      fun _ => rfl
  simp only [hstate₂, hstate₁, setupCallerCap] at htransfer h
  refine ⟨s₁, s₂, hdequeue, htransfer, ?_⟩
  split_ifs at h ⊢ <;> exact (Option.some.inj h).symm

/-- A blocking `send_ipc` returns if the tail of a queue that is not empty can be accessed. -/
theorem sendIpc_isSome {doCall canGrant canGrantReply : Bool} {badge : U64} {thread epptr : Ptr}
    (hstate : (s.endpoints epptr).state ≠ .recv) (hne : thread ≠ NULL)
    (htail : (epptrGetQueue epptr s).head ≠ NULL → (epptrGetQueue epptr s).tail ≠ NULL) :
    (sendIpc P u true doCall badge canGrant canGrantReply thread epptr s).isSome := by
  have happend : ∀ s', (tcbEpAppend thread (epptrGetQueue epptr s) s').isSome := fun s' => by
    by_cases hq : (epptrGetQueue epptr s).head = NULL
    · simp [tcbEpAppend, hq]
    · simp [tcbEpAppend, hq, deref, htail hq]
  obtain ⟨⟨s₁, queue⟩, h₁⟩ := Option.isSome_iff_exists.1 (happend
    (s.modState thread (blockedOnSend P doCall badge canGrant canGrantReply epptr)))
  have hget : epptrGetQueue epptr
      (s.modState thread (blockedOnSend P doCall badge canGrant canGrantReply epptr)) =
      epptrGetQueue epptr s := rfl
  cases hs : (s.endpoints epptr).state with
  | recv => exact absurd hs hstate
  | idle | send => simp [sendIpc, hs, deref, hne, hget, h₁]

theorem epDequeue_isSome {tcb epptr : Ptr} (hne : tcb ≠ NULL) :
    (epDequeue P tcb epptr s).isSome := by
  simp [epDequeue, tcbEpDequeue, deref, hne]

/-- A thread that takes a message gets one if a thread is queued and both have message buffers. -/
theorem receiveFromSender_isSome {thread epptr : Ptr} {capCanGrant : Bool} (hne : thread ≠ NULL)
    (hhead : (epptrGetQueue epptr s).head ≠ NULL) (hbuffer : lookupIpcBuffer thread s ≠ NULL)
    (hsendBuffer : lookupIpcBuffer (epptrGetQueue epptr s).head s ≠ NULL) :
    (receiveFromSender P u thread epptr capCanGrant s).isSome := by
  have hdequeue : (epDequeue P (epptrGetQueue epptr s).head epptr s).isSome :=
    epDequeue_isSome hhead
  obtain ⟨s₁, h₁⟩ := Option.isSome_iff_exists.1 hdequeue
  have hbuffer₁ : ∀ t, lookupIpcBuffer t s₁ = lookupIpcBuffer t s := fun t =>
    KState.eq_of_eraseEP (epDequeue_spec h₁).2.2.2 (lookupIpcBuffer t) fun _ => rfl
  have htransfer : ∀ badge grant, ∃ s₂, doIpcTransfer P u (epptrGetQueue epptr s).head epptr badge
      grant thread s₁ = some s₂ := fun badge grant => Option.isSome_iff_exists.1
    (doIpcTransfer_isSome hne hhead (by rwa [hbuffer₁]) (by rwa [hbuffer₁]))
  obtain ⟨s₂, h₂⟩ := htransfer
    (s₁.tcbs (epptrGetQueue epptr s).head).tcbState.blockingIPCBadge
    (s₁.tcbs (epptrGetQueue epptr s).head).tcbState.blockingIPCCanGrant
  simp only [receiveFromSender, h₁, h₂, bind, Option.bind_some, pure]
  split_ifs <;> rfl

theorem receiveIpc_isSome {thread : Ptr} {cap : Cap} {blocking : Bool}
    (hsignal : ¬HasSignal thread s) (hne : thread ≠ NULL)
    (h : (receiveFromSender P u thread (epAddr cap.endpointCap.capEPPtr)
      cap.endpointCap.capCanGrant s).isSome) :
    (receiveIpc P u thread cap blocking s).isSome := by
  cases hs : (s.endpoints (epAddr cap.endpointCap.capEPPtr)).state <;>
    simpa [receiveIpc, deref, hne, hsignal, hs] using h

theorem send_block {dest : U64} (hstate : (s.endpoints (slotEndpoint dest s)).state ≠ .recv)
    (h : send P u dest s = some s') :
    (s'.tcbs s.ksCurThread).tcbState =
        blockedOnSend P false 0 (slotCap dest s).endpointCap.capCanGrant
          (slotCap dest s).endpointCap.capCanGrantReply (slotEndpoint dest s)
          (s.tcbs s.ksCurThread).tcbState ∧
      s'.ksCurThread = s.ksCurThread := by
  obtain ⟨-, -, -, herase⟩ := sendIpc_block hstate h
  refine ⟨?_, KState.eq_of_eraseEP herase KState.ksCurThread fun _ => rfl⟩
  refine (KState.eq_of_eraseEP herase (fun k => (k.tcbs s.ksCurThread).tcbState)
    fun _ => rfl).trans ?_
  simp [KState.modState, slotCap, slotEndpoint]

/-- A thread that waits at an endpoint leaves it; for any other thread nothing happens. -/
theorem cancelIpc_cases {tptr : Ptr} (h : cancelIpc P tptr s = some s') :
    (((s.tcbs tptr).tcbState.tsType = .blockedOnSend ∨
        (s.tcbs tptr).tcbState.tsType = .blockedOnReceive) ∧
      ∃ s₁, epDequeue P tptr (s.tcbs tptr).tcbState.blockingObject s = some s₁ ∧
        s' = s₁.setTsType tptr .inactive) ∨ s' = s := by
  simp only [cancelIpc, bind, Option.bind_eq_some_iff, deref_eq_some, exists_const] at h
  obtain ⟨-, h⟩ := h
  cases hs : (s.tcbs tptr).tcbState.tsType with
  | blockedOnSend | blockedOnReceive =>
    simp only [hs, Option.bind_eq_some_iff, pure, Option.some.injEq] at h
    obtain ⟨s₁, hdequeue, rfl⟩ := h
    exact Or.inl ⟨by simp, s₁, hdequeue, rfl⟩
  | _ =>
    simp only [hs, pure, Option.some.injEq] at h
    exact Or.inr h.symm

end Cases

end MicroKernel
