import MicroKernel.Ipc.Endpoint
import MicroKernel.Object.ObjectType

/-!
# Notifications

A notification keeps the bits of the signals that no thread has taken, or the queue of the threads
that wait for one; a thread may be bound to it and take its signals while it waits for a message.

* `ntfnPtrGetQueue`, `ntfnPtrSetQueue` : the accessors of the queue, which do not fit together;
* `sendSignal`, `receiveSignal`, `cancelSignal`, `cancelAllSignals`, `bindNotification`,
  `unbindNotification`, `unbindMaybeNotification` : the functions of the source (`completeSignal`
  stands with the endpoints, where it is called);
* `wakeWaiter_spec`, `receiveSignal_block`, `cancelSignal_spec`, `cancelAllSignals_spec` : what
  they do to the links, the notification and the threads.
-/

namespace MicroKernel

open DList

/-! ### The queue of a notification -/

/-- `ntfn_ptr_get_queue`: both statements write `head`, so that `end` is left unset. -/
def ntfnPtrGetQueue (u : Undef) (ntfnPtr : Ptr) (s : KState) : TcbQueue :=
  ⟨(s.notifications ntfnPtr).ntfnQueueTail, u.ntfnQueueEnd⟩

/-- `ntfn_ptr_set_queue`. -/
def ntfnPtrSetQueue (P : Packing) (ntfnPtr : Ptr) (queue : TcbQueue) (s : KState) : KState :=
  s.modNotification ntfnPtr fun ntfn =>
    { ntfn with
      ntfnQueueHead := P.ntfnQueueHead queue.head
      ntfnQueueTail := P.ntfnQueueTail queue.tail }

/-- `ntfn_set_active`. -/
def ntfnSetActive (ntfnPtr : Ptr) (badge : U64) (s : KState) : KState :=
  s.modNotification ntfnPtr fun ntfn => { ntfn with state := .active, ntfnMsgIdentifier := badge }

/-! ### Scheduling a thread that may have blocked -/

/-- `is_runnable`. -/
def isRunnable (thread : Ptr) (s : KState) : Bool :=
  match (s.tcbs thread).tcbState.tsType with
  | .running | .restart => true
  | _ => false

/-- `schedule_tcb`. -/
def scheduleTcb (tptr : Ptr) (s : KState) : KState :=
  if tptr = s.ksCurThread ∧ s.ksSchedulerAction = resumeCurrentThread ∧
    isRunnable tptr s = false then rescheduleRequired s else s

/-- `set_threadState`. -/
def setThreadState (tptr : Ptr) (ts : ThreadStateType) (s : KState) : KState :=
  scheduleTcb tptr (s.setTsType tptr ts)

/-! ### Signals -/

/-- Put the queue back without the thread that left it; without a thread the notification is
idle. -/
def ntfnPutQueue (P : Packing) (ntfnPtr : Ptr) (queue : TcbQueue) (s : KState) : KState :=
  let s := ntfnPtrSetQueue P ntfnPtr queue s
  if queue.head = NULL then s.modNotification ntfnPtr fun ntfn => { ntfn with state := .idle }
  else s

/-- The case `NtfnState_Waiting` of `send_signal`. -/
def wakeWaiter (P : Packing) (u : Undef) (ntfnPtr : Ptr) (badge : U64) (s : KState) :
    Option KState := do
  let ntfnQueue := ntfnPtrGetQueue u ntfnPtr s
  let dest := ntfnQueue.head
  let (s, ntfnQueue) ← tcbEpDequeue dest ntfnQueue s
  let s := ntfnPutQueue P ntfnPtr ntfnQueue s
  let s := s.setTsType dest .running
  let s := s.setRegister dest badgeRegister badge
  return possibleSwitchTo dest s

/-- The case `NtfnState_Idle` of `send_signal`, up to its end. -/
def signalIdle (P : Packing) (ntfnPtr : Ptr) (badge : U64) (s : KState) : Option KState :=
  let tcb := (s.notifications ntfnPtr).ntfnBoundTCB
  if tcb ≠ NULL then
    if (s.tcbs tcb).tcbState.tsType = .blockedOnReceive then do
      let s ← cancelIpc P tcb s
      let s := s.setTsType tcb .running
      let s := s.setRegister tcb badgeRegister badge
      return possibleSwitchTo tcb s
    else some s
  else some (ntfnSetActive ntfnPtr badge s)

/-- `send_signal`. -/
def sendSignal (P : Packing) (u : Undef) (ntfnPtr : Ptr) (badge : U64) (s : KState) :
    Option KState :=
  match (s.notifications ntfnPtr).state with
  | .idle => do
    let s ← signalIdle P ntfnPtr badge s
    wakeWaiter P u ntfnPtr badge s  -- falls through
  | .waiting => wakeWaiter P u ntfnPtr badge s
  | .active => some (s.modNotification ntfnPtr fun ntfn =>
      { ntfn with ntfnMsgIdentifier := ntfn.ntfnMsgIdentifier ||| badge })

/-- The notification that `receive_signal` finds in a capability. -/
def ntfnAddr (P : Packing) (cap : Cap) : Ptr := P.capNtfnPtr cap.notificationCap.capNtfnPtr

/-- The state of a thread that waits for a signal. -/
def blockedOnNotification (P : Packing) (ntfnPtr : Ptr) (st : ThreadState) : ThreadState :=
  { st with tsType := .blockedOnNotification, blockingObject := P.blockingObject ntfnPtr }

/-- `receive_signal`. -/
def receiveSignal (P : Packing) (u : Undef) (thread : Ptr) (cap : Cap) (isBlocking : Bool)
    (s : KState) : Option KState :=
  let ntfnPtr := ntfnAddr P cap
  match (s.notifications ntfnPtr).state with
  | .idle | .waiting =>
    if isBlocking then do
      deref thread
      let s := scheduleTcb thread (s.modState thread (blockedOnNotification P ntfnPtr))
      let (s, ntfnQueue) ← tcbEpAppend thread (ntfnPtrGetQueue u ntfnPtr s) s
      let s := s.modNotification ntfnPtr fun ntfn => { ntfn with state := .waiting }
      return ntfnPtrSetQueue P ntfnPtr (u.tcbEpAppend ntfnQueue) s
    else some s
  | .active => do
    deref thread
    return s.setRegister thread badgeRegister (s.notifications ntfnPtr).ntfnMsgIdentifier

/-! ### Leaving the queue -/

/-- `cancel_signal`. -/
def cancelSignal (P : Packing) (u : Undef) (threadPtr ntfnPtr : Ptr) (s : KState) :
    Option KState := do
  let ntfnQueue := ntfnPtrGetQueue u ntfnPtr s
  let (s, ntfnQueue) ← tcbEpDequeue threadPtr ntfnQueue s
  let s := ntfnPutQueue P ntfnPtr ntfnQueue s
  return setThreadState threadPtr .inactive s

/-- The loop of `cancel_allSignals`.  It does not change the links, so that it does not end if it
has not ended after as many rounds as there are addresses. -/
def restartLoop : ℕ → Ptr → KState → Option KState
  | 0, _, _ => none
  | n + 1, thread, s =>
    if thread = NULL then some s
    else
      let s := tcbSchedEnqueue thread (s.setTsType thread .restart)
      restartLoop n (s.tcbs thread).tcbEPNext s

/-- `cancel_allSignals`. -/
def cancelAllSignals (ntfnPtr : Ptr) (s : KState) : Option KState :=
  if (s.notifications ntfnPtr).state = .waiting then do
    let thread := (s.notifications ntfnPtr).ntfnQueueHead
    let s := s.modNotification ntfnPtr fun ntfn =>
      { ntfn with state := .idle, ntfnQueueHead := 0, ntfnQueueTail := 0 }
    let s ← restartLoop (2 ^ 64) thread s
    return rescheduleRequired s
  else some s

/-- `bind_notification`. -/
def bindNotification (P : Packing) (tcb ntfnPtr : Ptr) (s : KState) : KState :=
  (s.modNotification ntfnPtr fun ntfn => { ntfn with ntfnBoundTCB := P.ntfnBoundTCB tcb }).modTcb
    tcb fun t => { t with tcbBoundNotification := ntfnPtr }

/-- `do_unbind_notification`. -/
def doUnbindNotification (ntfnPtr tcbptr : Ptr) (s : KState) : KState :=
  (s.modNotification ntfnPtr fun ntfn => { ntfn with ntfnBoundTCB := 0 }).modTcb tcbptr
    fun t => { t with tcbBoundNotification := NULL }

/-- `unbind_maybe_notification`. -/
def unbindMaybeNotification (ntfnPtr : Ptr) (s : KState) : KState :=
  let boundTCB := (s.notifications ntfnPtr).ntfnBoundTCB
  if boundTCB ≠ NULL then doUnbindNotification ntfnPtr boundTCB s else s

/-- `unbind_notification`. -/
def unbindNotification (tcb : Ptr) (s : KState) : KState :=
  let ntfnPtr := (s.tcbs tcb).tcbBoundNotification
  if ntfnPtr ≠ NULL then doUnbindNotification ntfnPtr tcb s else s

/-! ### Threads as these functions see them -/

/-- What these functions read and write of a thread, apart from its links. -/
structure ThreadView where
  /-- The registers. -/
  registers : ℕ → U64
  /-- The state. -/
  tsType : ThreadStateType
  /-- The object the thread is blocked on. -/
  blockingObject : U64

/-- All threads. -/
def KState.threadView (s : KState) (t : Ptr) : ThreadView :=
  ⟨(s.tcbs t).registers, (s.tcbs t).tcbState.tsType, (s.tcbs t).tcbState.blockingObject⟩

/-- The thread `t` waits for a signal of the notification `n`. -/
def WaitsFor (P : Packing) (s : KState) (n t : Ptr) : Prop :=
  (s.threadView t).tsType = .blockedOnNotification ∧
    (s.threadView t).blockingObject = P.blockingObject n

section Views

variable {s s' : KState} {p : Ptr}

theorem threadView_of_eraseSched (h : s'.eraseSched = s.eraseSched) :
    s'.threadView = s.threadView :=
  KState.eq_of_eraseSched h KState.threadView fun _ => rfl

theorem threadView_of_eraseEP (h : s'.eraseEP = s.eraseEP) : s'.threadView = s.threadView :=
  KState.eq_of_eraseEP h KState.threadView fun _ => rfl

theorem threadView_modTcb {f : Tcb → Tcb} {v : ThreadView}
    (h : ⟨(f (s.tcbs p)).registers, (f (s.tcbs p)).tcbState.tsType,
      (f (s.tcbs p)).tcbState.blockingObject⟩ = v) :
    (s.modTcb p f).threadView = Function.update s.threadView p v := by
  funext t
  by_cases ht : t = p
  · subst ht
    rw [Function.update_self, KState.threadView, KState.tcbs_modTcb_self, h]
  · rw [Function.update_of_ne ht, KState.threadView, KState.tcbs_modTcb_of_ne _ ht,
      KState.threadView]

theorem threadView_setTsType (ts : ThreadStateType) :
    (s.setTsType p ts).threadView =
      Function.update s.threadView p { s.threadView p with tsType := ts } := by
  rw [KState.setTsType, KState.modState]
  exact threadView_modTcb rfl

theorem threadView_setRegister (reg : ℕ) (w : U64) :
    (s.setRegister p reg w).threadView = Function.update s.threadView p
      { s.threadView p with registers := Function.update (s.threadView p).registers reg w } := by
  rw [KState.setRegister]
  exact threadView_modTcb rfl

@[simp] theorem eraseSched_scheduleTcb : (scheduleTcb p s).eraseSched = s.eraseSched := by
  simp only [scheduleTcb]
  split_ifs <;> simp

theorem epLinks_of_eraseSched (h : s'.eraseSched = s.eraseSched) : s'.epLinks = s.epLinks :=
  KState.eq_of_eraseSched h KState.epLinks fun _ => rfl

theorem notifications_of_eraseSched (h : s'.eraseSched = s.eraseSched) :
    s'.notifications = s.notifications :=
  KState.eq_of_eraseSched h KState.notifications fun _ => rfl

theorem notifications_of_eraseEP (h : s'.eraseEP = s.eraseEP) :
    s'.notifications = s.notifications :=
  KState.eq_of_eraseEP h KState.notifications fun _ => rfl

end Views

/-! ### What they do -/

section Specs

variable {P : Packing} {u : Undef} {n dest t thread : Ptr} {badge : U64} {s s' : KState}

theorem notifications_ntfnPutQueue (queue : TcbQueue) :
    (ntfnPutQueue P n queue s).notifications = Function.update s.notifications n
      { s.notifications n with
        ntfnQueueHead := P.ntfnQueueHead queue.head
        ntfnQueueTail := P.ntfnQueueTail queue.tail
        state := if queue.head = NULL then .idle else (s.notifications n).state } := by
  by_cases hq : queue.head = NULL
  · simp [ntfnPutQueue, ntfnPtrSetQueue, KState.modNotification, hq]
  · simp [ntfnPutQueue, ntfnPtrSetQueue, KState.modNotification, hq]

theorem threadView_ntfnPutQueue (queue : TcbQueue) :
    (ntfnPutQueue P n queue s).threadView = s.threadView := by
  simp only [ntfnPutQueue]
  split_ifs <;> rfl

theorem epLinks_ntfnPutQueue (queue : TcbQueue) :
    (ntfnPutQueue P n queue s).epLinks = s.epLinks := by
  simp only [ntfnPutQueue]
  split_ifs <;> rfl

/-- A thread is woken: the one that `ntfn_ptr_get_queue` takes for the first one. -/
theorem wakeWaiter_spec (h : wakeWaiter P u n badge s = some s') :
    let dest := (ntfnPtrGetQueue u n s).head
    let r := remove NULL dest s.epLinks (ntfnPtrGetQueue u n s)
    dest ≠ NULL ∧ s'.epLinks = r.1 ∧
      s'.notifications = Function.update s.notifications n
        { s.notifications n with
          ntfnQueueHead := P.ntfnQueueHead r.2.head
          ntfnQueueTail := P.ntfnQueueTail r.2.tail
          state := if r.2.head = NULL then .idle else (s.notifications n).state } ∧
      s'.threadView = Function.update s.threadView dest
        { s.threadView dest with
          tsType := .running
          registers := Function.update (s.threadView dest).registers badgeRegister badge } := by
  simp only [wakeWaiter, bind, Option.bind_eq_some_iff, pure, Option.some.injEq] at h
  obtain ⟨⟨s₁, queue⟩, hdequeue, rfl⟩ := h
  obtain ⟨hne, hlinks, rfl, -, herase⟩ := tcbEpDequeue_spec hdequeue
  have hview : s₁.threadView = s.threadView := threadView_of_eraseEP herase
  have hntfn : s₁.notifications = s.notifications := notifications_of_eraseEP herase
  refine ⟨hne, ?_, ?_, ?_⟩
  · rw [epLinks_of_eraseSched eraseSched_possibleSwitchTo, KState.setRegister,
      KState.epLinks_modTcb _ (by exact fun _ => rfl) (by exact fun _ => rfl), KState.setTsType,
      epLinks_modState, epLinks_ntfnPutQueue, hlinks]
  · rw [notifications_of_eraseSched eraseSched_possibleSwitchTo, ← hntfn]
    exact notifications_ntfnPutQueue _
  · rw [threadView_of_eraseSched eraseSched_possibleSwitchTo, threadView_setRegister,
      threadView_setTsType, threadView_ntfnPutQueue, hview, Function.update_self,
      Function.update_idem]

theorem sendSignal_waiting (hstate : (s.notifications n).state = .waiting) :
    sendSignal P u n badge s = wakeWaiter P u n badge s := by
  simp only [sendSignal, hstate]

theorem sendSignal_active (hstate : (s.notifications n).state = .active) :
    sendSignal P u n badge s = some (s.modNotification n fun ntfn =>
      { ntfn with ntfnMsgIdentifier := ntfn.ntfnMsgIdentifier ||| badge }) := by
  simp only [sendSignal, hstate]

/-- A signal for an idle notification falls through to the code that wakes a thread, although no
thread waits. -/
theorem sendSignal_idle (hstate : (s.notifications n).state = .idle)
    (htail : (s.notifications n).ntfnQueueTail = NULL) : sendSignal P u n badge s = none := by
  have hwake : ∀ s₁ : KState, (s₁.notifications n).ntfnQueueTail = NULL →
      wakeWaiter P u n badge s₁ = none := fun s₁ h₁ => by
    simp [wakeWaiter, ntfnPtrGetQueue, h₁, tcbEpDequeue, deref]
  have hcancel : ∀ tcb s₁, cancelIpc P tcb s = some s₁ → s₁.notifications = s.notifications := by
    intro tcb s₁ h₁
    obtain ⟨-, s₂, hdequeue, rfl⟩ | rfl := cancelIpc_cases h₁
    · exact (notifications_of_eraseEP (epDequeue_spec hdequeue).2.2.2 :
        s₂.notifications = s.notifications)
    · rfl
  simp only [sendSignal, hstate, bind, Option.bind_eq_none_iff]
  intro s₁ hidle
  refine hwake s₁ ?_
  simp only [signalIdle] at hidle
  split_ifs at hidle with hbound hreceive
  · simp only [bind, Option.bind_eq_some_iff, pure, Option.some.injEq] at hidle
    obtain ⟨s₂, h₂, rfl⟩ := hidle
    rw [notifications_of_eraseSched eraseSched_possibleSwitchTo]
    exact (congrArg (fun f => (f n).ntfnQueueTail) (hcancel _ _ h₂)).trans htail
  · rwa [← Option.some.inj hidle]
  · rw [← Option.some.inj hidle]
    simpa [ntfnSetActive, KState.modNotification] using htail

/-- A thread blocks: it is appended to the queue that `ntfn_ptr_get_queue` gives. -/
theorem receiveSignal_block {cap : Cap}
    (hstate : (s.notifications (ntfnAddr P cap)).state ≠ .active)
    (h : receiveSignal P u thread cap true s = some s') :
    let n := ntfnAddr P cap
    let r := pushBack NULL thread s.epLinks (ntfnPtrGetQueue u n s)
    let queue := u.tcbEpAppend r.2
    thread ≠ NULL ∧ s'.epLinks = r.1 ∧
      s'.notifications = Function.update s.notifications n
        { s.notifications n with
          ntfnQueueHead := P.ntfnQueueHead queue.head
          ntfnQueueTail := P.ntfnQueueTail queue.tail
          state := .waiting } ∧
      s'.threadView = Function.update s.threadView thread
        { s.threadView thread with
          tsType := .blockedOnNotification
          blockingObject := P.blockingObject n } := by
  -- the thread as it is put into the queue
  have hblock : ∀ s₀, s₀ = scheduleTcb thread
        (s.modState thread (blockedOnNotification P (ntfnAddr P cap))) →
      s₀.epLinks = s.epLinks ∧ s₀.notifications = s.notifications ∧
        s₀.threadView = Function.update s.threadView thread
          { s.threadView thread with
            tsType := .blockedOnNotification
            blockingObject := P.blockingObject (ntfnAddr P cap) } := by
    rintro s₀ rfl
    refine ⟨?_, ?_, ?_⟩
    · rw [epLinks_of_eraseSched eraseSched_scheduleTcb, epLinks_modState]
    · rw [notifications_of_eraseSched eraseSched_scheduleTcb]
      rfl
    · rw [threadView_of_eraseSched eraseSched_scheduleTcb, KState.modState]
      exact threadView_modTcb rfl
  have hcall : thread ≠ NULL ∧ ∃ s₁ queue, tcbEpAppend thread
      (ntfnPtrGetQueue u (ntfnAddr P cap) (scheduleTcb thread
        (s.modState thread (blockedOnNotification P (ntfnAddr P cap)))))
      (scheduleTcb thread (s.modState thread (blockedOnNotification P (ntfnAddr P cap)))) =
        some (s₁, queue) ∧
      ntfnPtrSetQueue P (ntfnAddr P cap) (u.tcbEpAppend queue)
        (s₁.modNotification (ntfnAddr P cap) fun ntfn => { ntfn with state := .waiting }) = s' := by
    cases hs : (s.notifications (ntfnAddr P cap)).state with
    | active => exact absurd hs hstate
    | idle | waiting =>
      simpa only [receiveSignal, hs, if_true, bind, Option.bind_eq_some_iff, deref_eq_some, pure,
        Option.some.injEq, exists_const, Prod.exists] using h
  obtain ⟨hne, s₁, queue, happend, rfl⟩ := hcall
  obtain ⟨hlinks₀, hntfn₀, hview₀⟩ := hblock _ rfl
  obtain ⟨hlinks, rfl, -, herase⟩ := tcbEpAppend_spec happend
  have hget : ntfnPtrGetQueue u (ntfnAddr P cap) (scheduleTcb thread
      (s.modState thread (blockedOnNotification P (ntfnAddr P cap)))) =
      ntfnPtrGetQueue u (ntfnAddr P cap) s := by
    rw [ntfnPtrGetQueue, hntfn₀, ntfnPtrGetQueue]
  rw [hlinks₀, hget] at hlinks
  rw [hlinks₀, hget]
  refine ⟨hne, hlinks, ?_, ?_⟩
  · rw [← hntfn₀, ← notifications_of_eraseEP herase]
    simp [ntfnPtrSetQueue, KState.modNotification]
  · rw [← hview₀, ← threadView_of_eraseEP herase]
    rfl

theorem receiveSignal_active {cap : Cap} {blocking : Bool}
    (hstate : (s.notifications (ntfnAddr P cap)).state = .active)
    (h : receiveSignal P u thread cap blocking s = some s') :
    s' = s.setRegister thread badgeRegister
      (s.notifications (ntfnAddr P cap)).ntfnMsgIdentifier := by
  simp only [receiveSignal, hstate, bind, Option.bind_eq_some_iff, deref_eq_some, exists_const,
    pure, Option.some.injEq] at h
  exact h.2.symm

/-- A thread leaves the queue that `ntfn_ptr_get_queue` gives. -/
theorem cancelSignal_spec (h : cancelSignal P u t n s = some s') :
    let r := remove NULL t s.epLinks (ntfnPtrGetQueue u n s)
    s'.epLinks = r.1 ∧
      s'.notifications = Function.update s.notifications n
        { s.notifications n with
          ntfnQueueHead := P.ntfnQueueHead r.2.head
          ntfnQueueTail := P.ntfnQueueTail r.2.tail
          state := if r.2.head = NULL then .idle else (s.notifications n).state } ∧
      s'.threadView = Function.update s.threadView t
        { s.threadView t with tsType := .inactive } := by
  simp only [cancelSignal, bind, Option.bind_eq_some_iff, pure, Option.some.injEq] at h
  obtain ⟨⟨s₁, queue⟩, hdequeue, rfl⟩ := h
  obtain ⟨-, hlinks, rfl, -, herase⟩ := tcbEpDequeue_spec hdequeue
  simp only [setThreadState]
  refine ⟨?_, ?_, ?_⟩
  · rw [epLinks_of_eraseSched eraseSched_scheduleTcb, KState.setTsType, epLinks_modState,
      epLinks_ntfnPutQueue, hlinks]
  · rw [notifications_of_eraseSched eraseSched_scheduleTcb, ← notifications_of_eraseEP herase]
    exact notifications_ntfnPutQueue _
  · rw [threadView_of_eraseSched eraseSched_scheduleTcb, threadView_setTsType,
      threadView_ntfnPutQueue, threadView_of_eraseEP herase]

theorem restartLoop_spec {l : List Ptr} : ∀ {k : ℕ} {h : Ptr} {s : KState},
    NextChain NULL s.epLinks h l → restartLoop k h s = some s' →
      s'.epLinks = s.epLinks ∧ s'.notifications = s.notifications ∧
        ∀ t, s'.threadView t =
          if t ∈ l then { s.threadView t with tsType := .restart } else s.threadView t := by
  induction l with
  | nil =>
    intro k h s hchain hloop
    cases k with
    | zero => cases hloop
    | succ k =>
      obtain rfl : h = NULL := hchain
      rw [restartLoop, if_pos rfl] at hloop
      rw [← Option.some.inj hloop]
      exact ⟨rfl, rfl, fun t => (if_neg List.not_mem_nil).symm⟩
  | cons x l ih =>
    intro k h s hchain hloop
    cases k with
    | zero => cases hloop
    | succ k =>
      obtain ⟨rfl, hne, hchain⟩ := hchain
      rw [restartLoop, if_neg hne] at hloop
      have hlinks : (tcbSchedEnqueue h (s.setTsType h .restart)).epLinks = s.epLinks := by
        rw [epLinks_of_eraseSched eraseSched_tcbSchedEnqueue, KState.setTsType, epLinks_modState]
      have hview : (tcbSchedEnqueue h (s.setTsType h .restart)).threadView =
          Function.update s.threadView h { s.threadView h with tsType := .restart } := by
        rw [threadView_of_eraseSched eraseSched_tcbSchedEnqueue, threadView_setTsType]
      have hnext : ((tcbSchedEnqueue h (s.setTsType h .restart)).tcbs h).tcbEPNext =
          s.epLinks.next h := congrArg (fun L => L.next h) hlinks
      dsimp only at hloop
      rw [hnext] at hloop
      obtain ⟨h₁, h₂, h₃⟩ := ih (hlinks ▸ hchain) hloop
      have hntfn : (tcbSchedEnqueue h (s.setTsType h .restart)).notifications = s.notifications :=
        notifications_of_eraseSched (s := s.setTsType h .restart) eraseSched_tcbSchedEnqueue
      refine ⟨h₁.trans hlinks, h₂.trans hntfn, fun t => ?_⟩
      rw [h₃, hview]
      by_cases ht : t = h
      · subst ht
        simp
      · simp [ht]

/-- All threads of the queue go on. -/
theorem cancelAllSignals_spec {l : List Ptr} (hstate : (s.notifications n).state = .waiting)
    (hchain : NextChain NULL s.epLinks (s.notifications n).ntfnQueueHead l)
    (h : cancelAllSignals n s = some s') :
    s'.epLinks = s.epLinks ∧
      s'.notifications = Function.update s.notifications n
        { s.notifications n with state := .idle, ntfnQueueHead := 0, ntfnQueueTail := 0 } ∧
      ∀ t, s'.threadView t =
        if t ∈ l then { s.threadView t with tsType := .restart } else s.threadView t := by
  simp only [cancelAllSignals, if_pos hstate, bind, Option.bind_eq_some_iff, pure,
    Option.some.injEq] at h
  obtain ⟨s₁, hloop, rfl⟩ := h
  have hchain' : NextChain NULL (s.modNotification n fun ntfn =>
      { ntfn with state := .idle, ntfnQueueHead := 0, ntfnQueueTail := 0 }).epLinks
      (s.notifications n).ntfnQueueHead l := hchain
  obtain ⟨hlinks, hntfn, hview⟩ := restartLoop_spec hchain' hloop
  refine ⟨?_, ?_, fun t => ?_⟩
  · rw [epLinks_of_eraseSched eraseSched_rescheduleRequired, hlinks]
    rfl
  · rw [notifications_of_eraseSched eraseSched_rescheduleRequired, hntfn]
    rfl
  · rw [threadView_of_eraseSched eraseSched_rescheduleRequired]
    exact hview t

end Specs

end MicroKernel
