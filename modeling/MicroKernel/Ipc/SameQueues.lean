import MicroKernel.Ipc.Consistency
import MicroKernel.Ipc.WaitQueue

/-!
# Calls that keep queues

Endpoints and notifications share the links of their queues, but no thread is in queues of both.  A
call on one kind of object keeps the queues of the other kind.

* `EpInv.frame`, `WaitInv.frame` : the invariants of the two kinds depend on their own threads only;
* `SameQueues` : a call that concerns no queue at all;
* `KeepsEndpoints` : the calls on notifications write to no endpoint.
-/

namespace MicroKernel

open DList

/-! ### Calls on endpoints and calls on notifications -/

section Frames

variable {s s' s'' : KState} {Q W : Ptr → List Ptr} {p t : Ptr}

/-- The thread `t` waits as before. -/
def SameWait (s s' : KState) (t : Ptr) : Prop :=
  (s'.tcbs t).tcbState.tsType = (s.tcbs t).tcbState.tsType ∧
    (s'.tcbs t).tcbState.blockingObject = (s.tcbs t).tcbState.blockingObject

/-- What calls on notifications leave as it was. -/
structure KeepsEndpoints (s s' : KState) : Prop where
  /-- The endpoints. -/
  endpoints : s'.endpoints = s.endpoints
  /-- Which threads wait for a reply. -/
  iscall : ∀ t, (s'.tcbs t).tcbState.blockingIPCIscall = (s.tcbs t).tcbState.blockingIPCIscall

/-- Calls that concern no endpoint: a thread that does not wait as before is in no queue and is not
blocked at an endpoint. -/
theorem EpInv.frame (h : EpInv s Q)
    (hlinks : ∀ e, ∀ y ∈ Q e, s'.epLinks.next y = s.epLinks.next y ∧
      s'.epLinks.prev y = s.epLinks.prev y) (hkeeps : KeepsEndpoints s s')
    (hthread : ∀ t, SameWait s s' t ∨
      (∀ e, t ∉ Q e) ∧ ¬(s'.tcbs t).tcbState.tsType.onEndpoint) : EpInv s' Q where
  repr e := by
    have hq : epptrGetQueue e s' = epptrGetQueue e s := by
      simp only [epptrGetQueue, hkeeps.endpoints]
    rw [hq]
    exact (h.repr e).congr (fun y hy => (hlinks e y hy).1) fun y hy => (hlinks e y hy).2
  idle_iff e := by
    rw [hkeeps.endpoints]
    exact h.idle_iff e
  waits e t ht := by
    obtain ⟨hobject, hnot, hstate⟩ := h.waits e t ht
    obtain ⟨htype, hblocking⟩ := (hthread t).resolve_right fun hout => hout.1 e ht
    refine ⟨?_, ?_, ?_⟩
    · rw [hblocking, hobject]
    · rw [hkeeps.iscall, hnot]
    · rw [htype, hkeeps.endpoints]
      exact hstate
  queued t ht := by
    obtain ⟨htype, hblocking⟩ := (hthread t).resolve_right fun hout => hout.2 ht
    rw [hblocking]
    rw [htype] at ht
    exact h.queued t ht

/-- Calls that concern no notification: a thread that does not wait as before is in no queue and is
not blocked at a notification. -/
theorem WaitInv.frame (h : WaitInv s W)
    (hlinks : ∀ n, ∀ y ∈ W n, s'.epLinks.next y = s.epLinks.next y ∧
      s'.epLinks.prev y = s.epLinks.prev y)
    (hqueue : ∀ n, storedQueue n s' = storedQueue n s)
    (hstate : ∀ n, (s'.notifications n).state = .waiting ↔ (s.notifications n).state = .waiting)
    (hthread : ∀ t, SameWait s s' t ∨
      (∀ n, t ∉ W n) ∧ (s'.tcbs t).tcbState.tsType ≠ .blockedOnNotification) : WaitInv s' W where
  repr n := by
    rw [hqueue]
    exact (h.repr n).congr (fun y hy => (hlinks n y hy).1) fun y hy => (hlinks n y hy).2
  waiting_iff n := (hstate n).trans (h.waiting_iff n)
  mem_iff n t := by
    rcases hthread t with ⟨htype, hblocking⟩ | ⟨hnot, hout⟩
    · have hwaits : WaitsFor .recoverable s' n t ↔ WaitsFor .recoverable s n t := by
        simp only [WaitsFor, KState.threadView, htype, hblocking]
      rw [hwaits]
      exact h.mem_iff n t
    · exact iff_of_false (hnot n) fun hwaits => hout hwaits.1

theorem WaitInv.frame_thread (h : WaitInv s W)
    (hlinks : ∀ n, ∀ y ∈ W n, s'.epLinks.next y = s.epLinks.next y ∧
      s'.epLinks.prev y = s.epLinks.prev y)
    (hntfn : s'.notifications = s.notifications) (ht : ∀ n, t ∉ W n)
    (hother : ∀ t' ≠ t, (s'.tcbs t').tcbState = (s.tcbs t').tcbState)
    (hself : (s'.tcbs t).tcbState.tsType ≠ .blockedOnNotification) : WaitInv s' W := by
  refine h.frame hlinks (fun n => by rw [storedQueue, hntfn, storedQueue])
    (fun n => by rw [hntfn]) fun t' => ?_
  by_cases heq : t' = t
  · subst heq
    exact .inr ⟨ht, hself⟩
  · rw [SameWait, hother t' heq]
    exact .inl ⟨rfl, rfl⟩

theorem EpInv.frame_thread (h : EpInv s Q)
    (hlinks : ∀ e, ∀ y ∈ Q e, s'.epLinks.next y = s.epLinks.next y ∧
      s'.epLinks.prev y = s.epLinks.prev y)
    (hkeeps : KeepsEndpoints s s') (ht : ∀ e, t ∉ Q e)
    (hother : ∀ t' ≠ t, s'.threadView t' = s.threadView t')
    (hself : (s'.threadView t).tsType.onEndpoint = false) : EpInv s' Q := by
  refine h.frame hlinks hkeeps fun t' => ?_
  by_cases heq : t' = t
  · subst heq
    exact .inr ⟨ht, ne_true_of_eq_false hself⟩
  · have hview := hother t' heq
    exact .inl ⟨congrArg ThreadView.tsType hview, congrArg ThreadView.blockingObject hview⟩

theorem WaitInv.not_onEndpoint {n : Ptr} (h : WaitInv s W) (ht : t ∈ W n) :
    ¬(s.tcbs t).tcbState.tsType.onEndpoint := by
  have htype : (s.tcbs t).tcbState.tsType = .blockedOnNotification := ((h.mem_iff n t).1 ht).1
  rw [htype]
  exact Bool.false_ne_true

theorem WaitInv.notMem {e n : Ptr} (h : WaitInv s W) (hep : EpInv s Q) (ht : t ∈ W n) : t ∉ Q e :=
  fun hmem => h.not_onEndpoint ht (hep.waits e t hmem).onEndpoint

/-- Two states with the same queues, in which the same threads are blocked. -/
structure SameQueues (s s' : KState) : Prop extends SameIpc s s' where
  /-- The queues of notifications. -/
  stored : ∀ n, storedQueue n s' = storedQueue n s
  /-- The notifications that are waiting. -/
  waiting_iff : ∀ n,
    (s'.notifications n).state = .waiting ↔ (s.notifications n).state = .waiting

namespace SameQueues

theorem of_notifications (h : SameIpc s s') (hntfn : s'.notifications = s.notifications) :
    SameQueues s s' :=
  ⟨h, fun n => by rw [storedQueue, hntfn, storedQueue], fun n => by rw [hntfn]⟩

theorem trans (h : SameQueues s s') (h' : SameQueues s' s'') : SameQueues s s'' :=
  ⟨h.toSameIpc.trans h'.toSameIpc, fun n => (h'.stored n).trans (h.stored n),
    fun n => (h'.waiting_iff n).trans (h.waiting_iff n)⟩

theorem of_eraseSched (h : s'.eraseSched = s.eraseSched) : SameQueues s s' :=
  of_notifications (.of_eraseSched h) (notifications_of_eraseSched h)

theorem of_eraseData (h : s'.eraseData = s.eraseData) : SameQueues s s' :=
  of_notifications (.of_eraseData h) (KState.eq_of_eraseData h KState.notifications fun _ => rfl)

theorem setTsType (h : SameQueues s s') (p : Ptr) (ts : ThreadStateType) :
    SameQueues (s.setTsType p ts) (s'.setTsType p ts) :=
  ⟨h.toSameIpc.setTsType p ts, h.stored, h.waiting_iff⟩

theorem modNotification {f : Notification → Notification} (n : Ptr)
    (hqueue : ∀ ntfn, (f ntfn).ntfnQueueHead = ntfn.ntfnQueueHead ∧
      (f ntfn).ntfnQueueTail = ntfn.ntfnQueueTail)
    (hstate : ∀ ntfn, (f ntfn).state = ntfn.state) : SameQueues s (s.modNotification n f) := by
  have hself : ∀ n', ((s.modNotification n f).notifications n').ntfnQueueHead =
      (s.notifications n').ntfnQueueHead ∧
      ((s.modNotification n f).notifications n').ntfnQueueTail =
        (s.notifications n').ntfnQueueTail ∧
      ((s.modNotification n f).notifications n').state = (s.notifications n').state := by
    intro n'
    by_cases hn : n' = n
    · subst hn
      simp [KState.modNotification, hqueue, hstate]
    · simp [KState.modNotification, hn]
  refine ⟨⟨rfl, rfl, fun n' => (hself n').1, fun _ => rfl⟩, fun n' => ?_, fun n' => ?_⟩
  · exact congrArg₂ Queue.mk (hself n').1 (hself n').2.1
  · rw [(hself n').2.2]

theorem modBound (v : Ptr) :
    SameQueues s (s.modTcb p fun t => { t with tcbBoundNotification := v }) :=
  .of_notifications ⟨s.epLinks_modTcb (fun _ => rfl) fun _ => rfl, rfl, fun _ => rfl,
    s.field_modTcb (fun t => t.tcbState.eraseQueued) fun _ => rfl⟩ rfl

theorem bindNotification (P : Packing) (tcb n : Ptr) : SameQueues s (bindNotification P tcb n s) :=
  have h : SameQueues s (s.modNotification n fun ntfn =>
      { ntfn with ntfnBoundTCB := P.ntfnBoundTCB tcb }) :=
    modNotification n (fun _ => ⟨rfl, rfl⟩) fun _ => rfl
  h.trans (modBound n)

theorem doUnbindNotification (n tcb : Ptr) : SameQueues s (doUnbindNotification n tcb s) :=
  have h : SameQueues s (s.modNotification n fun ntfn => { ntfn with ntfnBoundTCB := 0 }) :=
    modNotification n (fun _ => ⟨rfl, rfl⟩) fun _ => rfl
  h.trans (modBound NULL)

theorem unbindNotification (tcb : Ptr) : SameQueues s (unbindNotification tcb s) := by
  simp only [MicroKernel.unbindNotification]
  split_ifs
  · exact doUnbindNotification _ _
  · exact .of_eraseSched rfl

theorem unbindMaybeNotification (n : Ptr) : SameQueues s (unbindMaybeNotification n s) := by
  simp only [MicroKernel.unbindMaybeNotification]
  split_ifs
  · exact doUnbindNotification _ _
  · exact .of_eraseSched rfl

theorem completeSignal (s : KState) (n tcb : Ptr) :
    SameQueues s (completeSignal n tcb s) := by
  refine ⟨.completeSignal s n tcb, fun n' => ?_, fun n' => ?_⟩
  all_goals
    rw [MicroKernel.completeSignal]
    split_ifs with hactive
    · by_cases hn : n' = n
      · subst hn
        simp [storedQueue, KState.modNotification, KState.setRegister, KState.modTcb, hactive.2]
      · simp [storedQueue, KState.modNotification, KState.setRegister, KState.modTcb, hn]
    · rfl

end SameQueues

/-- An iteration of the scheduling loop concerns no queue of waiting threads. -/
theorem Machine.sameQueues_schedule {P : Packing} {m m' : Machine} {own : Bool}
    (h : m.step P (.schedule own) = some m') : SameQueues m.kernel m'.kernel := by
  refine .of_notifications (sameIpc_schedule h) ?_
  have henter : ∀ thread action, (switchToThreadEnter thread
      (m.kernel.setSchedulerAction action)).notifications = m.kernel.notifications := by
    intro thread action
    have hdequeue : (tcbSchedDequeue thread (m.kernel.setSchedulerAction action)).notifications =
        m.kernel.notifications := notifications_of_eraseSched (by simp)
    exact hdequeue
  obtain ⟨-, ⟨-, rfl⟩ | ⟨-, rfl | rfl⟩⟩ := step_schedule h
  · rfl
  · dsimp only
    split_ifs
    · exact henter _ _
    · exact henter _ _
  · exact henter _ _

theorem EpInv.of_sameQueues (h : EpInv s Q) (hs : SameQueues s s') : EpInv s' Q :=
  h.of_sameIpc hs.toSameIpc

theorem WaitInv.of_sameQueues (h : WaitInv s W) (hs : SameQueues s s') : WaitInv s' W :=
  h.frame (fun n y _ => by rw [hs.links]; exact ⟨rfl, rfl⟩) hs.stored hs.waiting_iff
    fun t => .inl ⟨hs.tsType t, hs.blockingObject t⟩

namespace KeepsEndpoints

theorem refl (s : KState) : KeepsEndpoints s s := ⟨rfl, fun _ => rfl⟩

theorem trans (h : KeepsEndpoints s s') (h' : KeepsEndpoints s' s'') : KeepsEndpoints s s'' :=
  ⟨h'.endpoints.trans h.endpoints, fun t => (h'.iscall t).trans (h.iscall t)⟩

theorem of_eraseSched (h : s'.eraseSched = s.eraseSched) : KeepsEndpoints s s' :=
  ⟨KState.eq_of_eraseSched h KState.endpoints fun _ => rfl, fun t =>
    KState.eq_of_eraseSched h (fun s => (s.tcbs t).tcbState.blockingIPCIscall) fun _ => rfl⟩

theorem of_eraseEP (h : s'.eraseEP = s.eraseEP) (hendpoints : s'.endpoints = s.endpoints) :
    KeepsEndpoints s s' :=
  ⟨hendpoints, fun t =>
    KState.eq_of_eraseEP h (fun s => (s.tcbs t).tcbState.blockingIPCIscall) fun _ => rfl⟩

theorem modTcb {f : Tcb → Tcb}
    (h : ∀ t, (f t).tcbState.blockingIPCIscall = t.tcbState.blockingIPCIscall) :
    KeepsEndpoints s (s.modTcb p f) :=
  ⟨rfl, s.field_modTcb (fun t => t.tcbState.blockingIPCIscall) h⟩

theorem setTsType (ts : ThreadStateType) : KeepsEndpoints s (s.setTsType p ts) := by
  rw [KState.setTsType, KState.modState]
  exact modTcb fun _ => rfl

theorem setRegister (reg : ℕ) (w : U64) : KeepsEndpoints s (s.setRegister p reg w) := by
  rw [KState.setRegister]
  exact modTcb fun _ => rfl

theorem ntfnPutQueue (P : Packing) (n : Ptr) (queue : TcbQueue) :
    KeepsEndpoints s (ntfnPutQueue P n queue s) := by
  simp only [MicroKernel.ntfnPutQueue]
  split_ifs
  · exact ⟨rfl, fun _ => rfl⟩
  · exact ⟨rfl, fun _ => rfl⟩

theorem scheduleTcb : KeepsEndpoints s (scheduleTcb p s) := of_eraseSched (by simp)

end KeepsEndpoints

/-! ### Calls on notifications keep the endpoints -/

variable {P : Packing} {u : Undef} {n : Ptr} {badge : U64}

theorem keepsEndpoints_wakeWaiter (h : wakeWaiter P u n badge s = some s') :
    KeepsEndpoints s s' := by
  simp only [wakeWaiter, bind, Option.bind_eq_some_iff, pure, Option.some.injEq] at h
  obtain ⟨⟨s₁, queue⟩, hdequeue, rfl⟩ := h
  obtain ⟨-, -, -, hendpoints, herase⟩ := tcbEpDequeue_spec hdequeue
  exact (((KeepsEndpoints.of_eraseEP herase hendpoints).trans (.ntfnPutQueue P n queue)).trans
    (.setTsType .running)).trans ((KeepsEndpoints.setRegister badgeRegister badge).trans
      (.of_eraseSched eraseSched_possibleSwitchTo))

theorem keepsEndpoints_cancelSignal (h : cancelSignal P u t n s = some s') :
    KeepsEndpoints s s' := by
  simp only [cancelSignal, bind, Option.bind_eq_some_iff, pure, Option.some.injEq] at h
  obtain ⟨⟨s₁, queue⟩, hdequeue, rfl⟩ := h
  obtain ⟨-, -, -, hendpoints, herase⟩ := tcbEpDequeue_spec hdequeue
  exact (((KeepsEndpoints.of_eraseEP herase hendpoints).trans (.ntfnPutQueue P n queue)).trans
    (.setTsType .inactive)).trans .scheduleTcb

theorem keepsEndpoints_receiveSignal {cap : Cap} {blocking : Bool}
    (h : receiveSignal P u t cap blocking s = some s') : KeepsEndpoints s s' := by
  have hblock : ∀ {s₁ queue}, tcbEpAppend t (ntfnPtrGetQueue u (ntfnAddr P cap)
      (scheduleTcb t (s.modState t (blockedOnNotification P (ntfnAddr P cap)))))
      (scheduleTcb t (s.modState t (blockedOnNotification P (ntfnAddr P cap)))) =
        some (s₁, queue) → KeepsEndpoints s s₁ := by
    intro s₁ queue happend
    obtain ⟨-, -, hendpoints, herase⟩ := tcbEpAppend_spec happend
    have hmod : KeepsEndpoints s (s.modState t (blockedOnNotification P (ntfnAddr P cap))) := by
      rw [KState.modState]
      exact .modTcb fun _ => rfl
    exact (hmod.trans .scheduleTcb).trans (.of_eraseEP herase hendpoints)
  cases hs : (s.notifications (ntfnAddr P cap)).state with
  | active =>
    rw [receiveSignal_active hs h]
    exact .setRegister _ _
  | idle | waiting =>
    cases blocking with
    | false =>
      simp only [receiveSignal, hs, Bool.false_eq_true, if_false, Option.some.injEq] at h
      exact h ▸ .refl s
    | true =>
      simp only [receiveSignal, hs, if_true, bind, Option.bind_eq_some_iff, deref_eq_some, pure,
        Option.some.injEq, exists_const, Prod.exists] at h
      obtain ⟨-, s₁, queue, happend, rfl⟩ := h
      exact (hblock happend).trans ⟨rfl, fun _ => rfl⟩

theorem keepsEndpoints_restartLoop : ∀ {k : ℕ} {thread : Ptr} {s : KState},
    restartLoop k thread s = some s' → KeepsEndpoints s s' := by
  intro k
  induction k with
  | zero => nofun
  | succ k ih =>
    intro thread s h
    rw [restartLoop] at h
    split_ifs at h with hnull
    · exact Option.some.inj h ▸ .refl s
    · exact ((KeepsEndpoints.setTsType .restart).trans
        (.of_eraseSched eraseSched_tcbSchedEnqueue)).trans (ih h)

theorem keepsEndpoints_cancelAllSignals (h : cancelAllSignals n s = some s') :
    KeepsEndpoints s s' := by
  simp only [cancelAllSignals] at h
  split_ifs at h with hstate
  · simp only [bind, Option.bind_eq_some_iff, pure, Option.some.injEq] at h
    obtain ⟨s₁, hloop, rfl⟩ := h
    have hmod : KeepsEndpoints s (s.modNotification n fun ntfn =>
        { ntfn with state := .idle, ntfnQueueHead := 0, ntfnQueueTail := 0 }) := ⟨rfl, fun _ => rfl⟩
    exact (hmod.trans (keepsEndpoints_restartLoop hloop)).trans
      (.of_eraseSched eraseSched_rescheduleRequired)
  · exact Option.some.inj h ▸ .refl s

end Frames

end MicroKernel
