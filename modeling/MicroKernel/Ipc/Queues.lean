import MicroKernel.Ipc.SameQueues

/-!
# The queues of endpoints and notifications

All calls that use these queues, in any order, with references that are packed into bit fields.

* `WaitObject`, `InQueue` : endpoints and notifications, and the threads in their queues;
* `QueueInv` : the invariant: the queues hold the threads that wait, and the bit fields keep the
  references to them;
* `queueSystem` : the calls;
* `QueueInv.step` : a call keeps the invariant if it is `Regular`.
-/

namespace MicroKernel

open DList

/-! ### What threads wait at -/

/-- An object with a queue of threads. -/
inductive WaitObject where
  /-- An endpoint. -/
  | endpoint (e : Ptr)
  /-- A notification. -/
  | notification (n : Ptr)

namespace WaitObject

/-- The first thread of the queue, as stored. -/
def head (s : KState) : WaitObject → Ptr
  | endpoint e => (s.endpoints e).epQueueHead
  | notification n => (s.notifications n).ntfnQueueHead

/-- The object is idle. -/
def Idle (s : KState) : WaitObject → Prop
  | endpoint e => (s.endpoints e).state = .idle
  | notification n => (s.notifications n).state = .idle

/-- The object is as it was. -/
def Same (s s' : KState) : WaitObject → Prop
  | endpoint e => s'.endpoints e = s.endpoints e
  | notification n => s'.notifications n = s.notifications n

end WaitObject

/-- The thread `t` is in the queue of `o`. -/
def InQueue (s : KState) (o : WaitObject) (t : Ptr) : Prop := Reaches NULL s.epLinks (o.head s) t

/-! ### The invariant -/

/-- The bit fields keep the address that ends a queue. -/
structure Packing.KeepsNull (P : Packing) : Prop where
  /-- At an endpoint. -/
  epQueueTail : P.epQueueTail NULL = NULL
  /-- At a notification. -/
  ntfnQueueHead : P.ntfnQueueHead NULL = NULL
  /-- At a notification. -/
  ntfnQueueTail : P.ntfnQueueTail NULL = NULL

example : Packing.KeepsNull .bitFields := ⟨by decide, by decide, by decide⟩

/-- The invariant: `Q` and `W` are the queues of endpoints and of notifications, and the bit fields
keep the references to the threads in them. -/
structure QueueInv (P : Packing) (s : KState) (Q W : Ptr → List Ptr) : Prop where
  /-- The endpoints. -/
  ep : EpInv s Q
  /-- The notifications. -/
  ntfn : WaitInv s W
  /-- References from endpoints. -/
  epFits : ∀ e, ∀ t ∈ Q e, P.epQueueTail t = t
  /-- References from notifications. -/
  ntfnFits : ∀ n, ∀ t ∈ W n, P.ntfnQueueHead t = t ∧ P.ntfnQueueTail t = t

/-- The condition under which the thread `t` may block at the endpoint `e`: it is not blocked, the
bit fields keep the references, and `tcb_ep_append` returns the queue that it builds. -/
structure BlocksAtEndpoint (P : Packing) (u : Undef) (s : KState) (t e : Ptr) : Prop where
  /-- The queue that is returned. -/
  appends : u.tcbEpAppend = id
  /-- The thread. -/
  notBlocked : (s.tcbs t).tcbState.tsType.blocked = false
  /-- The reference from the thread. -/
  object : P.blockingObject e = e
  /-- The reference from the endpoint. -/
  tail : P.epQueueTail t = t

/-- The same for the notification `n`, where the queue must also be read as it is stored. -/
structure BlocksAtNotification (P : Packing) (u : Undef) (s : KState) (t n : Ptr) : Prop where
  /-- The queue that is returned. -/
  appends : u.tcbEpAppend = id
  /-- The thread. -/
  notBlocked : (s.tcbs t).tcbState.tsType.blocked = false
  /-- The reference from the thread. -/
  object : P.blockingObject n = n
  /-- The references from the notification. -/
  queue : P.ntfnQueueHead t = t ∧ P.ntfnQueueTail t = t
  /-- The queue that is read. -/
  reads : ntfnPtrGetQueue u n s = storedQueue n s

theorem ThreadStateType.blocked_eq_false_iff (ts : ThreadStateType) :
    ts.blocked = false ↔
      ts.onEndpoint = false ∧ ts ≠ .blockedOnNotification ∧ ts ≠ .blockedOnReply := by
  cases ts <;> decide

section Steps

variable {P : Packing} {u : Undef} {s s' s₁ s₂ : KState} {Q W : Ptr → List Ptr} {e n t : Ptr}
  {badge : U64} {ts : ThreadStateType}

theorem fits_getLastD {f : Ptr → U64} {l : List Ptr} (hnull : f NULL = NULL)
    (h : ∀ t ∈ l, f t = t) : f (l.getLastD NULL) = l.getLastD NULL := by
  rcases eq_or_ne l [] with rfl | hl
  · exact hnull
  · exact h _ (getLastD_mem hl NULL)

theorem fits_headD {f : Ptr → U64} {l : List Ptr} (hnull : f NULL = NULL)
    (h : ∀ t ∈ l, f t = t) : f (l.headD NULL) = l.headD NULL := by
  rcases eq_or_ne l [] with rfl | hl
  · exact hnull
  · exact h _ (headD_mem hl NULL)

/-- Where the bit field keeps the reference to the last thread, nothing is lost. -/
theorem epDequeue_recoverable (h : epDequeue P t e s = some s')
    (htail : P.epQueueTail (remove NULL t s.epLinks (epptrGetQueue e s)).2.tail =
      (remove NULL t s.epLinks (epptrGetQueue e s)).2.tail) :
    epDequeue .recoverable t e s = some s' := by
  simp only [epDequeue, bind, Option.bind_eq_some_iff, pure, Option.some.injEq, Prod.exists] at h ⊢
  obtain ⟨s₁, queue, hdequeue, rfl⟩ := h
  refine ⟨s₁, queue, hdequeue, ?_⟩
  obtain ⟨-, -, rfl, -⟩ := tcbEpDequeue_spec hdequeue
  simp only [epptrSetQueue, htail, Packing.recoverable, id]

theorem forall_mem_update {R : Ptr → Prop} {l : List Ptr} (h : ∀ e, ∀ t ∈ Q e, R t)
    (hl : ∀ t ∈ l, R t) (e : Ptr) : ∀ e', ∀ t ∈ Function.update Q e l e', R t := by
  intro e' t ht
  by_cases he : e' = e
  · subst he
    rw [Function.update_self] at ht
    exact hl t ht
  · rw [Function.update_of_ne he] at ht
    exact h e' t ht

theorem forall_mem_append {R : Ptr → Prop} {l : List Ptr} (h : ∀ t ∈ l, R t) (ht : R t) :
    ∀ t' ∈ l ++ [t], R t' := by
  intro t' ht'
  rcases List.mem_append.1 ht' with ht' | ht'
  · exact h t' ht'
  · rwa [List.mem_singleton.1 ht']

namespace QueueInv

theorem of_sameQueues (h : QueueInv P s Q W) (hs : SameQueues s s') : QueueInv P s' Q W :=
  ⟨h.ep.of_sameQueues hs, h.ntfn.of_sameQueues hs, h.epFits, h.ntfnFits⟩

/-! ### Endpoints -/

theorem epDequeue_recoverable (h : QueueInv P s Q W) (hP : P.KeepsNull) (ht : t ∈ Q e)
    (hdequeue : epDequeue P t e s = some s') : epDequeue .recoverable t e s = some s' := by
  refine MicroKernel.epDequeue_recoverable hdequeue ?_
  rw [((h.ep.repr e).remove ht).tail_eq]
  exact fits_getLastD hP.epQueueTail fun t' ht' => h.epFits e t' (List.mem_of_mem_erase ht')

theorem dequeue (h : QueueInv P s Q W) (hP : P.KeepsNull) (ht : t ∈ Q e)
    (hts : ts.onEndpoint = false) (hts' : ts ≠ .blockedOnNotification)
    (hdequeue : epDequeue P t e s = some s') :
    QueueInv P (s'.setTsType t ts) (Function.update Q e ((Q e).erase t)) W := by
  have hrecoverable := h.epDequeue_recoverable hP ht hdequeue
  obtain ⟨-, hlinks, -, herase⟩ := epDequeue_spec hrecoverable
  have hntfn : s'.notifications = s.notifications := notifications_of_eraseEP herase
  have hother : ∀ t' ≠ t, ((s'.setTsType t ts).tcbs t').tcbState = (s.tcbs t').tcbState :=
    fun t' ht' => by
      rw [KState.tcbs_setTsType_of_ne _ ht']
      exact KState.eq_of_eraseEP herase (fun s => (s.tcbs t').tcbState) fun _ => rfl
  have hlinks' : (s'.setTsType t ts).epLinks = (remove NULL t s.epLinks (epptrGetQueue e s)).1 :=
    (epLinks_modState _).trans hlinks
  refine ⟨h.ep.dequeue ht hts hrecoverable, ?_,
    forall_mem_update h.epFits (fun t' ht' => h.epFits e t' (List.mem_of_mem_erase ht')) e,
    h.ntfnFits⟩
  refine h.ntfn.frame_thread (fun n y hy => ?_) hntfn
    (fun n hmem => h.ntfn.notMem h.ep hmem ht) hother ?_
  · rw [hlinks']
    exact (h.ep.repr e).remove_frame (h.ntfn.notMem h.ep hy) ht
  · rw [KState.tcbState_setTsType_self]
    exact hts'

/-- The first thread of a queue gets or gives its message and is woken. -/
theorem wake (h : QueueInv P s Q W) (hP : P.KeepsNull) (ht : t ∈ Q e)
    (hdequeue : epDequeue P t e s = some s₁) (herase : s₂.eraseData = s₁.eraseData) :
    QueueInv P (possibleSwitchTo t (s₂.setTsType t .running))
      (Function.update Q e ((Q e).erase t)) W := by
  have hleft : QueueInv P (s₁.setTsType t .running) _ W := h.dequeue hP ht rfl nofun hdequeue
  refine hleft.of_sameQueues ?_
  exact ((SameQueues.of_eraseData herase).setTsType t .running).trans
    (.of_eraseSched eraseSched_possibleSwitchTo)

theorem block {canGrant canGrantReply : Bool} (h : QueueInv P s Q W)
    (hstate : (s.endpoints e).state ≠ .recv) (hblocks : BlocksAtEndpoint P u s t e)
    (hsend : sendIpc P u true false badge canGrant canGrantReply t e s = some s') :
    QueueInv P s' (Function.update Q e (Q e ++ [t])) W := by
  obtain ⟨hu, hfresh, hobject, hfits⟩ := hblocks
  obtain ⟨hne, hlinks, hendpoints, herase⟩ := sendIpc_block hstate hsend
  obtain ⟨hep, hwaits, -⟩ := (ThreadStateType.blocked_eq_false_iff _).1 hfresh
  have hblocked : blockedOnSend P false badge canGrant canGrantReply e =
      blockedOnSend .recoverable false badge canGrant canGrantReply e := by
    funext st
    simp only [blockedOnSend, hobject, Packing.recoverable, id]
  have htail : P.epQueueTail (pushBack NULL t s.epLinks (epptrGetQueue e s)).2.tail =
      (pushBack NULL t s.epLinks (epptrGetQueue e s)).2.tail := hfits
  rw [hu, id, htail] at hendpoints
  rw [hblocked] at herase
  have htcbState : ∀ t', (s'.tcbs t').tcbState = ((s.modState t (blockedOnSend .recoverable false
      badge canGrant canGrantReply e)).tcbs t').tcbState := fun t' =>
    KState.eq_of_eraseEP herase (fun s => (s.tcbs t').tcbState) fun _ => rfl
  have hntfn : s'.notifications = s.notifications := (notifications_of_eraseEP herase).trans rfl
  have hnot : ∀ n, t ∉ W n := fun n hmem => hwaits ((h.ntfn.mem_iff n t).1 hmem).1
  refine ⟨h.ep.append hne (by simp [hep]) hstate hlinks hendpoints herase,
    h.ntfn.frame_thread (fun n y hy => ?_) hntfn hnot (fun t' ht' => ?_) ?_,
    forall_mem_update h.epFits (forall_mem_append (h.epFits e) hfits) e, h.ntfnFits⟩
  · rw [hlinks]
    exact (h.ep.repr e).pushBack_frame (h.ntfn.notMem h.ep hy) fun heq => hnot n (heq ▸ hy)
  · rw [htcbState, KState.modState, KState.tcbs_modTcb_of_ne _ ht']
  · rw [htcbState, KState.modState, KState.tcbs_modTcb_self]
    exact ThreadStateType.noConfusion

theorem send {dest : U64} (h : QueueInv P s Q W) (hP : P.KeepsNull)
    (hregular : (s.endpoints (slotEndpoint dest s)).state ≠ .recv →
      BlocksAtEndpoint P u s s.ksCurThread (slotEndpoint dest s))
    (hsend : MicroKernel.send P u dest s = some s') : ∃ Q, QueueInv P s' Q W := by
  by_cases hstate : (s.endpoints (slotEndpoint dest s)).state = .recv
  · obtain ⟨s₁, s₂, hdequeue, htransfer, rfl⟩ := sendIpc_deliver hstate hsend
    exact ⟨_, h.wake hP (h.ep.head_mem (epDequeue_spec hdequeue).1) hdequeue
      (doIpcTransfer_erase htransfer).2.2⟩
  · exact ⟨_, h.block hstate (hregular hstate) hsend⟩

theorem receive {dest : U64} (h : QueueInv P s Q W) (hP : P.KeepsNull)
    (hreceive : MicroKernel.receive P u dest s = some s') : ∃ Q, QueueInv P s' Q W := by
  by_cases hsignal : HasSignal s.ksCurThread s
  · obtain ⟨-, rfl⟩ := receiveIpc_signal hsignal hreceive
    exact ⟨Q, h.of_sameQueues (.completeSignal _ _ _)⟩
  · obtain ⟨s₁, s₂, hdequeue, htransfer, rfl⟩ :=
      receiveFromSender_spec (receiveIpc_dequeue hsignal hreceive).2
    have hmem := h.ep.head_mem (epDequeue_spec hdequeue).1
    rw [(h.ep.waits _ _ hmem).notCall]
    exact ⟨_, h.wake hP hmem hdequeue (doIpcTransfer_erase htransfer).2.2⟩

theorem mem_of_blocked (h : QueueInv P s Q W)
    (hts : (s.tcbs t).tcbState.tsType = .blockedOnSend ∨
      (s.tcbs t).tcbState.tsType = .blockedOnReceive) :
    t ∈ Q (s.tcbs t).tcbState.blockingObject := by
  refine h.ep.queued t ?_
  rcases hts with hts | hts <;> rw [hts] <;> rfl

theorem cancelIpc (h : QueueInv P s Q W) (hP : P.KeepsNull)
    (hcancel : MicroKernel.cancelIpc P t s = some s') : ∃ Q, QueueInv P s' Q W := by
  rcases cancelIpc_cases hcancel with ⟨hblocked, s₁, hdequeue, rfl⟩ | rfl
  · exact ⟨_, h.dequeue hP (h.mem_of_blocked hblocked) rfl nofun hdequeue⟩
  · exact ⟨Q, h⟩

/-! ### Notifications -/

theorem leave (h : QueueInv P s Q W) (hP : P.KeepsNull) (ht : t ∈ W n)
    (hlinks : s'.epLinks = (remove NULL t s.epLinks (storedQueue n s)).1)
    (hntfn : s'.notifications = Function.update s.notifications n
      { s.notifications n with
        ntfnQueueHead := P.ntfnQueueHead (remove NULL t s.epLinks (storedQueue n s)).2.head
        ntfnQueueTail := P.ntfnQueueTail (remove NULL t s.epLinks (storedQueue n s)).2.tail
        state := if (remove NULL t s.epLinks (storedQueue n s)).2.head = NULL then .idle
          else (s.notifications n).state })
    (hview : ∀ t' ≠ t, s'.threadView t' = s.threadView t')
    (hself : (s'.threadView t).tsType.blocked = false) (hkeeps : KeepsEndpoints s s') :
    QueueInv P s' Q (Function.update W n ((W n).erase t)) := by
  obtain ⟨hep, hwaits, -⟩ := (ThreadStateType.blocked_eq_false_iff _).1 hself
  have hrepr := (h.ntfn.repr n).remove ht
  have hfits : ∀ t' ∈ (W n).erase t, P.ntfnQueueHead t' = t' ∧ P.ntfnQueueTail t' = t' :=
    fun t' ht' => h.ntfnFits n t' (List.mem_of_mem_erase ht')
  have hhead : P.ntfnQueueHead (remove NULL t s.epLinks (storedQueue n s)).2.head =
      (remove NULL t s.epLinks (storedQueue n s)).2.head := by
    rw [hrepr.head_eq]
    exact fits_headD hP.ntfnQueueHead fun t' ht' => (hfits t' ht').1
  have htail : P.ntfnQueueTail (remove NULL t s.epLinks (storedQueue n s)).2.tail =
      (remove NULL t s.epLinks (storedQueue n s)).2.tail := by
    rw [hrepr.tail_eq]
    exact fits_getLastD hP.ntfnQueueTail fun t' ht' => (hfits t' ht').2
  rw [hhead, htail] at hntfn
  refine ⟨h.ep.frame_thread (fun e y hy => ?_) hkeeps (fun e => h.ntfn.notMem h.ep ht) hview hep,
    h.ntfn.remove ht hlinks hntfn hwaits hview, h.epFits,
    forall_mem_update h.ntfnFits hfits n⟩
  rw [hlinks]
  exact (h.ntfn.repr n).remove_frame (fun hy' => h.ntfn.notMem h.ep hy' hy) ht

theorem wakeWaiter (h : QueueInv P s Q W) (hP : P.KeepsNull)
    (hread : ntfnPtrGetQueue u n s = storedQueue n s)
    (hcall : MicroKernel.wakeWaiter P u n badge s = some s') : ∃ W, QueueInv P s' Q W := by
  have hkeeps := keepsEndpoints_wakeWaiter hcall
  obtain ⟨hne, hlinks, hntfn, hview⟩ := wakeWaiter_spec hcall
  rw [hread] at hne hlinks hntfn hview
  refine ⟨_, h.leave hP ((h.ntfn.repr n).head_mem hne) hlinks hntfn (fun t' ht' => ?_) ?_ hkeeps⟩
  · rw [hview, Function.update_of_ne ht']
  · rw [hview, Function.update_self]
    rfl

theorem cancelSignal (h : QueueInv P s Q W) (hP : P.KeepsNull) (ht : t ∈ W n)
    (hread : ntfnPtrGetQueue u n s = storedQueue n s)
    (hcall : MicroKernel.cancelSignal P u t n s = some s') : ∃ W, QueueInv P s' Q W := by
  have hkeeps := keepsEndpoints_cancelSignal hcall
  obtain ⟨hlinks, hntfn, hview⟩ := cancelSignal_spec hcall
  rw [hread] at hlinks hntfn
  refine ⟨_, h.leave hP ht hlinks hntfn (fun t' ht' => ?_) ?_ hkeeps⟩
  · rw [hview, Function.update_of_ne ht']
  · rw [hview, Function.update_self]
    rfl

theorem sendSignal (h : QueueInv P s Q W) (hP : P.KeepsNull)
    (hregular : (s.notifications n).state = .waiting → ntfnPtrGetQueue u n s = storedQueue n s)
    (hcall : MicroKernel.sendSignal P u n badge s = some s') : ∃ W, QueueInv P s' Q W := by
  cases hs : (s.notifications n).state with
  | waiting =>
    rw [sendSignal_waiting hs] at hcall
    exact h.wakeWaiter hP (hregular hs) hcall
  | active =>
    rw [sendSignal_active hs] at hcall
    exact ⟨W, Option.some.inj hcall ▸
      h.of_sameQueues (.modNotification n (fun _ => ⟨rfl, rfl⟩) fun _ => rfl)⟩
  | idle =>
    -- the call runs into the empty queue
    have hnil : W n = [] := by
      by_contra hne
      rw [(h.ntfn.waiting_iff n).2 hne] at hs
      cases hs
    have htail := (h.ntfn.repr n).tail_eq
    rw [hnil] at htail
    rw [sendSignal_idle hs htail] at hcall
    cases hcall

theorem blockSignal {cap : Cap} (h : QueueInv P s Q W) (hP : P.KeepsNull)
    (hstate : (s.notifications (ntfnAddr P cap)).state ≠ .active)
    (hblocks : BlocksAtNotification P u s t (ntfnAddr P cap))
    (hcall : MicroKernel.receiveSignal P u t cap true s = some s') :
    QueueInv P s' Q (Function.update W (ntfnAddr P cap) (W (ntfnAddr P cap) ++ [t])) := by
  obtain ⟨hu, hfresh, hobject, hfits, hread⟩ := hblocks
  have hkeeps := keepsEndpoints_receiveSignal hcall
  obtain ⟨hne, hlinks, hntfn, hview⟩ := receiveSignal_block hstate hcall
  obtain ⟨hep, hwaits, -⟩ := (ThreadStateType.blocked_eq_false_iff _).1 hfresh
  generalize ntfnAddr P cap = n at *
  rw [hread] at hlinks hntfn
  rw [hobject] at hview
  have hnot : ∀ n', t ∉ W n' := fun n' hmem => hwaits ((h.ntfn.mem_iff n' t).1 hmem).1
  have hnot' : ∀ e, t ∉ Q e := fun e hmem => by
    rw [(h.ep.waits e t hmem).onEndpoint] at hep
    cases hep
  have hqueue : ∀ t' ∈ W n ++ [t], P.ntfnQueueHead t' = t' ∧ P.ntfnQueueTail t' = t' :=
    forall_mem_append (h.ntfnFits n) hfits
  have hrepr := (h.ntfn.repr n).pushBack (hnot n) hne
  have hhead : P.ntfnQueueHead (pushBack NULL t s.epLinks (storedQueue n s)).2.head =
      (pushBack NULL t s.epLinks (storedQueue n s)).2.head := by
    rw [hrepr.head_eq]
    exact fits_headD hP.ntfnQueueHead fun t' ht' => (hqueue t' ht').1
  have htail : P.ntfnQueueTail (pushBack NULL t s.epLinks (storedQueue n s)).2.tail =
      (pushBack NULL t s.epLinks (storedQueue n s)).2.tail := hfits.2
  rw [hu, id, hhead, htail] at hntfn
  refine ⟨h.ep.frame_thread (fun e y hy => ?_) hkeeps hnot' (fun t' ht' => ?_) ?_,
    h.ntfn.append hne hwaits hlinks hntfn hview, h.epFits, forall_mem_update h.ntfnFits hqueue n⟩
  · rw [hlinks]
    exact (h.ntfn.repr n).pushBack_frame (fun hy' => h.ntfn.notMem h.ep hy' hy)
      fun heq => hnot' e (heq ▸ hy)
  · rw [hview, Function.update_of_ne ht']
  · rw [hview, Function.update_self]
    rfl

theorem receiveSignal {cap : Cap} {blocking : Bool} (h : QueueInv P s Q W) (hP : P.KeepsNull)
    (hregular : blocking = true → (s.notifications (ntfnAddr P cap)).state ≠ .active →
      BlocksAtNotification P u s t (ntfnAddr P cap))
    (hcall : MicroKernel.receiveSignal P u t cap blocking s = some s') :
    ∃ W, QueueInv P s' Q W := by
  by_cases hactive : (s.notifications (ntfnAddr P cap)).state = .active
  · rw [receiveSignal_active hactive hcall]
    exact ⟨W, h.of_sameQueues (.of_eraseData (by simp))⟩
  · cases blocking with
    | false =>
      have hcall' : s' = s := by
        cases hs : (s.notifications (ntfnAddr P cap)).state with
        | active => exact absurd hs hactive
        | idle | waiting => simpa [MicroKernel.receiveSignal, hs, eq_comm] using hcall
      exact ⟨W, hcall' ▸ h⟩
    | true => exact ⟨_, h.blockSignal hP hactive (hregular rfl hactive) hcall⟩

theorem cancelAllSignals (h : QueueInv P s Q W)
    (hcall : MicroKernel.cancelAllSignals n s = some s') : ∃ W, QueueInv P s' Q W := by
  by_cases hstate : (s.notifications n).state = .waiting
  · have hkeeps := keepsEndpoints_cancelAllSignals hcall
    obtain ⟨hlinks, -, hview⟩ := cancelAllSignals_spec hstate (h.ntfn.repr n).nextChain hcall
    refine ⟨_, h.ep.frame (fun e y _ => by rw [hlinks]; exact ⟨rfl, rfl⟩) hkeeps fun t => ?_,
      h.ntfn.cancelAll hcall, h.epFits, forall_mem_update h.ntfnFits (by simp) n⟩
    have hself := hview t
    split_ifs at hself with ht
    · refine .inr ⟨fun e => h.ntfn.notMem h.ep ht, ?_⟩
      change ¬(s'.threadView t).tsType.onEndpoint
      rw [hself]
      exact Bool.false_ne_true
    · exact .inl ⟨congrArg ThreadView.tsType hself, congrArg ThreadView.blockingObject hself⟩
  · rw [MicroKernel.cancelAllSignals, if_neg hstate] at hcall
    exact ⟨W, Option.some.inj hcall ▸ h⟩

/-! ### Objects -/

theorem inQueue_endpoint_iff (h : QueueInv P s Q W) : InQueue s (.endpoint e) t ↔ t ∈ Q e :=
  (h.ep.repr e).nextChain.reaches_iff

theorem inQueue_notification_iff (h : QueueInv P s Q W) :
    InQueue s (.notification n) t ↔ t ∈ W n :=
  (h.ntfn.repr n).nextChain.reaches_iff

end QueueInv

end Steps

/-! ### Runs -/

/-- The calls that use the queues of endpoints and notifications. -/
inductive QueueEvent where
  /-- A step of the machine, or `cancel_ipc`. -/
  | ipc (ev : IpcEvent)
  /-- `receive_signal`. -/
  | receiveSignal (u : Undef) (thread : Ptr) (cap : Cap) (isBlocking : Bool)
  /-- `send_signal`. -/
  | sendSignal (u : Undef) (n : Ptr) (badge : U64)
  /-- `cancel_signal`. -/
  | cancelSignal (u : Undef) (t n : Ptr)
  /-- `cancel_allSignals`. -/
  | cancelAllSignals (n : Ptr)
  /-- `bind_notification`. -/
  | bind (tcb n : Ptr)
  /-- `unbind_notification`. -/
  | unbind (tcb : Ptr)
  /-- `unbind_maybe_notification`. -/
  | unbindMaybe (n : Ptr)

/-- A step of the machine, or a call. -/
def Machine.queueStep (P : Packing) (m : Machine) : QueueEvent → Option Machine
  | .ipc ev => m.ipcStep P ev
  | .receiveSignal u thread cap isBlocking =>
    (receiveSignal P u thread cap isBlocking m.kernel).map fun k => { m with kernel := k }
  | .sendSignal u n badge =>
    (sendSignal P u n badge m.kernel).map fun k => { m with kernel := k }
  | .cancelSignal u t n => (cancelSignal P u t n m.kernel).map fun k => { m with kernel := k }
  | .cancelAllSignals n => (cancelAllSignals n m.kernel).map fun k => { m with kernel := k }
  | .bind tcb n => some { m with kernel := bindNotification P tcb n m.kernel }
  | .unbind tcb => some { m with kernel := unbindNotification tcb m.kernel }
  | .unbindMaybe n => some { m with kernel := unbindMaybeNotification n m.kernel }

/-- The machine with these calls, in any order. -/
def queueSystem (P : Packing) : System Machine QueueEvent := System.ofStep (Machine.queueStep P)

/-- The condition on a step: a thread that blocks is not blocked already and can be found again by
the references to it, and a queue of a notification that is used is read as it is stored. -/
def Regular (P : Packing) (m : Machine) : QueueEvent → Prop
  | .ipc (.kernel (.trap u tf)) => tf.trapno = tSyscall → sysNum tf = sysSendNum →
      (m.kernel.endpoints (slotEndpoint tf.rdi m.kernel)).state ≠ .recv →
        BlocksAtEndpoint P u m.kernel m.kernel.ksCurThread (slotEndpoint tf.rdi m.kernel)
  | .receiveSignal u thread cap isBlocking => isBlocking = true →
      (m.kernel.notifications (ntfnAddr P cap)).state ≠ .active →
        BlocksAtNotification P u m.kernel thread (ntfnAddr P cap)
  | .sendSignal u n _ => (m.kernel.notifications n).state = .waiting →
      ntfnPtrGetQueue u n m.kernel = storedQueue n m.kernel
  | .cancelSignal u t n => InQueue m.kernel (.notification n) t ∧
      ntfnPtrGetQueue u n m.kernel = storedQueue n m.kernel
  | _ => True

section Runs

variable {P : Packing} {m m' : Machine} {Q W : Ptr → List Ptr}

theorem QueueInv.ipcStep {ev : IpcEvent} (h : QueueInv P m.kernel Q W) (hP : P.KeepsNull)
    (hstep : m.ipcStep P ev = some m') (hC : Regular P m (.ipc ev)) :
    ∃ Q, QueueInv P m'.kernel Q W := by
  cases ev with
  | cancelIpc tptr =>
    obtain ⟨k, hcancel, rfl⟩ := Option.map_eq_some_iff.1 hstep
    exact h.cancelIpc hP hcancel
  | kernel ev =>
    cases ev with
    | schedule own => exact ⟨Q, h.of_sameQueues (Machine.sameQueues_schedule (P := P) hstep)⟩
    | trap u tf =>
      have hi : SameQueues m.kernel (enterTrap tf m.kernel) :=
        .of_notifications (.enterTrap _ tf) rfl
      have hresult : ∀ s, SameQueues s (setResult 0 s) := fun s =>
        .of_notifications (.setResult s 0) rfl
      obtain ⟨-, ⟨k, hcase, rfl⟩ | ⟨-, -, rfl⟩⟩ := Machine.step_trap hstep
      · cases hcase with
        | other _ => exact ⟨Q, h⟩
        | quiet result memblock _ _ _ _ =>
          exact ⟨Q, h.of_sameQueues (.of_notifications (.quiet m.kernel tf result memblock) rfl)⟩
        | send htrap hnum hsend =>
          have hblocks : (m.kernel.endpoints (slotEndpoint tf.rdi m.kernel)).state ≠ .recv →
              BlocksAtEndpoint P u (enterTrap tf m.kernel) m.kernel.ksCurThread
                (slotEndpoint tf.rdi m.kernel) := fun hstate => by
            obtain ⟨hu, hfresh, hobject, htail⟩ := hC htrap hnum hstate
            exact ⟨hu, by rwa [hi.tsType], hobject, htail⟩
          obtain ⟨Q', h'⟩ := (h.of_sameQueues hi).send hP hblocks hsend
          exact ⟨Q', h'.of_sameQueues (hresult _)⟩
        | receive _ _ hreceive =>
          obtain ⟨Q', h'⟩ := (h.of_sameQueues hi).receive hP hreceive
          exact ⟨Q', h'.of_sameQueues (hresult _)⟩
      · exact ⟨Q, h.of_sameQueues (hi.trans (.of_notifications (.mainResumed _) rfl))⟩

/-- A step that meets the condition keeps the invariant. -/
theorem QueueInv.step {ev : QueueEvent} (h : QueueInv P m.kernel Q W) (hP : P.KeepsNull)
    (hstep : m.queueStep P ev = some m') (hC : Regular P m ev) :
    ∃ Q W, QueueInv P m'.kernel Q W := by
  cases ev with
  | ipc ev =>
    obtain ⟨Q', h'⟩ := h.ipcStep hP hstep hC
    exact ⟨Q', W, h'⟩
  | receiveSignal u thread cap isBlocking =>
    obtain ⟨k, hcall, rfl⟩ := Option.map_eq_some_iff.1 hstep
    exact ⟨Q, h.receiveSignal hP hC hcall⟩
  | sendSignal u n badge =>
    obtain ⟨k, hcall, rfl⟩ := Option.map_eq_some_iff.1 hstep
    exact ⟨Q, h.sendSignal hP hC hcall⟩
  | cancelSignal u t n =>
    obtain ⟨k, hcall, rfl⟩ := Option.map_eq_some_iff.1 hstep
    exact ⟨Q, h.cancelSignal hP (h.inQueue_notification_iff.1 hC.1) hC.2 hcall⟩
  | cancelAllSignals n =>
    obtain ⟨k, hcall, rfl⟩ := Option.map_eq_some_iff.1 hstep
    exact ⟨Q, h.cancelAllSignals hcall⟩
  | bind tcb n =>
    obtain rfl := Option.some.inj hstep
    exact ⟨Q, W, h.of_sameQueues (.bindNotification P tcb n)⟩
  | unbind tcb =>
    obtain rfl := Option.some.inj hstep
    exact ⟨Q, W, h.of_sameQueues (.unbindNotification tcb)⟩
  | unbindMaybe n =>
    obtain rfl := Option.some.inj hstep
    exact ⟨Q, W, h.of_sameQueues (.unbindMaybeNotification n)⟩

end Runs

end MicroKernel
