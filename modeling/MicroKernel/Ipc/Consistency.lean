import MicroKernel.Kernel.Resume

/-!
# The consistency of endpoints

The state of an endpoint, its queue and the states of the threads in the queue are written by
separate statements of `send_ipc`, `receive_ipc` and `cancel_ipc`.

* `EpConsistent` : they agree, and no thread is in two places;
* `EpInv s Q` : the invariant: the queues hold the threads `Q`, and those are the threads that wait;
* `EpInv.append`, `EpInv.dequeue` : what the two operations on queues do to it;
* `ipcSystem_consistent` : endpoints are consistent in every run in which no thread sends while it
  waits at an endpoint;
* `not_ipcSystem_consistent` : the thread that the first `send` has blocked goes on, and sends to a
  second endpoint.
-/

namespace MicroKernel

open DList

/-! ### Consistency -/

/-- The thread is blocked at an endpoint. -/
def ThreadStateType.onEndpoint : ThreadStateType → Bool
  | blockedOnSend | blockedOnReceive => true
  | _ => false

/-- The threads in the queues of endpoints are `Q`: the states of endpoints and threads agree with
them, and no thread occurs twice. -/
structure QueuesConsistent (s : KState) (Q : Ptr → List Ptr) : Prop where
  /-- The links lead through the queue. -/
  chain : ∀ e, NextChain NULL s.epLinks (s.endpoints e).epQueueHead (Q e)
  /-- An endpoint is idle if its queue is empty, and only then. -/
  idle_iff : ∀ e, (s.endpoints e).state = .idle ↔ Q e = []
  /-- In the state `send` all threads of the queue wait for a receiver here. -/
  send : ∀ e, (s.endpoints e).state = .send → ∀ t ∈ Q e,
    (s.tcbs t).tcbState.tsType = .blockedOnSend ∧ (s.tcbs t).tcbState.blockingObject = e
  /-- In the state `recv` all threads of the queue wait for a sender here. -/
  recv : ∀ e, (s.endpoints e).state = .recv → ∀ t ∈ Q e,
    (s.tcbs t).tcbState.tsType = .blockedOnReceive ∧ (s.tcbs t).tcbState.blockingObject = e
  /-- No thread occurs twice in a queue. -/
  nodup : ∀ e, (Q e).Nodup
  /-- No thread is in two queues. -/
  disjoint : ∀ e e' t, t ∈ Q e → t ∈ Q e' → e = e'

/-- The endpoints are consistent. -/
def EpConsistent (s : KState) : Prop := ∃ Q, QueuesConsistent s Q

/-- A thread that waits at the endpoint `e`, for a message to be taken or given. -/
structure WaitsAt (s : KState) (e t : Ptr) : Prop where
  /-- It waits here. -/
  object : (s.tcbs t).tcbState.blockingObject = e
  /-- It does not wait for a reply. -/
  notCall : (s.tcbs t).tcbState.blockingIPCIscall = false
  /-- Its state and that of the endpoint agree. -/
  state : (s.tcbs t).tcbState.tsType = .blockedOnSend ∧ (s.endpoints e).state = .send ∨
    (s.tcbs t).tcbState.tsType = .blockedOnReceive ∧ (s.endpoints e).state = .recv

/-- The invariant: the queues hold the threads `Q`, which are the threads that wait. -/
structure EpInv (s : KState) (Q : Ptr → List Ptr) : Prop where
  /-- The queues are well formed. -/
  repr : ∀ e, Repr NULL s.epLinks (epptrGetQueue e s) (Q e)
  /-- An endpoint is idle if its queue is empty, and only then. -/
  idle_iff : ∀ e, (s.endpoints e).state = .idle ↔ Q e = []
  /-- The threads of a queue wait at its endpoint. -/
  waits : ∀ e, ∀ t ∈ Q e, WaitsAt s e t
  /-- A thread that is blocked at an endpoint is in its queue. -/
  queued : ∀ t, (s.tcbs t).tcbState.tsType.onEndpoint →
    t ∈ Q (s.tcbs t).tcbState.blockingObject

section Invariant

variable {s s' : KState} {Q : Ptr → List Ptr} {e e' t t' : Ptr}

theorem QueuesConsistent.head_mem (h : QueuesConsistent s Q)
    (hhead : (s.endpoints e).epQueueHead = t) (hne : t ≠ NULL) : t ∈ Q e :=
  (h.chain e).reaches_iff.1 (hhead ▸ .refl (hhead ▸ hne))

theorem WaitsAt.onEndpoint (h : WaitsAt s e t) : (s.tcbs t).tcbState.tsType.onEndpoint := by
  rcases h.state with ⟨hs, -⟩ | ⟨hs, -⟩ <;> rw [hs] <;> rfl

namespace EpInv

theorem disjoint (h : EpInv s Q) (ht : t ∈ Q e) (ht' : t ∈ Q e') : e = e' :=
  (h.waits e t ht).object.symm.trans (h.waits e' t ht').object

theorem consistent (h : EpInv s Q) : EpConsistent s := by
  refine ⟨Q, fun e => (h.repr e).nextChain, h.idle_iff, fun e he t ht => ?_, fun e he t ht => ?_,
    fun e => (h.repr e).nodup, fun e e' t => h.disjoint⟩
  · have hw := h.waits e t ht
    exact ⟨(hw.state.resolve_right fun hs => by rw [he] at hs; cases hs.2).1, hw.object⟩
  · have hw := h.waits e t ht
    exact ⟨(hw.state.resolve_left fun hs => by rw [he] at hs; cases hs.2).1, hw.object⟩

theorem of_sameIpc (h : EpInv s Q) (hs : SameIpc s s') : EpInv s' Q where
  repr e := by
    have hq : epptrGetQueue e s' = epptrGetQueue e s := by simp only [epptrGetQueue, hs.endpoints]
    rw [hs.links, hq]
    exact h.repr e
  idle_iff e := by rw [hs.endpoints]; exact h.idle_iff e
  waits e t ht := by
    obtain ⟨hobject, hcall, hstate⟩ := h.waits e t ht
    refine ⟨?_, ?_, ?_⟩
    · rw [hs.blockingObject, hobject]
    · rw [hs.blockingIPCIscall, hcall]
    · rw [hs.tsType, hs.endpoints]
      exact hstate
  queued t ht := by
    rw [hs.tsType] at ht
    rw [hs.blockingObject]
    exact h.queued t ht

theorem repr_update {l : List Ptr} (h : EpInv s Q)
    (hself : Repr NULL s'.epLinks (epptrGetQueue e s') l)
    (hother : ∀ e' ≠ e, s'.endpoints e' = s.endpoints e')
    (hframe : ∀ e' ≠ e, ∀ y ∈ Q e', s'.epLinks.next y = s.epLinks.next y ∧
      s'.epLinks.prev y = s.epLinks.prev y) (e' : Ptr) :
    Repr NULL s'.epLinks (epptrGetQueue e' s') (Function.update Q e l e') := by
  refine Repr.update (fun e => epptrGetQueue e s) (fun e => epptrGetQueue e s') h.repr hself
    (fun e' he => ?_) hframe e'
  rw [epptrGetQueue, hother e' he, epptrGetQueue]

theorem update_erase (h : EpInv s Q) (ht : t ∈ Q e) (e' : Ptr) :
    Function.update Q e ((Q e).erase t) e' = (Q e').erase t := by
  by_cases he : e' = e
  · subst he
    rw [Function.update_self]
  · have hnot : t ∉ Q e' := fun hmem => he (h.disjoint hmem ht)
    rw [Function.update_of_ne he, List.erase_of_not_mem hnot]

/-- A thread leaves the queue it is in, and goes on to another state. -/
theorem dequeue {ts : ThreadStateType} (h : EpInv s Q) (ht : t ∈ Q e) (hts : ts.onEndpoint = false)
    (hdequeue : epDequeue Packing.recoverable t e s = some s') :
    EpInv (s'.setTsType t ts) (Function.update Q e ((Q e).erase t)) := by
  obtain ⟨-, hlinks, hendpoints, herase⟩ := epDequeue_spec hdequeue
  have hrepr := (h.repr e).remove ht
  have htcbState : ∀ t', (s'.tcbs t').tcbState = (s.tcbs t').tcbState := fun t' =>
    KState.eq_of_eraseEP herase (fun s => (s.tcbs t').tcbState) fun _ => rfl
  have hother : ∀ t' ≠ t, ((s'.setTsType t ts).tcbs t').tcbState = (s.tcbs t').tcbState :=
    fun t' ht' => by rw [KState.tcbs_setTsType_of_ne _ ht', htcbState]
  have hlinks' : (s'.setTsType t ts).epLinks = (remove NULL t s.epLinks (epptrGetQueue e s)).1 :=
    (epLinks_modState _).trans hlinks
  have hstate : ∀ e', ((s'.setTsType t ts).endpoints e').state =
      if Function.update Q e ((Q e).erase t) e' = [] then .idle else (s.endpoints e').state := by
    intro e'
    change (s'.endpoints e').state = _
    rw [hendpoints]
    by_cases he : e' = e
    · subst he
      simp only [Function.update_self, hrepr.head_eq_null_iff]
    · simp only [Function.update_of_ne he]
      split_ifs with hQ
      · exact (h.idle_iff e').2 hQ
      · rfl
  have hmem : ∀ {e' t'}, t' ∈ Function.update Q e ((Q e).erase t) e' ↔ t' ∈ Q e' ∧ t' ≠ t := by
    intro e' t'
    rw [h.update_erase ht, (h.repr e').nodup.mem_erase_iff, and_comm]
  refine ⟨fun e' => ?_, fun e' => ?_, fun e' t' ht' => ?_, fun t' ht' => ?_⟩
  · refine h.repr_update ?_ (fun e' he => ?_) (fun e' he y hy => ?_) e'
    · rw [hlinks', epptrGetQueue]
      change Repr NULL _ ⟨(s'.endpoints e).epQueueHead, (s'.endpoints e).epQueueTail⟩ _
      rw [hendpoints, Function.update_self]
      exact hrepr
    · change s'.endpoints e' = _
      rw [hendpoints, Function.update_of_ne he]
    · rw [hlinks']
      exact (h.repr e).remove_frame (fun hy' => he (h.disjoint hy hy')) ht
  · rw [hstate]
    split_ifs with hQ
    · exact iff_of_true rfl hQ
    · refine iff_of_false (fun hidle => hQ ?_) hQ
      have hnil := (h.idle_iff e').1 hidle
      refine List.eq_nil_iff_forall_not_mem.2 fun t' ht' => ?_
      rw [hmem, hnil] at ht'
      exact List.not_mem_nil ht'.1
  · obtain ⟨hobject, hcall, hw⟩ := h.waits e' t' (hmem.1 ht').1
    refine ⟨?_, ?_, ?_⟩
    · rw [hother t' (hmem.1 ht').2, hobject]
    · rw [hother t' (hmem.1 ht').2, hcall]
    · rw [hother t' (hmem.1 ht').2, hstate, if_neg (List.ne_nil_of_mem ht')]
      exact hw
  · have hne : t' ≠ t := by
      rintro rfl
      rw [KState.tcbState_setTsType_self, hts] at ht'
      cases ht'
    rw [hother t' hne] at ht' ⊢
    exact hmem.2 ⟨h.queued t' ht', hne⟩

/-- A thread that waits nowhere waits at an endpoint that nobody waits at to send. -/
theorem append {badge : U64} {canGrant canGrantReply : Bool} (h : EpInv s Q)
    (hne : t ≠ NULL) (ht : ¬(s.tcbs t).tcbState.tsType.onEndpoint)
    (hstate : (s.endpoints e).state ≠ .recv)
    (hlinks : s'.epLinks = (pushBack NULL t s.epLinks (epptrGetQueue e s)).1)
    (hendpoints : s'.endpoints = Function.update s.endpoints e
      ⟨(pushBack NULL t s.epLinks (epptrGetQueue e s)).2.head,
        (pushBack NULL t s.epLinks (epptrGetQueue e s)).2.tail, .send⟩)
    (herase : s'.eraseEP = (s.modState t
      (blockedOnSend Packing.recoverable false badge canGrant canGrantReply e)).eraseEP) :
    EpInv s' (Function.update Q e (Q e ++ [t])) := by
  have htcbState : ∀ t', (s'.tcbs t').tcbState = ((s.modState t (blockedOnSend Packing.recoverable
      false badge canGrant canGrantReply e)).tcbs t').tcbState := fun t' =>
    KState.eq_of_eraseEP herase (fun s => (s.tcbs t').tcbState) fun _ => rfl
  have hself : (s'.tcbs t).tcbState = blockedOnSend Packing.recoverable false badge canGrant
      canGrantReply e (s.tcbs t).tcbState := by
    rw [htcbState, KState.modState, KState.tcbs_modTcb_self]
  have hother : ∀ t' ≠ t, (s'.tcbs t').tcbState = (s.tcbs t').tcbState := fun t' ht' => by
    rw [htcbState, KState.modState, KState.tcbs_modTcb_of_ne _ ht']
  have hnot : ∀ e', t ∉ Q e' := fun e' hmem => ht (h.waits e' t hmem).onEndpoint
  have hself' := congrFun hendpoints e
  rw [Function.update_self] at hself'
  have hother' : ∀ e' ≠ e, s'.endpoints e' = s.endpoints e' := fun e' he => by
    rw [hendpoints, Function.update_of_ne he]
  have hmem : ∀ {e' t'}, t' ∈ Function.update Q e (Q e ++ [t]) e' ↔
      t' ∈ Q e' ∨ e' = e ∧ t' = t := by
    intro e' t'
    by_cases he : e' = e
    · subst he
      simp
    · simp [he]
  refine ⟨h.repr_update ?_ hother' fun e' he y hy => ?_, fun e' => ?_, fun e' t' ht' => ?_,
    fun t' ht' => ?_⟩
  · have hq : epptrGetQueue e s' = (pushBack NULL t s.epLinks (epptrGetQueue e s)).2 := by
      rw [epptrGetQueue, hself']
    rw [hlinks, hq]
    exact (h.repr e).pushBack (hnot e) hne
  · rw [hlinks]
    exact (h.repr e).pushBack_frame (fun hy' => he (h.disjoint hy hy'))
      fun heq => hnot e' (heq ▸ hy)
  · by_cases he : e' = e
    · subst he
      simp [hself']
    · rw [hother' e' he, Function.update_of_ne he]
      exact h.idle_iff e'
  · rcases hmem.1 ht' with ht' | ⟨rfl, rfl⟩
    · have hne' : t' ≠ t := fun heq => hnot e' (heq ▸ ht')
      obtain ⟨hobject, hcall, hw⟩ := h.waits e' t' ht'
      refine ⟨?_, ?_, ?_⟩
      · rw [hother t' hne', hobject]
      · rw [hother t' hne', hcall]
      · rw [hother t' hne']
        by_cases he : e' = e
        · subst he
          exact Or.inl ⟨(hw.resolve_right fun hr => hstate hr.2).1, by rw [hself']⟩
        · rw [hother' e' he]
          exact hw
    · refine ⟨?_, ?_, Or.inl ⟨?_, by rw [hself']⟩⟩ <;> rw [hself] <;> rfl
  · by_cases hne' : t' = t
    · subst hne'
      rw [hself]
      exact hmem.2 (Or.inr ⟨rfl, rfl⟩)
    · rw [hother t' hne'] at ht' ⊢
      exact hmem.2 (Or.inl (h.queued t' ht'))

theorem head_mem (h : EpInv s Q) (hne : (epptrGetQueue e s).head ≠ NULL) :
    (epptrGetQueue e s).head ∈ Q e := (h.repr e).head_mem hne

theorem wake {s₁ s₂ : KState} (h : EpInv s Q) (ht : t ∈ Q e)
    (hdequeue : epDequeue Packing.recoverable t e s = some s₁)
    (herase : s₂.eraseData = s₁.eraseData) :
    EpInv (possibleSwitchTo t (s₂.setTsType t .running))
      (Function.update Q e ((Q e).erase t)) := by
  have hleft : EpInv (s₁.setTsType t .running) _ := h.dequeue ht rfl hdequeue
  refine hleft.of_sameIpc ?_
  exact ((SameIpc.of_eraseData herase).setTsType t .running).trans
    (.of_eraseSched eraseSched_possibleSwitchTo)

theorem send {u : Undef} {dest : U64} (h : EpInv s Q) (hu : u.tcbEpAppend = id)
    (hfresh : (s.endpoints (slotEndpoint dest s)).state ≠ .recv →
      ¬(s.tcbs s.ksCurThread).tcbState.tsType.onEndpoint)
    (hsend : MicroKernel.send Packing.recoverable u dest s = some s') : ∃ Q, EpInv s' Q := by
  by_cases hstate : (s.endpoints (slotEndpoint dest s)).state = .recv
  · obtain ⟨s₁, s₂, hdequeue, htransfer, rfl⟩ := sendIpc_deliver hstate hsend
    exact ⟨_, h.wake (h.head_mem (epDequeue_spec hdequeue).1) hdequeue
      (doIpcTransfer_erase htransfer).2.2⟩
  · obtain ⟨hne, hlinks, hendpoints, herase⟩ := sendIpc_block hstate hsend
    rw [hu] at hendpoints
    exact ⟨_, h.append hne (hfresh hstate) hstate hlinks hendpoints herase⟩

theorem receive {u : Undef} {dest : U64} (h : EpInv s Q)
    (hreceive : MicroKernel.receive Packing.recoverable u dest s = some s') : ∃ Q, EpInv s' Q := by
  by_cases hsignal : HasSignal s.ksCurThread s
  · obtain ⟨-, rfl⟩ := receiveIpc_signal hsignal hreceive
    exact ⟨Q, h.of_sameIpc (.completeSignal _ _ _)⟩
  · obtain ⟨s₁, s₂, hdequeue, htransfer, rfl⟩ :=
      receiveFromSender_spec (receiveIpc_dequeue hsignal hreceive).2
    have hmem := h.head_mem (epDequeue_spec hdequeue).1
    rw [(h.waits _ _ hmem).notCall]
    exact ⟨_, h.wake hmem hdequeue (doIpcTransfer_erase htransfer).2.2⟩

theorem cancelIpc {tptr : Ptr} (h : EpInv s Q)
    (hcancel : MicroKernel.cancelIpc Packing.recoverable tptr s = some s') : ∃ Q, EpInv s' Q := by
  rcases cancelIpc_cases hcancel with ⟨hblocked, s₁, hdequeue, rfl⟩ | rfl
  · have hmem : tptr ∈ Q (s.tcbs tptr).tcbState.blockingObject := by
      refine h.queued tptr ?_
      rcases hblocked with hb | hb <;> rw [hb] <;> rfl
    exact ⟨_, h.dequeue hmem rfl hdequeue⟩
  · exact ⟨Q, h⟩

end EpInv

end Invariant

/-! ### Runs -/

/-- The steps of the machine, and cancellations. -/
inductive IpcEvent where
  /-- A step of the machine. -/
  | kernel (ev : KernelEvent)
  /-- `cancel_ipc` is called for the thread `tptr`. -/
  | cancelIpc (tptr : Ptr)

/-- A step of the machine, or a cancellation. -/
def Machine.ipcStep (P : Packing) (m : Machine) : IpcEvent → Option Machine
  | .kernel ev => m.step P ev
  | .cancelIpc tptr => (MicroKernel.cancelIpc P tptr m.kernel).map fun k => { m with kernel := k }

/-- The machine with cancellations, where references can be recovered from their bit fields. -/
def ipcSystem : System Machine IpcEvent := System.ofStep (Machine.ipcStep Packing.recoverable)

/-- `tcb_ep_append` returns the queue that it builds. -/
def AppendReturns (ev : IpcEvent) : Prop := ∀ u tf, ev = .kernel (.trap u tf) → u.tcbEpAppend = id

/-- The condition on a step: when it is a `send` that finds no receiver, its caller does not wait at
an endpoint already. -/
def FreshSend (m : Machine) (ev : IpcEvent) : Prop :=
  ∀ u tf, ev = .kernel (.trap u tf) → tf.trapno = tSyscall → sysNum tf = sysSendNum →
    (m.kernel.endpoints (slotEndpoint tf.rdi m.kernel)).state ≠ .recv →
      ¬(m.kernel.tcbs m.kernel.ksCurThread).tcbState.tsType.onEndpoint

/-- The kernel before the first system call: the endpoints are idle and empty, and no thread is
blocked at one. -/
structure IpcBoot (s : KState) : Prop where
  /-- The endpoints. -/
  endpoint : ∀ e, s.endpoints e = ⟨NULL, NULL, .idle⟩
  /-- The threads. -/
  notBlocked : ∀ t, ¬(s.tcbs t).tcbState.tsType.onEndpoint

theorem IpcBoot.inv {s : KState} (h : IpcBoot s) : EpInv s fun _ => [] where
  repr e := by
    rw [epptrGetQueue, h.endpoint]
    exact .nil
  idle_iff e := by simp [h.endpoint]
  waits e t ht := absurd ht List.not_mem_nil
  queued t ht := absurd ht (h.notBlocked t)

section Runs

variable {m m' : Machine}

/-- A step keeps the invariant, if it is not a `send` by a thread that waits. -/
theorem ipcStep_inv {ev : IpcEvent} (hstep : m.ipcStep Packing.recoverable ev = some m')
    (hu : AppendReturns ev) (hC : FreshSend m ev) (h : ∃ Q, EpInv m.kernel Q) :
    ∃ Q, EpInv m'.kernel Q := by
  obtain ⟨Q, h⟩ := h
  cases ev with
  | cancelIpc tptr =>
    obtain ⟨k, hcancel, rfl⟩ := Option.map_eq_some_iff.1 hstep
    exact h.cancelIpc hcancel
  | kernel ev =>
    cases ev with
    | schedule own => exact ⟨Q, h.of_sameIpc (Machine.sameIpc_schedule (P := .recoverable) hstep)⟩
    | trap u tf =>
      have hi := SameIpc.enterTrap m.kernel tf
      obtain ⟨-, ⟨k, hcase, rfl⟩ | ⟨-, -, rfl⟩⟩ := Machine.step_trap hstep
      · cases hcase with
        | other _ => exact ⟨Q, h⟩
        | quiet result memblock _ _ _ _ =>
          exact ⟨Q, h.of_sameIpc (.quiet m.kernel tf result memblock)⟩
        | send htrap hnum hsend =>
          have hfresh := hC u tf rfl htrap hnum
          rw [← hi.tsType] at hfresh
          obtain ⟨Q', h'⟩ := (h.of_sameIpc hi).send (hu u tf rfl) hfresh hsend
          exact ⟨Q', h'.of_sameIpc (.setResult _ 0)⟩
        | receive _ _ hreceive =>
          obtain ⟨Q', h'⟩ := (h.of_sameIpc hi).receive hreceive
          exact ⟨Q', h'.of_sameIpc (.setResult _ 0)⟩
      · exact ⟨Q, h.of_sameIpc (hi.trans (.mainResumed _))⟩

end Runs

/-- Endpoints are consistent throughout a run in which no thread sends while it waits. -/
theorem ipcSystem_consistent {m m' : Machine} {tr : List (System.Step Machine IpcEvent)}
    (h₀ : IpcBoot m.kernel) (hrun : ipcSystem.Run m tr m') (hu : ∀ x ∈ tr, AppendReturns x.ev)
    (hC : ∀ x ∈ tr, FreshSend x.pre x.ev) :
    EpConsistent m'.kernel ∧ ∀ x ∈ tr, EpConsistent x.pre.kernel := by
  obtain ⟨⟨_, h⟩, hall⟩ := hrun.invariant (I := fun m => ∃ Q, EpInv m.kernel Q)
    (C := fun x => AppendReturns x.ev ∧ FreshSend x.pre x.ev) ⟨_, h₀.inv⟩
    (fun _ hstep hx h => ipcStep_inv hstep hx.1 hx.2 h) fun x hx => ⟨hu x hx, hC x hx⟩
  refine ⟨h.consistent, fun x hx => ?_⟩
  obtain ⟨⟨_, h⟩, -⟩ := hall x hx
  exact h.consistent

/-! ### A thread in two queues -/

/-- The thread is dispatched and blocks in `send`. -/
def firstSend : List IpcEvent :=
  [.kernel (.schedule true), .kernel (.trap Undef.benign (sysFrame sysSendNum 0))]

theorem bootMachine_ipcBoot : IpcBoot bootMachine.kernel where
  endpoint e := KState.eq_of_eraseSched eraseSched_bootKernel (fun s => s.endpoints e) fun _ => rfl
  notBlocked t := by
    have h := KState.eq_of_eraseSched eraseSched_bootKernel
      (fun s => (s.tcbs t).tcbState.tsType.onEndpoint) fun _ => rfl
    exact h ▸ Bool.false_ne_true

/-- The waiting of the thread is cancelled, and it sends once more. -/
def cancelledSend : List IpcEvent :=
  firstSend ++ [.cancelIpc 0x1C00, .kernel (.trap Undef.benign (sysFrame sysSendNum 0x28))]

theorem cancelledSend_possible :
    System.possible (Machine.ipcStep Packing.recoverable) bootMachine cancelledSend = true := by
  decide +kernel

/-- The theorem for this run. -/
theorem ipcSystem_consistent_cancelled :
    EpConsistent (System.final (Machine.ipcStep Packing.recoverable) bootMachine
      cancelledSend).kernel ∧
    ∀ x ∈ System.trace (Machine.ipcStep Packing.recoverable) bootMachine cancelledSend,
      EpConsistent x.pre.kernel := by
  refine ipcSystem_consistent bootMachine_ipcBoot (System.Run.of_possible cancelledSend_possible)
    ?_ ?_
  · simp [cancelledSend, firstSend, System.trace, AppendReturns, Undef.benign]
  · simp only [cancelledSend, firstSend, List.cons_append, List.nil_append, System.trace,
      List.forall_mem_cons]
    refine ⟨nofun, ?_, nofun, ?_, by simp⟩
    all_goals
      rintro _ _ ⟨⟩ - - -
      decide +kernel

/-- The blocked thread goes on, and sends to another endpoint. -/
def secondSend : List IpcEvent :=
  firstSend ++ [.kernel (.trap Undef.benign (sysFrame sysSendNum 0x28))]

theorem secondSend_possible :
    System.possible (Machine.ipcStep Packing.recoverable) bootMachine secondSend = true := by
  decide +kernel

/-- The kernel after these two calls. -/
def secondSendKernel : KState :=
  (System.final (Machine.ipcStep Packing.recoverable) bootMachine secondSend).kernel

/-- A blocked thread that goes on gets into two queues. -/
theorem not_ipcSystem_consistent :
    ¬∀ (m m' : Machine) (tr : List (System.Step Machine IpcEvent)), IpcBoot m.kernel →
      ipcSystem.Run m tr m' → (∀ x ∈ tr, AppendReturns x.ev) → EpConsistent m'.kernel := by
  intro hall
  have hconsistent : EpConsistent secondSendKernel :=
    hall _ _ _ bootMachine_ipcBoot (System.Run.of_possible secondSend_possible)
      (by simp [secondSend, firstSend, System.trace, AppendReturns, Undef.benign])
  obtain ⟨Q, hQ⟩ := hconsistent
  have hfirst : 0x1C00 ∈ Q 0xFFFF000000003000 := hQ.head_mem (by decide +kernel) (by decide)
  have hsecond : 0x1C00 ∈ Q 0xFFFF000000004000 := hQ.head_mem (by decide +kernel) (by decide)
  exact absurd (hQ.disjoint _ _ _ hfirst hsecond) (by decide)

end MicroKernel
