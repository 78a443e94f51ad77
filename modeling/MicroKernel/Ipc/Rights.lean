import MicroKernel.Ipc.Endpoint

/-!
# Rights of endpoint capabilities

`send` and `receive` read whatever the slot holds as a capability for an endpoint.  Its type and
its rights are never looked at.

* `setEndpoint_sendIpc`, `setEndpoint_receiveIpc`, … : a call does not depend on other endpoints
  than its own;
* `Reads`, `Unchanged`, `Enforced` : that a system call uses only endpoints that its slot grants;
* `ipc_enforced_iff` : exactly when the two calls do.
-/

namespace MicroKernel

open DList

/-! ### Calls and other endpoints -/

/-- Replace the contents of an endpoint. -/
def KState.setEndpoint (e : Ptr) (ep : Endpoint) (s : KState) : KState :=
  s.modEndpoint e fun _ => ep

section Locality

variable {P : Packing} {u : Undef} {e : Ptr} {ep : Endpoint} {s : KState}

@[simp] theorem tcbs_setEndpoint : (s.setEndpoint e ep).tcbs = s.tcbs := rfl

@[simp] theorem ctes_setEndpoint : (s.setEndpoint e ep).ctes = s.ctes := rfl

@[simp] theorem excaprefs_setEndpoint : (s.setEndpoint e ep).excaprefs = s.excaprefs := rfl

@[simp] theorem ksSchedulerAction_setEndpoint :
    (s.setEndpoint e ep).ksSchedulerAction = s.ksSchedulerAction := rfl

@[simp] theorem ksReadyQueues_setEndpoint :
    (s.setEndpoint e ep).ksReadyQueues = s.ksReadyQueues := rfl

theorem setEndpoint_copyWords (sendBuffer recvBuffer : Ptr) (n : ℕ) :
    copyWords sendBuffer recvBuffer n (s.setEndpoint e ep) =
      (copyWords sendBuffer recvBuffer n s).setEndpoint e ep := by
  simp only [copyWords]
  induction List.range n generalizing s with
  | nil => rfl
  | cons i is ih =>
    exact ih (s := s.setBufferWord recvBuffer (1 + i) (s.ipcBuffers sendBuffer (1 + i)))

theorem setEndpoint_copyMRs (sendBuffer recvBuffer : Ptr) (n : ℕ) :
    copyMRs sendBuffer recvBuffer n (s.setEndpoint e ep) =
      (copyMRs sendBuffer recvBuffer n s).map (KState.setEndpoint e ep) := by
  simp only [copyMRs, setEndpoint_copyWords]
  split_ifs <;> rfl

theorem setEndpoint_lookupExtraCapsLoop (thread bufferPtr : Ptr) (n : ℕ) : ∀ (i : ℕ) (s : KState),
    lookupExtraCapsLoop u thread bufferPtr n i (s.setEndpoint e ep) =
      (lookupExtraCapsLoop u thread bufferPtr n i s).map (KState.setEndpoint e ep) id := by
  induction n with
  | zero =>
    intro i s
    simp only [lookupExtraCapsLoop]
    split_ifs <;> rfl
  | succ n ih =>
    intro i s
    simp only [lookupExtraCapsLoop]
    split_ifs
    · rfl
    · exact ih (i + 1) (s.setExcapref i (lookupSlot thread (getExtraCptr bufferPtr i s) s))

theorem setEndpoint_lookupExtraCaps (thread bufferPtr : Ptr) (info : OsMessageInfo) :
    lookupExtraCaps u thread bufferPtr info (s.setEndpoint e ep) =
      (lookupExtraCaps u thread bufferPtr info s).map (KState.setEndpoint e ep) id := by
  simp only [lookupExtraCaps]
  split_ifs
  · rfl
  · exact setEndpoint_lookupExtraCapsLoop _ _ _ _ _

theorem setEndpoint_lookupSlotForCnodeOp (isSource : Bool) (root : Cap) (capptr depth : U64) :
    lookupSlotForCnodeOp u isSource root capptr depth (s.setEndpoint e ep) =
      (lookupSlotForCnodeOp u isSource root capptr depth s).map (KState.setEndpoint e ep) id := by
  simp only [lookupSlotForCnodeOp]
  split_ifs <;> rfl

theorem setEndpoint_getReceiveSlots (thread buffer : Ptr) :
    getReceiveSlots u thread buffer (s.setEndpoint e ep) =
      (getReceiveSlots u thread buffer s).map (KState.setEndpoint e ep) id := by
  have hct : loadCapTransfer buffer (s.setEndpoint e ep) = loadCapTransfer buffer s := rfl
  have hcap : ∀ status cPtr, lookupCap status thread cPtr (s.setEndpoint e ep) =
      lookupCap status thread cPtr s := fun _ _ => rfl
  simp only [getReceiveSlots, hct, hcap]
  split_ifs
  · rfl
  · split
    · rfl
    · rename_i cnode _
      rw [lookupTargetSlot, setEndpoint_lookupSlotForCnodeOp, lookupTargetSlot]
      rcases lookupSlotForCnodeOp u false cnode (loadCapTransfer buffer s).ctReceiveIndex
        (loadCapTransfer buffer s).ctReceiveDepth s with ⟨s₁, _ | slot⟩
      · rfl
      · simp only [apply_ite (Prod.map (KState.setEndpoint e ep) id)]
        rfl

theorem setEndpoint_cteInsert (newCap : Cap) (srcSlot destSlot : Ptr) :
    cteInsert P newCap srcSlot destSlot (s.setEndpoint e ep) =
      (cteInsert P newCap srcSlot destSlot s).setEndpoint e ep := by
  simp only [cteInsert, apply_ite (KState.setEndpoint e ep)]
  rfl

theorem setEndpoint_transferCapsLoop (endpoint receiveBuffer : Ptr) (n : ℕ) :
    ∀ (i : ℕ) (destSlot : Ptr) (unwrapped : BitVec 3) (s : KState),
      transferCapsLoop P u endpoint receiveBuffer n i destSlot unwrapped (s.setEndpoint e ep) =
        (transferCapsLoop P u endpoint receiveBuffer n i destSlot unwrapped s).map
          (KState.setEndpoint e ep) id := by
  induction n with
  | zero => exact fun _ _ _ _ => rfl
  | succ n ih =>
    intro i destSlot unwrapped s
    have hbadge : ∀ badge, setExtraBadge receiveBuffer badge i (s.setEndpoint e ep) =
        (setExtraBadge receiveBuffer badge i s).setEndpoint e ep := fun _ => rfl
    simp only [transferCapsLoop, hbadge, setEndpoint_cteInsert, ih,
      apply_ite (Prod.map (KState.setEndpoint e ep) id)]
    rfl

theorem setEndpoint_transferCaps (info : OsMessageInfo) (endpoint receiver receiveBuffer : Ptr) :
    transferCaps P u info endpoint receiver receiveBuffer (s.setEndpoint e ep) =
      (transferCaps P u info endpoint receiver receiveBuffer s).map
        (KState.setEndpoint e ep) id := by
  simp only [transferCaps, setEndpoint_getReceiveSlots, Prod.map_fst, Prod.map_snd, id,
    setEndpoint_transferCapsLoop, apply_ite (Prod.map (KState.setEndpoint e ep) id)]
  rfl

theorem setEndpoint_doNormalTransfer (sender sendBuffer endpoint receiver receiveBuffer : Ptr)
    (badge : U64) (canGrant : Bool) :
    doNormalTransfer P u sender sendBuffer endpoint badge canGrant receiver receiveBuffer
        (s.setEndpoint e ep) =
      (doNormalTransfer P u sender sendBuffer endpoint badge canGrant receiver receiveBuffer s).map
        (KState.setEndpoint e ep) := by
  simp only [doNormalTransfer, tcbs_setEndpoint, setEndpoint_lookupExtraCaps]
  rcases lookupExtraCaps u sender sendBuffer (messageinfoFromU64 (s.tcbs sender).tf.rsi) s with
    ⟨s₁, status⟩
  have hprepare : (if canGrant = false then if status ≠ exceptionNone then
      (s₁.setEndpoint e ep).setExcapref 0 NULL else s₁.setEndpoint e ep
      else (s.setEndpoint e ep).setExcapref 0 NULL) =
      (if canGrant = false then if status ≠ exceptionNone then s₁.setExcapref 0 NULL else s₁
      else s.setExcapref 0 NULL).setEndpoint e ep := by
    simp only [apply_ite (KState.setEndpoint e ep)]
    rfl
  simp only [Prod.map_apply, id, hprepare, setEndpoint_copyMRs]
  generalize (if canGrant = false then if status ≠ exceptionNone then s₁.setExcapref 0 NULL else s₁
      else s.setExcapref 0 NULL) = s₂
  rcases copyMRs sendBuffer receiveBuffer _ s₂ with _ | s₃
  · rfl
  · simp only [Option.map_some, bind, Option.bind_some, setEndpoint_transferCaps]
    rfl

theorem setEndpoint_doIpcTransfer (sender endpoint receiver : Ptr) (badge : U64) (grant : Bool) :
    doIpcTransfer P u sender endpoint badge grant receiver (s.setEndpoint e ep) =
      (doIpcTransfer P u sender endpoint badge grant receiver s).map (KState.setEndpoint e ep) := by
  have hbuffer : ∀ t, lookupIpcBuffer t (s.setEndpoint e ep) = lookupIpcBuffer t s := fun _ => rfl
  simp only [doIpcTransfer, tcbs_setEndpoint, hbuffer, setEndpoint_doNormalTransfer]
  rcases deref receiver with _ | _
  · rfl
  · rcases deref sender with _ | _
    · rfl
    · simp only [bind, Option.bind_some, apply_ite (Option.map (KState.setEndpoint e ep))]
      rfl

theorem setEndpoint_possibleSwitchTo (target : Ptr) :
    possibleSwitchTo target (s.setEndpoint e ep) =
      (possibleSwitchTo target s).setEndpoint e ep := by
  have henqueue : ∀ (t : Ptr) (s : KState), tcbSchedEnqueue t (s.setEndpoint e ep) =
      (tcbSchedEnqueue t s).setEndpoint e ep := fun t s => by
    simp only [tcbSchedEnqueue, apply_ite (KState.setEndpoint e ep)]
    by_cases hhead : s.ksReadyQueues.head = NULL
    · simp only [ksReadyQueues_setEndpoint, hhead, if_true]
      rfl
    · simp only [ksReadyQueues_setEndpoint, hhead, if_false]
      rfl
  have hresched : rescheduleRequired (s.setEndpoint e ep) =
      (rescheduleRequired s).setEndpoint e ep := by
    simp only [rescheduleRequired, henqueue, ksSchedulerAction_setEndpoint]
    by_cases h : s.ksSchedulerAction ≠ resumeCurrentThread ∧ s.ksSchedulerAction ≠ chooseNewThread
    · simp only [if_pos h]
      rfl
    · simp only [if_neg h]
      rfl
  simp only [possibleSwitchTo, hresched, henqueue, apply_ite (KState.setEndpoint e ep)]
  rfl

theorem setEndpoint_tcbEpAppend (tcb : Ptr) (queue : TcbQueue) :
    tcbEpAppend tcb queue (s.setEndpoint e ep) =
      (tcbEpAppend tcb queue s).map (Prod.map (KState.setEndpoint e ep) id) := by
  by_cases hq : queue.head = NULL
  · simp only [tcbEpAppend, hq, if_true]
    rfl
  · simp only [tcbEpAppend, hq, if_false]
    rcases deref queue.tail with _ | _ <;> rfl

theorem setEndpoint_tcbEpDequeue (tcb : Ptr) (queue : TcbQueue) :
    tcbEpDequeue tcb queue (s.setEndpoint e ep) =
      (tcbEpDequeue tcb queue s).map (Prod.map (KState.setEndpoint e ep) id) := by
  have hnext : ∀ (s : KState) (p v : Ptr), (s.setEndpoint e ep).setEPNext p v =
      (s.setEPNext p v).setEndpoint e ep := fun _ _ _ => rfl
  have hprev : ∀ (s : KState) (p v : Ptr), (s.setEndpoint e ep).setEPPrev p v =
      (s.setEPPrev p v).setEndpoint e ep := fun _ _ _ => rfl
  rcases hderef : deref tcb with _ | _
  · simp [tcbEpDequeue, hderef]
  · by_cases h₁ : (s.tcbs tcb).tcbEPPrev = NULL
    · by_cases h₂ : (s.tcbs tcb).tcbEPNext = NULL <;>
        simp [tcbEpDequeue, hderef, h₁, h₂, hprev]
    · by_cases h₂ : ((s.setEPNext (s.tcbs tcb).tcbEPPrev (s.tcbs tcb).tcbEPNext).tcbs
          tcb).tcbEPNext = NULL <;>
        simp [tcbEpDequeue, hderef, h₁, h₂, hprev, hnext]

theorem setEndpoint_completeSignal (n tcb : Ptr) :
    completeSignal n tcb (s.setEndpoint e ep) = (completeSignal n tcb s).setEndpoint e ep := by
  simp only [completeSignal, apply_ite (KState.setEndpoint e ep)]
  rfl

variable {epptr : Ptr} (he : e ≠ epptr)

theorem endpoints_setEndpoint : (s.setEndpoint e ep).endpoints = Function.update s.endpoints e ep :=
  rfl

include he

theorem epptrGetQueue_setEndpoint :
    epptrGetQueue epptr (s.setEndpoint e ep) = epptrGetQueue epptr s := by
  simp [epptrGetQueue, endpoints_setEndpoint, he.symm]

theorem setEndpoint_modEndpoint (f : Endpoint → Endpoint) :
    (s.setEndpoint e ep).modEndpoint epptr f = (s.modEndpoint epptr f).setEndpoint e ep := by
  simp only [KState.setEndpoint, KState.modEndpoint, Function.update_of_ne he.symm,
    Function.update_comm he]

theorem setEndpoint_epDequeue (tcb : Ptr) :
    epDequeue P tcb epptr (s.setEndpoint e ep) =
      (epDequeue P tcb epptr s).map (KState.setEndpoint e ep) := by
  simp only [epDequeue, epptrGetQueue_setEndpoint he, setEndpoint_tcbEpDequeue]
  rcases tcbEpDequeue tcb (epptrGetQueue epptr s) s with _ | ⟨s₁, queue⟩
  · rfl
  · simp only [Option.map_some, bind, Option.bind_some, Prod.map_apply, id, epptrSetQueue,
      setEndpoint_modEndpoint he, pure]
    split_ifs <;> rfl

/-- `send_ipc` does not depend on other endpoints. -/
theorem setEndpoint_sendIpc (blocking doCall : Bool) (badge : U64) (canGrant canGrantReply : Bool)
    (thread : Ptr) :
    sendIpc P u blocking doCall badge canGrant canGrantReply thread epptr (s.setEndpoint e ep) =
      (sendIpc P u blocking doCall badge canGrant canGrantReply thread epptr s).map
        (KState.setEndpoint e ep) := by
  have hstate : ((s.setEndpoint e ep).endpoints epptr).state = (s.endpoints epptr).state := by
    rw [endpoints_setEndpoint, Function.update_of_ne he.symm]
  have hmod : ∀ f, (s.setEndpoint e ep).modState thread f =
      (s.modState thread f).setEndpoint e ep := fun _ => rfl
  have hts : ∀ (s : KState) (t : Ptr) (ts : ThreadStateType), (s.setEndpoint e ep).setTsType t ts =
      (s.setTsType t ts).setEndpoint e ep := fun _ _ _ => rfl
  cases hs : (s.endpoints epptr).state with
  | idle | send =>
    simp only [sendIpc, hstate, hs]
    cases blocking with
    | false => rfl
    | true =>
      rcases deref thread with _ | _
      · rfl
      · simp only [if_true, bind, Option.bind_some, hmod, epptrGetQueue_setEndpoint he,
          setEndpoint_tcbEpAppend]
        rcases tcbEpAppend thread _ (s.modState thread _) with _ | ⟨s₁, queue⟩
        · rfl
        · simp only [Option.map_some, Option.bind_some, Prod.map_apply, id, pure, epptrSetQueue,
            setEndpoint_modEndpoint he]
  | recv =>
    simp only [sendIpc, hstate, hs, epptrGetQueue_setEndpoint he, setEndpoint_epDequeue he]
    rcases epDequeue P (epptrGetQueue epptr s).head epptr s with _ | s₁
    · rfl
    · simp only [Option.map_some, bind, Option.bind_some, setEndpoint_doIpcTransfer]
      rcases doIpcTransfer P u thread epptr badge canGrant (epptrGetQueue epptr s).head s₁ with
        _ | s₂
      · rfl
      · simp only [Option.map_some, Option.bind_some, hts, setEndpoint_possibleSwitchTo,
          setupCallerCap, pure, apply_ite (Option.map (KState.setEndpoint e ep))]

theorem setEndpoint_receiveFromSender (thread : Ptr) (capCanGrant : Bool) :
    receiveFromSender P u thread epptr capCanGrant (s.setEndpoint e ep) =
      (receiveFromSender P u thread epptr capCanGrant s).map (KState.setEndpoint e ep) := by
  have hts : ∀ (s : KState) (t : Ptr) (ts : ThreadStateType), (s.setEndpoint e ep).setTsType t ts =
      (s.setTsType t ts).setEndpoint e ep := fun _ _ _ => rfl
  simp only [receiveFromSender, epptrGetQueue_setEndpoint he, setEndpoint_epDequeue he]
  rcases epDequeue P (epptrGetQueue epptr s).head epptr s with _ | s₁
  · rfl
  · simp only [Option.map_some, bind, Option.bind_some, setEndpoint_doIpcTransfer, tcbs_setEndpoint]
    rcases doIpcTransfer P u (epptrGetQueue epptr s).head epptr _ _ thread s₁ with _ | s₂
    · rfl
    · simp only [Option.map_some, Option.bind_some, hts, setEndpoint_possibleSwitchTo,
        setupCallerCap, pure, apply_ite (Option.map (KState.setEndpoint e ep)), tcbs_setEndpoint]

/-- `receive_ipc` does not depend on other endpoints. -/
theorem setEndpoint_receiveIpc (thread : Ptr) (cap : Cap) (blocking : Bool)
    (hcap : epAddr cap.endpointCap.capEPPtr = epptr) :
    receiveIpc P u thread cap blocking (s.setEndpoint e ep) =
      (receiveIpc P u thread cap blocking s).map (KState.setEndpoint e ep) := by
  subst hcap
  have hstate : ((s.setEndpoint e ep).endpoints (epAddr cap.endpointCap.capEPPtr)).state =
      (s.endpoints (epAddr cap.endpointCap.capEPPtr)).state := by
    rw [endpoints_setEndpoint, Function.update_of_ne he.symm]
  have hsignal : HasSignal thread (s.setEndpoint e ep) ↔ HasSignal thread s := Iff.rfl
  simp only [receiveIpc, hsignal, hstate, setEndpoint_completeSignal, tcbs_setEndpoint,
    setEndpoint_receiveFromSender he]
  rcases deref thread with _ | _
  · rfl
  · by_cases h : HasSignal thread s
    · simp only [if_pos h]
      rfl
    · simp only [if_neg h, bind, Option.bind_some]
      cases (s.endpoints (epAddr cap.endpointCap.capEPPtr)).state <;> rfl

end Locality

/-! ### Enforcement -/

/-- What the call does depends on the contents of the endpoint. -/
def Reads (call : KState → Option KState) (e : Ptr) (s : KState) : Prop :=
  ∃ ep, (call (s.setEndpoint e ep)).map (KState.setEndpoint e ep) ≠
    (call s).map (KState.setEndpoint e ep)

/-- The call changes the contents of the endpoint. -/
def Changes (call : KState → Option KState) (e : Ptr) (s : KState) : Prop :=
  ∃ s', call s = some s' ∧ s'.endpoints e ≠ s.endpoints e

/-- The two states have the same endpoints, threads and queues. -/
structure Unchanged (s s' : KState) : Prop where
  /-- The endpoints. -/
  endpoints : s'.endpoints = s.endpoints
  /-- The threads. -/
  tcbs : s'.tcbs = s.tcbs
  /-- The ready queue. -/
  queue : s'.ksReadyQueues = s.ksReadyQueues
  /-- The pending action. -/
  action : s'.ksSchedulerAction = s.ksSchedulerAction
  /-- The queues of notifications. -/
  ntfnQueue : ∀ n, (s'.notifications n).ntfnQueueHead = (s.notifications n).ntfnQueueHead ∧
    (s'.notifications n).ntfnQueueTail = (s.notifications n).ntfnQueueTail

/-- The slot that the current thread names by `dest` holds a capability for the endpoint `e`, with
the right `right`. -/
def Grants (right : EndpointCap → Bool) (dest : U64) (e : Ptr) (s : KState) : Prop :=
  (slotCap dest s).endpointCap.capType = capEndpointCap ∧
    right (slotCap dest s).endpointCap = true ∧ slotEndpoint dest s = e

/-- The call uses only an endpoint that the slot grants; if the slot grants none, the call returns
and leaves endpoints, threads and queues as they are. -/
def Enforced (call : KState → Option KState) (right : EndpointCap → Bool) (dest : U64)
    (s : KState) : Prop :=
  (∀ e, Reads call e s ∨ Changes call e s → Grants right dest e s) ∧
    ((∀ e, ¬Grants right dest e s) → ∃ s', call s = some s' ∧ Unchanged s s')

/-- The current thread has a signal whose badge is in its register already. -/
def HasKnownSignal (s : KState) : Prop :=
  s.ksCurThread ≠ NULL ∧ HasSignal s.ksCurThread s ∧
    (s.tcbs s.ksCurThread).registers badgeRegister =
      (s.notifications (s.tcbs s.ksCurThread).tcbBoundNotification).ntfnMsgIdentifier

section Enforcement

variable {P : Packing} {u : Undef} {dest : U64} {s s' : KState} {right : EndpointCap → Bool}
  {call : KState → Option KState} {e : Ptr}

/-- The call does not depend on the endpoint: another content of it stays there and has no other
effect. -/
def Local (call : KState → Option KState) (e : Ptr) (s : KState) : Prop :=
  ∀ ep, call (s.setEndpoint e ep) = (call s).map (KState.setEndpoint e ep)

theorem Local.not_reads (h : Local call e s) : ¬Reads call e s := by
  rintro ⟨ep, hne⟩
  refine hne ?_
  rw [h ep, Option.map_map]
  congr 1
  funext s'
  simp [KState.setEndpoint, KState.modEndpoint]

theorem Local.not_changes (h : Local call e s) : ¬Changes call e s := by
  rintro ⟨s', hs', hne⟩
  -- the same content as before is one that stays there
  have hself : s.setEndpoint e (s.endpoints e) = s := by
    simp [KState.setEndpoint, KState.modEndpoint]
  have hlocal := h (s.endpoints e)
  rw [hself, hs', Option.map_some, Option.some.injEq] at hlocal
  refine hne ?_
  rw [hlocal, endpoints_setEndpoint, Function.update_self]

theorem reads_of_fault (ep : Endpoint) (h : call s = some s')
    (hfault : call (s.setEndpoint e ep) = none) : Reads call e s :=
  ⟨ep, by simp [h, hfault]⟩

/-- A call that reads the endpoint of the slot if it returns, and no other one, is enforced exactly
if the slot grants it. -/
theorem enforced_iff_grants (hreads : ∀ s', call s = some s' → Reads call (slotEndpoint dest s) s)
    (hlocal : ∀ e ≠ slotEndpoint dest s, Local call e s) :
    Enforced call right dest s ↔ Grants right dest (slotEndpoint dest s) s := by
  constructor
  · rintro ⟨hgrants, hother⟩
    by_contra hnot
    obtain ⟨s', hs', -⟩ := hother fun e he => hnot (he.2.2 ▸ he)
    exact hnot (hgrants _ (Or.inl (hreads s' hs')))
  · intro hgrants
    refine ⟨fun e he => ?_, fun hnot => absurd hgrants (hnot _)⟩
    have heq : e = slotEndpoint dest s := by
      by_contra hne
      exact he.elim (hlocal e hne).not_reads (hlocal e hne).not_changes
    exact heq ▸ hgrants

theorem epDequeue_null {epptr : Ptr} : epDequeue P NULL epptr s = none := by
  simp [epDequeue, tcbEpDequeue, deref]

theorem send_enforced :
    Enforced (send P u dest) EndpointCap.capCanSend dest s ↔
      Grants EndpointCap.capCanSend dest (slotEndpoint dest s) s := by
  refine enforced_iff_grants (fun s' hs' => ?_) fun e he ep => setEndpoint_sendIpc he _ _ _ _ _ _
  -- with a queue of receivers that is empty it would fault
  refine reads_of_fault ⟨NULL, NULL, .recv⟩ hs' ?_
  have hep : (s.setEndpoint (slotEndpoint dest s) ⟨NULL, NULL, .recv⟩).endpoints
      (slotEndpoint dest s) = ⟨NULL, NULL, .recv⟩ := by
    rw [endpoints_setEndpoint, Function.update_self]
  change sendIpc P u true false 0 _ _ s.ksCurThread (slotEndpoint dest s)
    (s.setEndpoint (slotEndpoint dest s) ⟨NULL, NULL, .recv⟩) = none
  simp only [sendIpc, epptrGetQueue, hep, epDequeue_null]
  rfl

theorem receive_enforced (hsignal : ¬HasSignal s.ksCurThread s) :
    Enforced (receive P u dest) EndpointCap.capCanReceive dest s ↔
      Grants EndpointCap.capCanReceive dest (slotEndpoint dest s) s := by
  refine enforced_iff_grants (fun s' hs' => ?_)
    fun e he ep => setEndpoint_receiveIpc he _ _ _ rfl
  refine reads_of_fault ⟨NULL, NULL, .idle⟩ hs' ?_
  have hep : (s.setEndpoint (slotEndpoint dest s) ⟨NULL, NULL, .idle⟩).endpoints
      (slotEndpoint dest s) = ⟨NULL, NULL, .idle⟩ := by
    rw [endpoints_setEndpoint, Function.update_self]
  rw [Option.eq_none_iff_forall_ne_some]
  intro s'' hs''
  obtain ⟨-, hreceive⟩ :=
    receiveIpc_dequeue (s := s.setEndpoint (slotEndpoint dest s) _) hsignal hs''
  obtain ⟨s₁, -, hdequeue, -⟩ := receiveFromSender_spec hreceive
  change epDequeue P (epptrGetQueue (slotEndpoint dest s) _).head (slotEndpoint dest s) _ = _
    at hdequeue
  rw [epptrGetQueue, hep] at hdequeue
  cases epDequeue_null.symm.trans hdequeue

theorem unchanged_completeSignal_iff (hsignal : HasSignal s.ksCurThread s)
    (hcur : s.ksCurThread ≠ NULL) :
    Unchanged s (completeSignal (s.tcbs s.ksCurThread).tcbBoundNotification s.ksCurThread s) ↔
      HasKnownSignal s := by
  rw [completeSignal, if_pos ⟨hcur, hsignal.2⟩]
  constructor
  · intro h
    refine ⟨hcur, hsignal, ?_⟩
    have hregisters := congrArg (fun t => t.registers badgeRegister) (congrFun h.tcbs s.ksCurThread)
    simpa [KState.modNotification, KState.setRegister] using hregisters.symm
  · rintro ⟨-, -, hknown⟩
    refine ⟨rfl, ?_, rfl, rfl, fun n => ?_⟩
    · simp [KState.modNotification, KState.setRegister, KState.modTcb, ← hknown]
    · by_cases hn : n = (s.tcbs s.ksCurThread).tcbBoundNotification
      · subst hn
        simp [KState.modNotification, KState.setRegister, KState.modTcb]
      · simp [KState.modNotification, KState.setRegister, KState.modTcb, hn]

/-- With a signal, `receive` uses no endpoint but may change the thread. -/
theorem receive_enforced_signal (hsignal : HasSignal s.ksCurThread s) :
    Enforced (receive P u dest) EndpointCap.capCanReceive dest s ↔
      Grants EndpointCap.capCanReceive dest (slotEndpoint dest s) s ∨ HasKnownSignal s := by
  have hrun : ∀ s : KState, HasSignal s.ksCurThread s → receive P u dest s =
      if s.ksCurThread = NULL then none
      else some (completeSignal (s.tcbs s.ksCurThread).tcbBoundNotification s.ksCurThread s) := by
    intro s hsignal
    by_cases hcur : s.ksCurThread = NULL <;> simp [receive, receiveIpc, deref, hcur]
    simp [hsignal]
  have hlocal : ∀ e, Local (receive P u dest) e s := fun e ep => by
    rw [hrun s hsignal, hrun (s.setEndpoint e ep) hsignal, setEndpoint_completeSignal,
      apply_ite (Option.map (KState.setEndpoint e ep))]
    rfl
  have hsame : (∃ s', receive P u dest s = some s' ∧ Unchanged s s') ↔ HasKnownSignal s := by
    rw [hrun s hsignal]
    by_cases hcur : s.ksCurThread = NULL
    · simp [hcur, HasKnownSignal]
    · simp [hcur, unchanged_completeSignal_iff hsignal hcur]
  rw [Enforced, hsame]
  constructor
  · rintro ⟨-, h⟩
    by_cases hgrants : Grants EndpointCap.capCanReceive dest (slotEndpoint dest s) s
    · exact Or.inl hgrants
    · exact Or.inr (h fun e he => hgrants (he.2.2 ▸ he))
  · intro h
    exact ⟨fun e he => absurd he (not_or.2 ⟨(hlocal e).not_reads, (hlocal e).not_changes⟩),
      fun hnot => h.resolve_left (hnot _)⟩

/-- A system call uses only an endpoint that its slot grants, exactly if the slot grants the
endpoint that its bits name; `receive` may take a signal instead, if that changes nothing. -/
theorem ipc_enforced_iff (P : Packing) (u : Undef) (dest : U64) (s : KState) :
    (Enforced (send P u dest) EndpointCap.capCanSend dest s ↔
      Grants EndpointCap.capCanSend dest (slotEndpoint dest s) s) ∧
    (Enforced (receive P u dest) EndpointCap.capCanReceive dest s ↔
      Grants EndpointCap.capCanReceive dest (slotEndpoint dest s) s ∨ HasKnownSignal s) := by
  refine ⟨send_enforced, ?_⟩
  by_cases hsignal : HasSignal s.ksCurThread s
  · exact receive_enforced_signal hsignal
  · rw [receive_enforced hsignal]
    exact (or_iff_left fun h => hsignal h.2.1).symm

end Enforcement

/-- A thread whose slots are empty. -/
def emptySlots : KState := { KState.zero with ksCurThread := 0x1C00 }

/-- An empty slot is taken for a capability to send. -/
theorem not_ipc_enforced :
    ¬∀ (P : Packing) (u : Undef) (dest : U64) (s : KState),
      Enforced (send P u dest) EndpointCap.capCanSend dest s ∧
        Enforced (receive P u dest) EndpointCap.capCanReceive dest s := by
  intro hall
  have hsend := (hall .recoverable Undef.benign 0 emptySlots).1
  exact absurd (send_enforced.1 hsend).1 (by decide)

end MicroKernel
