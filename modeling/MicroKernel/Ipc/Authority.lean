import MicroKernel.Ipc.Detach
import MicroKernel.Ipc.Unwrap

/-!
# Authority

What a thread may do is in the capability slots.  The calls of the kernel move no capability: a slot
that is not empty keeps its capability in every run, and an empty one can only get what
`transfer_caps` finds in a variable that is not set, and that is empty as well.

Slots, threads with their trap frames, message buffers and endpoints are apart here, as they are in
the kernel for the slots of its CNodes.  But `lookup_slot` checks no bound: a CPtr may lead to any
address, for example into the trap frame of the thread itself, where the thread can write what is
then taken for a capability.  So the results are about calls whose CPtrs lead to given slots
(`UsesSlots`).

* `KeepsCaps` : what a call may do to the slots;
* `Machine.keepsCaps_queueStep` : what one call does;
* `queueSystem_authority` : the capabilities are the same after every run, and an endpoint of the
  kernel is only changed by a call if a slot named it at the start;
* `kernelSystem_confined` : an endpoint that no slot names is not touched.
-/

namespace MicroKernel

/-- The capabilities, without the empty slots. -/
def KState.capabilities (s : KState) (slot : Ptr) : Option Cap :=
  if (s.ctes slot).cap.capType = capNullCap then none else some (s.ctes slot).cap

/-- From `s` to `s'`, a slot keeps its capability, or it was empty and is empty. -/
def KeepsCaps (s s' : KState) : Prop :=
  ∀ slot, (s'.ctes slot).cap = (s.ctes slot).cap ∨
    (s.ctes slot).cap.capType = capNullCap ∧ (s'.ctes slot).cap.capType = capNullCap

variable {P : Packing} {u : Undef} {s s' s'' : KState} {badge : U64}

namespace KeepsCaps

theorem of_ctes (h : s'.ctes = s.ctes) : KeepsCaps s s' := fun slot => by
  rw [h]
  exact .inl rfl

theorem trans (h : KeepsCaps s s') (h' : KeepsCaps s' s'') : KeepsCaps s s'' := fun slot => by
  rcases h slot with hsame | ⟨hnull, hnull'⟩
  · rw [← hsame]
    exact h' slot
  · rcases h' slot with hsame' | ⟨-, hnull''⟩
    · exact .inr ⟨hnull, hsame'.symm ▸ hnull'⟩
    · exact .inr ⟨hnull, hnull''⟩

theorem capabilities (h : KeepsCaps s s') : s'.capabilities = s.capabilities := by
  funext slot
  rw [KState.capabilities, KState.capabilities]
  rcases h slot with hsame | ⟨hnull, hnull'⟩
  · rw [hsame]
  · rw [if_pos hnull', if_pos hnull]

end KeepsCaps

/-! ### Message transfer -/

section Transfer

variable {endpoint sender receiver sendBuffer receiveBuffer : Ptr} {canGrant : Bool}

theorem keepsCaps_cteInsert {newCap : Cap} {srcSlot destSlot : Ptr}
    (hdest : (s.ctes destSlot).cap.capType = capNullCap) (hcap : newCap.capType = capNullCap) :
    KeepsCaps s (cteInsert P newCap srcSlot destSlot s) := fun slot => by
  rw [cap_cteInsert]
  split_ifs with hslot
  · exact .inr ⟨hslot ▸ hdest, hcap⟩
  · exact .inl rfl

theorem capType_getReceiveSlots {thread buffer : Ptr}
    (h : (getReceiveSlots u thread buffer s).2 ≠ NULL) :
    (s.ctes (getReceiveSlots u thread buffer s).2).cap.capType = capNullCap := by
  rw [getReceiveSlots_snd] at h ⊢
  split_ifs at h ⊢ with hbuffer
  · exact absurd rfl h
  · cases hcap : lookupCap (u.lookupSlotStatus osMsgMaxExtraCaps) thread
        (loadCapTransfer buffer s).ctReceiveRoot s with
    | error e =>
      rw [hcap] at h
      exact absurd rfl h
    | ok cnode =>
      rw [hcap] at h
      dsimp only at h ⊢
      cases hslot : (lookupTargetSlot u cnode (loadCapTransfer buffer s).ctReceiveIndex
          (loadCapTransfer buffer s).ctReceiveDepth s).2 with
      | error e =>
        rw [hslot] at h
        exact absurd rfl h
      | ok slot =>
        rw [hslot] at h
        dsimp only at h ⊢
        split_ifs at h ⊢ with hnull
        · exact absurd rfl h
        · exact not_not.1 hnull

theorem keepsCaps_transferCapsLoop (n : ℕ) :
    ∀ (i : ℕ) (destSlot : Ptr) (unwrapped : BitVec 3) (s : KState),
      (destSlot ≠ NULL → (s.ctes destSlot).cap.capType = capNullCap) →
        KeepsCaps s (transferCapsLoop P u endpoint receiveBuffer n i destSlot unwrapped s).1 := by
  induction n with
  | zero => exact fun _ _ _ _ _ => .of_ctes rfl
  | succ n ih =>
    intro i destSlot unwrapped s hdest
    simp only [transferCapsLoop]
    split_ifs with hslot hep hnull hstatus htype
    · exact .of_ctes rfl
    · exact KeepsCaps.trans (.of_ctes rfl) (ih _ _ _ _ hdest)
    · exact .of_ctes rfl
    · exact .of_ctes rfl
    · exact .of_ctes rfl
    · exact (keepsCaps_cteInsert (hdest hnull) (not_not.1 htype)).trans
        (ih _ _ _ _ fun h => absurd rfl h)

theorem keepsCaps_transferCaps (info : OsMessageInfo) :
    KeepsCaps s (transferCaps P u info endpoint receiver receiveBuffer s).1 := by
  obtain ⟨-, -, hctes, -⟩ := getReceiveSlots_frame u s receiver receiveBuffer
  simp only [transferCaps]
  split_ifs with hempty
  · exact .of_ctes rfl
  · refine (KeepsCaps.of_ctes hctes).trans (keepsCaps_transferCapsLoop _ _ _ _ _ fun h => ?_)
    rw [hctes]
    exact capType_getReceiveSlots h

theorem keepsCaps_doIpcTransfer
    (h : doIpcTransfer P u sender endpoint badge canGrant receiver s = some s') :
    KeepsCaps s s' := by
  simp only [doIpcTransfer, bind, Option.bind_eq_some_iff, deref_eq_some, exists_const] at h
  obtain ⟨-, -, h⟩ := h
  split_ifs at h
  · obtain ⟨s₂, hstate, hctes', -⟩ := doNormalTransfer_eq_some h
    refine ((KeepsCaps.of_ctes (transferState_eq_some hstate).1).trans
      (keepsCaps_transferCaps (P := P) (u := u) _)).trans (.of_ctes hctes')
  · exact Option.some.inj h ▸ .of_ctes rfl

end Transfer

/-! ### System calls -/

section Calls

variable {t e n dest : Ptr}

theorem ctes_of_eraseEP (h : s'.eraseEP = s.eraseEP) : s'.ctes = s.ctes :=
  KState.eq_of_eraseEP h KState.ctes fun _ => rfl

theorem ctes_of_eraseSched (h : s'.eraseSched = s.eraseSched) : s'.ctes = s.ctes :=
  KState.eq_of_eraseSched h KState.ctes fun _ => rfl

theorem ctes_possibleSwitchTo : (possibleSwitchTo t s).ctes = s.ctes :=
  ctes_of_eraseSched eraseSched_possibleSwitchTo

theorem keepsCaps_send (h : send P u dest s = some s') :
    KeepsCaps s s' := by
  by_cases hstate : (s.endpoints (slotEndpoint dest s)).state = .recv
  · obtain ⟨s₁, s₂, hdequeue, htransfer, rfl⟩ := sendIpc_deliver hstate h
    refine ((KeepsCaps.of_ctes (ctes_of_eraseEP (epDequeue_spec hdequeue).2.2.2)).trans
      (keepsCaps_doIpcTransfer htransfer)).trans (.of_ctes ?_)
    split_ifs
    · exact ctes_possibleSwitchTo
    · exact ctes_possibleSwitchTo
  · exact .of_ctes ((ctes_of_eraseEP (sendIpc_block hstate h).2.2.2).trans rfl)

theorem ctes_completeSignal : (completeSignal n t s).ctes = s.ctes := by
  rw [completeSignal]
  split_ifs <;> rfl

theorem keepsCaps_receive (h : receive P u dest s = some s') :
    KeepsCaps s s' := by
  by_cases hsignal : HasSignal s.ksCurThread s
  · obtain ⟨-, rfl⟩ := receiveIpc_signal hsignal h
    exact .of_ctes ctes_completeSignal
  · obtain ⟨s₁, s₂, hdequeue, htransfer, rfl⟩ :=
      receiveFromSender_spec (receiveIpc_dequeue hsignal h).2
    refine ((KeepsCaps.of_ctes (ctes_of_eraseEP (epDequeue_spec hdequeue).2.2.2)).trans
      (keepsCaps_doIpcTransfer htransfer)).trans (.of_ctes ?_)
    split_ifs
    · rfl
    · rfl
    · exact ctes_possibleSwitchTo

theorem Machine.keepsCaps_step {m m' : Machine} {ev : KernelEvent}
    (h : m.step P ev = some m') : KeepsCaps m.kernel m'.kernel := by
  cases ev with
  | trap u tf =>
    obtain ⟨-, ⟨k, hcase, rfl⟩ | ⟨-, -, rfl⟩⟩ := step_trap h
    · cases hcase with
      | other _ => exact .of_ctes rfl
      | quiet _ _ _ _ _ _ => exact .of_ctes rfl
      | send _ _ hsend =>
        exact ((KeepsCaps.of_ctes rfl).trans (keepsCaps_send hsend)).trans (.of_ctes rfl)
      | receive _ _ hreceive =>
        exact ((KeepsCaps.of_ctes rfl).trans (keepsCaps_receive hreceive)).trans (.of_ctes rfl)
    · exact .of_ctes rfl
  | schedule own =>
    have henter (thread : Ptr) (k : KState) : (switchToThreadEnter thread k).ctes = k.ctes :=
      have hsched : (tcbSchedDequeue thread k).ctes = k.ctes :=
        ctes_of_eraseSched eraseSched_tcbSchedDequeue
      hsched
    obtain ⟨-, ⟨-, rfl⟩ | ⟨-, rfl | rfl⟩⟩ := step_schedule h
    · exact .of_ctes rfl
    · refine .of_ctes ?_
      dsimp only
      split_ifs
      · exact henter _ _
      · exact henter _ _
    · exact .of_ctes (henter _ _)

/-! ### Calls on notifications -/

theorem ctes_cancelIpc (h : cancelIpc P t s = some s') : s'.ctes = s.ctes := by
  obtain ⟨-, s₁, hdequeue, rfl⟩ | rfl := cancelIpc_cases h
  · exact (ctes_of_eraseEP (epDequeue_spec hdequeue).2.2.2 :)
  · rfl

theorem ctes_ntfnPutQueue (queue : TcbQueue) : (ntfnPutQueue P n queue s).ctes = s.ctes := by
  rw [ntfnPutQueue]
  split_ifs <;> rfl

theorem ctes_wakeWaiter (h : wakeWaiter P u n badge s = some s') : s'.ctes = s.ctes := by
  simp only [wakeWaiter, bind, Option.bind_eq_some_iff, pure, Option.some.injEq] at h
  obtain ⟨⟨s₁, queue⟩, hdequeue, rfl⟩ := h
  obtain ⟨-, -, -, -, herase⟩ := tcbEpDequeue_spec hdequeue
  exact ctes_possibleSwitchTo.trans ((ctes_ntfnPutQueue queue).trans (ctes_of_eraseEP herase))

theorem ctes_sendSignal (h : sendSignal P u n badge s = some s') : s'.ctes = s.ctes := by
  have hidle {s₁ : KState} (h : signalIdle P n badge s = some s₁) : s₁.ctes = s.ctes := by
    simp only [signalIdle] at h
    split_ifs at h
    · simp only [bind, Option.bind_eq_some_iff, pure, Option.some.injEq] at h
      obtain ⟨s₂, hcancel, rfl⟩ := h
      have hcancelled := ctes_cancelIpc hcancel
      exact ctes_possibleSwitchTo.trans hcancelled
    · exact Option.some.inj h ▸ rfl
    · exact Option.some.inj h ▸ rfl
  cases hs : (s.notifications n).state with
  | idle =>
    simp only [sendSignal, hs, bind, Option.bind_eq_some_iff] at h
    obtain ⟨s₁, h₁, h⟩ := h
    exact (ctes_wakeWaiter h).trans (hidle h₁)
  | waiting =>
    simp only [sendSignal, hs] at h
    exact ctes_wakeWaiter h
  | active =>
    simp only [sendSignal, hs, Option.some.injEq] at h
    exact h ▸ rfl

theorem ctes_receiveSignal {cap : Cap} {blocking : Bool}
    (h : receiveSignal P u t cap blocking s = some s') : s'.ctes = s.ctes := by
  have hblock (k : KState) : (scheduleTcb t k).ctes = k.ctes :=
    ctes_of_eraseSched eraseSched_scheduleTcb
  cases hs : (s.notifications (ntfnAddr P cap)).state with
  | active =>
    rw [receiveSignal_active hs h]
    rfl
  | idle | waiting =>
    cases blocking with
    | false =>
      simp only [receiveSignal, hs, Bool.false_eq_true, if_false, Option.some.injEq] at h
      exact h ▸ rfl
    | true =>
      simp only [receiveSignal, hs, if_true, bind, Option.bind_eq_some_iff, deref_eq_some, pure,
        Option.some.injEq, exists_const, Prod.exists] at h
      obtain ⟨-, s₁, queue, happend, rfl⟩ := h
      exact (ctes_of_eraseEP (tcbEpAppend_spec happend).2.2.2).trans (hblock _)

theorem ctes_cancelSignal (h : cancelSignal P u t n s = some s') : s'.ctes = s.ctes := by
  simp only [cancelSignal, bind, Option.bind_eq_some_iff, pure, Option.some.injEq] at h
  obtain ⟨⟨s₁, queue⟩, hdequeue, rfl⟩ := h
  obtain ⟨-, -, -, -, herase⟩ := tcbEpDequeue_spec hdequeue
  exact (ctes_of_eraseSched eraseSched_scheduleTcb).trans
    ((ctes_ntfnPutQueue queue).trans (ctes_of_eraseEP herase))

theorem ctes_restartLoop : ∀ {k : ℕ} {t : Ptr} {s : KState},
    restartLoop k t s = some s' → s'.ctes = s.ctes := by
  intro k
  induction k with
  | zero => nofun
  | succ k ih =>
    intro t s h
    rw [restartLoop] at h
    split_ifs at h
    · exact Option.some.inj h ▸ rfl
    · have hqueued : (tcbSchedEnqueue t (s.setTsType t .restart)).ctes = s.ctes :=
        (ctes_of_eraseSched eraseSched_tcbSchedEnqueue).trans rfl
      exact (ih h).trans hqueued

theorem ctes_cancelAllSignals (h : cancelAllSignals n s = some s') : s'.ctes = s.ctes := by
  simp only [cancelAllSignals] at h
  split_ifs at h
  · simp only [bind, Option.bind_eq_some_iff, pure, Option.some.injEq] at h
    obtain ⟨s₁, hloop, rfl⟩ := h
    have hrestarted := ctes_restartLoop hloop
    exact (ctes_of_eraseSched eraseSched_rescheduleRequired).trans hrestarted
  · exact Option.some.inj h ▸ rfl

end Calls

/-! ### Runs -/

section Runs

variable {m m' : Machine} {t e dest : Ptr}

/-- What one call does to the slots. -/
theorem Machine.keepsCaps_queueStep {ev : QueueEvent} (h : m.queueStep P ev = some m') :
    KeepsCaps m.kernel m'.kernel := by
  cases ev with
  | ipc ev =>
    cases ev with
    | kernel ev => exact Machine.keepsCaps_step h
    | cancelIpc tptr =>
      obtain ⟨k, hcall, rfl⟩ := Option.map_eq_some_iff.1 h
      exact .of_ctes (ctes_cancelIpc hcall)
  | receiveSignal u thread cap isBlocking =>
    obtain ⟨k, hcall, rfl⟩ := Option.map_eq_some_iff.1 h
    exact .of_ctes (ctes_receiveSignal hcall)
  | sendSignal u n badge =>
    obtain ⟨k, hcall, rfl⟩ := Option.map_eq_some_iff.1 h
    exact .of_ctes (ctes_sendSignal hcall)
  | cancelSignal u t n =>
    obtain ⟨k, hcall, rfl⟩ := Option.map_eq_some_iff.1 h
    exact .of_ctes (ctes_cancelSignal hcall)
  | cancelAllSignals n =>
    obtain ⟨k, hcall, rfl⟩ := Option.map_eq_some_iff.1 h
    exact .of_ctes (ctes_cancelAllSignals hcall)
  | bind tcb n => exact Option.some.inj h ▸ .of_ctes rfl
  | unbind tcb =>
    obtain rfl := Option.some.inj h
    refine .of_ctes ?_
    rw [unbindNotification]
    split_ifs <;> rfl
  | unbindMaybe n =>
    obtain rfl := Option.some.inj h
    refine .of_ctes ?_
    rw [unbindMaybeNotification]
    split_ifs <;> rfl

/-- A run keeps the slots up to each of its steps. -/
theorem keepsCaps_run {tr : List (System.Step Machine QueueEvent)}
    (hrun : (queueSystem P).Run m tr m') :
    KeepsCaps m.kernel m'.kernel ∧ ∀ x ∈ tr, KeepsCaps m.kernel x.pre.kernel := by
  obtain ⟨hlast, hall⟩ := hrun.invariant (I := fun k => KeepsCaps m.kernel k.kernel)
    (C := fun _ => True) (.of_ctes rfl)
    (fun _ hstep _ h => h.trans (Machine.keepsCaps_queueStep hstep)) fun _ _ => trivial
  exact ⟨hlast, fun x hx => (hall x hx).1⟩

/-! ### Confinement -/

/-- The capability names the endpoint `e`, if it is taken for one to an endpoint. -/
def Cap.Names (e : Ptr) (c : Cap) : Prop := epAddr c.endpointCap.capEPPtr = e

instance (e : Ptr) (c : Cap) : Decidable (c.Names e) := inferInstanceAs (Decidable (_ = _))

/-- An empty capability names no endpoint of the kernel: the type is read from the bits of the
address. -/
theorem Cap.not_names {c : Cap} (hnull : c.capType = capNullCap) (he : kernBase ≤ e) :
    ¬c.Names e := by
  intro h
  have hset := getLsbD_of_kernBase_le he (i := 32) (by decide) (by decide)
  have hclear : c.w1[48] = false := by
    have hbit := congrArg (BitVec.getLsbD · 0) hnull
    simpa [capType, bits, capNullCap] using hbit
  rw [← show epAddr c.endpointCap.capEPPtr = e from h, epAddr, BitVec.getLsbD_or] at hset
  simp [endpointCap, bits, hclear] at hset

theorem endpoints_possibleSwitchTo : (possibleSwitchTo t s).endpoints = s.endpoints :=
  KState.eq_of_eraseSched eraseSched_possibleSwitchTo KState.endpoints fun _ => rfl

theorem endpoints_transfer {epptr sender receiver : Ptr} {grant : Bool} {s₁ s₂ : KState}
    (he : epptr ≠ e) (hdequeue : epDequeue P t epptr s = some s₁)
    (htransfer : doIpcTransfer P u sender epptr badge grant receiver s₁ = some s₂) :
    s₂.endpoints e = s.endpoints e := by
  have hsame : s₂.endpoints = s₁.endpoints :=
    KState.eq_of_eraseData (doIpcTransfer_erase htransfer).2.2 KState.endpoints fun _ => rfl
  rw [hsame, (epDequeue_spec hdequeue).2.2.1]
  exact Function.update_of_ne he.symm _ _

/-- A call of `send` concerns the endpoint that its slot names. -/
theorem endpoints_send (he : slotEndpoint dest s ≠ e) (h : send P u dest s = some s') :
    s'.endpoints e = s.endpoints e := by
  by_cases hstate : (s.endpoints (slotEndpoint dest s)).state = .recv
  · obtain ⟨s₁, s₂, hdequeue, htransfer, rfl⟩ := sendIpc_deliver hstate h
    rw [← endpoints_transfer he hdequeue htransfer]
    split_ifs
    · exact congrFun endpoints_possibleSwitchTo e
    · exact congrFun endpoints_possibleSwitchTo e
  · obtain ⟨-, -, hendpoints, -⟩ := sendIpc_block hstate h
    rw [hendpoints]
    exact Function.update_of_ne (Ne.symm he) _ _

/-- So does a call of `receive`. -/
theorem endpoints_receive (he : slotEndpoint dest s ≠ e) (h : receive P u dest s = some s') :
    s'.endpoints e = s.endpoints e := by
  by_cases hsignal : HasSignal s.ksCurThread s
  · obtain ⟨-, rfl⟩ := receiveIpc_signal hsignal h
    exact congrFun (SameIpc.completeSignal s _ _).endpoints e
  · obtain ⟨s₁, s₂, hdequeue, htransfer, rfl⟩ :=
      receiveFromSender_spec (receiveIpc_dequeue hsignal h).2
    rw [← endpoints_transfer he hdequeue htransfer]
    split_ifs
    · rfl
    · rfl
    · exact congrFun endpoints_possibleSwitchTo e

/-! ### Slots in use -/

/-- The slots of a CNode of one page. -/
def cnodeSlots (cnode : Ptr) : Set Ptr :=
  {slot | ∃ i : ℕ, 40 * (i + 1) ≤ pgsize ∧ slot = cnode + BitVec.ofNat 64 (40 * i)}

/-- A call of `send` or `receive` is made with a CPtr that leads to one of the slots in `S`. -/
def UsesSlots (S : Set Ptr) (m : Machine) (ev : KernelEvent) : Prop :=
  ∀ u tf, ev = .trap u tf → tf.trapno = tSyscall →
    sysNum tf = sysSendNum ∨ sysNum tf = sysReceiveNum →
      lookupSlot m.kernel.ksCurThread tf.rdi m.kernel ∈ S

variable {S : Set Ptr}

theorem usesSlots_schedule {own : Bool} : UsesSlots S m (.schedule own) := by
  intro u tf h
  cases h

/-- A step of the machine concerns an endpoint only if a slot in use names it. -/
theorem Machine.endpoints_step {ev : KernelEvent} (huses : UsesSlots S m ev)
    (hslots : ∀ slot ∈ S, ¬(m.kernel.ctes slot).cap.Names e) (h : m.step P ev = some m') :
    m'.kernel.endpoints e = m.kernel.endpoints e := by
  cases ev with
  | trap u tf =>
    obtain ⟨-, ⟨k, hcase, rfl⟩ | ⟨-, -, rfl⟩⟩ := step_trap h
    · cases hcase with
      | other _ => rfl
      | quiet _ _ _ _ _ _ => rfl
      | send htrap hnum hsend =>
        have hslot := hslots _ (huses u tf rfl htrap (.inl hnum))
        have hsent := endpoints_send (s := enterTrap tf m.kernel) hslot hsend
        exact hsent
      | receive htrap hnum hreceive =>
        have hslot := hslots _ (huses u tf rfl htrap (.inr hnum))
        have hreceived := endpoints_receive (s := enterTrap tf m.kernel) hslot hreceive
        exact hreceived
    · rfl
  | schedule own => exact congrFun (sameIpc_schedule h).endpoints e

/-- A slot comes to name no endpoint of the kernel that it did not name. -/
theorem KeepsCaps.names {slot : Ptr} (h : KeepsCaps s s') (he : kernBase ≤ e)
    (hnames : (s'.ctes slot).cap.Names e) : (s.ctes slot).cap.Names e := by
  rcases h slot with hsame | ⟨-, hnull⟩
  · rwa [← hsame]
  · exact absurd hnames (Cap.not_names hnull he)

/-- The slots that are not empty hold the same capabilities after every run of system calls,
scheduling and calls on notifications, in any order: none is handed over, changed or lost.  An
endpoint of the kernel that a system call changes was named at the start by a slot in use. -/
theorem queueSystem_authority {tr : List (System.Step Machine QueueEvent)}
    (hrun : (queueSystem P).Run m tr m')
    (huses : ∀ x ∈ tr, ∀ ev, x.ev = .ipc (.kernel ev) → UsesSlots S x.pre ev) :
    m'.kernel.capabilities = m.kernel.capabilities ∧
      ∀ x ∈ tr, ∀ ev, x.ev = .ipc (.kernel ev) → ∀ e, kernBase ≤ e →
        x.post.kernel.endpoints e ≠ x.pre.kernel.endpoints e →
          ∃ slot ∈ S, (m.kernel.ctes slot).cap.Names e := by
  obtain ⟨hlast, hpre⟩ := keepsCaps_run hrun
  refine ⟨hlast.capabilities, fun x hx ev hev e he hchanged => ?_⟩
  by_contra hnone
  have hstep : x.pre.queueStep P x.ev = some x.post := hrun.step_of_mem x hx
  rw [hev] at hstep
  refine hchanged (Machine.endpoints_step (huses x hx ev hev) (fun slot hslot hnames => ?_) hstep)
  exact hnone ⟨slot, hslot, (hpre x hx).names he hnames⟩

/-- Threads are confined to what the slots in use name: an endpoint of the kernel that none of them
names, whatever the type of the capability in it, is not touched in any run. -/
theorem kernelSystem_confined {tr : List (System.Step Machine KernelEvent)}
    (hrun : (kernelSystem P).Run m tr m') (huses : ∀ x ∈ tr, UsesSlots S x.pre x.ev)
    (he : kernBase ≤ e) (hslots : ∀ slot ∈ S, ¬(m.kernel.ctes slot).cap.Names e) :
    m'.kernel.endpoints e = m.kernel.endpoints e ∧
      ∀ slot ∈ S, ¬(m'.kernel.ctes slot).cap.Names e := by
  refine (hrun.invariant (I := fun k => k.kernel.endpoints e = m.kernel.endpoints e ∧
    ∀ slot ∈ S, ¬(k.kernel.ctes slot).cap.Names e) ⟨rfl, hslots⟩ (fun x hstep hC h => ?_) huses).1
  refine ⟨(Machine.endpoints_step hC h.2 hstep).trans h.1, fun slot hslot hnames => ?_⟩
  exact h.2 slot hslot ((Machine.keepsCaps_step hstep).names he hnames)

/-! ### Two threads -/

/-- The slots of the two threads: the first slots of their CNodes are for the endpoint at
`0xFFFFFFFF80003000`. -/
def sharedCtes (slot : Ptr) : Cte :=
  if slot = 0xFFFF800000002000 ∨ slot = 0xFFFF800000004000 then
    ⟨⟨0, 0xFFFF800030000184, 0⟩, ⟨0, false, false, 0⟩⟩
  else bootCtes slot

/-- The machine before the first thread is dispatched. -/
def sharedMachine : Machine := ⟨{ bootKernel with ctes := sharedCtes }, .main, []⟩

/-- The slots of their CNodes. -/
def sharedSlots : Set Ptr := cnodeSlots 0xFFFF800000002000 ∪ cnodeSlots 0xFFFF800000004000

/-- The first thread sends and exits, the second one receives. -/
def sharedEvents : List KernelEvent :=
  [.schedule true, .trap Undef.benign (sysFrame sysSendNum 0),
    .trap Undef.benign (sysFrame sysExitNum 0), .schedule true,
    .trap Undef.benign (sysFrame sysReceiveNum 0)]

theorem sharedEvents_possible :
    System.possible (Machine.step .recoverable) sharedMachine sharedEvents = true := by
  decide +kernel

theorem sharedEvents_usesSlots :
    ∀ x ∈ System.trace (Machine.step .recoverable) sharedMachine sharedEvents,
      UsesSlots sharedSlots x.pre x.ev := by
  simp only [sharedEvents, System.trace, List.forall_mem_cons]
  refine ⟨usesSlots_schedule, ?_, ?_, usesSlots_schedule, ?_, List.forall_mem_nil _⟩
  · rintro u tf ⟨⟩ - -
    exact Or.inl ⟨0, by decide, by decide +kernel⟩
  · rintro u tf ⟨⟩ - hnum
    exact absurd hnum (by decide)
  · rintro u tf ⟨⟩ - -
    exact Or.inr ⟨0, by decide, by decide +kernel⟩

/-- No capability changes, and that the endpoint is used comes from a slot of the two threads. -/
theorem queueSystem_authority_shared :
    (System.final (Machine.queueStep .recoverable) sharedMachine
        (sharedEvents.map fun ev => .ipc (.kernel ev))).kernel.capabilities =
      sharedMachine.kernel.capabilities ∧
    ∃ slot ∈ sharedSlots, (sharedMachine.kernel.ctes slot).cap.Names 0xFFFFFFFF80003000 := by
  have hpossible : System.possible (Machine.queueStep .recoverable) sharedMachine
      (sharedEvents.map fun ev => .ipc (.kernel ev)) = true := by decide +kernel
  have huses : ∀ x ∈ System.trace (Machine.queueStep .recoverable) sharedMachine
      (sharedEvents.map fun ev => .ipc (.kernel ev)), ∀ ev, x.ev = .ipc (.kernel ev) →
        UsesSlots sharedSlots x.pre ev := by
    have h := sharedEvents_usesSlots
    simp only [sharedEvents, System.trace, List.map_cons, List.map_nil, List.forall_mem_cons]
      at h ⊢
    refine ⟨?_, ?_, ?_, ?_, ?_, List.forall_mem_nil _⟩
    · rintro ev ⟨⟩
      exact h.1
    · rintro ev ⟨⟩
      exact h.2.1
    · rintro ev ⟨⟩
      exact h.2.2.1
    · rintro ev ⟨⟩
      exact h.2.2.2.1
    · rintro ev ⟨⟩
      exact h.2.2.2.2.1
  obtain ⟨hcaps, hnamed⟩ := queueSystem_authority (System.Run.of_possible hpossible) huses
  refine ⟨hcaps, hnamed _ (List.mem_cons_of_mem _ List.mem_cons_self) _ rfl _ (by decide) ?_⟩
  intro hsame
  exact absurd (congrArg Endpoint.state hsame) (by decide +kernel)

/-- Another endpoint is not touched. -/
theorem kernelSystem_confined_shared :
    (System.final (Machine.step .recoverable) sharedMachine sharedEvents).kernel.endpoints
        0xFFFFFFFF80005000 = sharedMachine.kernel.endpoints 0xFFFFFFFF80005000 ∧
      ∀ slot ∈ sharedSlots, ¬((System.final (Machine.step .recoverable) sharedMachine
        sharedEvents).kernel.ctes slot).cap.Names 0xFFFFFFFF80005000 := by
  refine kernelSystem_confined (System.Run.of_possible sharedEvents_possible)
    sharedEvents_usesSlots (by decide) fun slot _ => ?_
  change ¬(sharedCtes slot).cap.Names 0xFFFFFFFF80005000
  rw [sharedCtes, bootCtes]
  split_ifs <;> decide

end Runs

end MicroKernel
