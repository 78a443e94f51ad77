import MicroKernel.Kernel.Resume

/-!
# Threads that have exited

`exit` gives the processor away and nothing else: the thread keeps its state and its place in
every queue.

* `Gone` : a thread that is neither in the ready queue nor in the queue of an endpoint;
* `ExitFinal` : the threads that have exited are gone and are not dispatched;
* `IpcStep` : what `send` and `receive` can do to the queues, whatever their links look like;
* `kernelSystem_exitFinal_iff` : exit is final in a run if and only if every thread that exits is
  gone when it does so;
* `not_kernelSystem_exitFinal` : a thread that sends and exits is woken by the receiver.
-/

namespace MicroKernel

open DList

/-! ### The threads in the queues of endpoints -/

/-- The threads that are in the queue of some endpoint. -/
def endpointThreads (s : KState) : Set Ptr :=
  {t | ∃ e, Reaches NULL s.epLinks (s.endpoints e).epQueueHead t}

section EndpointThreads

variable {P : Packing} {s s' : KState} {S : Set Ptr} {t e : Ptr}

theorem closed_endpointThreads : Closed NULL s.epLinks (endpointThreads s) := by
  have h : Closed NULL s.epLinks _ :=
    closed_reaches (Set.range fun e => (s.endpoints e).epQueueHead)
  simp only [Set.exists_range_iff] at h
  exact h

theorem head_mem_endpointThreads (e : Ptr) :
    (s.endpoints e).epQueueHead = NULL ∨ (s.endpoints e).epQueueHead ∈ endpointThreads s :=
  or_iff_not_imp_left.2 fun hne => ⟨e, .refl hne⟩

/-- A set of threads that holds the heads and is not left by the links holds all of them. -/
theorem endpointThreads_subset (hS : Closed NULL s.epLinks S)
    (hheads : ∀ e, (s.endpoints e).epQueueHead = NULL ∨ (s.endpoints e).epQueueHead ∈ S) :
    endpointThreads s ⊆ S := by
  rintro t ⟨e, ht⟩
  exact hS.mem_of_reaches (hheads e) ht

theorem SameIpc.endpointThreads_eq (h : SameIpc s s') : endpointThreads s' = endpointThreads s := by
  simp only [endpointThreads, h.links, h.endpoints]

theorem epDequeue_endpointThreads (ht : t ∈ endpointThreads s)
    (h : epDequeue P t e s = some s') : endpointThreads s' ⊆ endpointThreads s := by
  obtain ⟨-, hlinks, hendpoints, -⟩ := epDequeue_spec h
  refine endpointThreads_subset (hlinks ▸ closed_endpointThreads.remove ht) fun e' => ?_
  rw [hendpoints]
  by_cases he : e' = e
  · subst he
    rw [Function.update_self]
    simp only [head_remove]
    split_ifs
    · exact head_mem_endpointThreads e'
    · exact closed_endpointThreads t ht
  · rw [Function.update_of_ne he]
    exact head_mem_endpointThreads e'

end EndpointThreads

/-! ### What `send` and `receive` do to the queues -/

/-- The two states have the same ready queue, scheduler action and current thread. -/
structure SameSched (s s' : KState) : Prop where
  /-- The links of the ready queue. -/
  links : s'.schedLinks = s.schedLinks
  /-- The ready queue. -/
  queue : s'.ksReadyQueues = s.ksReadyQueues
  /-- The threads marked as queued. -/
  queued : ∀ t, (s'.tcbs t).tcbState.tcbQueued = (s.tcbs t).tcbState.tcbQueued
  /-- The pending action. -/
  action : s'.ksSchedulerAction = s.ksSchedulerAction
  /-- The current thread. -/
  cur : s'.ksCurThread = s.ksCurThread

namespace SameSched

variable {s s' s'' : KState}

theorem trans (h : SameSched s s') (h' : SameSched s' s'') : SameSched s s'' where
  links := h'.links.trans h.links
  queue := h'.queue.trans h.queue
  queued t := (h'.queued t).trans (h.queued t)
  action := h'.action.trans h.action
  cur := h'.cur.trans h.cur

theorem of_eraseEP (h : s'.eraseEP = s.eraseEP) : SameSched s s' where
  links := KState.eq_of_eraseEP h KState.schedLinks fun _ => rfl
  queue := KState.eq_of_eraseEP h KState.ksReadyQueues fun _ => rfl
  queued t := KState.eq_of_eraseEP h (fun s => (s.tcbs t).tcbState.tcbQueued) fun _ => rfl
  action := KState.eq_of_eraseEP h KState.ksSchedulerAction fun _ => rfl
  cur := KState.eq_of_eraseEP h KState.ksCurThread fun _ => rfl

theorem of_eraseData (h : s'.eraseData = s.eraseData) : SameSched s s' where
  links := KState.eq_of_eraseData h KState.schedLinks fun _ => rfl
  queue := KState.eq_of_eraseData h KState.ksReadyQueues fun _ => rfl
  queued t := KState.eq_of_eraseData h (fun s => (s.tcbs t).tcbState.tcbQueued) fun _ => rfl
  action := KState.eq_of_eraseData h KState.ksSchedulerAction fun _ => rfl
  cur := KState.eq_of_eraseData h KState.ksCurThread fun _ => rfl

theorem modTcb (s : KState) (p : Ptr) {f : Tcb → Tcb}
    (hnext : ∀ t, (f t).tcbSchedNext = t.tcbSchedNext)
    (hprev : ∀ t, (f t).tcbSchedPrev = t.tcbSchedPrev)
    (hqueued : ∀ t, (f t).tcbState.tcbQueued = t.tcbState.tcbQueued) :
    SameSched s (s.modTcb p f) where
  links := s.schedLinks_modTcb hnext hprev
  queue := rfl
  queued t := s.field_modTcb (fun t => t.tcbState.tcbQueued) hqueued t
  action := rfl
  cur := rfl

theorem setTsType (s : KState) (p : Ptr) (ts : ThreadStateType) : SameSched s (s.setTsType p ts) :=
  modTcb s p (f := fun t => { t with tcbState := { t.tcbState with tsType := ts } })
    (fun _ => rfl) (fun _ => rfl) fun _ => rfl

theorem enterTrap (s : KState) (tf : Trapframe) : SameSched s (enterTrap tf s) :=
  modTcb s _ (f := fun t => { t with tf := tf }) (fun _ => rfl) (fun _ => rfl) fun _ => rfl

theorem setResult (s : KState) (result : U64) : SameSched s (setResult result s) :=
  modTcb s _ (f := fun t => { t with tf := { t.tf with rax := result } }) (fun _ => rfl)
    (fun _ => rfl) fun _ => rfl

theorem completeSignal (s : KState) (n tcb : Ptr) : SameSched s (completeSignal n tcb s) := by
  rw [MicroKernel.completeSignal]
  split_ifs
  · have h := modTcb s tcb (f := fun t => { t with
        registers := Function.update t.registers badgeRegister
          (s.notifications n).ntfnMsgIdentifier })
      (fun _ => rfl) (fun _ => rfl) fun _ => rfl
    exact ⟨h.links, h.queue, h.queued, h.action, h.cur⟩
  · exact of_eraseEP rfl

end SameSched

theorem ReadyQueue.of_sameSched {s s' : KState} {l : List Ptr} (h : ReadyQueue s l)
    (hs : SameSched s s') : ReadyQueue s' l :=
  ⟨hs.links ▸ hs.queue ▸ h.repr, fun t => (by rw [hs.queued]; exact h.queued_iff t)⟩

/-- A call leads from `s` to `s'`: into the queues of endpoints it brings at most the current
thread, and into the ready queue at most threads that were in the queue of an endpoint. -/
structure IpcStep (s s' : KState) : Prop where
  /-- The queues of endpoints. -/
  threads : endpointThreads s' ⊆ insert s.ksCurThread (endpointThreads s)
  /-- The current thread. -/
  cur : s'.ksCurThread = s.ksCurThread
  /-- The ready queue. -/
  ready : ∀ l, ReadyQueue s l → s.ksSchedulerAction = chooseNewThread →
    s'.ksSchedulerAction = chooseNewThread ∧
      ∃ l', ReadyQueue s' l' ∧ ∀ t ∈ l', t ∈ l ∨ t ∈ endpointThreads s

namespace IpcStep

variable {P : Packing} {u : Undef} {s s' s'' : KState}

theorem of_sameSched (hthreads : endpointThreads s' ⊆ insert s.ksCurThread (endpointThreads s))
    (hs : SameSched s s') : IpcStep s s' where
  threads := hthreads
  cur := hs.cur
  ready l hl ha := ⟨hs.action.trans ha, l, hl.of_sameSched hs, fun _ => Or.inl⟩

theorem same_trans (hi : endpointThreads s' = endpointThreads s) (hs : SameSched s s')
    (h : IpcStep s' s'') : IpcStep s s'' where
  threads := hi ▸ hs.cur ▸ h.threads
  cur := h.cur.trans hs.cur
  ready l hl ha := hi ▸ h.ready l (hl.of_sameSched hs) (hs.action.trans ha)

theorem trans_same (h : IpcStep s s') (hi : endpointThreads s'' = endpointThreads s')
    (hs : SameSched s' s'') : IpcStep s s'' where
  threads := hi ▸ h.threads
  cur := hs.cur.trans h.cur
  ready l hl ha := by
    obtain ⟨ha', l', hl', hmem⟩ := h.ready l hl ha
    exact ⟨hs.action.trans ha', l', hl'.of_sameSched hs, hmem⟩

theorem wake {k : KState} {t : Ptr} (hne : t ≠ NULL) (ht : t ∈ endpointThreads s)
    (hthreads : endpointThreads k ⊆ endpointThreads s) (hs : SameSched s k) :
    IpcStep s (possibleSwitchTo t k) where
  threads := by
    have h := (SameIpc.of_eraseSched (eraseSched_possibleSwitchTo (s := k) (t := t)))
    rw [h.endpointThreads_eq]
    exact hthreads.trans (Set.subset_insert _ _)
  cur := (KState.eq_of_eraseSched eraseSched_possibleSwitchTo KState.ksCurThread
    fun _ => rfl).trans hs.cur
  ready l hl ha := by
    have hk := hl.of_sameSched hs
    have hak : k.ksSchedulerAction = chooseNewThread := hs.action.trans ha
    obtain ⟨hresched, l₁, hl₁, hmem₁⟩ := rescheduleRequired_spec hk
    obtain ⟨l₂, hl₂, hmem₂⟩ := hl₁.enqueue' hne
    have hrun : possibleSwitchTo t k = tcbSchedEnqueue t (rescheduleRequired k) := by
      rw [possibleSwitchTo, if_pos (by rw [hak]; decide)]
    rw [hrun]
    refine ⟨by simpa using hresched, l₂, hl₂, fun u hu => ?_⟩
    rcases (hmem₂ u).1 hu with hu | rfl
    · exact Or.inl (((hmem₁ u).1 hu).resolve_right (not_pending_choose hak u))
    · exact Or.inr ht

theorem transferred {e sender receiver t : Ptr} {badge : U64} {grant : Bool} {s₁ s₂ : KState}
    (ht : t ∈ endpointThreads s) (hdequeue : epDequeue P t e s = some s₁)
    (htransfer : doIpcTransfer P u sender e badge grant receiver s₁ = some s₂) :
    endpointThreads s₂ ⊆ endpointThreads s ∧ SameSched s s₂ := by
  have herase := (doIpcTransfer_erase htransfer).2.2
  refine ⟨?_, (SameSched.of_eraseEP (epDequeue_spec hdequeue).2.2.2).trans (.of_eraseData herase)⟩
  rw [(SameIpc.of_eraseData herase).endpointThreads_eq]
  exact epDequeue_endpointThreads ht hdequeue

theorem endpointThreads_setTsType (t : Ptr) (ts : ThreadStateType) :
    endpointThreads (s.setTsType t ts) = endpointThreads s := by
  simp only [endpointThreads, KState.setTsType, epLinks_modState]
  rfl

theorem head_dequeued {e : Ptr} {s₁ : KState}
    (h : epDequeue P (s.endpoints e).epQueueHead e s = some s₁) :
    (s.endpoints e).epQueueHead ≠ NULL ∧ (s.endpoints e).epQueueHead ∈ endpointThreads s :=
  ⟨(epDequeue_spec h).1, (head_mem_endpointThreads e).resolve_left (epDequeue_spec h).1⟩

theorem send {dest : U64} (hkept : ∀ q, (u.tcbEpAppend q).head = q.head)
    (h : MicroKernel.send P u dest s = some s') : IpcStep s s' := by
  by_cases hstate : (s.endpoints (slotEndpoint dest s)).state = .recv
  · obtain ⟨s₁, s₂, hdequeue, htransfer, rfl⟩ := sendIpc_deliver hstate h
    obtain ⟨hne, hmem⟩ := head_dequeued hdequeue
    obtain ⟨hthreads, hs⟩ := transferred hmem hdequeue htransfer
    exact wake hne hmem ((endpointThreads_setTsType _ _).trans_subset hthreads)
      (hs.trans (.setTsType _ _ _))
  · obtain ⟨-, hlinks, hendpoints, herase⟩ := sendIpc_block hstate h
    refine of_sameSched (endpointThreads_subset (hlinks ▸ closed_endpointThreads.pushBack)
      fun e => ?_) ?_
    · rw [hendpoints]
      by_cases he : e = slotEndpoint dest s
      · subst he
        rw [Function.update_self]
        simp only [hkept, pushBack]
        split_ifs
        · exact Or.inr (Set.mem_insert _ _)
        · exact (head_mem_endpointThreads _).imp_right (Set.mem_insert_of_mem _)
      · rw [Function.update_of_ne he]
        exact (head_mem_endpointThreads _).imp_right (Set.mem_insert_of_mem _)
    · refine SameSched.trans ?_ (.of_eraseEP herase)
      exact .modTcb s _ (f := fun t => { t with tcbState := blockedOnSend _ _ _ _ _ _ t.tcbState })
        (fun _ => rfl) (fun _ => rfl) fun _ => rfl

theorem receive {dest : U64} (h : MicroKernel.receive P u dest s = some s') : IpcStep s s' := by
  by_cases hsignal : HasSignal s.ksCurThread s
  · obtain ⟨-, rfl⟩ := receiveIpc_signal hsignal h
    refine of_sameSched ?_ (.completeSignal _ _ _)
    rw [(SameIpc.completeSignal _ _ _).endpointThreads_eq]
    exact Set.subset_insert _ _
  · obtain ⟨s₁, s₂, hdequeue, htransfer, rfl⟩ :=
      receiveFromSender_spec (receiveIpc_dequeue hsignal h).2
    obtain ⟨hne, hmem⟩ := head_dequeued hdequeue
    obtain ⟨hthreads, hs⟩ := transferred hmem hdequeue htransfer
    split_ifs
    · exact of_sameSched (hthreads.trans (Set.subset_insert _ _)) hs
    · refine of_sameSched (((endpointThreads_setTsType _ _).trans_subset hthreads).trans
        (Set.subset_insert _ _)) (hs.trans (.setTsType _ _ _))
    · exact wake hne hmem ((endpointThreads_setTsType _ _).trans_subset hthreads)
        (hs.trans (.setTsType _ _ _))

end IpcStep

/-! ### Exit in a run -/

/-- The thread is neither in the ready queue nor in the queue of an endpoint. -/
structure Gone (s : KState) (t : Ptr) : Prop where
  /-- It is not in the ready queue. -/
  ready : ¬Reaches NULL s.schedLinks s.ksReadyQueues.head t
  /-- It is not in the queue of an endpoint. -/
  endpoint : t ∉ endpointThreads s

/-- The step is an iteration of the scheduling loop that makes `t` the current thread. -/
def Dispatches (x : System.Step Machine KernelEvent) (t : Ptr) : Prop :=
  ∃ own, x.ev = .schedule own ∧ t ≠ NULL ∧ x.pre.kernel.ksReadyQueues.head = t

/-- The threads that have exited are gone after the step, and it dispatches none of them. -/
def ExitFinal (x : System.Step Machine KernelEvent) : Prop :=
  (∀ t ∈ x.post.exited, Gone x.post.kernel t) ∧ ∀ t ∈ x.pre.exited, ¬Dispatches x t

/-- The condition on a step: a thread that exits is gone when it does so. -/
def ExitsGone (m : Machine) (ev : KernelEvent) : Prop :=
  ∀ u tf, ev = .trap u tf → tf.trapno = tSyscall → sysNum tf = sysExitNum →
    Gone m.kernel m.kernel.ksCurThread

/-- The condition on the value that `tcb_ep_append` does not return: the head is the one of the
queue that it built. -/
def HeadKept (ev : KernelEvent) : Prop :=
  ∀ u tf, ev = .trap u tf → ∀ queue, (u.tcbEpAppend queue).head = queue.head

/-- The start of a run: no thread has exited, and the ready queue is well formed. -/
structure ExitBoot (m : Machine) : Prop where
  /-- The scheduling loop runs. -/
  running_eq : m.running = .main
  /-- No thread has exited. -/
  exited_eq : m.exited = []
  /-- The ready queue is well formed. -/
  ready : ∃ l, ReadyQueue m.kernel l

/-- The invariant: the threads that have exited are gone, and the one that runs has not. -/
structure ExitInv (m : Machine) : Prop where
  /-- The ready queue is well formed. -/
  ready : ∃ l, ReadyQueue m.kernel l
  /-- The threads that have exited. -/
  gone : ∀ t ∈ m.exited, Gone m.kernel t
  /-- The thread that runs. -/
  running : ∀ t, m.running = .thread t → m.kernel.ksCurThread = t ∧ t ∉ m.exited ∧
    m.kernel.ksSchedulerAction = chooseNewThread

section Exit

variable {P : Packing} {u : Undef} {m m' : Machine} {s s' : KState} {l : List Ptr} {t : Ptr}

theorem ReadyQueue.reaches_iff (h : ReadyQueue s l) :
    Reaches NULL s.schedLinks s.ksReadyQueues.head t ↔ t ∈ l := h.repr.nextChain.reaches_iff

/-- A call makes no thread come back, except the current one. -/
theorem IpcStep.gone (h : IpcStep s s') (hl : ReadyQueue s l)
    (ha : s.ksSchedulerAction = chooseNewThread) (hcur : t ≠ s.ksCurThread) (hg : Gone s t) :
    Gone s' t := by
  obtain ⟨-, l', hl', hmem⟩ := h.ready l hl ha
  refine ⟨fun ht => ?_, fun ht => (h.threads ht).elim hcur hg.endpoint⟩
  rcases hmem t (hl'.reaches_iff.1 ht) with ht | ht
  · exact hg.ready (hl.reaches_iff.2 ht)
  · exact hg.endpoint ht

theorem Gone.head_ne (hg : Gone s t) (hne : t ≠ NULL) : s.ksReadyQueues.head ≠ t := fun hhead =>
  hg.ready (hhead ▸ .refl (hhead ▸ hne))

theorem TrapCase.ipcStep {tf : Trapframe} {k : KState}
    (hkept : ∀ queue, (u.tcbEpAppend queue).head = queue.head)
    (h : TrapCase P u tf s (.user k)) : IpcStep s k := by
  have hi := (SameIpc.enterTrap s tf).endpointThreads_eq
  have hs := SameSched.enterTrap s tf
  cases h with
  | other _ => exact .of_sameSched (Set.subset_insert _ _) (.of_eraseEP rfl)
  | quiet result memblock =>
    refine .of_sameSched ?_ (SameSched.trans ?_ (.setResult _ result))
    · rw [(SameIpc.quiet s tf result memblock).endpointThreads_eq]
      exact Set.subset_insert _ _
    · exact ⟨hs.links, hs.queue, hs.queued, hs.action, hs.cur⟩
  | send _ _ hsend =>
    exact (IpcStep.same_trans hi hs (.send hkept hsend)).trans_same
      (SameIpc.setResult _ 0).endpointThreads_eq (.setResult _ 0)
  | receive _ _ hreceive =>
    exact (IpcStep.same_trans hi hs (.receive hreceive)).trans_same
      (SameIpc.setResult _ 0).endpointThreads_eq (.setResult _ 0)

theorem ExitBoot.inv (h : ExitBoot m) : ExitInv m where
  ready := h.ready
  gone t ht := by rw [h.exited_eq] at ht; cases ht
  running t ht := absurd (h.running_eq.symm.trans ht) nofun

/-- An iteration of the scheduling loop keeps the invariant and dispatches no thread that has
exited. -/
theorem ExitInv.schedule {own : Bool} (hstep : m.step P (.schedule own) = some m')
    (h : ExitInv m) : ExitInv m' ∧ ∀ t ∈ m.exited, ¬Dispatches ⟨m, .schedule own, m'⟩ t := by
  obtain ⟨l, hl⟩ := h.ready
  have hnot : ∀ t ∈ m.exited, t ∉ l := fun t ht hmem =>
    (h.gone t ht).ready (hl.reaches_iff.2 hmem)
  have hi := Machine.sameIpc_schedule hstep
  have hend : ∀ t ∈ m.exited, t ∉ endpointThreads m'.kernel := fun t ht => by
    rw [hi.endpointThreads_eq]
    exact (h.gone t ht).endpoint
  refine ⟨?_, fun t ht ⟨_, _, hne, hhead⟩ => ?_⟩
  · obtain ⟨hrun, ⟨-, rfl⟩ | ⟨hhead, hdispatch⟩⟩ := Machine.step_schedule hstep
    · exact ⟨⟨l, hl.congr rfl rfl⟩, fun t ht => ⟨(h.gone t ht).ready, hend t ht⟩,
        fun t ht => absurd (hrun.symm.trans ht) nofun⟩
    · obtain ⟨t₀, l, rfl⟩ : ∃ t₀ l₀, l = t₀ :: l₀ := by
        cases l with
        | nil => exact absurd hl.repr.head_eq hhead
        | cons t₀ l₀ => exact ⟨t₀, l₀, rfl⟩
      have ht₀ : m.kernel.ksReadyQueues.head = t₀ := hl.repr.head_eq
      rw [ht₀] at hdispatch
      have hl' : ReadyQueue
          (switchToThreadEnter t₀ (m.kernel.setSchedulerAction chooseNewThread)) l :=
        ReadyQueue.switchToThreadEnter (hl.congr rfl rfl)
      have hnot' : ∀ t ∈ m.exited, t ∉ l := fun t ht hmem =>
        hnot t ht (List.mem_cons_of_mem _ hmem)
      have hexited : t₀ ∉ m.exited := fun ht => hnot t₀ ht List.mem_cons_self
      rcases hdispatch with rfl | rfl
      · rw [if_neg hexited]
        refine ⟨⟨l, hl'⟩, fun t ht => ⟨fun hmem => ?_, ?_⟩, fun t ht => ?_⟩
        · exact hnot' t ht (hl'.reaches_iff.1 hmem)
        · simpa only [if_neg hexited] using hend t ht
        · cases ht
          exact ⟨rfl, hexited, ksSchedulerAction_switchToThreadEnter _ _⟩
      · have hl'' : ReadyQueue (mainResumed
            (switchToThreadEnter t₀ (m.kernel.setSchedulerAction chooseNewThread))) l :=
          hl'.congr rfl rfl
        refine ⟨⟨l, hl''⟩, fun t ht => ⟨fun hmem => ?_, hend t ht⟩, fun t ht => ?_⟩
        · exact hnot' t ht (hl''.reaches_iff.1 hmem)
        · exact absurd (hrun.symm.trans ht) nofun
  · exact (h.gone t ht).ready (hhead ▸ .refl (hhead ▸ hne))

/-- A trap that is not an exit keeps the invariant. -/
theorem ExitInv.call {tf : Trapframe} {k : KState} (hrun : m.running = .thread t)
    (hcase : TrapCase P u tf m.kernel (.user k))
    (hkept : ∀ queue, (u.tcbEpAppend queue).head = queue.head) (h : ExitInv m) :
    ExitInv { m with kernel := k } := by
  obtain ⟨l, hl⟩ := h.ready
  obtain ⟨hcur, hexited, ha⟩ := h.running t hrun
  have hk := hcase.ipcStep hkept
  obtain ⟨ha', l', hl', -⟩ := hk.ready l hl ha
  refine ⟨⟨l', hl'⟩, fun t' ht' => hk.gone hl ha ?_ (h.gone t' ht'), fun t' ht' => ?_⟩
  · rintro rfl
    exact hexited (hcur ▸ ht')
  · cases hrun.symm.trans ht'
    exact ⟨hk.cur.trans hcur, hexited, ha'⟩

theorem TrapCase.not_exit {tf : Trapframe} {k : KState} (hcase : TrapCase P u tf s (.user k))
    (htrap : tf.trapno = tSyscall) : sysNum tf ≠ sysExitNum := by
  intro hexit
  cases hcase with
  | other hne => exact hne htrap
  | quiet _ _ _ _ _ hne => exact hne hexit
  | send _ hsend _ => rw [hexit] at hsend; cases hsend
  | receive _ hreceive _ => rw [hexit] at hreceive; cases hreceive

theorem gone_exit (hl : ReadyQueue s l) (tf : Trapframe) (t : Ptr) :
    Gone (mainResumed (enterTrap tf s)) t ↔ Gone s t := by
  have hi := (SameIpc.enterTrap s tf).trans (SameIpc.mainResumed _)
  have hl' : ReadyQueue (mainResumed (enterTrap tf s)) l :=
    (hl.of_sameSched (.enterTrap s tf)).congr rfl rfl
  have hready : Reaches NULL (mainResumed (enterTrap tf s)).schedLinks
      (mainResumed (enterTrap tf s)).ksReadyQueues.head t ↔
      Reaches NULL s.schedLinks s.ksReadyQueues.head t := hl'.reaches_iff.trans hl.reaches_iff.symm
  constructor
  · exact fun hg => ⟨fun ht => hg.ready (hready.2 ht), hi.endpointThreads_eq ▸ hg.endpoint⟩
  · exact fun hg => ⟨fun ht => hg.ready (hready.1 ht), hi.endpointThreads_eq.symm ▸ hg.endpoint⟩

/-- At a step taken in the invariant, exit is final exactly if no thread exits that is still in a
queue; then the invariant is kept. -/
theorem ExitInv.final_iff {ev : KernelEvent} (hstep : m.step P ev = some m')
    (hkept : HeadKept ev) (h : ExitInv m) :
    (ExitFinal ⟨m, ev, m'⟩ ↔ ExitsGone m ev) ∧ (ExitsGone m ev → ExitInv m') := by
  cases ev with
  | schedule own =>
    obtain ⟨hinv, hnot⟩ := h.schedule hstep
    exact ⟨iff_of_true ⟨hinv.gone, hnot⟩ nofun, fun _ => hinv⟩
  | trap u tf =>
    obtain ⟨⟨t, hrun⟩, ⟨k, hcase, rfl⟩ | ⟨htrap, hexit, rfl⟩⟩ := Machine.step_trap hstep
    · have hinv := h.call hrun hcase (hkept u tf rfl)
      refine ⟨iff_of_true ⟨hinv.gone, nofun⟩ ?_, fun _ => hinv⟩
      rintro _ _ ⟨⟩ htrap hexit
      exact absurd hexit (hcase.not_exit htrap)
    · obtain ⟨l, hl⟩ := h.ready
      have hall : (∀ t ∈ m.kernel.ksCurThread :: m.exited,
          Gone (mainResumed (enterTrap tf m.kernel)) t) ↔ ExitsGone m (.trap u tf) := by
        simp only [gone_exit hl, List.mem_cons, forall_eq_or_imp]
        refine ⟨?_, fun hgone => ⟨hgone u tf rfl htrap hexit, h.gone⟩⟩
        rintro ⟨hgone, -⟩ _ _ - - -
        exact hgone
      refine ⟨⟨fun hfinal => hall.1 hfinal.1, fun hgone => ⟨hall.2 hgone, nofun⟩⟩, fun hgone => ?_⟩
      exact ⟨⟨l, (hl.of_sameSched (.enterTrap m.kernel tf)).congr rfl rfl⟩, hall.2 hgone, nofun⟩

end Exit

/-- Exit is final in every step of a run, if and only if every thread that exits is in no queue when
it does so (the value that `tcb_ep_append` does not return having the right head). -/
theorem kernelSystem_exitFinal_iff {P : Packing} {m m' : Machine}
    {tr : List (System.Step Machine KernelEvent)} (h₀ : ExitBoot m)
    (hrun : (kernelSystem P).Run m tr m') (hkept : ∀ x ∈ tr, HeadKept x.ev) :
    (∀ x ∈ tr, ExitFinal x) ↔ ∀ x ∈ tr, ExitsGone x.pre x.ev := by
  refine (hrun.restrict hkept).forall_iff h₀.inv (fun x hstep hC h => ?_) fun x hstep h => ?_
  · exact (h.final_iff hstep.1 hstep.2).2 hC
  · exact (h.final_iff hstep.1 hstep.2).1

/-! ### A thread that comes back -/

/-- The first thread sends and exits, the second one receives. -/
def exitEvents : List KernelEvent :=
  [.schedule true, .trap Undef.benign (sysFrame sysSendNum 0),
    .trap Undef.benign (sysFrame sysExitNum 0), .schedule true,
    .trap Undef.benign (sysFrame sysReceiveNum 0)]

/-- The steps. -/
def exitTrace : List (System.Step Machine KernelEvent) :=
  System.trace (Machine.step Packing.recoverable) bootMachine exitEvents

theorem bootMachine_exitBoot : ExitBoot bootMachine where
  running_eq := rfl
  exited_eq := rfl
  ready := by
    have h : ReadyQueue { KState.zero with ctes := bootCtes } [] := .nil rfl fun _ => rfl
    obtain ⟨l₁, h₁, -⟩ := h.enqueue' (t := 0x2C00) (by decide)
    obtain ⟨l₂, h₂, -⟩ := h₁.enqueue' (t := 0x1C00) (by decide)
    exact ⟨l₂, h₂⟩

theorem exitEvents_possible :
    System.possible (Machine.step Packing.recoverable) bootMachine exitEvents = true := by
  decide +kernel

theorem exitTrace_headKept : ∀ x ∈ exitTrace, HeadKept x.ev := by
  simp [exitTrace, exitEvents, System.trace, HeadKept, Undef.benign]

theorem exitTrace_ne_nil : exitTrace ≠ [] := List.cons_ne_nil _ _

/-- The equivalence for this run. -/
theorem kernelSystem_exitFinal_iff_boot :
    (∀ x ∈ exitTrace, ExitFinal x) ↔ ∀ x ∈ exitTrace, ExitsGone x.pre x.ev :=
  kernelSystem_exitFinal_iff bootMachine_exitBoot (System.Run.of_possible exitEvents_possible)
    exitTrace_headKept

/-- A thread can come back after it has exited: when the message it has left is received, it is put
into the ready queue. -/
theorem not_kernelSystem_exitFinal :
    ¬∀ (P : Packing) (m m' : Machine) (tr : List (System.Step Machine KernelEvent)), ExitBoot m →
      (kernelSystem P).Run m tr m' → (∀ x ∈ tr, HeadKept x.ev) → ∀ x ∈ tr, ExitFinal x := by
  intro hall
  have hfinal := hall _ _ _ _ bootMachine_exitBoot (System.Run.of_possible exitEvents_possible)
    exitTrace_headKept (exitTrace.getLast exitTrace_ne_nil) (List.getLast_mem _)
  have hexited : 0x1C00 ∈ (exitTrace.getLast exitTrace_ne_nil).post.exited := by decide +kernel
  have hhead : (exitTrace.getLast exitTrace_ne_nil).post.kernel.ksReadyQueues.head = 0x1C00 := by
    decide +kernel
  exact (hfinal.1 0x1C00 hexited).head_ne (by decide) hhead

end MicroKernel
