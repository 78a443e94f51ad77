import MicroKernel.Ipc.Endpoint
import MicroKernel.System.Run

/-!
# System calls and the machine

A thread traps into the kernel with the registers of its trap frame; the system call runs for the
current thread and the thread goes on, except that `exit` gives the processor back to the
scheduling loop.  The loop dispatches the first thread of the ready queue.

* `syscall`, `trap` : from the trap frame to the state in which the thread goes on;
* `Machine`, `Machine.step`, `kernelSystem` : the kernel with its threads as a transition system;
* `Machine.step_trap`, `Machine.step_schedule` : what a step can do;
* `mainResumed_eq_schedule` : the two halves of an iteration of the loop are `schedule`.
-/

namespace MicroKernel

/-! ### System calls -/

/-- `SYS_test`. -/
def sysTestNum : ℕ := 1

/-- `SYS_send`. -/
def sysSendNum : ℕ := 2

/-- `SYS_receive`. -/
def sysReceiveNum : ℕ := 3

/-- `SYS_print`. -/
def sysPrintNum : ℕ := 4

/-- `SYS_exit`. -/
def sysExitNum : ℕ := 5

/-- `SYS_brk`. -/
def sysBrkNum : ℕ := 6

/-- `T_SYSCALL`. -/
def tSyscall : U64 := 64

/-- `fetch_arg` for the arguments that the kernel has registers for. -/
def fetchArg (n : Fin 6) (s : KState) : U64 :=
  let tf := (s.tcbs s.ksCurThread).tf
  match n with
  | 0 => tf.rdi
  | 1 => tf.rsi
  | 2 => tf.rdx
  | 3 => tf.rcx
  | 4 => tf.r8
  | 5 => tf.r9

/-- Write the result of a system call into the trap frame of the current thread. -/
def setResult (result : U64) (s : KState) : KState :=
  s.modTcb s.ksCurThread fun t => { t with tf := { t.tf with rax := result } }

/-- `sys_test`. -/
def sysTest (s : KState) : KState × U64 := (s, 0)

/-- `sys_send`. -/
def sysSend (P : Packing) (u : Undef) (s : KState) : Option (KState × U64) := do
  let s ← send P u (fetchArg 0 s) s
  return (s, 0)

/-- `sys_receive`. -/
def sysReceive (P : Packing) (u : Undef) (s : KState) : Option (KState × U64) := do
  let s ← receive P u (fetchArg 0 s) s
  return (s, 0)

/-- `sys_print`, which has no `return`; the console is not part of the state. -/
def sysPrint (u : Undef) (s : KState) : KState × U64 := (s, u.sysResult)

/-- `sys_brk`.  It is called as a function with a result of type `int`. -/
def sysBrk (s : KState) : Option (KState × U64) :=
  match brk s.memblock (fetchArg 0 s).toNat with
  | .ok (m, addr) => some ({ s with memblock := m }, ((BitVec.ofNat 32 addr).signExtend 64))
  | .error _ => none

/-- Where the processor is after a system call. -/
inductive TrapResult where
  /-- The thread goes on in user mode. -/
  | user (s : KState)
  /-- The thread called `sched()`. -/
  | sched (s : KState)

/-- `syscall`; the result of `exit` is written when its thread is resumed. -/
def syscall (P : Packing) (u : Undef) (s : KState) : Option TrapResult :=
  let num := ((s.tcbs s.ksCurThread).tf.rax.setWidth 32).toInt
  let finish := fun r : KState × U64 => TrapResult.user (setResult r.2 r.1)
  if num = sysTestNum then some (finish (sysTest s))
  else if num = sysSendNum then (sysSend P u s).map finish
  else if num = sysReceiveNum then (sysReceive P u s).map finish
  else if num = sysPrintNum then some (finish (sysPrint u s))
  else if num = sysExitNum then some (.sched s)
  else if num = sysBrkNum then (sysBrk s).map finish
  else none

/-- `trap`. -/
def trap (P : Packing) (u : Undef) (tf : Trapframe) (s : KState) : Option TrapResult :=
  if tf.trapno = tSyscall then
    syscall P u (s.modTcb s.ksCurThread fun t => { t with tf := tf })
  else some (.user s)

/-! ### The machine -/

/-- The kernel, the execution that has the processor, and the threads that have called `exit`. -/
structure Machine where
  /-- The kernel. -/
  kernel : KState
  /-- Who has the processor. -/
  running : Execution
  /-- The threads that have called `exit`. -/
  exited : List Ptr

/-- The steps of the machine. -/
inductive KernelEvent where
  /-- The running thread traps with the registers `tf`. -/
  | trap (u : Undef) (tf : Trapframe)
  /-- An iteration of the scheduling loop.  The context of the dispatched thread is its own, or
  `own` is false and `main` has saved its own one over it. -/
  | schedule (own : Bool)

/-- `main` goes on in `switch_to_thread` and returns from `schedule`. -/
def mainResumed (s : KState) : KState :=
  (kernelSwitchVm s).setSchedulerAction resumeCurrentThread

namespace Machine

/-- The step of the machine for an event, if the event is possible and the kernel returns. -/
def step (P : Packing) (m : Machine) : KernelEvent → Option Machine
  | .trap u tf =>
    match m.running with
    | .main => none
    | .thread _ =>
      match trap P u tf m.kernel with
      | none => none
      | some (.user k) => some { m with kernel := k }
      | some (.sched k) => some ⟨mainResumed k, .main, k.ksCurThread :: m.exited⟩
  | .schedule own =>
    match m.running with
    | .thread _ => none
    | .main =>
      let k := m.kernel.setSchedulerAction chooseNewThread
      let thread := k.ksReadyQueues.head
      if thread = NULL then some { m with kernel := k.setSchedulerAction resumeCurrentThread }
      else
        let k := switchToThreadEnter thread k
        if own then
          -- a thread that gave the processor away in `exit` returns from it
          let k := if thread ∈ m.exited then setResult 0 k else k
          some { m with kernel := k, running := .thread thread }
        else some { m with kernel := mainResumed k }

end Machine

/-- The machine as a transition system. -/
def kernelSystem (P : Packing) : System Machine KernelEvent := System.ofStep (Machine.step P)

/-! ### What a step can do -/

section Steps

variable {P : Packing} {u : Undef} {s : KState} {m m' : Machine}

/-- The number of a system call. -/
def sysNum (tf : Trapframe) : ℤ := (tf.rax.setWidth 32).toInt

/-- The kernel as a system call finds it.  The frame that is stored is in no capability slot: the
kernel stack of a thread is apart from them. -/
def enterTrap (tf : Trapframe) (s : KState) : KState :=
  s.modTcb s.ksCurThread fun t => { t with tf := tf }

/-- The cases of a trap, with the calls that change threads and queues spelt out. -/
inductive TrapCase (P : Packing) (u : Undef) (tf : Trapframe) (s : KState) : TrapResult → Prop
  /-- Not a system call. -/
  | other : tf.trapno ≠ tSyscall → TrapCase P u tf s (.user s)
  /-- A call that leaves threads and queues alone. -/
  | quiet (result : U64) (memblock : Memblock) : tf.trapno = tSyscall →
      sysNum tf ≠ sysSendNum → sysNum tf ≠ sysReceiveNum → sysNum tf ≠ sysExitNum →
      TrapCase P u tf s (.user (setResult result { enterTrap tf s with memblock := memblock }))
  /-- `send`. -/
  | send {s' : KState} : tf.trapno = tSyscall → sysNum tf = sysSendNum →
      MicroKernel.send P u tf.rdi (enterTrap tf s) = some s' →
      TrapCase P u tf s (.user (setResult 0 s'))
  /-- `receive`. -/
  | receive {s' : KState} : tf.trapno = tSyscall → sysNum tf = sysReceiveNum →
      MicroKernel.receive P u tf.rdi (enterTrap tf s) = some s' →
      TrapCase P u tf s (.user (setResult 0 s'))
  /-- `exit`. -/
  | exit : tf.trapno = tSyscall → sysNum tf = sysExitNum →
      TrapCase P u tf s (.sched (enterTrap tf s))

@[simp] theorem enterTrap_tf (tf : Trapframe) : ((enterTrap tf s).tcbs s.ksCurThread).tf = tf := by
  simp [enterTrap]

@[simp] theorem ksCurThread_enterTrap (tf : Trapframe) :
    (enterTrap tf s).ksCurThread = s.ksCurThread := rfl

theorem fetchArg_enterTrap (tf : Trapframe) : fetchArg 0 (enterTrap tf s) = tf.rdi := by
  simp [fetchArg]

theorem trap_cases {tf : Trapframe} {r : TrapResult} (h : trap P u tf s = some r) :
    TrapCase P u tf s r := by
  by_cases htrap : tf.trapno = tSyscall
  · rw [trap, if_pos htrap] at h
    change syscall P u (enterTrap tf s) = some r at h
    have hnum : (((enterTrap tf s).tcbs (enterTrap tf s).ksCurThread).tf.rax.setWidth 32).toInt =
        sysNum tf := by simp [sysNum]
    simp only [syscall, hnum, sysSend, sysReceive, fetchArg_enterTrap] at h
    split_ifs at h with h₁ h₂ h₃ h₄ h₅ h₆
    · cases h
      exact .quiet 0 (enterTrap tf s).memblock htrap (by rw [h₁]; decide) (by rw [h₁]; decide)
        (by rw [h₁]; decide)
    · simp only [bind, Option.map_eq_some_iff, Option.bind_eq_some_iff, pure,
        Option.some.injEq] at h
      obtain ⟨_, ⟨s', hsend, rfl⟩, rfl⟩ := h
      exact .send htrap h₂ hsend
    · simp only [bind, Option.map_eq_some_iff, Option.bind_eq_some_iff, pure,
        Option.some.injEq] at h
      obtain ⟨_, ⟨s', hreceive, rfl⟩, rfl⟩ := h
      exact .receive htrap h₃ hreceive
    · cases h
      exact .quiet u.sysResult (enterTrap tf s).memblock htrap h₂ h₃ (by rw [h₄]; decide)
    · cases h
      exact .exit htrap h₅
    · rw [sysBrk] at h
      split at h
      · cases h
        exact .quiet _ _ htrap h₂ h₃ h₅
      · cases h
  · rw [trap, if_neg htrap] at h
    cases h
    exact .other htrap

/-- A trap is made by a running thread; the thread goes on, or it exits and `main` goes on. -/
theorem Machine.step_trap {tf : Trapframe} (h : m.step P (.trap u tf) = some m') :
    (∃ t, m.running = .thread t) ∧
      ((∃ k, TrapCase P u tf m.kernel (.user k) ∧ m' = { m with kernel := k }) ∨
        tf.trapno = tSyscall ∧ sysNum tf = sysExitNum ∧
          m' = ⟨mainResumed (enterTrap tf m.kernel), .main, m.kernel.ksCurThread :: m.exited⟩) := by
  simp only [Machine.step] at h
  split at h
  · cases h
  · rename_i t hrun
    refine ⟨⟨t, hrun⟩, ?_⟩
    split at h
    · cases h
    · rename_i k hk
      cases h
      exact Or.inl ⟨k, trap_cases hk, rfl⟩
    · rename_i k hk
      cases h
      cases trap_cases hk with
      | exit htrap hnum => exact Or.inr ⟨htrap, hnum, rfl⟩

/-- An iteration of the scheduling loop: with the ready queue empty nothing happens; otherwise its
first thread is dispatched and goes on, or `main` goes on at once. -/
theorem Machine.step_schedule {own : Bool} (h : m.step P (.schedule own) = some m') :
    let thread := m.kernel.ksReadyQueues.head
    let k := switchToThreadEnter thread (m.kernel.setSchedulerAction chooseNewThread)
    m.running = .main ∧
      (thread = NULL ∧
          m' = { m with kernel := m.kernel.setSchedulerAction resumeCurrentThread } ∨
        thread ≠ NULL ∧
          (m' = { m with
              kernel := if thread ∈ m.exited then setResult 0 k else k
              running := .thread thread } ∨
            m' = { m with kernel := mainResumed k })) := by
  simp only [Machine.step] at h
  split at h
  · cases h
  · rename_i hrun
    refine ⟨hrun, ?_⟩
    by_cases hhead : m.kernel.ksReadyQueues.head = NULL
    · simp only [KState.ksReadyQueues_setSchedulerAction, hhead, if_true, Option.some.injEq] at h
      exact Or.inl ⟨hhead, h.symm⟩
    · simp only [KState.ksReadyQueues_setSchedulerAction, hhead, if_false] at h
      refine Or.inr ⟨hhead, ?_⟩
      cases own with
      | true => exact Or.inl (Option.some.inj h).symm
      | false => exact Or.inr (Option.some.inj h).symm

/-- The two halves of an iteration, before and after the thread has the processor, are one call of
`schedule`. -/
theorem mainResumed_eq_schedule (hhead : s.ksReadyQueues.head ≠ NULL) (k : KState) :
    mainResumed k = schedule (fun _ => k) (s.setSchedulerAction chooseNewThread) := by
  have hne : chooseNewThread ≠ resumeCurrentThread := by decide
  simp [schedule, scheduleChooseNewThread, chooseThread, switchToThread, mainResumed, hhead, hne,
    KState.setSchedulerAction]

end Steps

/-! ### Steps that do not concern endpoints -/

/-- Two states with the same queues of endpoints and notifications and the same threads blocked. -/
structure SameIpc (s s' : KState) : Prop where
  /-- The links of the queues. -/
  links : s'.epLinks = s.epLinks
  /-- The endpoints. -/
  endpoints : s'.endpoints = s.endpoints
  /-- The queues of notifications. -/
  ntfnQueueHead : ∀ n, (s'.notifications n).ntfnQueueHead = (s.notifications n).ntfnQueueHead
  /-- The states of the threads, up to the flag of the ready queue. -/
  tcbState : ∀ t, (s'.tcbs t).tcbState.eraseQueued = (s.tcbs t).tcbState.eraseQueued

namespace SameIpc

variable {s s' s'' : KState}

theorem tsType (h : SameIpc s s') (t : Ptr) :
    (s'.tcbs t).tcbState.tsType = (s.tcbs t).tcbState.tsType :=
  have h' := congrArg ThreadState.tsType (h.tcbState t)
  h'

theorem blockingObject (h : SameIpc s s') (t : Ptr) :
    (s'.tcbs t).tcbState.blockingObject = (s.tcbs t).tcbState.blockingObject :=
  have h' := congrArg ThreadState.blockingObject (h.tcbState t)
  h'

theorem blockingIPCIscall (h : SameIpc s s') (t : Ptr) :
    (s'.tcbs t).tcbState.blockingIPCIscall = (s.tcbs t).tcbState.blockingIPCIscall :=
  have h' := congrArg ThreadState.blockingIPCIscall (h.tcbState t)
  h'

theorem trans (h : SameIpc s s') (h' : SameIpc s' s'') : SameIpc s s'' where
  links := h'.links.trans h.links
  endpoints := h'.endpoints.trans h.endpoints
  ntfnQueueHead n := (h'.ntfnQueueHead n).trans (h.ntfnQueueHead n)
  tcbState t := (h'.tcbState t).trans (h.tcbState t)

theorem of_eraseSched (h : s'.eraseSched = s.eraseSched) : SameIpc s s' where
  links := KState.eq_of_eraseSched h KState.epLinks fun _ => rfl
  endpoints := KState.eq_of_eraseSched h KState.endpoints fun _ => rfl
  ntfnQueueHead n :=
    KState.eq_of_eraseSched h (fun s => (s.notifications n).ntfnQueueHead) fun _ => rfl
  tcbState t := KState.eq_of_eraseSched h
    (fun s => (s.tcbs t).tcbState.eraseQueued) fun _ => rfl

theorem of_eraseData (h : s'.eraseData = s.eraseData) : SameIpc s s' where
  links := KState.eq_of_eraseData h KState.epLinks fun _ => rfl
  endpoints := KState.eq_of_eraseData h KState.endpoints fun _ => rfl
  ntfnQueueHead n :=
    KState.eq_of_eraseData h (fun s => (s.notifications n).ntfnQueueHead) fun _ => rfl
  tcbState t := KState.eq_of_eraseData h
    (fun s => (s.tcbs t).tcbState.eraseQueued) fun _ => rfl

theorem setTsType (h : SameIpc s s') (p : Ptr) (ts : ThreadStateType) :
    SameIpc (s.setTsType p ts) (s'.setTsType p ts) where
  links := by simpa only [KState.setTsType, epLinks_modState] using h.links
  endpoints := h.endpoints
  ntfnQueueHead := h.ntfnQueueHead
  tcbState t := by
    by_cases ht : t = p
    · subst ht
      have h' := congrArg (fun st : ThreadState => { st with tsType := ts }) (h.tcbState t)
      simpa [KState.setTsType, KState.modState, ThreadState.eraseQueued] using h'
    · simpa [KState.setTsType, KState.modState, ht] using h.tcbState t

theorem modTf (s : KState) (p : Ptr) (f : Trapframe → Trapframe) :
    SameIpc s (s.modTcb p fun t => { t with tf := f t.tf }) where
  links := s.epLinks_modTcb (fun _ => rfl) fun _ => rfl
  endpoints := rfl
  ntfnQueueHead _ := rfl
  tcbState t := s.field_modTcb (f := fun t => { t with tf := f t.tf })
    (fun t => t.tcbState.eraseQueued) (fun _ => rfl) t

theorem enterTrap (s : KState) (tf : Trapframe) : SameIpc s (enterTrap tf s) :=
  modTf s s.ksCurThread fun _ => tf

theorem setResult (s : KState) (result : U64) : SameIpc s (setResult result s) :=
  modTf s s.ksCurThread fun tf => { tf with rax := result }

theorem quiet (s : KState) (tf : Trapframe) (result : U64) (memblock : Memblock) :
    SameIpc s (MicroKernel.setResult result
      { MicroKernel.enterTrap tf s with memblock := memblock }) := by
  have h := enterTrap s tf
  have h' : SameIpc s { MicroKernel.enterTrap tf s with memblock := memblock } :=
    ⟨h.links, h.endpoints, h.ntfnQueueHead, h.tcbState⟩
  exact h'.trans (setResult _ _)

theorem completeSignal (s : KState) (n tcb : Ptr) : SameIpc s (completeSignal n tcb s) := by
  rw [MicroKernel.completeSignal]
  split_ifs
  · have h : SameIpc s (s.setRegister tcb badgeRegister (s.notifications n).ntfnMsgIdentifier) :=
      of_eraseData (by simp)
    refine ⟨h.links, h.endpoints, fun n' => ?_, h.tcbState⟩
    by_cases hn : n' = n
    · subst hn
      simp [KState.modNotification, KState.setRegister, KState.modTcb]
    · simp [KState.modNotification, KState.setRegister, KState.modTcb, hn]
  · exact of_eraseSched rfl

theorem switchToThreadEnter (s : KState) (thread action : Ptr) :
    SameIpc s (switchToThreadEnter thread (s.setSchedulerAction action)) := by
  have h : SameIpc s (tcbSchedDequeue thread (s.setSchedulerAction action)) :=
    of_eraseSched (by simp)
  exact ⟨h.links, h.endpoints, h.ntfnQueueHead, h.tcbState⟩

theorem mainResumed (s : KState) : SameIpc s (mainResumed s) :=
  ⟨rfl, rfl, fun _ => rfl, fun _ => rfl⟩

end SameIpc

/-- An iteration of the scheduling loop does not concern endpoints. -/
theorem Machine.sameIpc_schedule {P : Packing} {m m' : Machine} {own : Bool}
    (h : m.step P (.schedule own) = some m') : SameIpc m.kernel m'.kernel := by
  obtain ⟨-, ⟨-, rfl⟩ | ⟨-, rfl | rfl⟩⟩ := step_schedule h
  · exact .of_eraseSched (by simp)
  · dsimp only
    split_ifs
    · exact (SameIpc.switchToThreadEnter _ _ _).trans (SameIpc.setResult _ _)
    · exact SameIpc.switchToThreadEnter _ _ _
  · exact (SameIpc.switchToThreadEnter _ _ _).trans (SameIpc.mainResumed _)

end MicroKernel
