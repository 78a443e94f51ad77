import MicroKernel.DList.Basic
import MicroKernel.Memblock.Basic

/-!
# Kernel objects and the kernel state

The kernel's objects live in one heap for each type, a total function from addresses; `NULL` is
the address 0.  Bit fields are the words they are stored in where the source reads them through
several types (`Cap`), and their values elsewhere; a reference kept in a bit field shorter than a
pointer goes through a function of `Packing` when it is stored.  Being in heaps of their own, the
objects are apart: a thread with its trap frame and its message buffer shares no memory with an
object of another type or a capability slot.

A call that dereferences a `NULL` thread or buffer is taken to fault and not to return: such
functions have results in `Option`.  (While a process runs, its first page is mapped at the address
0; the source then goes on with what is in this page.)  What the source leaves undefined (the result
of a function without a `return`, a local variable that is read before it is written) is a parameter
of type `Undef`.

* `KState`, `KState.modTcb` : the state of the kernel and the update of one thread;
* `KState.schedLinks`, `KState.epLinks` : the link fields of all threads, as used by the ready
  queue and by the queues of endpoints.
-/

namespace MicroKernel

/-- `u64`. -/
abbrev U64 := BitVec 64

/-- An address. -/
abbrev Ptr := BitVec 64

/-- `NULL`. -/
def NULL : Ptr := 0

/-- A queue of threads. -/
abbrev TcbQueue := DList.Queue Ptr

instance instDecidableMemPtr (p : Ptr) (l : List Ptr) : Decidable (p ∈ l) :=
  List.instDecidableMemOfLawfulBEq p l

/-! ### Threads -/

/-- `enum _ThreadState`. -/
inductive ThreadStateType where
  /-- `ThreadState_Inactive`. -/
  | inactive
  /-- `ThreadState_Running`. -/
  | running
  /-- `ThreadState_Restart`. -/
  | restart
  /-- `ThreadState_BlockedOnReceive`. -/
  | blockedOnReceive
  /-- `ThreadState_BlockedOnSend`. -/
  | blockedOnSend
  /-- `ThreadState_BlockedOnReply`. -/
  | blockedOnReply
  /-- `ThreadState_BlockedOnNotification`. -/
  | blockedOnNotification
  /-- `ThreadState_IdleThreadState`. -/
  | idle
  deriving DecidableEq, Repr

/-- `struct __ThreadState`. -/
structure ThreadState where
  /-- The badge of the capability that a blocked sender used. -/
  blockingIPCBadge : U64
  /-- Whether that capability may grant. -/
  blockingIPCCanGrant : Bool
  /-- Whether it may grant a reply. -/
  blockingIPCCangrantreply : Bool
  /-- Whether the sender waits for a reply. -/
  blockingIPCIscall : Bool
  /-- Whether the thread is in the ready queue. -/
  tcbQueued : Bool
  /-- The object the thread is blocked on, as stored. -/
  blockingObject : U64
  /-- The state. -/
  tsType : ThreadStateType
  deriving DecidableEq

/-- The state up to the flag of the ready queue. -/
def ThreadState.eraseQueued (st : ThreadState) : ThreadState := { st with tcbQueued := false }

/-- The registers that the trap handler saves (`Trapframe`), as far as the kernel uses them. -/
structure Trapframe where
  /-- System call number and result. -/
  rax : U64
  /-- First argument. -/
  rdi : U64
  /-- Second argument. -/
  rsi : U64
  /-- Third argument. -/
  rdx : U64
  /-- Fourth argument. -/
  rcx : U64
  /-- Fifth argument. -/
  r8 : U64
  /-- Sixth argument. -/
  r9 : U64
  /-- The kind of trap. -/
  trapno : U64
  deriving DecidableEq

/-- The executions that have a kernel stack of their own. -/
inductive Execution where
  /-- The scheduling loop of `main`. -/
  | main
  /-- The thread with the given control block. -/
  | thread (t : Ptr)
  deriving DecidableEq

/-- A saved context: a stack pointer into the kernel stack of an execution. -/
structure Context where
  /-- Whose stack it is. -/
  stack : Execution
  /-- The stack pointer. -/
  rsp : U64
  deriving DecidableEq

/-- `badgeRegister`. -/
def badgeRegister : ℕ := 0

/-- `msgInfoRegister`. -/
def msgInfoRegister : ℕ := 1

/-- `struct _Tcb`. -/
structure Tcb where
  /-- The registers in `tcbArch.tcbContext`. -/
  registers : ℕ → U64
  /-- The thread state. -/
  tcbState : ThreadState
  /-- The bound notification, or `NULL`. -/
  tcbBoundNotification : Ptr
  /-- `tcbFault.osFaultType`, 0 for no fault. -/
  osFaultType : ℕ
  /-- The trap frame. -/
  tf : Trapframe
  /-- The context saved by `swtch`. -/
  context : Context
  /-- The page table. -/
  pml4 : Ptr
  /-- The kernel stack. -/
  kStack : Ptr
  /-- The message buffer. -/
  tcbIPCBuffer : Ptr
  /-- Next thread in the ready queue. -/
  tcbSchedNext : Ptr
  /-- Previous thread in the ready queue. -/
  tcbSchedPrev : Ptr
  /-- Next thread in the queue of an endpoint. -/
  tcbEPNext : Ptr
  /-- Previous thread in the queue of an endpoint. -/
  tcbEPPrev : Ptr

/-- The thread without the fields of the ready queue. -/
def Tcb.eraseSched (t : Tcb) : Tcb :=
  { t with
    tcbSchedNext := NULL
    tcbSchedPrev := NULL
    tcbState := t.tcbState.eraseQueued }

/-- The thread without the fields of the queues of endpoints. -/
def Tcb.eraseEP (t : Tcb) : Tcb := { t with tcbEPNext := NULL, tcbEPPrev := NULL }

theorem Tcb.eq_of_eraseEP {t t' : Tcb} (h : t'.eraseEP = t.eraseEP)
    (hnext : t'.tcbEPNext = t.tcbEPNext) (hprev : t'.tcbEPPrev = t.tcbEPPrev) : t' = t := by
  cases t
  cases t'
  simp_all [eraseEP]

/-- The thread without its registers. -/
def Tcb.eraseRegisters (t : Tcb) : Tcb := { t with registers := fun _ => 0 }

/-! ### Endpoints, notifications, capabilities -/

/-- `enum EndpointState`. -/
inductive EndpointState where
  /-- `EPState_Idle`. -/
  | idle
  /-- `EPState_Send`. -/
  | send
  /-- `EPState_Recv`. -/
  | recv
  deriving DecidableEq, Repr

/-- `struct _Endpoint`. -/
structure Endpoint where
  /-- First thread of the queue. -/
  epQueueHead : Ptr
  /-- Last thread of the queue, as stored. -/
  epQueueTail : U64
  /-- The state. -/
  state : EndpointState
  deriving DecidableEq

/-- `enum NotificationState`. -/
inductive NotificationState where
  /-- `NtfnState_Idle`. -/
  | idle
  /-- `NtfnState_Waiting`. -/
  | waiting
  /-- `NtfnState_Active`. -/
  | active
  deriving DecidableEq, Repr

/-- `struct _Notification`. -/
structure Notification where
  /-- The thread that is bound to it, as stored, or `NULL`. -/
  ntfnBoundTCB : U64
  /-- The message. -/
  ntfnMsgIdentifier : U64
  /-- First thread of the queue, as stored. -/
  ntfnQueueHead : U64
  /-- Last thread of the queue, as stored. -/
  ntfnQueueTail : U64
  /-- The state. -/
  state : NotificationState
  deriving DecidableEq

/-- A capability as the three words of a `struct _Cap`. -/
structure Cap where
  /-- `capEPBadge`, the first word of every kind of capability. -/
  w0 : U64
  /-- The second word. -/
  w1 : U64
  /-- The third word, which no other kind of capability has. -/
  w2 : U64
  deriving DecidableEq

/-- `struct _MdbNode`. -/
structure MdbNode where
  /-- The next node, as stored. -/
  mdbNext : U64
  /-- Whether the capability may be revoked. -/
  mdbRevocable : Bool
  /-- Whether it is the first badged one. -/
  mdbFirstBadged : Bool
  /-- The previous node. -/
  mdbPrev : U64
  deriving DecidableEq

/-- `struct _Cte`. -/
structure Cte where
  /-- The capability in the slot. -/
  cap : Cap
  /-- The derivation tree node. -/
  cteMdbNode : MdbNode
  deriving DecidableEq

/-- `struct _SyscallError`, as far as it is written. -/
structure SyscallError where
  /-- The kind of error. -/
  type : ℕ
  /-- Whether the lookup that failed was for the source. -/
  failedLookupWasSource : Bool
  /-- Lower bound of a range error. -/
  rangeErrorMin : ℕ
  /-- Upper bound of a range error. -/
  rangeErrorMax : ℕ
  deriving DecidableEq

/-- `struct LookupFault_t`. -/
structure LookupFault where
  /-- `type`. -/
  type : ℕ
  /-- `lufType`. -/
  lufType : ℕ
  /-- `bitsRemaining`. -/
  bitsRemaining : U64
  deriving DecidableEq

/-! ### What the source leaves open -/

/-- How references are stored in bit fields that are shorter than a pointer. -/
structure Packing where
  /-- `epQueueTail`, 48 bits. -/
  epQueueTail : Ptr → U64
  /-- `blockingObject`, 44 bits. -/
  blockingObject : Ptr → U64
  /-- `mdbNext`, 46 bits. -/
  mdbNext : Ptr → U64
  /-- `ntfnBoundTCB`, 48 bits. -/
  ntfnBoundTCB : Ptr → U64
  /-- `ntfnQueueHead`, 48 bits. -/
  ntfnQueueHead : Ptr → U64
  /-- `ntfnQueueTail`, 48 bits. -/
  ntfnQueueTail : Ptr → U64
  /-- The address that `receive_signal` takes from the 48 bits of `capNtfnPtr`. -/
  capNtfnPtr : U64 → Ptr

/-- The packing of the structure declarations: the low bits are kept. -/
def Packing.bitFields : Packing where
  epQueueTail p := (p.setWidth 48).setWidth 64
  blockingObject p := (p.setWidth 44).setWidth 64
  mdbNext p := (p.setWidth 46).setWidth 64
  ntfnBoundTCB p := (p.setWidth 48).setWidth 64
  ntfnQueueHead p := (p.setWidth 48).setWidth 64
  ntfnQueueTail p := (p.setWidth 48).setWidth 64
  capNtfnPtr r := r

/-- References that can be recovered from their fields. -/
def Packing.recoverable : Packing where
  epQueueTail := id
  blockingObject := id
  mdbNext := id
  ntfnBoundTCB := id
  ntfnQueueHead := id
  ntfnQueueTail := id
  capNtfnPtr r := r ||| 0xFFFF000000000000

/-- The values that the source leaves undefined in one system call. -/
structure Undef where
  /-- What `tcb_ep_append`, which has no `return`, gives its caller, from the queue it built. -/
  tcbEpAppend : TcbQueue → TcbQueue
  /-- What `copyMRs`, which has no `return`, gives its caller. -/
  copyMRs : U64
  /-- `ret.status` of `lookup_slot`, which does not set it: at its calls for the extra
  capabilities 0, 1, …, and at the call for the receive slot (number 3). -/
  lookupSlotStatus : ℕ → U64
  /-- `ret.status` of `resolve_address_bits` where it is not set. -/
  resolveStatus : U64
  /-- `dcRet` of `transfer_caps`, which is not set, in the iterations 0, 1, …. -/
  dcRet : ℕ → U64 × Cap
  /-- The value of a system call without a `return`. -/
  sysResult : U64
  /-- `end` of the queue that `ntfn_ptr_get_queue` returns, which sets `head` twice. -/
  ntfnQueueEnd : Ptr

/-! ### The kernel state -/

/-- The state of the kernel. -/
structure KState where
  /-- Threads. -/
  tcbs : Ptr → Tcb
  /-- Endpoints. -/
  endpoints : Ptr → Endpoint
  /-- Notifications. -/
  notifications : Ptr → Notification
  /-- Capability slots. -/
  ctes : Ptr → Cte
  /-- Message buffers, as the words at an address. -/
  ipcBuffers : Ptr → ℕ → U64
  /-- `currentExtraCaps.excaprefs`. -/
  excaprefs : ℕ → Ptr
  /-- `currentSyscallError`. -/
  currentSyscallError : SyscallError
  /-- `currentLookupFault`. -/
  currentLookupFault : LookupFault
  /-- The ready queue. -/
  ksReadyQueues : TcbQueue
  /-- The current thread. -/
  ksCurThread : Ptr
  /-- The thread that was current before. -/
  oldThread : Ptr
  /-- `ksSchedulerAction`. -/
  ksSchedulerAction : Ptr
  /-- The page table in use. -/
  cr3 : U64
  /-- The kernel stack of the task state segment. -/
  tssRsp0 : U64
  /-- The page table of the kernel. -/
  kernPml4 : Ptr
  /-- The physical allocator. -/
  memblock : Memblock

namespace KState

variable (s : KState) {p q : Ptr} {f : Tcb → Tcb}

/-- Change the thread at `p`. -/
def modTcb (p : Ptr) (f : Tcb → Tcb) : KState :=
  { s with tcbs := Function.update s.tcbs p (f (s.tcbs p)) }

/-- Change the endpoint at `e`. -/
def modEndpoint (e : Ptr) (f : Endpoint → Endpoint) : KState :=
  { s with endpoints := Function.update s.endpoints e (f (s.endpoints e)) }

/-- Change the state of the thread at `p`. -/
def modState (p : Ptr) (f : ThreadState → ThreadState) : KState :=
  s.modTcb p fun t => { t with tcbState := f t.tcbState }

/-- Change the notification at `n`. -/
def modNotification (n : Ptr) (f : Notification → Notification) : KState :=
  { s with notifications := Function.update s.notifications n (f (s.notifications n)) }

/-- Change the capability slot at `slot`. -/
def modCte (slot : Ptr) (f : Cte → Cte) : KState :=
  { s with ctes := Function.update s.ctes slot (f (s.ctes slot)) }

/-- Write word `i` of the message buffer at `buffer`. -/
def setBufferWord (buffer : Ptr) (i : ℕ) (w : U64) : KState :=
  { s with
    ipcBuffers := Function.update s.ipcBuffers buffer
      (Function.update (s.ipcBuffers buffer) i w) }

/-- Write `currentExtraCaps.excaprefs[i]`. -/
def setExcapref (i : ℕ) (slot : Ptr) : KState :=
  { s with excaprefs := Function.update s.excaprefs i slot }

/-- Write the type of the state of the thread at `p`. -/
def setTsType (p : Ptr) (ts : ThreadStateType) : KState :=
  s.modState p fun st => { st with tsType := ts }

/-- `set_register`. -/
def setRegister (p : Ptr) (reg : ℕ) (w : U64) : KState :=
  s.modTcb p fun t => { t with registers := Function.update t.registers reg w }

/-- Write `tcbSchedNext`. -/
def setSchedNext (p v : Ptr) : KState := s.modTcb p fun t => { t with tcbSchedNext := v }

/-- Write `tcbSchedPrev`. -/
def setSchedPrev (p v : Ptr) : KState := s.modTcb p fun t => { t with tcbSchedPrev := v }

/-- Write `tcbEPNext`. -/
def setEPNext (p v : Ptr) : KState := s.modTcb p fun t => { t with tcbEPNext := v }

/-- Write `tcbEPPrev`. -/
def setEPPrev (p v : Ptr) : KState := s.modTcb p fun t => { t with tcbEPPrev := v }

/-- Write `ksReadyQueues`. -/
def setReadyQueues (queue : TcbQueue) : KState := { s with ksReadyQueues := queue }

/-- Write `ksSchedulerAction`. -/
def setSchedulerAction (action : Ptr) : KState := { s with ksSchedulerAction := action }

/-- The link fields of the ready queue. -/
def schedLinks : DList.Links Ptr where
  next p := (s.tcbs p).tcbSchedNext
  prev p := (s.tcbs p).tcbSchedPrev

/-- The link fields of the queues of endpoints. -/
def epLinks : DList.Links Ptr where
  next p := (s.tcbs p).tcbEPNext
  prev p := (s.tcbs p).tcbEPPrev

@[simp] theorem tcbs_modTcb_self : (s.modTcb p f).tcbs p = f (s.tcbs p) := by simp [modTcb]

@[simp] theorem tcbs_modTcb_of_ne (h : q ≠ p) : (s.modTcb p f).tcbs q = s.tcbs q := by
  simp [modTcb, h]

/-- A field that the change of a thread keeps is kept for all threads. -/
theorem field_modTcb {β : Type*} (g : Tcb → β) (h : ∀ t, g (f t) = g t) (q : Ptr) :
    g ((s.modTcb p f).tcbs q) = g (s.tcbs q) := by
  by_cases hq : q = p
  · subst hq
    simp [h]
  · simp [hq]

theorem tcbs_setTsType_of_ne {ts : ThreadStateType} (h : q ≠ p) :
    (s.setTsType p ts).tcbs q = s.tcbs q := by
  rw [setTsType, modState, tcbs_modTcb_of_ne _ h]

theorem tcbState_setTsType_self {ts : ThreadStateType} :
    ((s.setTsType p ts).tcbs p).tcbState = { (s.tcbs p).tcbState with tsType := ts } := by
  simp [setTsType, modState]

@[simp] theorem ksReadyQueues_modTcb : (s.modTcb p f).ksReadyQueues = s.ksReadyQueues := rfl

@[simp] theorem ksReadyQueues_setSchedulerAction (action : Ptr) :
    (s.setSchedulerAction action).ksReadyQueues = s.ksReadyQueues := rfl

@[simp] theorem endpoints_modTcb : (s.modTcb p f).endpoints = s.endpoints := rfl

@[simp] theorem endpoints_setEPNext (v : Ptr) : (s.setEPNext p v).endpoints = s.endpoints := rfl

@[simp] theorem endpoints_setEPPrev (v : Ptr) : (s.setEPPrev p v).endpoints = s.endpoints := rfl

@[simp] theorem tcbs_setReadyQueues (queue : TcbQueue) : (s.setReadyQueues queue).tcbs = s.tcbs :=
  rfl

@[simp] theorem schedLinks_setReadyQueues (queue : TcbQueue) :
    (s.setReadyQueues queue).schedLinks = s.schedLinks := rfl

@[simp] theorem ksReadyQueues_setReadyQueues (queue : TcbQueue) :
    (s.setReadyQueues queue).ksReadyQueues = queue := rfl

/-! A change of a thread that keeps the link fields. -/

theorem schedLinks_modTcb (hn : ∀ t, (f t).tcbSchedNext = t.tcbSchedNext)
    (hp : ∀ t, (f t).tcbSchedPrev = t.tcbSchedPrev) : (s.modTcb p f).schedLinks = s.schedLinks :=
  DList.Links.ext (funext fun q => s.field_modTcb Tcb.tcbSchedNext hn q)
    (funext fun q => s.field_modTcb Tcb.tcbSchedPrev hp q)

theorem epLinks_modTcb (hn : ∀ t, (f t).tcbEPNext = t.tcbEPNext)
    (hp : ∀ t, (f t).tcbEPPrev = t.tcbEPPrev) : (s.modTcb p f).epLinks = s.epLinks :=
  DList.Links.ext (funext fun q => s.field_modTcb Tcb.tcbEPNext hn q)
    (funext fun q => s.field_modTcb Tcb.tcbEPPrev hp q)

@[simp] theorem schedLinks_setSchedNext (v : Ptr) :
    (s.setSchedNext p v).schedLinks = s.schedLinks.setNext p v :=
  DList.Links.of_update_next Tcb.tcbSchedNext Tcb.tcbSchedPrev rfl

@[simp] theorem schedLinks_setSchedPrev (v : Ptr) :
    (s.setSchedPrev p v).schedLinks = s.schedLinks.setPrev p v :=
  DList.Links.of_update_prev Tcb.tcbSchedNext Tcb.tcbSchedPrev rfl

@[simp] theorem epLinks_setEPNext (v : Ptr) :
    (s.setEPNext p v).epLinks = s.epLinks.setNext p v :=
  DList.Links.of_update_next Tcb.tcbEPNext Tcb.tcbEPPrev rfl

@[simp] theorem epLinks_setEPPrev (v : Ptr) :
    (s.setEPPrev p v).epLinks = s.epLinks.setPrev p v :=
  DList.Links.of_update_prev Tcb.tcbEPNext Tcb.tcbEPPrev rfl

/-! ### Parts of the state

Equations between states in which a part is erased say that an operation changes nothing but
this part. -/

/-- The state without the ready queue and the pending action of the scheduler. -/
def eraseSched : KState :=
  { s with
    tcbs := fun p => (s.tcbs p).eraseSched
    ksReadyQueues := ⟨NULL, NULL⟩
    ksSchedulerAction := NULL }

theorem eraseSched_modTcb (h : ∀ t, (f t).eraseSched = t.eraseSched) :
    (s.modTcb p f).eraseSched = s.eraseSched := by
  have htcbs : (fun q => ((s.modTcb p f).tcbs q).eraseSched) = fun q => (s.tcbs q).eraseSched :=
    funext fun q => s.field_modTcb Tcb.eraseSched h q
  simp only [eraseSched, htcbs]
  rfl

@[simp] theorem eraseSched_setSchedNext (v : Ptr) :
    (s.setSchedNext p v).eraseSched = s.eraseSched := s.eraseSched_modTcb fun _ => rfl

@[simp] theorem eraseSched_setSchedPrev (v : Ptr) :
    (s.setSchedPrev p v).eraseSched = s.eraseSched := s.eraseSched_modTcb fun _ => rfl

@[simp] theorem eraseSched_setReadyQueues (queue : TcbQueue) :
    (s.setReadyQueues queue).eraseSched = s.eraseSched := rfl

@[simp] theorem eraseSched_setSchedulerAction (action : Ptr) :
    (s.setSchedulerAction action).eraseSched = s.eraseSched := rfl

/-- The state without what a message transfer writes: registers, buffers, capability slots and the
results of lookups. -/
def eraseData : KState :=
  { s with
    tcbs := fun p => (s.tcbs p).eraseRegisters
    ipcBuffers := fun _ _ => 0
    ctes := fun _ => ⟨⟨0, 0, 0⟩, ⟨0, false, false, 0⟩⟩
    excaprefs := fun _ => NULL
    currentSyscallError := ⟨0, false, 0, 0⟩
    currentLookupFault := ⟨0, 0, 0⟩ }

@[simp] theorem eraseData_modCte (slot : Ptr) (f : Cte → Cte) :
    (s.modCte slot f).eraseData = s.eraseData := rfl

@[simp] theorem eraseData_setBufferWord (buffer : Ptr) (i : ℕ) (w : U64) :
    (s.setBufferWord buffer i w).eraseData = s.eraseData := rfl

@[simp] theorem eraseData_setExcapref (i : ℕ) (slot : Ptr) :
    (s.setExcapref i slot).eraseData = s.eraseData := rfl

@[simp] theorem eraseData_setRegister (reg : ℕ) (w : U64) :
    (s.setRegister p reg w).eraseData = s.eraseData := by
  have htcbs : (fun q => ((s.setRegister p reg w).tcbs q).eraseRegisters) =
      fun q => (s.tcbs q).eraseRegisters :=
    funext fun q => s.field_modTcb Tcb.eraseRegisters (by exact fun _ => rfl) q
  simp only [eraseData, htcbs]
  rfl

/-- The state without the queues of endpoints. -/
def eraseEP : KState :=
  { s with
    tcbs := fun p => (s.tcbs p).eraseEP
    endpoints := fun _ => ⟨NULL, 0, .idle⟩ }

theorem eraseEP_modTcb (h : ∀ t, (f t).eraseEP = t.eraseEP) :
    (s.modTcb p f).eraseEP = s.eraseEP := by
  have htcbs : (fun q => ((s.modTcb p f).tcbs q).eraseEP) = fun q => (s.tcbs q).eraseEP :=
    funext fun q => s.field_modTcb Tcb.eraseEP h q
  simp only [eraseEP, htcbs]
  rfl

@[simp] theorem eraseEP_setEPNext (v : Ptr) : (s.setEPNext p v).eraseEP = s.eraseEP :=
  s.eraseEP_modTcb fun _ => rfl

@[simp] theorem eraseEP_setEPPrev (v : Ptr) : (s.setEPPrev p v).eraseEP = s.eraseEP :=
  s.eraseEP_modTcb fun _ => rfl

@[simp] theorem eraseEP_modEndpoint (e : Ptr) (g : Endpoint → Endpoint) :
    (s.modEndpoint e g).eraseEP = s.eraseEP := rfl

theorem eq_of_eraseEP {β : Type*} {s s' : KState} (h : s'.eraseEP = s.eraseEP)
    (g : KState → β) (hg : ∀ s, g s.eraseEP = g s) : g s' = g s := by
  rw [← hg s', ← hg s, h]

theorem eq_of_eraseData {β : Type*} {s s' : KState} (h : s'.eraseData = s.eraseData)
    (g : KState → β) (hg : ∀ s, g s.eraseData = g s) : g s' = g s := by
  rw [← hg s', ← hg s, h]

theorem eq_of_eraseSched {β : Type*} {s s' : KState} (h : s'.eraseSched = s.eraseSched)
    (g : KState → β) (hg : ∀ s, g s.eraseSched = g s) : g s' = g s := by
  rw [← hg s', ← hg s, h]

end KState

/-! ### Zeroed memory -/

/-- A control block of zeroes. -/
def Tcb.zero : Tcb where
  registers _ := 0
  tcbState := ⟨0, false, false, false, false, 0, .inactive⟩
  tcbBoundNotification := NULL
  osFaultType := 0
  tf := ⟨0, 0, 0, 0, 0, 0, 0, 0⟩
  context := ⟨.main, 0⟩
  pml4 := NULL
  kStack := NULL
  tcbIPCBuffer := NULL
  tcbSchedNext := NULL
  tcbSchedPrev := NULL
  tcbEPNext := NULL
  tcbEPPrev := NULL

/-- The kernel before it creates any object: all memory is zero, no address is usable. -/
def KState.zero : KState where
  tcbs _ := Tcb.zero
  endpoints _ := ⟨NULL, 0, .idle⟩
  notifications _ := ⟨0, 0, 0, 0, .idle⟩
  ctes _ := ⟨⟨0, 0, 0⟩, ⟨0, false, false, 0⟩⟩
  ipcBuffers _ _ := 0
  excaprefs _ := NULL
  currentSyscallError := ⟨0, false, 0, 0⟩
  currentLookupFault := ⟨0, 0, 0⟩
  ksReadyQueues := ⟨NULL, NULL⟩
  ksCurThread := NULL
  oldThread := NULL
  ksSchedulerAction := NULL
  cr3 := 0
  tssRsp0 := 0
  kernPml4 := NULL
  memblock := memblockEmpty

end MicroKernel
