import MicroKernel.Kernel.Trap

/-!
# The thread that goes on after a system call

`send` blocks its caller, but the call of `schedule_tcb` that should take the processor away from
it is commented out.

* `Runnable` : a thread that is not blocked and is in no queue;
* `ResumesRunnable` : the thread that has the processor is runnable;
* `Quiet` : the invariant: no thread is blocked and all queues are empty;
* `kernelSystem_runnable_iff` : the thread that goes on is runnable after every step of a run, if
  and only if no step is a `send` that finds no receiver;
* `not_kernelSystem_runnable` : the first `send` of all returns to its blocked caller.
-/

namespace MicroKernel

open DList

/-- The states of a thread that is blocked. -/
def ThreadStateType.blocked : ThreadStateType → Bool
  | blockedOnReceive | blockedOnSend | blockedOnReply | blockedOnNotification => true
  | inactive | running | restart | idle => false

/-- The thread is not blocked and in no queue of an endpoint or of a notification. -/
structure Runnable (s : KState) (t : Ptr) : Prop where
  /-- It is not blocked. -/
  notBlocked : (s.tcbs t).tcbState.tsType.blocked = false
  /-- It is in no queue of an endpoint. -/
  endpoint : ∀ e, ¬Reaches NULL s.epLinks (s.endpoints e).epQueueHead t
  /-- It is in no queue of a notification. -/
  notification : ∀ n, ¬Reaches NULL s.epLinks (s.notifications n).ntfnQueueHead t

/-- The thread that has the processor is runnable. -/
def ResumesRunnable (m : Machine) : Prop := ∀ t, m.running = .thread t → Runnable m.kernel t

/-- The condition on a step: when it is a `send`, a receiver waits at the endpoint. -/
def NoBlockingSend (m : Machine) (ev : KernelEvent) : Prop :=
  ∀ u tf, ev = .trap u tf → tf.trapno = tSyscall → sysNum tf = sysSendNum →
    (m.kernel.endpoints (slotEndpoint tf.rdi m.kernel)).state = .recv

/-- The machine before the first dispatch. -/
structure Boot (m : Machine) : Prop where
  /-- The scheduling loop runs. -/
  running_eq : m.running = .main
  /-- The endpoints are idle. -/
  endpoint : ∀ e, (m.kernel.endpoints e).state = .idle ∧ (m.kernel.endpoints e).epQueueHead = NULL
  /-- No thread waits for a notification. -/
  notification : ∀ n, (m.kernel.notifications n).ntfnQueueHead = NULL
  /-- No thread is blocked. -/
  notBlocked : ∀ t, (m.kernel.tcbs t).tcbState.tsType.blocked = false

/-- The invariant: no thread is blocked and all queues are empty. -/
structure Quiet (m : Machine) : Prop where
  /-- A thread that runs is the current one. -/
  cur_eq : ∀ t, m.running = .thread t → m.kernel.ksCurThread = t
  /-- The endpoints are idle. -/
  endpoint : ∀ e, (m.kernel.endpoints e).state = .idle ∧ (m.kernel.endpoints e).epQueueHead = NULL
  /-- No thread waits for a notification. -/
  notification : ∀ n, (m.kernel.notifications n).ntfnQueueHead = NULL
  /-- No thread is blocked. -/
  notBlocked : ∀ t, (m.kernel.tcbs t).tcbState.tsType.blocked = false

section Quiet

variable {P : Packing} {m m' : Machine}

theorem Boot.quiet (h : Boot m) : Quiet m :=
  ⟨fun _ ht => absurd (h.running_eq.symm.trans ht) nofun, h.endpoint, h.notification,
    h.notBlocked⟩

theorem Quiet.runnable (h : Quiet m) : ResumesRunnable m := fun t _ =>
  ⟨h.notBlocked t, fun e => by rw [(h.endpoint e).2]; exact not_reaches_null,
    fun n => by rw [h.notification n]; exact not_reaches_null⟩

theorem Quiet.of_sameIpc (h : Quiet m) (hs : SameIpc m.kernel m'.kernel)
    (hcur : ∀ t, m'.running = .thread t → m'.kernel.ksCurThread = t) : Quiet m' where
  cur_eq := hcur
  endpoint e := by rw [hs.endpoints]; exact h.endpoint e
  notification n := by rw [hs.ntfnQueueHead]; exact h.notification n
  notBlocked t := by rw [hs.tsType]; exact h.notBlocked t

/-- With all queues empty, a `receive` that returns has taken a signal. -/
theorem receive_quiet {u : Undef} {dest : U64} {s s' : KState}
    (hempty : ∀ e, (s.endpoints e).epQueueHead = NULL) (h : receive P u dest s = some s') :
    SameIpc s s' ∧ s'.ksCurThread = s.ksCurThread := by
  by_cases hsignal : HasSignal s.ksCurThread s
  · obtain ⟨-, rfl⟩ := receiveIpc_signal hsignal h
    refine ⟨SameIpc.completeSignal _ _ _, ?_⟩
    rw [completeSignal]
    split_ifs <;> rfl
  · obtain ⟨s₁, s₂, hdequeue, -⟩ := receiveFromSender_spec (receiveIpc_dequeue hsignal h).2
    exact absurd (hempty _) (epDequeue_spec hdequeue).1

/-- A step keeps the invariant, if it is not a `send` that finds no receiver. -/
theorem Quiet.step {ev : KernelEvent} (hstep : m.step P ev = some m') (hC : NoBlockingSend m ev)
    (h : Quiet m) : Quiet m' := by
  cases ev with
  | schedule own =>
    refine h.of_sameIpc (Machine.sameIpc_schedule hstep) fun t ht => ?_
    obtain ⟨hrun, ⟨-, rfl⟩ | ⟨-, rfl | rfl⟩⟩ := Machine.step_schedule hstep
    · rw [hrun] at ht
      cases ht
    · cases ht
      dsimp only
      split_ifs <;> rfl
    · rw [hrun] at ht
      cases ht
  | trap u tf =>
    obtain ⟨⟨t, hrun⟩, ⟨k, hcase, rfl⟩ | ⟨-, -, rfl⟩⟩ := Machine.step_trap hstep
    · have hcur : ∀ k' : KState, k'.ksCurThread = m.kernel.ksCurThread →
          ∀ t, m.running = .thread t → k'.ksCurThread = t :=
        fun k' hk' t ht => hk'.trans (h.cur_eq t ht)
      cases hcase with
      | other _ => exact h
      | quiet result memblock _ _ _ _ =>
        exact h.of_sameIpc (SameIpc.quiet _ tf result memblock) (hcur _ rfl)
      | send htrap hnum _ =>
        have hstate := hC u tf rfl htrap hnum
        rw [(h.endpoint _).1] at hstate
        cases hstate
      | receive _ _ hreceive =>
        obtain ⟨hs, hk⟩ := receive_quiet (s := enterTrap tf m.kernel)
          (fun e => (h.endpoint e).2) hreceive
        refine h.of_sameIpc ?_ (hcur _ hk)
        exact ((SameIpc.enterTrap m.kernel tf).trans hs).trans (SameIpc.setResult _ 0)
    · refine h.of_sameIpc ?_ fun t ht => by cases ht
      exact (SameIpc.enterTrap m.kernel tf).trans (SameIpc.mainResumed _)

/-- After a `send` that finds no receiver the thread that goes on is blocked. -/
theorem Quiet.noBlockingSend {ev : KernelEvent} (hstep : m.step P ev = some m') (h : Quiet m)
    (hpost : ResumesRunnable m') : NoBlockingSend m ev := by
  rintro u tf rfl htrap hnum
  by_contra hstate
  obtain ⟨⟨t, hrun⟩, ⟨k, hcase, rfl⟩ | ⟨-, hexit, -⟩⟩ := Machine.step_trap hstep
  · cases hcase with
    | other hne => exact hne htrap
    | quiet _ _ _ hsend _ _ => exact hsend hnum
    | send _ _ hsend =>
      obtain ⟨hstate', -⟩ := send_block (s := enterTrap tf m.kernel) hstate hsend
      have hrunnable := (hpost t hrun).notBlocked
      rw [(SameIpc.setResult _ 0).tsType, ← h.cur_eq t hrun] at hrunnable
      rw [ksCurThread_enterTrap] at hstate'
      rw [hstate'] at hrunnable
      cases hrunnable
    | receive _ hreceive _ =>
      rw [hnum] at hreceive
      cases hreceive
  · rw [hnum] at hexit
    cases hexit

end Quiet

/-- From the start of the scheduling loop the thread that goes on is runnable after every step, if
and only if no step is a `send` that finds no receiver. -/
theorem kernelSystem_runnable_iff {P : Packing} {m m' : Machine}
    {tr : List (System.Step Machine KernelEvent)} (h₀ : Boot m)
    (hrun : (kernelSystem P).Run m tr m') :
    (∀ x ∈ tr, ResumesRunnable x.post) ↔ ∀ x ∈ tr, NoBlockingSend x.pre x.ev :=
  hrun.forall_iff h₀.quiet (fun _ hstep hC h => h.step hstep hC)
    fun _ hstep h => ⟨h.noBlockingSend hstep, fun hC => (h.step hstep hC).runnable⟩

/-! ### The first `send` -/

/-- The registers of a system call. -/
def sysFrame (num : ℕ) (dest : U64) : Trapframe :=
  ⟨BitVec.ofNat 64 num, dest, 0, 0, 0, 0, 0, tSyscall⟩

/-- The slots of two threads, at `0x1C00` and `0x2C00`: the first slot of each one's capability
table holds a capability to send to and receive from the endpoint at `0xFFFF000000003000`, the
second slot of the first one's a capability for the endpoint at `0xFFFF000000004000`. -/
def bootCtes (slot : Ptr) : Cte :=
  ⟨if slot = 0x1800 then ⟨0, 0x2000000A, 0⟩
    else if slot = 0x2800 then ⟨0, 0x4000000A, 0⟩
    else if slot = 0xFFFF800000002000 ∨ slot = 0xFFFF800000004000 then ⟨0, 0x30000184, 0⟩
    else if slot = 0xFFFF800000002028 then ⟨0, 0x40000184, 0⟩
    else ⟨0, 0, 0⟩, ⟨0, false, false, 0⟩⟩

/-- A kernel with two threads in the ready queue. -/
def bootKernel : KState :=
  tcbSchedEnqueue 0x1C00 (tcbSchedEnqueue 0x2C00 { KState.zero with ctes := bootCtes })

theorem eraseSched_bootKernel :
    bootKernel.eraseSched = { KState.zero with ctes := bootCtes }.eraseSched := by
  rw [bootKernel, eraseSched_tcbSchedEnqueue, eraseSched_tcbSchedEnqueue]

/-- The machine before its first dispatch. -/
def bootMachine : Machine := ⟨bootKernel, .main, []⟩

/-- The thread is dispatched and calls `send`. -/
def bootEvents : List KernelEvent := [.schedule true, .trap Undef.benign (sysFrame sysSendNum 0)]

theorem bootMachine_boot : Boot bootMachine where
  running_eq := rfl
  endpoint e := by
    have h := KState.eq_of_eraseSched eraseSched_bootKernel (fun s => s.endpoints e) fun _ => rfl
    exact ⟨congrArg Endpoint.state h, congrArg Endpoint.epQueueHead h⟩
  notification n :=
    KState.eq_of_eraseSched eraseSched_bootKernel (fun s => (s.notifications n).ntfnQueueHead)
      fun _ => rfl
  notBlocked t :=
    KState.eq_of_eraseSched eraseSched_bootKernel (fun s => (s.tcbs t).tcbState.tsType.blocked)
      fun _ => rfl

theorem bootEvents_possible :
    System.possible (Machine.step Packing.recoverable) bootMachine bootEvents = true := by decide

/-- The equivalence for this run. -/
theorem kernelSystem_runnable_iff_boot :
    (∀ x ∈ System.trace (Machine.step Packing.recoverable) bootMachine bootEvents,
        ResumesRunnable x.post) ↔
      ∀ x ∈ System.trace (Machine.step Packing.recoverable) bootMachine bootEvents,
        NoBlockingSend x.pre x.ev :=
  kernelSystem_runnable_iff bootMachine_boot (System.Run.of_possible bootEvents_possible)

/-- A blocked thread can go on: the one that sends first. -/
theorem not_kernelSystem_runnable :
    ¬∀ (P : Packing) (m m' : Machine) (tr : List (System.Step Machine KernelEvent)), Boot m →
      (kernelSystem P).Run m tr m' → ∀ x ∈ tr, ResumesRunnable x.post := by
  intro hall
  have hrunnable := hall _ _ _ _ bootMachine_boot (System.Run.of_possible bootEvents_possible)
    _ (List.mem_cons_of_mem _ List.mem_cons_self) 0x1C00 (by decide)
  exact absurd hrunnable.notBlocked (by decide)

end MicroKernel
