import MicroKernel.Ipc.Queues

/-!
# Threads that leave all queues

`cancel_ipc` is to take a thread out of the queue that it waits in, whatever it waits for.  It does
nothing for a thread that waits for a signal or for a reply.

* `Detached` : what `cancel_ipc` should do;
* `cancelIpc_detached_iff` : in every run whose calls meet the condition, `cancel_ipc` does what it
  should exactly for the threads that wait neither for a signal nor for a reply;
* `not_cancelIpc_detached` : a thread that waits for a signal stays blocked.
-/

namespace MicroKernel

open DList

/-- From `s` to `s'`, the thread `t` has left all queues, and nothing else has changed. -/
structure Detached (s : KState) (t : Ptr) (s' : KState) : Prop where
  /-- It is not blocked. -/
  notBlocked : (s'.tcbs t).tcbState.tsType.blocked = false
  /-- It is in no queue. -/
  outside : ∀ o, ¬InQueue s' o t
  /-- Every queue holds the other threads in their order. -/
  queue : ∀ (o : WaitObject) (l : List Ptr), NextChain NULL s.epLinks (o.head s) l →
    NextChain NULL s'.epLinks (o.head s') (l.erase t)
  /-- An object that it has waited at is idle if its queue is empty, and only then. -/
  idle_iff : ∀ o, InQueue s o t → (o.Idle s' ↔ o.head s' = NULL)
  /-- The other objects are as they were. -/
  object : ∀ o, ¬InQueue s o t → o.Same s s'
  /-- The other threads are as they were, up to the links of a queue. -/
  thread : ∀ t' ≠ t, (s'.tcbs t').eraseEP = (s.tcbs t').eraseEP
  /-- Threads that were not in its queue keep their links. -/
  link : ∀ t' ≠ t, (∀ o, InQueue s o t → ¬InQueue s o t') → s'.tcbs t' = s.tcbs t'
  /-- So is everything else. -/
  rest : { s' with
    tcbs := s.tcbs
    endpoints := s.endpoints
    notifications := s.notifications } = s

/-! ### Cancellation -/

namespace QueueInv

variable {P : Packing} {s s' : KState} {Q W : Ptr → List Ptr} {e t : Ptr}

theorem detached_self (h : QueueInv P s Q W)
    (hts : (s.tcbs t).tcbState.tsType.blocked = false) : Detached s t s := by
  obtain ⟨hep, hwaits, -⟩ := (ThreadStateType.blocked_eq_false_iff _).1 hts
  have houtside : ∀ o, ¬InQueue s o t := by
    rintro (e | n) hqueue
    · rw [h.inQueue_endpoint_iff] at hqueue
      rw [(h.ep.waits e t hqueue).onEndpoint] at hep
      cases hep
    · rw [h.inQueue_notification_iff] at hqueue
      exact hwaits ((h.ntfn.mem_iff n t).1 hqueue).1
  refine ⟨hts, houtside, fun o l hl => ?_, fun o hqueue => absurd hqueue (houtside o), ?_,
    fun _ _ => rfl, fun _ _ _ => rfl, rfl⟩
  · have hnot : t ∉ l := fun ht => houtside o (hl.reaches_iff.2 ht)
    rwa [List.erase_of_not_mem hnot]
  · rintro (e | n) -
    · exact rfl
    · exact rfl

theorem detached_dequeue (h : QueueInv P s Q W) (hP : P.KeepsNull) (ht : t ∈ Q e)
    (hdequeue : epDequeue P t e s = some s') : Detached s t (s'.setTsType t .inactive) := by
  have h' : QueueInv P (s'.setTsType t .inactive) _ W := h.dequeue hP ht rfl nofun hdequeue
  obtain ⟨-, hlinks, hendpoints, herase⟩ := epDequeue_spec hdequeue
  have hntfn : s'.notifications = s.notifications := notifications_of_eraseEP herase
  have hnot : ∀ n, t ∉ W n := fun n hmem => h.ntfn.notMem h.ep hmem ht
  have hother : ∀ t' ≠ t, (s'.setTsType t .inactive).tcbs t' = s'.tcbs t' := fun t' ht' =>
    KState.tcbs_setTsType_of_ne _ ht'
  have herased : ∀ t', (s'.tcbs t').eraseEP = (s.tcbs t').eraseEP := fun t' =>
    KState.eq_of_eraseEP herase (fun s => (s.tcbs t').eraseEP) fun _ => rfl
  constructor
  case notBlocked =>
    rw [KState.tcbState_setTsType_self]
    rfl
  case outside =>
    rintro (e' | n) hqueue
    · rw [h'.inQueue_endpoint_iff, h.ep.update_erase ht] at hqueue
      exact (h.ep.repr e').nodup.not_mem_erase hqueue
    · exact hnot n (h'.inQueue_notification_iff.1 hqueue)
  case queue =>
    rintro (e' | n) l hl
    · obtain rfl : l = Q e' := hl.unique (h.ep.repr e').nextChain
      rw [← h.ep.update_erase ht]
      exact (h'.ep.repr e').nextChain
    · obtain rfl : l = W n := hl.unique (h.ntfn.repr n).nextChain
      rw [List.erase_of_not_mem (hnot n)]
      exact (h'.ntfn.repr n).nextChain
  case idle_iff =>
    rintro (e' | n) hqueue
    · exact (h'.ep.idle_iff e').trans (h'.ep.repr e').head_eq_null_iff.symm
    · exact absurd (h.inQueue_notification_iff.1 hqueue) (hnot n)
  case object =>
    rintro (e' | n) hqueue
    · have he : e' ≠ e := fun heq => hqueue (h.inQueue_endpoint_iff.2 (heq ▸ ht))
      change s'.endpoints e' = s.endpoints e'
      rw [hendpoints, Function.update_of_ne he]
    · exact congrFun hntfn n
  case thread =>
    intro t' ht'
    rw [hother t' ht', herased]
  case link =>
    intro t' ht' hqueue
    have hmem : t' ∉ Q e := fun hmem =>
      hqueue _ (h.inQueue_endpoint_iff.2 ht) (h.inQueue_endpoint_iff.2 hmem)
    obtain ⟨hnext, hprev⟩ := (h.ep.repr e).remove_frame hmem ht
    rw [← hlinks] at hnext hprev
    rw [hother t' ht']
    exact Tcb.eq_of_eraseEP (herased t') hnext hprev
  case rest =>
    exact congrArg (fun k : KState =>
      { k with
        tcbs := s.tcbs
        endpoints := s.endpoints
        notifications := s.notifications }) herase

/-- `cancel_ipc` detaches a thread exactly if it waits neither for a signal nor for a reply. -/
theorem cancelIpc_iff (h : QueueInv P s Q W) (hP : P.KeepsNull) (ht : t ≠ NULL) :
    ∃ s', MicroKernel.cancelIpc P t s = some s' ∧
      (Detached s t s' ↔ (s.tcbs t).tcbState.tsType ≠ .blockedOnNotification ∧
        (s.tcbs t).tcbState.tsType ≠ .blockedOnReply) := by
  cases hts : (s.tcbs t).tcbState.tsType with
  | blockedOnSend | blockedOnReceive =>
    have hsome : (epDequeue P t (s.tcbs t).tcbState.blockingObject s).isSome := epDequeue_isSome ht
    obtain ⟨s₁, hdequeue⟩ := Option.isSome_iff_exists.1 hsome
    refine ⟨s₁.setTsType t .inactive, ?_, iff_of_true ?_ (by simp)⟩
    · simp [MicroKernel.cancelIpc, deref, ht, hts, hdequeue]
    · exact h.detached_dequeue hP (h.mem_of_blocked (by simp [hts])) hdequeue
  | blockedOnNotification | blockedOnReply =>
    refine ⟨s, by simp [MicroKernel.cancelIpc, deref, ht, hts],
      iff_of_false (fun hd => ?_) (by simp)⟩
    have hblocked := hd.notBlocked
    rw [hts] at hblocked
    cases hblocked
  | _ =>
    refine ⟨s, by simp [MicroKernel.cancelIpc, deref, ht, hts],
      iff_of_true (h.detached_self (by rw [hts]; rfl)) (by simp)⟩

end QueueInv

/-- In a state that is reached by steps that meet the condition, `cancel_ipc` returns, and detaches
a thread exactly if it waits neither for a signal nor for a reply. -/
theorem cancelIpc_detached_iff {P : Packing} (hP : P.KeepsNull) {m m' : Machine}
    {tr : List (System.Step Machine QueueEvent)} (h₀ : IpcBoot m.kernel) (h₁ : WaitBoot m.kernel)
    (hrun : (queueSystem P).Run m tr m') (hC : ∀ x ∈ tr, Regular P x.pre x.ev) {t : Ptr}
    (ht : t ≠ NULL) :
    ∃ s', cancelIpc P t m'.kernel = some s' ∧
      (Detached m'.kernel t s' ↔
        (m'.kernel.tcbs t).tcbState.tsType ≠ .blockedOnNotification ∧
          (m'.kernel.tcbs t).tcbState.tsType ≠ .blockedOnReply) := by
  have hinv : ∃ Q W, QueueInv P m.kernel Q W := ⟨_, _, h₀.inv, h₁.inv, nofun, nofun⟩
  obtain ⟨⟨Q, W, h⟩, -⟩ := hrun.invariant (I := fun m => ∃ Q W, QueueInv P m.kernel Q W)
    (C := fun x => Regular P x.pre x.ev) hinv
    (fun x hstep hx ⟨_, _, h⟩ => h.step hP hstep hx) hC
  exact h.cancelIpc_iff hP ht

theorem bootMachine_waitBoot : WaitBoot bootMachine.kernel where
  notification n := by
    have h := notifications_of_eraseSched eraseSched_bootKernel
    rw [storedQueue, bootMachine, h]
    exact ⟨NotificationState.noConfusion, rfl⟩
  notBlocked t := by
    have h := threadView_of_eraseSched eraseSched_bootKernel
    rw [bootMachine, h]
    exact ThreadStateType.noConfusion

/-- The thread is dispatched and blocks in `send`. -/
def sentFirst : List QueueEvent := firstSend.map .ipc

theorem sentFirst_possible :
    System.possible (Machine.queueStep .recoverable) bootMachine sentFirst = true := by
  decide +kernel

theorem sentFirst_regular :
    ∀ x ∈ System.trace (Machine.queueStep .recoverable) bootMachine sentFirst,
      Regular .recoverable x.pre x.ev := by
  simp only [sentFirst, firstSend, List.map, System.trace, List.mem_cons, List.not_mem_nil,
    or_false, forall_eq_or_imp, forall_eq]
  refine ⟨trivial, fun _ _ _ => ⟨rfl, ?_, rfl, rfl⟩⟩
  decide +kernel

/-- The theorem for this thread, which `cancel_ipc` detaches. -/
theorem cancelIpc_detached_iff_sent : ∃ s', cancelIpc .recoverable 0x1C00
      (System.final (Machine.queueStep .recoverable) bootMachine sentFirst).kernel = some s' ∧
    Detached (System.final (Machine.queueStep .recoverable) bootMachine sentFirst).kernel 0x1C00
      s' := by
  obtain ⟨s', hcancel, hiff⟩ := cancelIpc_detached_iff ⟨rfl, rfl, rfl⟩ bootMachine_ipcBoot
    bootMachine_waitBoot (System.Run.of_possible sentFirst_possible) sentFirst_regular
    (show (0x1C00 : Ptr) ≠ NULL by decide)
  exact ⟨s', hcancel, hiff.2 (by decide +kernel)⟩

/-- A thread blocks until there is a signal. -/
def signalAwaited : List QueueEvent :=
  [.receiveSignal Undef.benign 0x1C00 (createObject ⟨0, 0, 0⟩ .notification 0x2000 0 false) true]

theorem signalAwaited_possible :
    System.possible (Machine.queueStep .bitFields) bootMachine signalAwaited = true := by
  decide +kernel

/-- The kernel after this call. -/
def signalAwaitedKernel : KState :=
  (System.final (Machine.queueStep .bitFields) bootMachine signalAwaited).kernel

/-- A thread that waits for a signal stays blocked. -/
theorem not_cancelIpc_detached :
    ¬∀ (m m' : Machine) (tr : List (System.Step Machine QueueEvent)), IpcBoot m.kernel →
      WaitBoot m.kernel → (queueSystem .bitFields).Run m tr m' → ∀ t ≠ NULL,
        ∃ s', cancelIpc .bitFields t m'.kernel = some s' ∧ Detached m'.kernel t s' := by
  intro hall
  have hdetached : ∃ s', cancelIpc .bitFields 0x1C00 signalAwaitedKernel = some s' ∧
      Detached signalAwaitedKernel 0x1C00 s' :=
    hall _ _ _ bootMachine_ipcBoot bootMachine_waitBoot
      (System.Run.of_possible signalAwaited_possible) 0x1C00 (by decide)
  obtain ⟨s', hcancel, hdetached⟩ := hdetached
  have hts : (signalAwaitedKernel.tcbs 0x1C00).tcbState.tsType = .blockedOnNotification := by
    decide +kernel
  have hself : s' = signalAwaitedKernel := by
    obtain ⟨hblocked, -⟩ | h := cancelIpc_cases hcancel
    · rw [hts] at hblocked
      rcases hblocked with hblocked | hblocked <;> cases hblocked
    · exact h
  have hblocked := hdetached.notBlocked
  rw [hself, hts] at hblocked
  cases hblocked

end MicroKernel
