import MicroKernel.Ipc.Notification
import MicroKernel.System.Run

/-!
# The queues of notifications

Threads that wait for a signal stand in the queue of a notification.  `ntfn_ptr_get_queue` reads the
tail of the queue as its head, and leaves its end unset.

* `WaitInv s W` : the invariant: the notification `n` stores the queue of the threads `W n`, which
  are the threads that wait for it;
* `WaitInv.append`, `WaitInv.remove`, `WaitInv.clear` : what the operations on a queue do to it;
* `waitSystem_kept_iff` : the calls of a run keep the queues and wake threads in order exactly if
  every call that reads a queue finds at most one thread in it, and the right end, no thread blocks
  again while it waits, and only threads that wait are taken out of a queue (or others whose links
  happen to do no harm);
* `not_waitSystem_kept` : of two threads that wait, the second is woken first.
-/

namespace MicroKernel

open DList

/-- The queue that a notification stores. -/
def storedQueue (n : Ptr) (s : KState) : TcbQueue :=
  ⟨(s.notifications n).ntfnQueueHead, (s.notifications n).ntfnQueueTail⟩

/-- The invariant: the queues hold the threads `W`, in the order in which they have blocked. -/
structure WaitInv (s : KState) (W : Ptr → List Ptr) : Prop where
  /-- Head and tail delimit the queue. -/
  repr : ∀ n, Repr NULL s.epLinks (storedQueue n s) (W n)
  /-- A notification is waiting if its queue is not empty, and only then. -/
  waiting_iff : ∀ n, (s.notifications n).state = .waiting ↔ W n ≠ []
  /-- The queue holds the threads that wait. -/
  mem_iff : ∀ n t, t ∈ W n ↔ WaitsFor .recoverable s n t

namespace WaitInv

variable {s s' : KState} {W : Ptr → List Ptr} {n n' t : Ptr}

theorem disjoint (h : WaitInv s W) (ht : t ∈ W n) (ht' : t ∈ W n') : n = n' :=
  ((h.mem_iff n t).1 ht).2.symm.trans ((h.mem_iff n' t).1 ht').2

theorem congr (h : WaitInv s W) (hlinks : s'.epLinks = s.epLinks)
    (hqueue : ∀ n, storedQueue n s' = storedQueue n s)
    (hstate : ∀ n, (s'.notifications n).state = .waiting ↔ (s.notifications n).state = .waiting)
    (hwaits : ∀ n t, WaitsFor .recoverable s' n t ↔ WaitsFor .recoverable s n t) :
    WaitInv s' W where
  repr n := by
    rw [hlinks, hqueue]
    exact h.repr n
  waiting_iff n := (hstate n).trans (h.waiting_iff n)
  mem_iff n t := (h.mem_iff n t).trans (hwaits n t).symm

/-- A thread that waits for nothing blocks on `n`. -/
theorem append (h : WaitInv s W) (hne : t ≠ NULL)
    (ht : (s.threadView t).tsType ≠ .blockedOnNotification)
    (hlinks : s'.epLinks = (pushBack NULL t s.epLinks (storedQueue n s)).1)
    (hntfn : s'.notifications = Function.update s.notifications n
      { s.notifications n with
        ntfnQueueHead := (pushBack NULL t s.epLinks (storedQueue n s)).2.head
        ntfnQueueTail := (pushBack NULL t s.epLinks (storedQueue n s)).2.tail
        state := .waiting })
    (hview : s'.threadView = Function.update s.threadView t
      { s.threadView t with tsType := .blockedOnNotification, blockingObject := n }) :
    WaitInv s' (Function.update W n (W n ++ [t])) := by
  have hnot : ∀ n', t ∉ W n' := fun n' hmem => ht ((h.mem_iff n' t).1 hmem).1
  have hself := congrFun hntfn n
  rw [Function.update_self] at hself
  have hother : ∀ n' ≠ n, s'.notifications n' = s.notifications n' := fun n' hn => by
    rw [hntfn, Function.update_of_ne hn]
  refine ⟨fun n' => ?_, fun n' => ?_, fun n' t' => ?_⟩
  · refine Repr.update (fun n => storedQueue n s) (fun n => storedQueue n s') h.repr ?_
      (fun n' hn => ?_) (fun n' hn y hy => ?_) n'
    · rw [storedQueue, hself, hlinks]
      exact (h.repr n).pushBack (hnot n) hne
    · rw [storedQueue, hother n' hn, storedQueue]
    · rw [hlinks]
      exact (h.repr n).pushBack_frame (fun hy' => hn (h.disjoint hy hy'))
        fun heq => hnot n' (heq ▸ hy)
  · by_cases hn : n' = n
    · subst hn
      simp [hself]
    · rw [hother n' hn, Function.update_of_ne hn]
      exact h.waiting_iff n'
  · by_cases ht' : t' = t
    · subst ht'
      rw [WaitsFor, hview, Function.update_self]
      by_cases hn : n' = n
      · subst hn
        simp [Packing.recoverable]
      · simp [hn, hnot n', Ne.symm hn, Packing.recoverable]
    · have hwaits : WaitsFor .recoverable s' n' t' ↔ WaitsFor .recoverable s n' t' := by
        rw [WaitsFor, hview, Function.update_of_ne ht', WaitsFor]
      rw [hwaits, ← h.mem_iff]
      by_cases hn : n' = n
      · subst hn
        simp [ht']
      · rw [Function.update_of_ne hn]

/-- A thread leaves the queue of `n` and goes on to another state. -/
theorem remove (h : WaitInv s W) (ht : t ∈ W n)
    (hlinks : s'.epLinks = (DList.remove NULL t s.epLinks (storedQueue n s)).1)
    (hntfn : s'.notifications = Function.update s.notifications n
      { s.notifications n with
        ntfnQueueHead := (DList.remove NULL t s.epLinks (storedQueue n s)).2.head
        ntfnQueueTail := (DList.remove NULL t s.epLinks (storedQueue n s)).2.tail
        state := if (DList.remove NULL t s.epLinks (storedQueue n s)).2.head = NULL then .idle
          else (s.notifications n).state })
    (hself : (s'.threadView t).tsType ≠ .blockedOnNotification)
    (hview : ∀ t' ≠ t, s'.threadView t' = s.threadView t') :
    WaitInv s' (Function.update W n ((W n).erase t)) := by
  have hrepr := (h.repr n).remove ht
  have hself' := congrFun hntfn n
  rw [Function.update_self] at hself'
  have hother : ∀ n' ≠ n, s'.notifications n' = s.notifications n' := fun n' hn => by
    rw [hntfn, Function.update_of_ne hn]
  refine ⟨fun n' => ?_, fun n' => ?_, fun n' t' => ?_⟩
  · refine Repr.update (fun n => storedQueue n s) (fun n => storedQueue n s') h.repr ?_
      (fun n' hn => ?_) (fun n' hn y hy => ?_) n'
    · rw [storedQueue, hself', hlinks]
      exact hrepr
    · rw [storedQueue, hother n' hn, storedQueue]
    · rw [hlinks]
      exact (h.repr n).remove_frame (fun hy' => hn (h.disjoint hy hy')) ht
  · by_cases hn : n' = n
    · subst hn
      rw [hself', Function.update_self, Ne, ← hrepr.head_eq_null_iff]
      dsimp only
      split_ifs with hhead
      · simp [hhead]
      · exact iff_of_true ((h.waiting_iff n').2 (List.ne_nil_of_mem ht)) hhead
    · rw [hother n' hn, Function.update_of_ne hn]
      exact h.waiting_iff n'
  · by_cases ht' : t' = t
    · subst ht'
      refine iff_of_false (fun hmem => ?_) fun hwaits => hself hwaits.1
      by_cases hn : n' = n
      · subst hn
        rw [Function.update_self] at hmem
        exact (h.repr n').nodup.not_mem_erase hmem
      · rw [Function.update_of_ne hn] at hmem
        exact hn (h.disjoint hmem ht)
    · have hwaits : WaitsFor .recoverable s' n' t' ↔ WaitsFor .recoverable s n' t' := by
        rw [WaitsFor, hview t' ht', WaitsFor]
      rw [hwaits, ← h.mem_iff]
      by_cases hn : n' = n
      · subst hn
        rw [Function.update_self, List.mem_erase_of_ne ht']
      · rw [Function.update_of_ne hn]

/-- All threads leave the queue of `n` and go on. -/
theorem clear (h : WaitInv s W) (hlinks : s'.epLinks = s.epLinks)
    (hntfn : s'.notifications = Function.update s.notifications n
      { s.notifications n with state := .idle, ntfnQueueHead := 0, ntfnQueueTail := 0 })
    (hview : ∀ t, s'.threadView t =
      if t ∈ W n then { s.threadView t with tsType := .restart } else s.threadView t) :
    WaitInv s' (Function.update W n []) := by
  have hself := congrFun hntfn n
  rw [Function.update_self] at hself
  have hother : ∀ n' ≠ n, s'.notifications n' = s.notifications n' := fun n' hn => by
    rw [hntfn, Function.update_of_ne hn]
  refine ⟨fun n' => ?_, fun n' => ?_, fun n' t => ?_⟩
  · refine Repr.update (fun n => storedQueue n s) (fun n => storedQueue n s') h.repr ?_
      (fun n' hn => ?_) (fun n' hn y hy => ?_) n'
    · rw [storedQueue, hself]
      exact .nil
    · rw [storedQueue, hother n' hn, storedQueue]
    · rw [hlinks]
      exact ⟨rfl, rfl⟩
  · by_cases hn : n' = n
    · subst hn
      simp [hself]
    · rw [hother n' hn, Function.update_of_ne hn]
      exact h.waiting_iff n'
  · have hwaits : WaitsFor .recoverable s' n' t ↔ t ∉ W n ∧ WaitsFor .recoverable s n' t := by
      rw [WaitsFor, hview, WaitsFor]
      by_cases ht : t ∈ W n <;> simp [ht]
    rw [hwaits, ← h.mem_iff]
    by_cases hn : n' = n
    · subst hn
      simp
    · rw [Function.update_of_ne hn]
      exact ⟨fun ht => ⟨fun ht' => hn (h.disjoint ht ht'), ht⟩, And.right⟩

/-- The queue that is read is the stored one exactly if it has at most one thread and what is left
unset is its tail. -/
theorem read_iff (h : WaitInv s W) (u : Undef) (n : Ptr) :
    ntfnPtrGetQueue u n s = storedQueue n s ↔
      (W n).length ≤ 1 ∧ u.ntfnQueueEnd = (storedQueue n s).tail := by
  rw [← (h.repr n).tail_eq_head_iff]
  constructor
  · intro heq
    exact ⟨congrArg Queue.head heq, congrArg Queue.tail heq⟩
  · rintro ⟨hhead, htail⟩
    exact congrArg₂ Queue.mk hhead htail

/-! ### Calls that read the stored queue -/

variable {u : Undef} {badge : U64}

theorem receive {cap : Cap} (h : WaitInv s W) (hu : u.tcbEpAppend = id)
    (ht : (s.threadView t).tsType ≠ .blockedOnNotification)
    (hstate : (s.notifications (ntfnAddr .recoverable cap)).state ≠ .active)
    (hread : ntfnPtrGetQueue u (ntfnAddr .recoverable cap) s =
      storedQueue (ntfnAddr .recoverable cap) s)
    (hcall : receiveSignal .recoverable u t cap true s = some s') :
    WaitInv s' (Function.update W (ntfnAddr .recoverable cap)
      (W (ntfnAddr .recoverable cap) ++ [t])) := by
  obtain ⟨hne, hlinks, hntfn, hview⟩ := receiveSignal_block hstate hcall
  rw [hread] at hlinks hntfn
  rw [hu] at hntfn
  exact h.append hne ht hlinks hntfn hview

theorem not_receive_again {cap : Cap} (h : WaitInv s W)
    (ht : (s.threadView t).tsType = .blockedOnNotification)
    (hstate : (s.notifications (ntfnAddr .recoverable cap)).state ≠ .active)
    (hcall : receiveSignal .recoverable u t cap true s = some s') :
    ¬WaitInv s' (Function.update W (ntfnAddr .recoverable cap)
      (W (ntfnAddr .recoverable cap) ++ [t])) := by
  intro h'
  obtain ⟨-, -, -, hview⟩ := receiveSignal_block hstate hcall
  have hmem : t ∈ W (s.threadView t).blockingObject := (h.mem_iff _ t).2 ⟨ht, rfl⟩
  rcases eq_or_ne (s.threadView t).blockingObject (ntfnAddr .recoverable cap) with heq | hne
  · -- it would be in the queue twice
    have hnodup := (h'.repr (ntfnAddr .recoverable cap)).nodup
    rw [Function.update_self] at hnodup
    exact (List.nodup_append.1 hnodup).2.2 t (heq ▸ hmem) t List.mem_cons_self rfl
  · -- it would be in the queue of a notification that it does not wait for
    have hwaits := (h'.mem_iff (s.threadView t).blockingObject t).1
      (by rwa [Function.update_of_ne hne])
    rw [WaitsFor, hview, Function.update_self] at hwaits
    exact hne hwaits.2.symm

theorem receive_active {cap : Cap} (h : WaitInv s W)
    (hstate : (s.notifications (ntfnAddr .recoverable cap)).state = .active)
    (hcall : receiveSignal .recoverable u t cap true s = some s') : WaitInv s' W := by
  rw [receiveSignal_active hstate hcall]
  refine h.congr ?_ (fun _ => rfl) (fun _ => Iff.rfl) fun n t' => ?_
  · rw [KState.setRegister]
    exact KState.epLinks_modTcb _ (by exact fun _ => rfl) (by exact fun _ => rfl)
  · rw [WaitsFor, threadView_setRegister, WaitsFor]
    by_cases ht' : t' = t
    · subst ht'
      rw [Function.update_self]
    · rw [Function.update_of_ne ht']

/-- A signal finds a thread that waits, and wakes the first one. -/
theorem send (h : WaitInv s W) (hstate : (s.notifications n).state ≠ .active)
    (hread : ntfnPtrGetQueue u n s = storedQueue n s)
    (hcall : sendSignal .recoverable u n badge s = some s') :
    ∃ t l, W n = t :: l ∧ WaitInv s' (Function.update W n l) ∧
      (s'.threadView t).tsType = .running := by
  have hwaiting : (s.notifications n).state = .waiting := by
    cases hs : (s.notifications n).state with
    | waiting => rfl
    | active => exact absurd hs hstate
    | idle =>
      -- the call has run into the empty queue
      have hnil : W n = [] := by
        by_contra hne
        rw [(h.waiting_iff n).2 hne] at hs
        cases hs
      have htail : (s.notifications n).ntfnQueueTail = NULL := by
        have htail := (h.repr n).tail_eq
        rwa [hnil] at htail
      rw [sendSignal_idle hs htail] at hcall
      cases hcall
  obtain ⟨t, l, hW⟩ := List.exists_cons_of_ne_nil ((h.waiting_iff n).1 hwaiting)
  have hhead : (storedQueue n s).head = t := by
    rw [(h.repr n).head_eq, hW]
    rfl
  rw [sendSignal_waiting hwaiting] at hcall
  obtain ⟨-, hlinks, hntfn, hview⟩ := wakeWaiter_spec hcall
  rw [hread, hhead] at hlinks hntfn hview
  have hself : (s'.threadView t).tsType = .running := by rw [hview, Function.update_self]
  have hl : (W n).erase t = l := by rw [hW, List.erase_cons_head]
  refine ⟨t, l, hW, hl ▸ ?_, hself⟩
  refine h.remove (hW ▸ List.mem_cons_self) hlinks hntfn (by rw [hself]; nofun) fun t' ht' => ?_
  rw [hview, Function.update_of_ne ht']

theorem send_active (h : WaitInv s W) (hstate : (s.notifications n).state = .active)
    (hcall : sendSignal .recoverable u n badge s = some s') : WaitInv s' W := by
  rw [sendSignal_active hstate] at hcall
  rw [← Option.some.inj hcall]
  refine h.congr rfl (fun n' => ?_) (fun n' => ?_) fun _ _ => Iff.rfl
  all_goals
    by_cases hn : n' = n
    · subst hn
      simp [storedQueue, KState.modNotification]
    · simp [storedQueue, KState.modNotification, hn]

theorem cancel (h : WaitInv s W) (ht : WaitsFor .recoverable s n t)
    (hread : ntfnPtrGetQueue u n s = storedQueue n s)
    (hcall : cancelSignal .recoverable u t n s = some s') :
    WaitInv s' (Function.update W n ((W n).erase t)) := by
  obtain ⟨hlinks, hntfn, hview⟩ := cancelSignal_spec hcall
  rw [hread] at hlinks hntfn
  refine h.remove ((h.mem_iff n t).2 ht) hlinks hntfn ?_ fun t' ht' => ?_
  · rw [hview, Function.update_self]
    nofun
  · rw [hview, Function.update_of_ne ht']

theorem cancel_of_not_mem (ht : t ∉ W n) (hread : ntfnPtrGetQueue u n s = storedQueue n s)
    (hrepr : ∀ m, Repr NULL s.epLinks (storedQueue m s) (W m))
    (hcall : cancelSignal .recoverable u t n s = some s') :
    (∀ m, Repr NULL s'.epLinks (storedQueue m s') (W m)) ↔
      Detachable NULL s.epLinks (storedQueue n s) {y | ∃ m, y ∈ W m} t := by
  obtain ⟨hlinks, hntfn, -⟩ := cancelSignal_spec hcall
  rw [hread] at hlinks hntfn
  have hqueue : (fun m => storedQueue m s') = (fun m => storedQueue m s) ↔
      (DList.remove NULL t s.epLinks (storedQueue n s)).2 = storedQueue n s := by
    have hself : storedQueue n s' = (DList.remove NULL t s.epLinks (storedQueue n s)).2 := by
      rw [storedQueue, hntfn, Function.update_self]
      rfl
    refine ⟨fun heq => hself ▸ congrFun heq n, fun heq => funext fun m => ?_⟩
    rcases eq_or_ne m n with rfl | hm
    · rw [hself, heq]
    · rw [storedQueue, hntfn, Function.update_of_ne hm, storedQueue]
  have hkept : (∀ m, Repr NULL s'.epLinks (storedQueue m s') (W m)) ↔
      (fun m => storedQueue m s') = (fun m => storedQueue m s) ∧ ∀ m, ∀ y ∈ W m,
        s'.epLinks.next y = s.epLinks.next y ∧ s'.epLinks.prev y = s.epLinks.prev y :=
    Repr.forall_iff hrepr
  rw [hkept, hqueue, detachable_iff, ← hlinks]
  refine and_congr_right fun _ => ⟨?_, fun h m y hy => h y ⟨m, hy⟩⟩
  rintro h y ⟨m, hy⟩
  exact h m y hy

/-- Taking out a thread that does not wait for `n` keeps the invariant exactly if the thread waits
for no notification at all and its links do no harm. -/
theorem cancel_iff (h : WaitInv s W) (ht : ¬WaitsFor .recoverable s n t)
    (hread : ntfnPtrGetQueue u n s = storedQueue n s)
    (hcall : cancelSignal .recoverable u t n s = some s') :
    WaitInv s' W ↔ (s.threadView t).tsType ≠ .blockedOnNotification ∧
      Detachable NULL s.epLinks (storedQueue n s) {y | ∃ m, y ∈ W m} t := by
  have hmem : t ∉ W n := fun hmem => ht ((h.mem_iff n t).1 hmem)
  have hrepr := cancel_of_not_mem hmem hread h.repr hcall
  obtain ⟨-, hntfn, hview⟩ := cancelSignal_spec hcall
  rw [hread] at hntfn
  constructor
  · intro h'
    refine ⟨fun hblocked => ?_, hrepr.1 h'.repr⟩
    have hwaits := (h'.mem_iff _ t).1 ((h.mem_iff _ t).2 ⟨hblocked, rfl⟩)
    rw [WaitsFor, hview, Function.update_self] at hwaits
    cases hwaits.1
  · rintro ⟨hblocked, hdetach⟩
    refine ⟨hrepr.2 hdetach, fun m => ?_, fun m t' => ?_⟩
    · rcases eq_or_ne m n with rfl | hm
      · rw [hntfn, Function.update_self, (detachable_iff.1 hdetach).1]
        dsimp only
        split_ifs with hhead
        · exact iff_of_false nofun (not_not.2 ((h.repr m).head_eq_null_iff.1 hhead))
        · exact h.waiting_iff m
      · rw [hntfn, Function.update_of_ne hm]
        exact h.waiting_iff m
    · rw [h.mem_iff, WaitsFor, WaitsFor, hview]
      rcases eq_or_ne t' t with rfl | ht'
      · rw [Function.update_self]
        exact iff_of_false (fun hwaits => hblocked hwaits.1) nofun
      · rw [Function.update_of_ne ht']

theorem cancelAll (h : WaitInv s W) (hcall : cancelAllSignals n s = some s') :
    WaitInv s' (Function.update W n []) := by
  by_cases hstate : (s.notifications n).state = .waiting
  · obtain ⟨hlinks, hntfn, hview⟩ := cancelAllSignals_spec hstate (h.repr n).nextChain hcall
    exact h.clear hlinks hntfn hview
  · have hnil : W n = [] := not_not.1 fun hne => hstate ((h.waiting_iff n).2 hne)
    rw [cancelAllSignals, if_neg hstate] at hcall
    rw [← Option.some.inj hcall, ← hnil, Function.update_eq_self]
    exact h

end WaitInv

/-! ### Runs -/

/-- The calls that use the queue of a notification. -/
inductive WaitEvent where
  /-- A thread calls `receive_signal`, and blocks if there is no signal. -/
  | receive (u : Undef) (thread : Ptr) (cap : Cap)
  /-- `send_signal`. -/
  | send (u : Undef) (n : Ptr) (badge : U64)
  /-- `cancel_signal`. -/
  | cancel (u : Undef) (t n : Ptr)
  /-- `cancel_allSignals`. -/
  | cancelAll (n : Ptr)

/-- The kernel, and for each notification the threads that wait, in the order in which they have
blocked. -/
structure Waiters where
  /-- The state of the kernel. -/
  kernel : KState
  /-- The threads that wait. -/
  waiting : Ptr → List Ptr

namespace Waiters

/-- A call, and what it is to do with the threads that wait. -/
def step (P : Packing) (w : Waiters) : WaitEvent → Option Waiters
  | .receive u thread cap =>
    let n := ntfnAddr P cap
    (receiveSignal P u thread cap true w.kernel).map fun k =>
      ⟨k, if (w.kernel.notifications n).state = .active then w.waiting
        else Function.update w.waiting n (w.waiting n ++ [thread])⟩
  | .send u n badge =>
    (sendSignal P u n badge w.kernel).map fun k =>
      ⟨k, if (w.kernel.notifications n).state = .active then w.waiting
        else Function.update w.waiting n (w.waiting n).tail⟩
  | .cancel u t n =>
    (cancelSignal P u t n w.kernel).map fun k =>
      ⟨k, Function.update w.waiting n ((w.waiting n).erase t)⟩
  | .cancelAll n =>
    (cancelAllSignals n w.kernel).map fun k => ⟨k, Function.update w.waiting n []⟩

end Waiters

namespace WaitEvent

/-- `tcb_ep_append` returns the queue that it has built. -/
def AppendReturns : WaitEvent → Prop
  | receive u _ _ => u.tcbEpAppend = id
  | _ => True

/-- No thread blocks that waits already.  A thread that is taken out of the queue of `n` waits for
`n`, or it waits for nothing and has links that do no harm. -/
def Proper (w : Waiters) : WaitEvent → Prop
  | receive _ thread cap =>
    (w.kernel.notifications (ntfnAddr .recoverable cap)).state = .active ∨
      (w.kernel.threadView thread).tsType ≠ .blockedOnNotification
  | cancel _ t n =>
    WaitsFor .recoverable w.kernel n t ∨
      (w.kernel.threadView t).tsType ≠ .blockedOnNotification ∧
        Detachable NULL w.kernel.epLinks (storedQueue n w.kernel) {y | ∃ m, y ∈ w.waiting m} t
  | _ => True

/-- The call of `ntfn_ptr_get_queue` that is part of a call. -/
def getsQueue (P : Packing) (s : KState) : WaitEvent → Option (Undef × Ptr)
  | receive u _ cap =>
    if (s.notifications (ntfnAddr P cap)).state = .active then none else some (u, ntfnAddr P cap)
  | send u n _ => if (s.notifications n).state = .active then none else some (u, n)
  | cancel u _ n => some (u, n)
  | cancelAll _ => none

end WaitEvent

/-- The system of these calls, where references can be recovered from their bit fields. -/
def waitSystem : System Waiters WaitEvent := System.ofStep (Waiters.step Packing.recoverable)

/-- A call reads the queue that the notification stores, keeps the queues, and wakes the thread that
has waited longest. -/
structure Kept (x : System.Step Waiters WaitEvent) : Prop where
  /-- `ntfn_ptr_get_queue` returns what `ntfn_ptr_set_queue` has stored. -/
  reads : ∀ y ∈ x.ev.getsQueue .recoverable x.pre.kernel,
    ntfnPtrGetQueue y.1 y.2 x.pre.kernel = storedQueue y.2 x.pre.kernel
  /-- The queues are well formed and hold the threads that wait. -/
  inv : WaitInv x.post.kernel x.post.waiting
  /-- A signal wakes the first thread. -/
  wakes : ∀ u n badge t l, x.ev = .send u n badge → x.pre.waiting n = t :: l →
    (x.post.kernel.threadView t).tsType = .running

/-- The condition on a call: if it reads a queue, then this has at most one thread, and what is left
unset happens to be its tail. -/
def ReadsShort (x : System.Step Waiters WaitEvent) : Prop :=
  ∀ y ∈ x.ev.getsQueue .recoverable x.pre.kernel,
    (x.pre.waiting y.2).length ≤ 1 ∧ y.1.ntfnQueueEnd = (storedQueue y.2 x.pre.kernel).tail

/-- The kernel before the first of these calls: no thread waits. -/
structure WaitBoot (s : KState) : Prop where
  /-- The notifications. -/
  notification : ∀ n, (s.notifications n).state ≠ .waiting ∧ storedQueue n s = ⟨NULL, NULL⟩
  /-- The threads. -/
  notBlocked : ∀ t, (s.threadView t).tsType ≠ .blockedOnNotification

theorem WaitBoot.inv {s : KState} (h : WaitBoot s) : WaitInv s fun _ => [] where
  repr n := by
    rw [(h.notification n).2]
    exact .nil
  waiting_iff n := iff_of_false (h.notification n).1 fun hne => hne rfl
  mem_iff n t := iff_of_false List.not_mem_nil fun hwaits => h.notBlocked t hwaits.1

section Runs

variable {w w' : Waiters}

/-- A call that reads the stored queue keeps the queues, and wakes the thread that has waited
longest, exactly if it is proper. -/
theorem WaitInv.kept_iff_proper {ev : WaitEvent} (h : WaitInv w.kernel w.waiting)
    (hstep : waitSystem.step w ev w') (happend : ev.AppendReturns)
    (hread : ∀ y ∈ ev.getsQueue .recoverable w.kernel,
      ntfnPtrGetQueue y.1 y.2 w.kernel = storedQueue y.2 w.kernel) :
    Kept ⟨w, ev, w'⟩ ↔ ev.Proper w := by
  cases ev with
  | receive u thread cap =>
    obtain ⟨k, hcall, rfl⟩ := Option.map_eq_some_iff.1 hstep
    by_cases hactive : (w.kernel.notifications (ntfnAddr .recoverable cap)).state = .active
    · simp only [if_pos hactive]
      exact iff_of_true ⟨hread, h.receive_active hactive hcall, nofun⟩ (Or.inl hactive)
    · have hread' := hread
      simp only [WaitEvent.getsQueue, if_neg hactive, Option.mem_some_iff, forall_eq'] at hread'
      simp only [if_neg hactive]
      constructor
      · intro hkept
        exact Or.inr fun hblocked => h.not_receive_again hblocked hactive hcall hkept.inv
      · intro hproper
        have hblocked := hproper.resolve_left hactive
        exact ⟨hread, h.receive happend hblocked hactive hread' hcall, nofun⟩
  | send u n badge =>
    obtain ⟨k, hcall, rfl⟩ := Option.map_eq_some_iff.1 hstep
    refine iff_of_true ?_ trivial
    by_cases hactive : (w.kernel.notifications n).state = .active
    · simp only [if_pos hactive]
      refine ⟨hread, h.send_active hactive hcall, ?_⟩
      rintro u n badge t l ⟨⟩ hW
      -- an active notification has no queue
      have hne : w.waiting n ≠ [] := by
        rw [hW]
        exact List.cons_ne_nil t l
      rw [(h.waiting_iff n).2 hne] at hactive
      cases hactive
    · have hread' := hread
      simp only [WaitEvent.getsQueue, if_neg hactive, Option.mem_some_iff, forall_eq'] at hread'
      obtain ⟨t, l, hW, hinv, hwoken⟩ := h.send hactive hread' hcall
      simp only [if_neg hactive, hW, List.tail_cons]
      refine ⟨hread, hinv, ?_⟩
      rintro u n badge t' l' ⟨⟩ hW'
      obtain ⟨rfl, rfl⟩ := List.cons.inj (hW.symm.trans hW')
      exact hwoken
  | cancel u t n =>
    obtain ⟨k, hcall, rfl⟩ := Option.map_eq_some_iff.1 hstep
    have hread' := hread
    simp only [WaitEvent.getsQueue, Option.mem_some_iff, forall_eq'] at hread'
    by_cases hwaits : WaitsFor .recoverable w.kernel n t
    · exact iff_of_true ⟨hread, h.cancel hwaits hread' hcall, nofun⟩ (Or.inl hwaits)
    · have hmem : t ∉ w.waiting n := fun hmem => hwaits ((h.mem_iff n t).1 hmem)
      have hsame : Function.update w.waiting n ((w.waiting n).erase t) = w.waiting := by
        rw [List.erase_of_not_mem hmem, Function.update_eq_self]
      have hiff := h.cancel_iff hwaits hread' hcall
      simp only [hsame]
      exact ⟨fun hkept => Or.inr (hiff.1 hkept.inv),
        fun hproper => ⟨hread, hiff.2 (hproper.resolve_left hwaits), nofun⟩⟩
  | cancelAll n =>
    obtain ⟨k, hcall, rfl⟩ := Option.map_eq_some_iff.1 hstep
    exact iff_of_true ⟨hread, h.cancelAll hcall, nofun⟩ trivial

/-- A call does what it should exactly if it meets the conditions. -/
theorem WaitInv.kept_iff {ev : WaitEvent} (h : WaitInv w.kernel w.waiting)
    (hstep : waitSystem.step w ev w') (happend : ev.AppendReturns) :
    Kept ⟨w, ev, w'⟩ ↔ ReadsShort ⟨w, ev, w'⟩ ∧ ev.Proper w := by
  constructor
  · intro hkept
    exact ⟨fun y hy => (h.read_iff y.1 y.2).1 (hkept.reads y hy),
      (h.kept_iff_proper hstep happend hkept.reads).1 hkept⟩
  · rintro ⟨hshort, hproper⟩
    refine (h.kept_iff_proper hstep happend fun y hy => ?_).2 hproper
    exact (h.read_iff y.1 y.2).2 (hshort y hy)

end Runs

/-- All calls of a run keep the queues and wake threads in order exactly if all that read a queue
find at most one thread in it, and the right end, no thread blocks again while it waits, and threads
that do not wait are only taken out of a queue where this does no harm. -/
theorem waitSystem_kept_iff {s : KState} {w : Waiters} {tr : List (System.Step Waiters WaitEvent)}
    (h₀ : WaitBoot s) (hrun : waitSystem.Run ⟨s, fun _ => []⟩ tr w)
    (happend : ∀ x ∈ tr, x.ev.AppendReturns) :
    (∀ x ∈ tr, Kept x) ↔ ∀ x ∈ tr, ReadsShort x ∧ x.ev.Proper x.pre :=
  (hrun.restrict happend).forall_iff (I := fun w => WaitInv w.kernel w.waiting) h₀.inv
    (fun _ hstep hC h => ((h.kept_iff hstep.1 hstep.2).2 hC).inv)
    fun _ hstep h => h.kept_iff hstep.1 hstep.2

/-! ### Two threads that wait -/

theorem waitBoot_zero : WaitBoot KState.zero where
  notification _ := ⟨nofun, rfl⟩
  notBlocked _ := nofun

/-- The capability for the notification at `0xFFFFFFFF9FEC0000`. -/
def ntfnCap : Cap := createObject ⟨0, 0, 0⟩ .notification 0xFFFFFFFF9FEC0000 0 false

/-- The end of the queue that is left unset happens to be `end`. -/
def endsAt (tail : Ptr) : Undef := { Undef.benign with ntfnQueueEnd := tail }

/-- A thread blocks and is woken, then another one blocks and is taken out. -/
def oneByOne : List WaitEvent :=
  [.receive Undef.benign 0xFFFFFFFF9FEC1400 ntfnCap,
    .send (endsAt 0xFFFFFFFF9FEC1400) 0xFFFFFFFF9FEC0000 1,
    .receive Undef.benign 0xFFFFFFFF9FEC5400 ntfnCap,
    .cancel (endsAt 0xFFFFFFFF9FEC5400) 0xFFFFFFFF9FEC5400 0xFFFFFFFF9FEC0000]

/-- Two threads block, then a signal is sent. -/
def twoWaiters : List WaitEvent :=
  [.receive Undef.benign 0xFFFFFFFF9FEC1400 ntfnCap,
    .receive (endsAt 0xFFFFFFFF9FEC1400) 0xFFFFFFFF9FEC5400 ntfnCap,
    .send (endsAt 0xFFFFFFFF9FEC5400) 0xFFFFFFFF9FEC0000 1]

theorem oneByOne_possible : System.possible (Waiters.step .recoverable)
    ⟨KState.zero, fun _ => []⟩ oneByOne = true := by
  decide +kernel

theorem twoWaiters_possible : System.possible (Waiters.step .recoverable)
    ⟨KState.zero, fun _ => []⟩ twoWaiters = true := by
  decide +kernel

theorem oneByOne_condition : ∀ x ∈ System.trace (Waiters.step .recoverable)
    ⟨KState.zero, fun _ => []⟩ oneByOne,
      x.ev.AppendReturns ∧ ReadsShort x ∧ x.ev.Proper x.pre := by
  simp only [oneByOne, System.trace, List.forall_mem_cons, WaitEvent.Proper, ReadsShort,
    WaitEvent.AppendReturns, WaitEvent.getsQueue, Option.mem_def]
  refine ⟨⟨rfl, ?_, Or.inr nofun⟩, ⟨trivial, ?_, trivial⟩, ⟨rfl, ?_, Or.inr (by decide +kernel)⟩,
    ⟨trivial, ?_, Or.inl ⟨by decide +kernel, by decide +kernel⟩⟩, nofun⟩
  · decide +kernel
  · decide +kernel
  · decide +kernel
  · decide +kernel

theorem twoWaiters_proper : ∀ x ∈ System.trace (Waiters.step .recoverable)
    ⟨KState.zero, fun _ => []⟩ twoWaiters, x.ev.AppendReturns ∧ x.ev.Proper x.pre := by
  simp only [twoWaiters, System.trace, List.forall_mem_cons, WaitEvent.Proper,
    WaitEvent.AppendReturns]
  exact ⟨⟨rfl, Or.inr nofun⟩, ⟨rfl, Or.inr (by decide +kernel)⟩, ⟨trivial, trivial⟩, nofun⟩

/-- Threads that wait one after the other keep the queue. -/
theorem waitSystem_kept_iff_oneByOne :
    (System.trace (Waiters.step .recoverable) ⟨KState.zero, fun _ => []⟩ oneByOne).length = 4 ∧
      ∀ x ∈ System.trace (Waiters.step .recoverable) ⟨KState.zero, fun _ => []⟩ oneByOne, Kept x :=
  ⟨rfl, (waitSystem_kept_iff waitBoot_zero (System.Run.of_possible oneByOne_possible)
    fun x hx => (oneByOne_condition x hx).1).2 fun x hx => (oneByOne_condition x hx).2⟩

/-- The second of two threads is woken first. -/
theorem not_waitSystem_kept :
    ¬∀ (s : KState) (w : Waiters) (tr : List (System.Step Waiters WaitEvent)), WaitBoot s →
      waitSystem.Run ⟨s, fun _ => []⟩ tr w →
      (∀ x ∈ tr, x.ev.AppendReturns ∧ x.ev.Proper x.pre) → ∀ x ∈ tr, Kept x := by
  intro hall
  have hkept := hall _ _ _ waitBoot_zero (System.Run.of_possible twoWaiters_possible)
    twoWaiters_proper
  simp only [twoWaiters, System.trace, List.forall_mem_cons] at hkept
  have hwoken := hkept.2.2.1.wakes _ _ _ 0xFFFFFFFF9FEC1400 [0xFFFFFFFF9FEC5400] rfl
    (by decide +kernel)
  exact absurd hwoken (by decide +kernel)

end MicroKernel
