import MicroKernel.Ipc.Notification
import MicroKernel.System.Run

/-!
# The signals of a notification

The signals that have been sent to a notification since it was last read are pending in its word, if
it is active, or a thread gets them in its badge register.

* `Signalling` : the kernel, and the signals that no thread has got;
* `Accounted` : a call returns, leaves these signals pending and delivers signals to one thread;
* `signalSystem_accounted_iff` : the calls of a run do so exactly if no `send_signal` finds the
  notification idle or takes a thread that does not wait, and no `receive_signal` takes a badge that
  is not zero;
* `not_signalSystem_accounted` : the first signal for an idle notification dereferences `NULL`.
-/

namespace MicroKernel

open DList

/-- All bits of some badges. -/
def allBits (badges : List U64) : U64 := badges.foldr (· ||| ·) 0

theorem allBits_append (l : List U64) (b : U64) : allBits (l ++ [b]) = allBits l ||| b := by
  induction l with
  | nil => simp [allBits]
  | cons a l ih =>
    simp only [allBits, List.cons_append, List.foldr_cons] at ih ⊢
    rw [ih, BitVec.or_assoc]

/-- The bits that wait in a notification for a thread to take them. -/
def pendingBits (n : Ptr) (s : KState) : U64 :=
  if (s.notifications n).state = .active then (s.notifications n).ntfnMsgIdentifier else 0

/-- The kernel, and for each notification the badges that no thread has got. -/
structure Signalling where
  /-- The state of the kernel. -/
  kernel : KState
  /-- The signals since the last one that was delivered. -/
  signals : Ptr → List U64

/-- The calls that send and take signals. -/
inductive SignalEvent where
  /-- `send_signal`. -/
  | send (u : Undef) (n : Ptr) (badge : U64)
  /-- `receive_signal`. -/
  | receive (u : Undef) (thread : Ptr) (cap : Cap) (isBlocking : Bool)
  /-- `complete_signal`. -/
  | complete (n tcb : Ptr)

namespace Signalling

/-- A call, and what it is to do with the signals: `send_signal` delivers them if a thread waits,
`receive_signal` and `complete_signal` do if the notification is active. -/
def step (P : Packing) (c : Signalling) : SignalEvent → Option Signalling
  | .send u n badge =>
    (sendSignal P u n badge c.kernel).map fun k =>
      ⟨k, Function.update c.signals n
        (if (c.kernel.notifications n).state = .waiting then [] else c.signals n ++ [badge])⟩
  | .receive u thread cap isBlocking =>
    let n := ntfnAddr P cap
    (receiveSignal P u thread cap isBlocking c.kernel).map fun k =>
      ⟨k, if (c.kernel.notifications n).state = .active then Function.update c.signals n []
        else c.signals⟩
  | .complete n tcb =>
    some ⟨completeSignal n tcb c.kernel,
      if tcb ≠ NULL ∧ (c.kernel.notifications n).state = .active then Function.update c.signals n []
      else c.signals⟩

end Signalling

/-- The step for a call.  A `send_signal` that faults leads to no state; where another call faults,
a run ends. -/
def signalStep (P : Packing) (o : Option Signalling) (ev : SignalEvent) :
    Option (Option Signalling) :=
  o.bind fun c =>
    match ev with
    | .send _ _ _ => some (c.step P ev)
    | _ => (c.step P ev).map some

/-- The system of these calls. -/
def signalSystem : System (Option Signalling) SignalEvent := .ofStep (signalStep .bitFields)

/-! ### What should hold -/

/-- From `s` to `s'`, the thread `t` gets the badge and no other register changes. -/
def Gets (t : Ptr) (badge : U64) (s s' : KState) : Prop :=
  (s'.threadView · |>.registers) = Function.update (s.threadView · |>.registers) t
    (Function.update (s.threadView t).registers badgeRegister badge)

/-- From `s` to `s'` no register changes. -/
def NoneGets (s s' : KState) : Prop :=
  (s'.threadView · |>.registers) = (s.threadView · |>.registers)

/-- A call delivers all signals to the thread that is to have them, or to none: `send_signal` to a
thread that waits, which goes on, the others to the thread they are called for. -/
def Delivered (P : Packing) (c : Signalling) (s' : KState) : SignalEvent → Prop
  | .send _ n badge =>
    if (c.kernel.notifications n).state = .waiting then
      ∃ t ≠ NULL, WaitsFor P c.kernel n t ∧ (s'.threadView t).tsType = .running ∧
        Gets t (allBits (c.signals n ++ [badge])) c.kernel s'
    else NoneGets c.kernel s'
  | .receive _ thread cap _ =>
    if (c.kernel.notifications (ntfnAddr P cap)).state = .active then
      Gets thread (allBits (c.signals (ntfnAddr P cap))) c.kernel s'
    else NoneGets c.kernel s'
  | .complete n tcb =>
    if tcb ≠ NULL ∧ (c.kernel.notifications n).state = .active then
      Gets tcb (allBits (c.signals n)) c.kernel s'
    else NoneGets c.kernel s'

/-- The signals that no thread has got are pending. -/
def SignalsKept (c : Signalling) : Prop := ∀ n, pendingBits n c.kernel = allBits (c.signals n)

/-- A call returns, keeps the signals that no thread has got pending and delivers signals as it
should. -/
def Accounted (x : System.Step (Option Signalling) SignalEvent) : Prop :=
  ∀ c, x.pre = some c → ∃ c', x.post = some c' ∧ SignalsKept c' ∧
    Delivered .bitFields c c'.kernel x.ev

/-- The condition on a call: `send_signal` finds the notification active, or waiting with a thread
that waits at the address that is stored as the tail of the queue; `receive_signal` finds no bit in
an active notification. -/
def FindsWaiter (c : Signalling) : SignalEvent → Prop
  | .send _ n _ =>
    (c.kernel.notifications n).state = .active ∨ (c.kernel.notifications n).state = .waiting ∧
      (c.kernel.notifications n).ntfnQueueTail ≠ NULL ∧
      WaitsFor .bitFields c.kernel n (c.kernel.notifications n).ntfnQueueTail
  | .receive _ _ cap _ =>
    (c.kernel.notifications (ntfnAddr .bitFields cap)).state = .active →
      (c.kernel.notifications (ntfnAddr .bitFields cap)).ntfnMsgIdentifier = 0
  | .complete _ _ => True

/-- The notifications before the first of these calls: no queue has a thread. -/
def SignalBoot (s : KState) : Prop :=
  ∀ n, (s.notifications n).state ≠ .waiting ∧ (s.notifications n).ntfnQueueTail = NULL

/-- The start: no thread has got the signals that are pending. -/
def signalStart (s : KState) : Signalling where
  kernel := s
  signals n :=
    if (s.notifications n).state = .active then [(s.notifications n).ntfnMsgIdentifier] else []

/-- The invariant: the signals that no thread has got are pending, and the queue of a notification
is empty unless it is waiting. -/
structure SignalInv (c : Signalling) : Prop where
  /-- The signals. -/
  kept : SignalsKept c
  /-- The queues. -/
  tail : ∀ n, (c.kernel.notifications n).state ≠ .waiting →
    (c.kernel.notifications n).ntfnQueueTail = NULL

theorem SignalBoot.inv {s : KState} (h : SignalBoot s) : SignalInv (signalStart s) where
  kept n := by
    by_cases hstate : (s.notifications n).state = .active <;>
      simp [pendingBits, signalStart, hstate, allBits]
  tail n _ := (h n).2

section Steps

variable {c c' : Signalling} {u : Undef} {n t : Ptr} {badge : U64} {s s' : KState}

theorem SignalInv.update {ntfn : Notification} {l : List U64} (h : SignalInv c)
    (hntfn : s'.notifications = Function.update c.kernel.notifications n ntfn)
    (hbits : (if ntfn.state = .active then ntfn.ntfnMsgIdentifier else 0) = allBits l)
    (htail : ntfn.state ≠ .waiting → ntfn.ntfnQueueTail = NULL) :
    SignalInv ⟨s', Function.update c.signals n l⟩ := by
  refine ⟨fun n' => ?_, fun n' => ?_⟩
  · rw [pendingBits, hntfn]
    by_cases hn : n' = n
    · subst hn
      simpa only [Function.update_self] using hbits
    · simp only [Function.update_of_ne hn]
      exact h.kept n'
  · rw [hntfn]
    by_cases hn : n' = n
    · subst hn
      simpa only [Function.update_self] using htail
    · simpa only [Function.update_of_ne hn] using h.tail n'

theorem SignalInv.congr (h : SignalInv c) (hntfn : s'.notifications = c.kernel.notifications) :
    SignalInv ⟨s', c.signals⟩ := by
  refine ⟨fun n => ?_, fun n => ?_⟩
  · rw [pendingBits, hntfn]
    exact h.kept n
  · rw [hntfn]
    exact h.tail n

theorem SignalInv.send_active (h : SignalInv c) (badge : U64)
    (hstate : (c.kernel.notifications n).state = .active) :
    SignalInv ⟨c.kernel.modNotification n fun ntfn =>
        { ntfn with ntfnMsgIdentifier := ntfn.ntfnMsgIdentifier ||| badge },
      Function.update c.signals n (c.signals n ++ [badge])⟩ := by
  have hkept := h.kept n
  rw [pendingBits, if_pos hstate] at hkept
  refine h.update rfl ?_ (h.tail n)
  rw [allBits_append, ← hkept]
  exact if_pos hstate

theorem SignalInv.wake (h : SignalInv c) (hstate : (c.kernel.notifications n).state = .waiting)
    (hcall : wakeWaiter .bitFields u n badge c.kernel = some s') :
    SignalInv ⟨s', Function.update c.signals n []⟩ := by
  obtain ⟨hne, -, hntfn, -⟩ := wakeWaiter_spec hcall
  refine h.update hntfn ?_ ?_
  · dsimp only
    rw [hstate]
    split_ifs <;> first | rfl | contradiction
  · dsimp only
    intro hnot
    by_cases hhead : (remove NULL (ntfnPtrGetQueue u n c.kernel).head c.kernel.epLinks
        (ntfnPtrGetQueue u n c.kernel)).2.head = NULL
    · rw [tail_remove_of_head hne hhead]
      rfl
    · rw [if_neg hhead] at hnot
      exact absurd hstate hnot

theorem SignalInv.complete (h : SignalInv c) (hstate : (c.kernel.notifications n).state = .active)
    (ht : t ≠ NULL) :
    SignalInv ⟨completeSignal n t c.kernel, Function.update c.signals n []⟩ := by
  have hntfn : (completeSignal n t c.kernel).notifications =
    Function.update c.kernel.notifications n
      { c.kernel.notifications n with state := .idle } := by
    rw [completeSignal, if_pos ⟨ht, hstate⟩]
    rfl
  refine h.update hntfn rfl fun _ => h.tail n ?_
  rw [hstate]
  nofun

/-- A thread that takes the signals of an active notification leaves them there, so that there must
not be any. -/
theorem SignalInv.receive_active (h : SignalInv c)
    (hstate : (c.kernel.notifications n).state = .active)
    (hzero : (c.kernel.notifications n).ntfnMsgIdentifier = 0)
    (hntfn : s'.notifications = c.kernel.notifications) :
    SignalInv ⟨s', Function.update c.signals n []⟩ := by
  have hself : s'.notifications =
      Function.update c.kernel.notifications n (c.kernel.notifications n) := by
    rw [hntfn, Function.update_eq_self]
  refine h.update hself ?_ (h.tail n)
  rw [if_pos hstate, hzero]
  rfl

theorem wakeWaiter_isSome {P : Packing} (badge : U64) (hne : (ntfnPtrGetQueue u n s).head ≠ NULL) :
    ∃ s', wakeWaiter P u n badge s = some s' := by
  simp only [wakeWaiter, tcbEpDequeue, deref, if_neg hne, bind, Option.bind_some, pure]
  exact ⟨_, rfl⟩

theorem registers_update (p : Ptr) (v : ThreadView) :
    (Function.update s.threadView p v · |>.registers) =
      Function.update (s.threadView · |>.registers) p v.registers := by
  funext t
  by_cases ht : t = p
  · subst ht
    simp
  · simp [ht]

theorem delivered_wake_iff {P : Packing} (h : pendingBits n c.kernel = allBits (c.signals n))
    (hstate : (c.kernel.notifications n).state = .waiting)
    (hcall : wakeWaiter P u n badge c.kernel = some s') :
    Delivered P c s' (.send u n badge) ↔
      WaitsFor P c.kernel n (c.kernel.notifications n).ntfnQueueTail := by
  obtain ⟨hne, -, -, hview⟩ := wakeWaiter_spec hcall
  change (c.kernel.notifications n).ntfnQueueTail ≠ NULL at hne
  change s'.threadView = Function.update c.kernel.threadView
    (c.kernel.notifications n).ntfnQueueTail
    _ at hview
  rw [Delivered, if_pos hstate]
  constructor
  · rintro ⟨t, -, hwaits, hrunning, -⟩
    by_cases ht : t = (c.kernel.notifications n).ntfnQueueTail
    · exact ht ▸ hwaits
    · -- another thread is still blocked
      rw [hview, Function.update_of_ne ht, hwaits.1] at hrunning
      cases hrunning
  · intro hwaits
    have hbits : allBits (c.signals n ++ [badge]) = badge := by
      rw [allBits_append, ← h, pendingBits, hstate]
      simp
    refine ⟨_, hne, hwaits, by rw [hview, Function.update_self], ?_⟩
    rw [Gets, hview, registers_update, hbits]
    rfl

theorem receiveSignal_noneGets {P : Packing} {cap : Cap} {isBlocking : Bool}
    (hstate : (s.notifications (ntfnAddr P cap)).state ≠ .active)
    (hcall : receiveSignal P u t cap isBlocking s = some s') :
    NoneGets s s' ∧ ∃ ntfn : Notification, ntfn.state ≠ .active ∧
      (ntfn.state ≠ .waiting → ntfn = s.notifications (ntfnAddr P cap)) ∧
      s'.notifications = Function.update s.notifications (ntfnAddr P cap) ntfn := by
  cases isBlocking with
  | true =>
    obtain ⟨-, -, hntfn, hview⟩ := receiveSignal_block hstate hcall
    refine ⟨?_, _, ?_, ?_, hntfn⟩
    · rw [NoneGets, hview, registers_update]
      exact Function.update_eq_self t fun t => (s.threadView t).registers
    · nofun
    · exact fun hnot => absurd rfl hnot
  | false =>
    have hsame : s' = s := by
      cases hs : (s.notifications (ntfnAddr P cap)).state with
      | active => exact absurd hs hstate
      | idle | waiting =>
        simp only [receiveSignal, hs, Bool.false_eq_true, if_false, Option.some.injEq] at hcall
        exact hcall.symm
    rw [hsame]
    exact ⟨rfl, _, hstate, fun _ => rfl, (Function.update_eq_self _ _).symm⟩

/-- `send_signal` accounts for the signals exactly if it meets the condition, and then keeps the
invariant. -/
theorem SignalInv.send_iff (h : SignalInv c) :
    ((∃ c', c.step .bitFields (.send u n badge) = some c' ∧ SignalsKept c' ∧
        Delivered .bitFields c c'.kernel (.send u n badge)) ↔ FindsWaiter c (.send u n badge)) ∧
      (FindsWaiter c (.send u n badge) →
        ∃ c', c.step .bitFields (.send u n badge) = some c' ∧ SignalInv c') := by
  cases hstate : (c.kernel.notifications n).state with
  | idle =>
    have hfault : c.step .bitFields (.send u n badge) = none := by
      have htail := h.tail n (by rw [hstate]; nofun)
      simp only [Signalling.step, sendSignal_idle hstate htail, Option.map_none]
    simp [hfault, FindsWaiter, hstate]
  | active =>
    have hcall : c.step .bitFields (.send u n badge) = some
        ⟨c.kernel.modNotification n fun ntfn =>
            { ntfn with ntfnMsgIdentifier := ntfn.ntfnMsgIdentifier ||| badge },
          Function.update c.signals n (c.signals n ++ [badge])⟩ := by
      simp only [Signalling.step, sendSignal_active hstate, Option.map_some, hstate, reduceCtorEq,
        if_false]
    have hinv := h.send_active badge hstate
    have hcond : FindsWaiter c (.send u n badge) := Or.inl hstate
    refine ⟨iff_of_true ⟨_, hcall, hinv.kept, ?_⟩ hcond, fun _ => ⟨_, hcall, hinv⟩⟩
    rw [Delivered, if_neg (by rw [hstate]; nofun)]
    rfl
  | waiting =>
    have hstep : c.step .bitFields (.send u n badge) =
        (wakeWaiter .bitFields u n badge c.kernel).map fun k =>
          ⟨k, Function.update c.signals n []⟩ := by
      simp only [Signalling.step, sendSignal_waiting hstate, hstate, if_true]
    have hcond : FindsWaiter c (.send u n badge) ↔ (c.kernel.notifications n).ntfnQueueTail ≠ NULL ∧
        WaitsFor .bitFields c.kernel n (c.kernel.notifications n).ntfnQueueTail := by
      simp [FindsWaiter, hstate]
    rw [hcond, hstep]
    by_cases hne : (c.kernel.notifications n).ntfnQueueTail = NULL
    · have hfault : wakeWaiter .bitFields u n badge c.kernel = none := by
        simp [wakeWaiter, ntfnPtrGetQueue, hne, tcbEpDequeue, deref]
      simp [hfault, hne]
    · obtain ⟨k, hcall⟩ := wakeWaiter_isSome (P := .bitFields) (u := u) (n := n) badge
        (s := c.kernel) hne
      have hinv := h.wake hstate hcall
      simp only [hcall, Option.map_some, Option.some.injEq, exists_eq_left', ne_eq, hne,
        not_false_eq_true, true_and, delivered_wake_iff (h.kept n) hstate hcall, hinv.kept]
      exact fun _ => hinv

/-- So does `receive_signal`, if it returns. -/
theorem SignalInv.receive_iff {cap : Cap} {isBlocking : Bool} (h : SignalInv c)
    (hstep : c.step .bitFields (.receive u t cap isBlocking) = some c') :
    (SignalsKept c' ∧ Delivered .bitFields c c'.kernel (.receive u t cap isBlocking) ↔
        FindsWaiter c (.receive u t cap isBlocking)) ∧
      (FindsWaiter c (.receive u t cap isBlocking) → SignalInv c') := by
  obtain ⟨k, hcall, rfl⟩ := Option.map_eq_some_iff.1 hstep
  by_cases hstate : (c.kernel.notifications (ntfnAddr .bitFields cap)).state = .active
  · have hbits := h.kept (ntfnAddr .bitFields cap)
    rw [pendingBits, if_pos hstate] at hbits
    simp only [FindsWaiter, hstate, forall_const, Delivered, if_true]
    have hk := receiveSignal_active hstate hcall
    have hntfn : k.notifications = c.kernel.notifications := by rw [hk]; rfl
    have hgets : Gets t (allBits (c.signals (ntfnAddr .bitFields cap))) c.kernel k := by
      rw [Gets, hk, threadView_setRegister, registers_update, ← hbits]
    refine ⟨⟨fun hkept => ?_, fun hzero => ⟨?_, hgets⟩⟩, fun hzero => ?_⟩
    · -- what has been delivered is still there
      have hleft := hkept.1 (ntfnAddr .bitFields cap)
      simp only [pendingBits, hntfn, if_pos hstate, Function.update_self] at hleft
      exact hleft
    · exact (h.receive_active hstate hzero hntfn).kept
    · exact h.receive_active hstate hzero hntfn
  · have hcond : FindsWaiter c (.receive u t cap isBlocking) := fun hactive => absurd hactive hstate
    obtain ⟨hnone, ntfn, hnot, hsame, hntfn⟩ := receiveSignal_noneGets hstate hcall
    have hinv : SignalInv ⟨k, c.signals⟩ := by
      have hupdate :=
        h.update (l := c.signals (ntfnAddr .bitFields cap)) hntfn ?_ fun hwaiting => ?_
      · rwa [Function.update_eq_self] at hupdate
      · rw [if_neg hnot, ← h.kept, pendingBits, if_neg hstate]
      · have hself := hsame hwaiting
        rw [hself] at hwaiting ⊢
        exact h.tail _ hwaiting
    simp only [if_neg hstate, Delivered]
    exact ⟨iff_of_true ⟨hinv.kept, hnone⟩ hcond, fun _ => hinv⟩

/-- `complete_signal` always accounts for the signals. -/
theorem SignalInv.complete_accounted (h : SignalInv c)
    (hstep : c.step .bitFields (.complete n t) = some c') :
    SignalInv c' ∧ Delivered .bitFields c c'.kernel (.complete n t) := by
  rw [← Option.some.inj hstep]
  by_cases hactive : t ≠ NULL ∧ (c.kernel.notifications n).state = .active
  · simp only [if_pos hactive, Delivered]
    refine ⟨h.complete hactive.2 hactive.1, ?_⟩
    have hbits := h.kept n
    rw [pendingBits, if_pos hactive.2] at hbits
    have hview : (completeSignal n t c.kernel).threadView = (c.kernel.setRegister t badgeRegister
        (c.kernel.notifications n).ntfnMsgIdentifier).threadView := by
      rw [completeSignal, if_pos hactive]
      rfl
    rw [Gets, hview, threadView_setRegister, registers_update, ← hbits]
  · have hsame : completeSignal n t c.kernel = c.kernel := by rw [completeSignal, if_neg hactive]
    simp only [if_neg hactive, Delivered, hsame]
    exact ⟨h, rfl⟩

/-- A call accounts for the signals exactly if it meets the condition, and then keeps the
invariant. -/
theorem SignalInv.accounted_iff {ev : SignalEvent} {o : Option Signalling} (h : SignalInv c)
    (hstep : signalSystem.step (some c) ev o) :
    (Accounted ⟨some c, ev, o⟩ ↔ FindsWaiter c ev) ∧
      (FindsWaiter c ev → ∃ c', o = some c' ∧ SignalInv c') := by
  have haccounted : Accounted ⟨some c, ev, o⟩ ↔ ∃ c', o = some c' ∧ SignalsKept c' ∧
      Delivered .bitFields c c'.kernel ev := by
    simp [Accounted]
  rw [haccounted]
  cases ev with
  | send u n badge =>
    obtain rfl : c.step .bitFields (.send u n badge) = o := Option.some.inj hstep
    exact h.send_iff
  | receive u t cap isBlocking =>
    obtain ⟨c', hc', rfl⟩ := Option.map_eq_some_iff.1 hstep
    simpa only [Option.some.injEq, exists_eq_left'] using h.receive_iff hc'
  | complete n tcb =>
    obtain rfl := Option.some.inj hstep
    have hinv := h.complete_accounted (n := n) (t := tcb) rfl
    simp only [Option.some.injEq, exists_eq_left', FindsWaiter, iff_true, forall_const]
    exact ⟨⟨hinv.1.kept, hinv.2⟩, hinv.1⟩

end Steps

/-- All calls of a run account for the signals exactly if all meet the condition. -/
theorem signalSystem_accounted_iff {s : KState} {o : Option Signalling}
    {tr : List (System.Step (Option Signalling) SignalEvent)} (h₀ : SignalBoot s)
    (hrun : signalSystem.Run (some (signalStart s)) tr o) :
    (∀ x ∈ tr, Accounted x) ↔ ∀ x ∈ tr, ∀ c, x.pre = some c → FindsWaiter c x.ev := by
  refine hrun.forall_iff (I := fun o => ∃ c, o = some c ∧ SignalInv c) ⟨_, rfl, h₀.inv⟩ ?_ ?_
  · rintro ⟨_, ev, post⟩ hstep hC ⟨c, rfl, h⟩
    exact (h.accounted_iff hstep).2 (hC c rfl)
  · rintro ⟨_, ev, post⟩ hstep ⟨c, rfl, h⟩
    simpa only [Option.some.injEq, forall_eq'] using (h.accounted_iff hstep).1

/-! ### The first signal -/

theorem signalBoot_zero : SignalBoot KState.zero := fun _ => ⟨nofun, rfl⟩

/-- A thread waits and gets a signal; its address fits into the field for the tail. -/
def wokenWaiter : List SignalEvent :=
  [.receive Undef.benign 0x1C00 (createObject ⟨0, 0, 0⟩ .notification 0x2000 0 false) true,
    .send Undef.benign 0x2000 1]

theorem wokenWaiter_possible : System.possible (signalStep .bitFields)
    (some (signalStart KState.zero)) wokenWaiter = true := by
  decide +kernel

/-- The theorem for this thread. -/
theorem signalSystem_accounted_iff_woken :
    (∀ x ∈ System.trace (signalStep .bitFields) (some (signalStart KState.zero)) wokenWaiter,
        Accounted x) ↔
      ∀ x ∈ System.trace (signalStep .bitFields) (some (signalStart KState.zero)) wokenWaiter,
        ∀ c, x.pre = some c → FindsWaiter c x.ev :=
  signalSystem_accounted_iff signalBoot_zero (System.Run.of_possible wokenWaiter_possible)

/-- The first signal for an idle notification is lost: there is no thread to wake. -/
theorem not_signalSystem_accounted :
    ¬∀ (s : KState) (o : Option Signalling)
      (tr : List (System.Step (Option Signalling) SignalEvent)), SignalBoot s →
        signalSystem.Run (some (signalStart s)) tr o → ∀ x ∈ tr, Accounted x := by
  intro hall
  have hstep : signalSystem.step (some (signalStart KState.zero))
      (.send Undef.benign 0xFFFFFFFF9FEC0000 1) none := by
    refine congrArg some ?_
    simp only [Signalling.step, signalStart]
    rw [sendSignal_idle rfl rfl, Option.map_none]
  have haccounted := hall _ _ _ signalBoot_zero (System.Run.single hstep) _
    (List.mem_singleton.2 rfl)
  obtain ⟨c', hc', -⟩ := haccounted _ rfl
  cases hc'

end MicroKernel
