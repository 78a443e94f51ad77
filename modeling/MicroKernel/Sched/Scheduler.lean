import MicroKernel.Sched.ReadyQueue
import MicroKernel.System.Run

/-!
# The scheduler

A woken thread waits either in the ready queue or in `ksSchedulerAction`, the slot for one
pending target.  `schedule` dispatches the first thread of the ready queue; what the dispatched
thread does until it gives the processor back is a parameter of the model, since `swtch` returns
only then.

* `rescheduleRequired_spec`, `possibleSwitchTo_spec` : the two ways a thread comes to wait;
* `SchedInv` : every waiting thread is in the queue or pending;
* `schedule_keeps_iff` : `schedule` keeps the waiting threads exactly if it does not drop the
  pending target, which `Accepts` spells out;
* `schedSystem_held_iff` : so for every sequence of steps;
* `not_schedSystem_held` : a pending target is lost when the ready queue is empty.
-/

namespace MicroKernel

open DList

/-- `SchedulerAction_ResumeCurrentThread`. -/
def resumeCurrentThread : Ptr := 0

/-- `SchedulerAction_ChooseNewThread`. -/
def chooseNewThread : Ptr := 1

/-- Enqueue the pending target, if there is one, and have `schedule` choose a thread. -/
def rescheduleRequired (s : KState) : KState :=
  let s :=
    if s.ksSchedulerAction ≠ resumeCurrentThread ∧ s.ksSchedulerAction ≠ chooseNewThread then
      tcbSchedEnqueue s.ksSchedulerAction s
    else s
  s.setSchedulerAction chooseNewThread

/-- Make a woken thread the pending target, or queue it if the slot is taken. -/
def possibleSwitchTo (target : Ptr) (s : KState) : KState :=
  if s.ksSchedulerAction ≠ resumeCurrentThread then tcbSchedEnqueue target (rescheduleRequired s)
  else s.setSchedulerAction target

/-- `v2p` of a pointer. -/
def ptrV2p (p : Ptr) : U64 := p - 0xFFFFFFFF80000000

/-- `user_switch_vm`. -/
def userSwitchVm (thread : Ptr) (s : KState) : KState :=
  { s with
    tssRsp0 := (s.tcbs thread).kStack + 4096
    cr3 := ptrV2p (s.tcbs thread).pml4 }

/-- `kernel_switch_vm`. -/
def kernelSwitchVm (s : KState) : KState :=
  { s with cr3 := ptrV2p s.kernPml4 }

/-- `switch_to_thread` up to the call of `swtch`. -/
def switchToThreadEnter (thread : Ptr) (s : KState) : KState :=
  let s := tcbSchedDequeue thread s
  let s := { s with oldThread := s.ksCurThread }
  let s := { s with ksCurThread := thread }
  userSwitchVm thread s

/-- `switch_to_thread`; `during` is what happens until its call of `swtch` returns. -/
def switchToThread (during : KState → KState) (thread : Ptr) (s : KState) : KState :=
  kernelSwitchVm (during (switchToThreadEnter thread s))

/-- `choose_thread`. -/
def chooseThread (during : KState → KState) (s : KState) : KState :=
  if s.ksReadyQueues.head = NULL then s else switchToThread during s.ksReadyQueues.head s

/-- `schedule_choose_newThread`. -/
def scheduleChooseNewThread (during : KState → KState) (s : KState) : KState :=
  chooseThread during s

/-- `schedule`. -/
def schedule (during : KState → KState) (s : KState) : KState :=
  let s :=
    if s.ksSchedulerAction ≠ resumeCurrentThread then
      -- both cases of the source choose a new thread
      if s.ksSchedulerAction = chooseNewThread then scheduleChooseNewThread during s
      else scheduleChooseNewThread during s
    else s
  s.setSchedulerAction resumeCurrentThread

/-! ### Calls made by a running thread -/

/-- The target waiting in `ksSchedulerAction`. -/
def Pending (s : KState) (t : Ptr) : Prop :=
  s.ksSchedulerAction = t ∧ t ≠ resumeCurrentThread ∧ t ≠ chooseNewThread

/-- An address that a thread can have. -/
def IsThread (t : Ptr) : Prop := t ≠ NULL ∧ t ≠ chooseNewThread

instance (t : Ptr) : Decidable (IsThread t) := inferInstanceAs (Decidable (_ ∧ _))

theorem ReadyQueue.congr {s s' : KState} {l : List Ptr} (h : ReadyQueue s l)
    (htcbs : s'.tcbs = s.tcbs) (hqueue : s'.ksReadyQueues = s.ksReadyQueues) :
    ReadyQueue s' l := by
  have hlinks : s'.schedLinks = s.schedLinks := by simp only [KState.schedLinks, htcbs]
  exact ⟨hlinks ▸ hqueue ▸ h.repr, fun t => htcbs ▸ h.queued_iff t⟩

theorem ReadyQueue.kernelSwitchVm {s : KState} {l : List Ptr} (h : ReadyQueue s l) :
    ReadyQueue (kernelSwitchVm s) l := h.congr rfl rfl

@[simp] theorem ksSchedulerAction_tcbSchedEnqueue (t : Ptr) (s : KState) :
    (tcbSchedEnqueue t s).ksSchedulerAction = s.ksSchedulerAction := by
  simp only [tcbSchedEnqueue]
  split_ifs <;> rfl

@[simp] theorem ksSchedulerAction_tcbSchedDequeue (t : Ptr) (s : KState) :
    (tcbSchedDequeue t s).ksSchedulerAction = s.ksSchedulerAction := by
  simp only [tcbSchedDequeue]
  split_ifs <;> rfl

section Calls

variable {s : KState} {l : List Ptr} {t : Ptr}

@[simp] theorem eraseSched_rescheduleRequired :
    (rescheduleRequired s).eraseSched = s.eraseSched := by
  simp only [rescheduleRequired]
  split_ifs <;> simp

@[simp] theorem eraseSched_possibleSwitchTo :
    (possibleSwitchTo t s).eraseSched = s.eraseSched := by
  simp only [possibleSwitchTo]
  split_ifs <;> simp

theorem ReadyQueue.enqueue' (h : ReadyQueue s l) (ht : t ≠ NULL) :
    ∃ l', ReadyQueue (tcbSchedEnqueue t s) l' ∧ ∀ u, u ∈ l' ↔ u ∈ l ∨ u = t := by
  refine ⟨_, h.run ht .enqueue, fun u => ?_⟩
  simp only [QueueOp.ref]
  split_ifs with hmem
  · exact ⟨Or.inl, fun hu => hu.elim id fun heq => heq ▸ hmem⟩
  · rw [List.mem_cons]
    tauto

/-- The pending target goes into the queue. -/
theorem rescheduleRequired_spec (h : ReadyQueue s l) :
    (rescheduleRequired s).ksSchedulerAction = chooseNewThread ∧
      ∃ l', ReadyQueue (rescheduleRequired s) l' ∧ ∀ u, u ∈ l' ↔ u ∈ l ∨ Pending s u := by
  refine ⟨rfl, ?_⟩
  simp only [rescheduleRequired]
  split_ifs with ha
  · obtain ⟨l', h', hl'⟩ := h.enqueue' (t := s.ksSchedulerAction) ha.1
    refine ⟨l', h'.congr rfl rfl, fun u => (hl' u).trans (or_congr_right ?_)⟩
    exact ⟨fun hu => hu ▸ ⟨rfl, ha⟩, fun hu => hu.1.symm⟩
  · refine ⟨l, h.congr rfl rfl, fun u => ⟨Or.inl, fun hu => hu.elim id fun hp => ?_⟩⟩
    exact absurd (hp.1 ▸ hp.2) ha

/-- With the slot free the thread becomes the pending target, otherwise it is queued. -/
theorem possibleSwitchTo_spec (h : ReadyQueue s l) (ht : IsThread t) :
    (s.ksSchedulerAction = resumeCurrentThread ∧
        (possibleSwitchTo t s).ksSchedulerAction = t ∧ ReadyQueue (possibleSwitchTo t s) l) ∨
      (s.ksSchedulerAction ≠ resumeCurrentThread ∧
        (possibleSwitchTo t s).ksSchedulerAction = chooseNewThread ∧
        ∃ l', ReadyQueue (possibleSwitchTo t s) l' ∧
          ∀ u, u ∈ l' ↔ u ∈ l ∨ Pending s u ∨ u = t) := by
  simp only [possibleSwitchTo]
  split_ifs with ha
  · obtain ⟨haction, l₁, h₁, hl₁⟩ := rescheduleRequired_spec h
    obtain ⟨l₂, h₂, hl₂⟩ := h₁.enqueue' ht.1
    refine Or.inr ⟨ha, by simpa using haction, l₂, h₂, fun u => ?_⟩
    rw [hl₂, hl₁, or_assoc]
  · exact Or.inl ⟨not_not.1 ha, rfl, h.congr rfl rfl⟩

end Calls

/-- The calls that wake threads or ask for a new choice. -/
inductive SchedCall where
  /-- `possible_switch_to(target)`. -/
  | possibleSwitchTo (target : Ptr)
  /-- `reschedule_required()`. -/
  | rescheduleRequired
  deriving DecidableEq

namespace SchedCall

/-- What a call does. -/
def run : SchedCall → KState → KState
  | possibleSwitchTo target => MicroKernel.possibleSwitchTo target
  | rescheduleRequired => MicroKernel.rescheduleRequired

/-- The threads a call wakes. -/
def targets : SchedCall → Set Ptr
  | possibleSwitchTo target => {target}
  | rescheduleRequired => ∅

/-- The target of a call is a thread. -/
def Valid : SchedCall → Prop
  | possibleSwitchTo target => IsThread target
  | rescheduleRequired => True

/-- Several calls, one after the other. -/
def runAll (cs : List SchedCall) (s : KState) : KState := cs.foldl (fun s c => c.run s) s

/-- The threads that one of the calls wakes. -/
def allTargets (cs : List SchedCall) : Set Ptr := {t | ∃ c ∈ cs, t ∈ c.targets}

@[simp] theorem not_mem_allTargets_nil (u : Ptr) : u ∉ allTargets [] := by simp [allTargets]

theorem mem_allTargets_cons {c : SchedCall} {cs : List SchedCall} {u : Ptr} :
    u ∈ allTargets (c :: cs) ↔ u ∈ c.targets ∨ u ∈ allTargets cs := by simp [allTargets]

end SchedCall

theorem not_pending_choose {s : KState} (h : s.ksSchedulerAction = chooseNewThread) (u : Ptr) :
    ¬Pending s u := fun hp => hp.2.2 (hp.1 ▸ h)

theorem not_pending_resume {s : KState} (h : s.ksSchedulerAction = resumeCurrentThread) (u : Ptr) :
    ¬Pending s u := fun hp => hp.2.1 (hp.1 ▸ h)

section RunAll

variable {s : KState} {l : List Ptr}

/-- A call made while a choice is due: the pending target and the woken thread are queued. -/
theorem SchedCall.run_spec (h : ReadyQueue s l) (ha : s.ksSchedulerAction ≠ resumeCurrentThread)
    {c : SchedCall} (hc : c.Valid) :
    (c.run s).ksSchedulerAction = chooseNewThread ∧
      ∃ l', ReadyQueue (c.run s) l' ∧ ∀ u, u ∈ l' ↔ u ∈ l ∨ Pending s u ∨ u ∈ c.targets := by
  cases c with
  | possibleSwitchTo target =>
    rcases possibleSwitchTo_spec h hc with ⟨hno, -⟩ | ⟨-, hspec⟩
    · exact absurd hno ha
    · exact hspec
  | rescheduleRequired =>
    obtain ⟨haction, l', h', hl'⟩ := rescheduleRequired_spec h
    exact ⟨haction, l', h', fun u => by simp [SchedCall.targets, hl']⟩

/-- Calls made while a choice is due: the woken threads are queued, and so is the pending target
unless there are no calls. -/
theorem SchedCall.runAll_spec (cs : List SchedCall) : ∀ {s : KState} {l : List Ptr},
    ReadyQueue s l → s.ksSchedulerAction ≠ resumeCurrentThread → (∀ c ∈ cs, c.Valid) →
      ∃ l', ReadyQueue (runAll cs s) l' ∧
        ∀ u, u ∈ l' ↔ u ∈ l ∨ u ∈ allTargets cs ∨ cs ≠ [] ∧ Pending s u := by
  induction cs with
  | nil => exact fun h _ _ => ⟨_, h, by simp⟩
  | cons c cs ih =>
    intro s l h ha hcs
    simp only [List.mem_cons, forall_eq_or_imp] at hcs
    obtain ⟨haction, l₁, h₁, hl₁⟩ := run_spec h ha hcs.1
    obtain ⟨l₂, h₂, hl₂⟩ := ih h₁ (by rw [haction]; decide) hcs.2
    refine ⟨l₂, h₂, fun u => ?_⟩
    have hno := not_pending_choose haction u
    simp only [hl₂, hl₁, hno, and_false, or_false, mem_allTargets_cons, ne_eq, reduceCtorEq,
      not_false_eq_true, true_and]
    tauto

end RunAll

/-! ### Dispatching a thread -/

theorem ReadyQueue.switchToThreadEnter {s : KState} {l : List Ptr} {t : Ptr}
    (h : ReadyQueue s (t :: l)) : ReadyQueue (switchToThreadEnter t s) l := by
  have h' := h.dequeue List.mem_cons_self
  rw [List.erase_cons_head] at h'
  exact h'.congr rfl rfl

theorem ksSchedulerAction_switchToThreadEnter (t : Ptr) (s : KState) :
    (switchToThreadEnter t s).ksSchedulerAction = s.ksSchedulerAction :=
  ksSchedulerAction_tcbSchedDequeue t s

section Schedule

variable {s : KState} {l : List Ptr} {during : KState → KState}

theorem schedule_resume (h : s.ksSchedulerAction = resumeCurrentThread) :
    schedule during s = s.setSchedulerAction resumeCurrentThread := by
  simp [schedule, h]

theorem schedule_empty (h : ReadyQueue s []) :
    schedule during s = s.setSchedulerAction resumeCurrentThread := by
  have hhead : s.ksReadyQueues.head = NULL := h.repr.head_eq
  simp only [schedule, scheduleChooseNewThread, chooseThread, hhead, if_true, ite_self]

/-- With a choice due and a thread in the queue, the first thread is dispatched. -/
theorem schedule_dispatch {t : Ptr} (h : ReadyQueue s (t :: l))
    (ha : s.ksSchedulerAction ≠ resumeCurrentThread) :
    schedule during s =
      (kernelSwitchVm (during (switchToThreadEnter t s))).setSchedulerAction
        resumeCurrentThread := by
  have hhead : s.ksReadyQueues.head = t := h.repr.head_eq
  have hne : t ≠ NULL := h.repr.ne_null List.mem_cons_self
  simp only [schedule, scheduleChooseNewThread, chooseThread, hhead, hne, if_false, ha, ne_eq,
    not_false_eq_true, if_true, ite_self, switchToThread]

end Schedule

/-! ### The system -/

/-- The kernel, and the threads that were woken (or were queued or pending at the start) and not
dispatched since. -/
structure SchedState where
  /-- The kernel. -/
  kernel : KState
  /-- The waiting threads. -/
  waiting : Set Ptr

/-- The steps of the scheduler. -/
inductive SchedEvent where
  /-- A call that wakes a thread or asks for a new choice. -/
  | call (c : SchedCall)
  /-- `schedule()`; `during` are the calls made while the dispatched thread runs. -/
  | schedule (during : List SchedCall)

/-- The scheduler as a transition system. -/
def schedSystem : System SchedState SchedEvent where
  step s ev s' :=
    match ev with
    | .call c => c.Valid ∧ s'.kernel = c.run s.kernel ∧ s'.waiting = s.waiting ∪ c.targets
    | .schedule during => (∀ c ∈ during, c.Valid) ∧
        s'.kernel = schedule (SchedCall.runAll during) s.kernel ∧
        s'.waiting =
          if s.kernel.ksSchedulerAction ≠ resumeCurrentThread ∧ s.kernel.ksReadyQueues.head ≠ NULL
          then (s.waiting \ {s.kernel.ksReadyQueues.head}) ∪ SchedCall.allTargets during
          else s.waiting

/-- Every waiting thread is in the ready queue or the pending target. -/
def Held (s : SchedState) : Prop :=
  ∃ l, ReadyQueue s.kernel l ∧ ∀ t ∈ s.waiting, t ∈ l ∨ Pending s.kernel t

/-- The invariant: moreover the pending target is one of the waiting threads. -/
structure SchedInv (s : SchedState) : Prop where
  /-- No waiting thread is lost. -/
  held : Held s
  /-- The pending target waits. -/
  pending_mem : ∀ t, Pending s.kernel t → t ∈ s.waiting

/-- `schedule` does not drop the pending target: there is none, or it is in the ready queue too, or
some thread is dispatched and makes a call, which queues the pending target. -/
def Accepts (s : KState) (during : List SchedCall) : Prop :=
  ∀ t, Pending s t →
    (s.tcbs t).tcbState.tcbQueued = true ∨ s.ksReadyQueues.head ≠ NULL ∧ during ≠ []

/-- The condition on a step: when it is one of `schedule`, the pending target is not dropped. -/
def Accepted (x : System.Step SchedState SchedEvent) : Prop :=
  ∀ during, x.ev = .schedule during → Accepts x.pre.kernel during

theorem SchedInv.call {s s' : SchedState} {c : SchedCall} (h : SchedInv s)
    (hstep : schedSystem.step s (.call c) s') : SchedInv s' := by
  obtain ⟨hc, hk, hw⟩ := hstep
  obtain ⟨⟨l, hl, hheld⟩, hpend⟩ := h
  by_cases ha : s.kernel.ksSchedulerAction = resumeCurrentThread
  · have hheld' : ∀ t ∈ s.waiting, t ∈ l := fun t ht =>
      (hheld t ht).resolve_right (not_pending_resume ha t)
    cases c with
    | possibleSwitchTo target =>
      -- the slot is free
      have hk' : s'.kernel = s.kernel.setSchedulerAction target := by
        rw [hk, SchedCall.run, possibleSwitchTo, if_neg (not_not.2 ha)]
      refine ⟨⟨l, hk' ▸ hl.congr rfl rfl, fun t ht => ?_⟩, fun t ht => ?_⟩
      · rw [hw] at ht
        rcases ht with ht | rfl
        · exact Or.inl (hheld' t ht)
        · exact Or.inr ⟨by rw [hk']; rfl, hc⟩
      · rw [hw]
        rw [hk'] at ht
        exact Or.inr ht.1.symm
    | rescheduleRequired =>
      obtain ⟨haction, l', hl', hmem⟩ := rescheduleRequired_spec hl
      rw [SchedCall.run] at hk
      rw [← hk] at haction hl'
      refine ⟨⟨l', hl', fun t ht => Or.inl ?_⟩, fun t ht =>
        absurd ht (not_pending_choose haction t)⟩
      rw [hw] at ht
      exact (hmem t).2 (Or.inl (hheld' t (ht.resolve_right (Set.notMem_empty t))))
  · obtain ⟨haction, l', hl', hmem⟩ := SchedCall.run_spec hl ha hc
    rw [← hk] at haction hl'
    refine ⟨⟨l', hl', fun t ht => Or.inl ?_⟩, fun t ht => absurd ht (not_pending_choose haction t)⟩
    rw [hw] at ht
    rw [hmem]
    rcases ht with ht | ht
    · exact (hheld t ht).elim Or.inl fun hp => Or.inr (Or.inl hp)
    · exact Or.inr (Or.inr ht)

/-- `schedule` with nothing to dispatch: the waiting threads must be in the queue. -/
theorem held_setResume_iff {k : KState} {l : List Ptr} (hl : ReadyQueue k l) {w : Set Ptr} :
    Held ⟨k.setSchedulerAction resumeCurrentThread, w⟩ ↔ ∀ t ∈ w, t ∈ l := by
  have hno := not_pending_resume (s := k.setSchedulerAction resumeCurrentThread) rfl
  constructor
  · rintro ⟨l', hl', hheld⟩ t ht
    have := (hheld t ht).resolve_right (hno t)
    exact (hl.queued_iff t).1 ((hl'.queued_iff t).2 this)
  · exact fun h => ⟨l, hl.congr rfl rfl, fun t ht => Or.inl (h t ht)⟩

/-- `schedule` keeps the waiting threads exactly if it does not drop the pending target. -/
theorem schedule_keeps_iff {s s' : SchedState} {during : List SchedCall} (h : SchedInv s)
    (hstep : schedSystem.step s (.schedule during) s') :
    Held s' ↔ Accepts s.kernel during := by
  obtain ⟨hc, hk, hw⟩ := hstep
  obtain ⟨⟨l, hl, hheld⟩, hpend⟩ := h
  obtain ⟨k', w'⟩ := s'
  dsimp only at hk hw
  subst hk hw
  by_cases ha : s.kernel.ksSchedulerAction = resumeCurrentThread
  · -- nothing is pending, nothing is dispatched
    rw [if_neg (by simp [ha]), schedule_resume ha, held_setResume_iff hl]
    refine iff_of_true (fun t ht => ?_) fun t ht => absurd ht (not_pending_resume ha t)
    exact (hheld t ht).resolve_right (not_pending_resume ha t)
  cases l with
  | nil =>
    have hhead : s.kernel.ksReadyQueues.head = NULL := hl.repr.head_eq
    rw [if_neg (by simp [hhead]), schedule_empty hl, held_setResume_iff hl]
    refine ⟨fun hall t ht => absurd (hall t (hpend t ht)) List.not_mem_nil, fun hacc t ht => ?_⟩
    have hp := (hheld t ht).resolve_left List.not_mem_nil
    rcases hacc t hp with hq | ⟨hne, -⟩
    · exact (hl.queued_iff t).1 hq
    · exact absurd hhead hne
  | cons t₀ l =>
    have hhead : s.kernel.ksReadyQueues.head = t₀ := hl.repr.head_eq
    have hne : t₀ ≠ NULL := hl.repr.ne_null List.mem_cons_self
    have hnot : t₀ ∉ l := (List.nodup_cons.1 hl.repr.nodup).1
    have haction := ksSchedulerAction_switchToThreadEnter t₀ s.kernel
    obtain ⟨l', hl', hmem⟩ := SchedCall.runAll_spec during hl.switchToThreadEnter
      (by rw [haction]; exact ha) hc
    have hpending : ∀ u, Pending (switchToThreadEnter t₀ s.kernel) u ↔ Pending s.kernel u :=
      fun u => by rw [Pending, Pending, haction]
    rw [hhead, if_pos ⟨ha, hne⟩, schedule_dispatch hl ha, held_setResume_iff hl'.kernelSwitchVm]
    constructor
    · intro hall t ht
      rw [hl.queued_iff]
      by_cases htl : t ∈ t₀ :: l
      · exact Or.inl htl
      · refine Or.inr ⟨by rw [hhead]; exact hne, ?_⟩
        rintro rfl
        have ht₀ : t ≠ t₀ := fun heq => htl (heq ▸ List.mem_cons_self)
        have := (hmem t).1 (hall t (Or.inl ⟨hpend t ht, ht₀⟩))
        simp only [SchedCall.not_mem_allTargets_nil, ne_eq, not_true_eq_false, false_and,
          or_false] at this
        exact htl (List.mem_cons_of_mem _ this)
    · intro hacc t ht
      rw [hmem, hpending]
      rcases ht with ⟨ht, hnt⟩ | ht
      · rcases hheld t ht with htl | hp
        · exact Or.inl ((List.mem_cons.1 htl).resolve_left hnt)
        · rcases hacc t hp with hq | ⟨-, hd⟩
          · exact Or.inl ((List.mem_cons.1 ((hl.queued_iff t).1 hq)).resolve_left hnt)
          · exact Or.inr (Or.inr ⟨hd, hp⟩)
      · exact Or.inr (Or.inl ht)

/-- A step that does not drop the pending target keeps the invariant. -/
theorem SchedInv.step {x : System.Step SchedState SchedEvent}
    (hstep : schedSystem.step x.pre x.ev x.post) (hacc : Accepted x) (h : SchedInv x.pre) :
    SchedInv x.post := by
  obtain ⟨pre, ev, post⟩ := x
  cases ev with
  | call c => exact h.call hstep
  | schedule during =>
    refine ⟨(schedule_keeps_iff h hstep).2 (hacc during rfl), fun t ht => ?_⟩
    have hk : post.kernel.ksSchedulerAction = resumeCurrentThread := by
      rw [hstep.2.1]
      rfl
    exact absurd ht (not_pending_resume hk t)

/-- The start: the waiting threads are those in a well-formed ready queue and the pending one. -/
def SchedInit (s : SchedState) : Prop :=
  ∃ l, ReadyQueue s.kernel l ∧ s.waiting = {t | t ∈ l ∨ Pending s.kernel t}

theorem SchedInit.inv {s : SchedState} (h : SchedInit s) : SchedInv s := by
  obtain ⟨l, hl, hw⟩ := h
  exact ⟨⟨l, hl, fun t ht => by rwa [hw] at ht⟩, fun t ht => by rw [hw]; exact Or.inr ht⟩

/-- In a sequence of steps, every thread that waits is after each step in the ready queue or
pending, if and only if no step of `schedule` drops the pending target. -/
theorem schedSystem_held_iff {s s' : SchedState} {tr : List (System.Step SchedState SchedEvent)}
    (h₀ : SchedInit s) (hrun : schedSystem.Run s tr s') :
    (∀ x ∈ tr, Held x.post) ↔ ∀ x ∈ tr, Accepted x := by
  refine hrun.forall_iff h₀.inv (fun x hstep hacc hinv => hinv.step hstep hacc)
    fun x hstep hinv => ?_
  obtain ⟨pre, ev, post⟩ := x
  cases ev with
  | call c => exact iff_of_true (hinv.call hstep).held fun _ hd => by cases hd
  | schedule during =>
    rw [schedule_keeps_iff hinv hstep]
    exact ⟨fun hacc d hd => by cases hd; exact hacc, fun hacc => hacc during rfl⟩

/-! ### A lost thread -/

/-- Nothing is queued or pending. -/
def schedStart : SchedState := ⟨KState.zero, ∅⟩

/-- The thread `0x1000` is woken: it becomes the pending target. -/
def schedWoken : SchedState := ⟨possibleSwitchTo 0x1000 KState.zero, ∅ ∪ {0x1000}⟩

/-- `schedule` finds the ready queue empty. -/
def schedAfter : SchedState := ⟨schedule (SchedCall.runAll []) schedWoken.kernel, ∅ ∪ {0x1000}⟩

/-- The two steps. -/
def schedTrace : List (System.Step SchedState SchedEvent) :=
  [⟨schedStart, .call (.possibleSwitchTo 0x1000), schedWoken⟩,
    ⟨schedWoken, .schedule [], schedAfter⟩]

theorem schedStart_init : SchedInit schedStart := by
  refine ⟨[], ReadyQueue.nil rfl fun _ => rfl, ?_⟩
  ext t
  simpa [schedStart] using not_pending_resume rfl t

theorem schedTrace_run : schedSystem.Run schedStart schedTrace schedAfter := by
  have h₁ : schedSystem.step schedStart (.call (.possibleSwitchTo 0x1000)) schedWoken :=
    ⟨show IsThread 0x1000 by decide, rfl, rfl⟩
  have h₂ : schedSystem.step schedWoken (.schedule []) schedAfter := ⟨by simp, rfl, rfl⟩
  exact ((System.Run.nil _).snoc h₁).snoc h₂

/-- The pending target is put into the ready queue. -/
def schedQueued : SchedState := ⟨rescheduleRequired schedWoken.kernel, schedWoken.waiting ∪ ∅⟩

/-- `schedule` dispatches it, and it wakes another thread. -/
def schedDispatched : SchedState :=
  ⟨schedule (SchedCall.runAll [.possibleSwitchTo 0x3000]) schedQueued.kernel,
    (schedQueued.waiting \ {schedQueued.kernel.ksReadyQueues.head}) ∪
      SchedCall.allTargets [.possibleSwitchTo 0x3000]⟩

/-- These steps. -/
def dispatchTrace : List (System.Step SchedState SchedEvent) :=
  [⟨schedStart, .call (.possibleSwitchTo 0x1000), schedWoken⟩,
    ⟨schedWoken, .call .rescheduleRequired, schedQueued⟩,
    ⟨schedQueued, .schedule [.possibleSwitchTo 0x3000], schedDispatched⟩]

/-- With these steps in place of the last one, no thread is lost. -/
theorem schedSystem_held_iff_dispatched :
    dispatchTrace.length = 3 ∧ ∀ x ∈ dispatchTrace, Held x.post := by
  have h₁ : schedSystem.step schedStart (.call (.possibleSwitchTo 0x1000)) schedWoken :=
    ⟨show IsThread 0x1000 by decide, rfl, rfl⟩
  have h₂ : schedSystem.step schedWoken (.call .rescheduleRequired) schedQueued :=
    ⟨trivial, rfl, rfl⟩
  have hhead : schedQueued.kernel.ksSchedulerAction ≠ resumeCurrentThread ∧
      schedQueued.kernel.ksReadyQueues.head ≠ NULL := by decide
  have h₃ : schedSystem.step schedQueued (.schedule [.possibleSwitchTo 0x3000])
      schedDispatched := by
    refine ⟨List.forall_mem_singleton.2 ?_, rfl, (if_pos hhead).symm⟩
    exact show IsThread 0x3000 by decide
  refine ⟨rfl, (schedSystem_held_iff schedStart_init
    (((System.Run.single h₁).snoc h₂).snoc h₃)).2 ?_⟩
  simp only [List.cons_append, List.nil_append, List.forall_mem_cons]
  exact ⟨nofun, nofun, fun _ _ t ht => absurd ht (not_pending_choose rfl t), nofun⟩

/-- A woken thread can be lost: with the ready queue empty, `schedule` clears the slot of the
pending target and dispatches nobody. -/
theorem not_schedSystem_held :
    ¬∀ (s s' : SchedState) (tr : List (System.Step SchedState SchedEvent)), SchedInit s →
      schedSystem.Run s tr s' → ∀ x ∈ tr, Held x.post := by
  intro hall
  have hheld := hall _ _ _ schedStart_init schedTrace_run ⟨schedWoken, .schedule [], schedAfter⟩
    (by simp [schedTrace])
  obtain ⟨l, hl, hwait⟩ := hheld
  have hmem := (hwait 0x1000 (Or.inr rfl)).resolve_right (not_pending_resume rfl _)
  exact absurd ((hl.queued_iff _).2 hmem) (by decide)

end MicroKernel
