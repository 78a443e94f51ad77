import MicroKernel.Object.Structures

/-!
# The ready queue

The three operations on `ksReadyQueues` and the list they implement.

* `tcbSchedEnqueue`, `tcbSchedAppend`, `tcbSchedDequeue` : the operations of the source;
* `ReadyQueue s l` : the ready queue of the state `s` is a well-formed list of the threads `l`,
  which are the ones whose `tcbQueued` flag is set;
* `ReadyQueue.run` : an operation on the queue is the operation `QueueOp.ref` on the list;
* `readyQueue_refines` : so is any sequence of operations from the empty queue.
-/

namespace MicroKernel

open DList

/-- Add a thread to the head of the ready queue. -/
def tcbSchedEnqueue (tcb : Ptr) (s : KState) : KState :=
  if (s.tcbs tcb).tcbState.tcbQueued then s
  else
    let queue := s.ksReadyQueues
    let (s, queue) :=
      if queue.head = NULL then (s, { queue with tail := tcb })
      else (s.setSchedPrev queue.head tcb, queue)
    let s := s.setSchedPrev tcb NULL
    let s := s.setSchedNext tcb queue.head
    let s := s.setReadyQueues { queue with head := tcb }
    s.modState tcb fun st => { st with tcbQueued := true }

/-- Add a thread to the end of the ready queue. -/
def tcbSchedAppend (tcb : Ptr) (s : KState) : KState :=
  if (s.tcbs tcb).tcbState.tcbQueued then s
  else
    let queue := s.ksReadyQueues
    let (s, queue) :=
      if queue.head = NULL then (s, { queue with head := tcb })
      else (s.setSchedNext queue.tail tcb, queue)
    let s := s.setSchedPrev tcb queue.tail
    let s := s.setSchedNext tcb NULL
    let s := s.setReadyQueues { queue with tail := tcb }
    s.modState tcb fun st => { st with tcbQueued := true }

/-- Remove a thread from the ready queue. -/
def tcbSchedDequeue (tcb : Ptr) (s : KState) : KState :=
  if (s.tcbs tcb).tcbState.tcbQueued then
    let queue := s.ksReadyQueues
    let (s, queue) :=
      if (s.tcbs tcb).tcbSchedPrev ≠ NULL then
        (s.setSchedNext (s.tcbs tcb).tcbSchedPrev (s.tcbs tcb).tcbSchedNext, queue)
      else (s, { queue with head := (s.tcbs tcb).tcbSchedNext })
    let (s, queue) :=
      if (s.tcbs tcb).tcbSchedNext ≠ NULL then
        (s.setSchedPrev (s.tcbs tcb).tcbSchedNext (s.tcbs tcb).tcbSchedPrev, queue)
      else (s, { queue with tail := (s.tcbs tcb).tcbSchedPrev })
    let s := s.setReadyQueues queue
    s.modState tcb fun st => { st with tcbQueued := false }
  else s

/-! ### What the operations do to the fields -/

section Fields

variable {s : KState} {t p v : Ptr}

@[simp] theorem schedLinks_modState (f : ThreadState → ThreadState) :
    (s.modState t f).schedLinks = s.schedLinks :=
  s.schedLinks_modTcb (fun _ => rfl) fun _ => rfl

theorem queued_modState (f : ThreadState → ThreadState) :
    ((s.modState t f).tcbs p).tcbState.tcbQueued =
      if p = t then (f (s.tcbs t).tcbState).tcbQueued else (s.tcbs p).tcbState.tcbQueued := by
  split_ifs with h
  · subst h
    simp [KState.modState]
  · simp [KState.modState, h]

@[simp] theorem tcbState_setSchedNext :
    ((s.setSchedNext t v).tcbs p).tcbState = (s.tcbs p).tcbState :=
  s.field_modTcb (f := fun t => { t with tcbSchedNext := v }) Tcb.tcbState (fun _ => rfl) p

@[simp] theorem tcbState_setSchedPrev :
    ((s.setSchedPrev t v).tcbs p).tcbState = (s.tcbs p).tcbState :=
  s.field_modTcb (f := fun t => { t with tcbSchedPrev := v }) Tcb.tcbState (fun _ => rfl) p

@[simp] theorem ksReadyQueues_modState (f : ThreadState → ThreadState) :
    (s.modState t f).ksReadyQueues = s.ksReadyQueues := rfl

@[simp] theorem ksReadyQueues_setSchedNext :
    (s.setSchedNext t v).ksReadyQueues = s.ksReadyQueues := rfl

@[simp] theorem ksReadyQueues_setSchedPrev :
    (s.setSchedPrev t v).ksReadyQueues = s.ksReadyQueues := rfl

theorem tcbSchedEnqueue_eq (h : (s.tcbs t).tcbState.tcbQueued = false) :
    (tcbSchedEnqueue t s).schedLinks = (pushFront NULL t s.schedLinks s.ksReadyQueues).1 ∧
      (tcbSchedEnqueue t s).ksReadyQueues = (pushFront NULL t s.schedLinks s.ksReadyQueues).2 ∧
      ∀ p, ((tcbSchedEnqueue t s).tcbs p).tcbState.tcbQueued =
        if p = t then true else (s.tcbs p).tcbState.tcbQueued := by
  by_cases hq : s.ksReadyQueues.head = NULL <;>
    simp [tcbSchedEnqueue, h, pushFront, hq, queued_modState]

theorem tcbSchedAppend_eq (h : (s.tcbs t).tcbState.tcbQueued = false) :
    (tcbSchedAppend t s).schedLinks = (pushBack NULL t s.schedLinks s.ksReadyQueues).1 ∧
      (tcbSchedAppend t s).ksReadyQueues = (pushBack NULL t s.schedLinks s.ksReadyQueues).2 ∧
      ∀ p, ((tcbSchedAppend t s).tcbs p).tcbState.tcbQueued =
        if p = t then true else (s.tcbs p).tcbState.tcbQueued := by
  by_cases hq : s.ksReadyQueues.head = NULL <;>
    simp [tcbSchedAppend, h, pushBack, hq, queued_modState]

theorem tcbSchedDequeue_eq (h : (s.tcbs t).tcbState.tcbQueued = true) :
    (tcbSchedDequeue t s).schedLinks = (remove NULL t s.schedLinks s.ksReadyQueues).1 ∧
      (tcbSchedDequeue t s).ksReadyQueues = (remove NULL t s.schedLinks s.ksReadyQueues).2 ∧
      ∀ p, ((tcbSchedDequeue t s).tcbs p).tcbState.tcbQueued =
        if p = t then false else (s.tcbs p).tcbState.tcbQueued := by
  have hp : ∀ s : KState, (s.tcbs t).tcbSchedPrev = s.schedLinks.prev t := fun _ => rfl
  have hn : ∀ s : KState, (s.tcbs t).tcbSchedNext = s.schedLinks.next t := fun _ => rfl
  by_cases h₁ : s.schedLinks.prev t = NULL
  · by_cases h₂ : s.schedLinks.next t = NULL <;>
      simp [tcbSchedDequeue, h, remove, hp, hn, h₁, h₂, queued_modState]
  · by_cases h₂ : (s.schedLinks.setNext (s.schedLinks.prev t)
      (s.schedLinks.next t)).next t = NULL <;>
      simp [tcbSchedDequeue, h, remove, hp, hn, h₁, h₂, queued_modState]

theorem eraseSched_setQueued (b : Bool) :
    (s.modState t fun st => { st with tcbQueued := b }).eraseSched = s.eraseSched :=
  s.eraseSched_modTcb fun _ => rfl

@[simp] theorem eraseSched_tcbSchedEnqueue : (tcbSchedEnqueue t s).eraseSched = s.eraseSched := by
  simp only [tcbSchedEnqueue]
  split_ifs <;> simp [eraseSched_setQueued]

@[simp] theorem eraseSched_tcbSchedDequeue : (tcbSchedDequeue t s).eraseSched = s.eraseSched := by
  simp only [tcbSchedDequeue]
  split_ifs <;> simp [eraseSched_setQueued]

end Fields

/-! ### The list behind the queue -/

/-- The ready queue of `s` is a well-formed list of the threads `l`, which are the ones marked
as queued. -/
structure ReadyQueue (s : KState) (l : List Ptr) : Prop where
  /-- The links, the head and the end. -/
  repr : Repr NULL s.schedLinks s.ksReadyQueues l
  /-- The flags. -/
  queued_iff : ∀ t, (s.tcbs t).tcbState.tcbQueued = true ↔ t ∈ l

namespace ReadyQueue

variable {s : KState} {l : List Ptr} {t : Ptr}

theorem nil (hqueue : s.ksReadyQueues = ⟨NULL, NULL⟩)
    (hflags : ∀ t, (s.tcbs t).tcbState.tcbQueued = false) : ReadyQueue s [] :=
  ⟨hqueue ▸ Repr.nil, by simp [hflags]⟩

theorem queued_eq_false (h : ReadyQueue s l) (ht : t ∉ l) :
    (s.tcbs t).tcbState.tcbQueued = false := by
  rw [← Bool.not_eq_true, h.queued_iff]
  exact ht

theorem enqueue_of_mem (h : ReadyQueue s l) (ht : t ∈ l) : tcbSchedEnqueue t s = s := by
  simp [tcbSchedEnqueue, (h.queued_iff t).2 ht]

theorem append_of_mem (h : ReadyQueue s l) (ht : t ∈ l) : tcbSchedAppend t s = s := by
  simp [tcbSchedAppend, (h.queued_iff t).2 ht]

theorem dequeue_of_notMem (h : ReadyQueue s l) (ht : t ∉ l) : tcbSchedDequeue t s = s := by
  simp [tcbSchedDequeue, h.queued_eq_false ht]

theorem enqueue (h : ReadyQueue s l) (ht : t ∉ l) (hne : t ≠ NULL) :
    ReadyQueue (tcbSchedEnqueue t s) (t :: l) := by
  obtain ⟨hlinks, hqueue, hflags⟩ := tcbSchedEnqueue_eq (h.queued_eq_false ht)
  refine ⟨hlinks ▸ hqueue ▸ h.repr.pushFront ht hne, fun p => ?_⟩
  rw [hflags, List.mem_cons]
  split_ifs with hp
  · simp [hp]
  · simp [hp, h.queued_iff]

theorem append (h : ReadyQueue s l) (ht : t ∉ l) (hne : t ≠ NULL) :
    ReadyQueue (tcbSchedAppend t s) (l ++ [t]) := by
  obtain ⟨hlinks, hqueue, hflags⟩ := tcbSchedAppend_eq (h.queued_eq_false ht)
  refine ⟨hlinks ▸ hqueue ▸ h.repr.pushBack ht hne, fun p => ?_⟩
  rw [hflags, List.mem_append, List.mem_singleton]
  split_ifs with hp
  · simp [hp]
  · simp [hp, h.queued_iff]

theorem dequeue (h : ReadyQueue s l) (ht : t ∈ l) :
    ReadyQueue (tcbSchedDequeue t s) (l.erase t) := by
  obtain ⟨hlinks, hqueue, hflags⟩ := tcbSchedDequeue_eq ((h.queued_iff t).2 ht)
  refine ⟨hlinks ▸ hqueue ▸ h.repr.remove ht, fun p => ?_⟩
  rw [hflags, h.repr.nodup.mem_erase_iff]
  split_ifs with hp
  · simp [hp]
  · simp [hp, h.queued_iff]

end ReadyQueue

/-- The operations on the ready queue. -/
inductive QueueOp where
  /-- `tcb_sched_enqueue`. -/
  | enqueue
  /-- `tcb_sched_append`. -/
  | append
  /-- `tcb_sched_dequeue`. -/
  | dequeue

namespace QueueOp

/-- The operation of the source. -/
def run : QueueOp → Ptr → KState → KState
  | enqueue => tcbSchedEnqueue
  | append => tcbSchedAppend
  | dequeue => tcbSchedDequeue

/-- The operation on the list. -/
def ref (t : Ptr) (l : List Ptr) : QueueOp → List Ptr
  | enqueue => if t ∈ l then l else t :: l
  | append => if t ∈ l then l else l ++ [t]
  | dequeue => l.erase t

end QueueOp

/-- Every operation on the queue is the operation on the list. -/
theorem ReadyQueue.run {s : KState} {l : List Ptr} {t : Ptr} (h : ReadyQueue s l) (hne : t ≠ NULL)
    (op : QueueOp) : ReadyQueue (op.run t s) (op.ref t l) := by
  cases op with
  | enqueue =>
    simp only [QueueOp.run, QueueOp.ref]
    split_ifs with ht
    · rwa [h.enqueue_of_mem ht]
    · exact h.enqueue ht hne
  | append =>
    simp only [QueueOp.run, QueueOp.ref]
    split_ifs with ht
    · rwa [h.append_of_mem ht]
    · exact h.append ht hne
  | dequeue =>
    simp only [QueueOp.run, QueueOp.ref]
    by_cases ht : t ∈ l
    · exact h.dequeue ht
    · rwa [h.dequeue_of_notMem ht, List.erase_of_not_mem ht]

theorem ReadyQueue.foldl (ops : List (QueueOp × Ptr)) : ∀ {s : KState} {l : List Ptr},
    ReadyQueue s l → (∀ x ∈ ops, x.2 ≠ NULL) →
      ReadyQueue (ops.foldl (fun s x => x.1.run x.2 s) s)
        (ops.foldl (fun l x => x.1.ref x.2 l) l) := by
  induction ops with
  | nil => exact fun h _ => h
  | cons x ops ih =>
    intro s l h hne
    simp only [List.mem_cons, forall_eq_or_imp] at hne
    exact ih (h.run hne.1 x.1) hne.2

/-- After any sequence of operations on threads, from the empty queue, the ready queue is a
well-formed list of the threads that the same operations on the empty list give: `next` and
`prev` are inverse to each other, head and end are `NULL` exactly if there is no thread, the flags
tell which threads are in it, and an operation on a thread that is already in the requested state
changes nothing. -/
theorem readyQueue_refines {s : KState} {ops : List (QueueOp × Ptr)}
    (hqueue : s.ksReadyQueues = ⟨NULL, NULL⟩)
    (hflags : ∀ t, (s.tcbs t).tcbState.tcbQueued = false) (hne : ∀ x ∈ ops, x.2 ≠ NULL) :
    let s' := ops.foldl (fun s x => x.1.run x.2 s) s
    let l := ops.foldl (fun l x => x.1.ref x.2 l) []
    ReadyQueue s' l ∧
      (∀ t ∈ l, ∀ u ∈ l, (s'.tcbs t).tcbSchedNext = u ↔ (s'.tcbs u).tcbSchedPrev = t) ∧
      (s'.ksReadyQueues = ⟨NULL, NULL⟩ ↔ l = []) ∧
      ∀ t, (t ∈ l → tcbSchedEnqueue t s' = s' ∧ tcbSchedAppend t s' = s') ∧
        (t ∉ l → tcbSchedDequeue t s' = s') := by
  intro s' l
  have h : ReadyQueue s' l := ReadyQueue.foldl ops (ReadyQueue.nil hqueue hflags) hne
  refine ⟨h, fun t ht u hu => h.repr.next_eq_iff ht hu, ⟨fun hq => ?_, fun hl => ?_⟩, fun t =>
    ⟨fun ht => ⟨h.enqueue_of_mem ht, h.append_of_mem ht⟩, fun ht => h.dequeue_of_notMem ht⟩⟩
  · exact h.repr.head_eq_null_iff.1 (by rw [hq])
  · have hr := h.repr
    rw [hl] at hr
    exact Queue.ext hr.head_eq hr.tail_eq

/-- Two threads are queued, the first one is taken out again. -/
theorem readyQueue_refines_two :
    ReadyQueue ([(QueueOp.enqueue, (0x1000 : Ptr)), (.append, 0x2000), (.dequeue, 0x1000)].foldl
      (fun s x => x.1.run x.2 s) KState.zero) [0x2000] :=
  (@readyQueue_refines KState.zero [(.enqueue, 0x1000), (.append, 0x2000), (.dequeue, 0x1000)] rfl
    (fun _ => rfl) (by decide)).1

end MicroKernel
