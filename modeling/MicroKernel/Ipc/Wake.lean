import MicroKernel.Ipc.Notification

/-!
# Waking all waiters

`cancel_allSignals` follows the links of the queue of a notification and puts each thread it meets
into the ready queue, whose links are other fields of the same threads.

* `wakeAll` : what the loop does to the list of the ready queue;
* `restartLoop_wakes` : the loop ends and does this;
* `cancelAllSignals_wakes` : the waiters and the pending target are ready afterwards, and nobody
  else is concerned.
-/

namespace MicroKernel

open DList

/-! ### The ready queue as a list -/

/-- The threads of the ready queue `r` after the threads `l` were enqueued. -/
def wakeAll (l r : List Ptr) : List Ptr := l.foldl (fun r t => QueueOp.enqueue.ref t r) r

section Lists

variable {l r : List Ptr} {t u : Ptr}

theorem mem_enqueue_ref : u ∈ QueueOp.enqueue.ref t r ↔ u ∈ r ∨ u = t := by
  simp only [QueueOp.ref]
  split_ifs with ht
  · exact ⟨Or.inl, fun h => h.elim id fun heq => heq ▸ ht⟩
  · rw [List.mem_cons, or_comm]

theorem suffix_enqueue_ref : r <:+ QueueOp.enqueue.ref t r := by
  simp only [QueueOp.ref]
  split_ifs
  · exact List.suffix_rfl
  · exact List.suffix_cons t r

theorem mem_wakeAll : u ∈ wakeAll l r ↔ u ∈ r ∨ u ∈ l := by
  induction l generalizing r with
  | nil => simp [wakeAll]
  | cons t l ih =>
    rw [wakeAll, List.foldl_cons, ← wakeAll, ih, mem_enqueue_ref, List.mem_cons, or_assoc]

theorem suffix_wakeAll : r <:+ wakeAll l r := by
  induction l generalizing r with
  | nil => exact List.suffix_rfl
  | cons t l ih =>
    rw [wakeAll, List.foldl_cons, ← wakeAll]
    exact suffix_enqueue_ref.trans ih

theorem length_lt_of_nodup (h : l.Nodup) (hnull : NULL ∉ l) : l.length < 2 ^ 64 := by
  have hnodup : ((NULL :: l).map BitVec.toNat).Nodup :=
    (List.nodup_cons.2 ⟨hnull, h⟩).map fun _ _ => BitVec.eq_of_toNat_eq
  have hsub : (NULL :: l).map BitVec.toNat ⊆ List.range (2 ^ 64) := by
    intro n hn
    obtain ⟨p, -, rfl⟩ := List.mem_map.1 hn
    exact List.mem_range.2 p.isLt
  have hle := hnodup.length_le_of_subset hsub
  rw [List.length_map, List.length_range, List.length_cons] at hle
  omega

end Lists

/-! ### The loop -/

/-- The thread after it was restarted. -/
def Tcb.restart (t : Tcb) : Tcb := { t with tcbState := { t.tcbState with tsType := .restart } }

section Loop

variable {s : KState} {l r : List Ptr} {t : Ptr}

theorem ReadyQueue.setTsType (h : ReadyQueue s r) (p : Ptr) (ts : ThreadStateType) :
    ReadyQueue (s.setTsType p ts) r := by
  refine ⟨?_, fun t => ?_⟩
  · rw [KState.setTsType, schedLinks_modState, ksReadyQueues_modState]
    exact h.repr
  · rw [KState.setTsType, queued_modState]
    split_ifs with ht
    · exact ht ▸ h.queued_iff p
    · exact h.queued_iff t

/-- One round: the thread is restarted and enqueued. -/
theorem restart_enqueue (hr : ReadyQueue s r) (ht : t ≠ NULL) :
    let s' := tcbSchedEnqueue t (s.setTsType t .restart)
    ReadyQueue s' (QueueOp.enqueue.ref t r) ∧ s'.epLinks = s.epLinks ∧
      s'.ksSchedulerAction = s.ksSchedulerAction ∧ s'.notifications = s.notifications ∧
      ∀ u, (s'.tcbs u).eraseSched =
        (if u = t then (s.tcbs u).restart else s.tcbs u).eraseSched := by
  intro s'
  have herase : s'.eraseSched = (s.setTsType t .restart).eraseSched := eraseSched_tcbSchedEnqueue
  refine ⟨(hr.setTsType t .restart).run ht .enqueue, ?_, ?_, ?_, fun u => ?_⟩
  · rw [epLinks_of_eraseSched herase, KState.setTsType, epLinks_modState]
  · exact ksSchedulerAction_tcbSchedEnqueue t _
  · rw [notifications_of_eraseSched herase]
    rfl
  · have hu : (s'.tcbs u).eraseSched = ((s.setTsType t .restart).tcbs u).eraseSched :=
      KState.eq_of_eraseSched herase (fun s => (s.tcbs u).eraseSched) fun _ => rfl
    rw [hu]
    split_ifs with hut
    · rw [hut, KState.setTsType, KState.modState, KState.tcbs_modTcb_self, Tcb.restart]
    · rw [KState.tcbs_setTsType_of_ne _ hut]

/-- The loop ends; the threads of the chain are restarted and enqueued. -/
theorem restartLoop_wakes : ∀ {k : ℕ} {h : Ptr} {s : KState} {r : List Ptr},
    NextChain NULL s.epLinks h l → l.length < k → ReadyQueue s r →
      ∃ s', restartLoop k h s = some s' ∧ ReadyQueue s' (wakeAll l r) ∧
        s'.ksSchedulerAction = s.ksSchedulerAction ∧ s'.notifications = s.notifications ∧
        ∀ u, (s'.tcbs u).eraseSched =
          (if u ∈ l then (s.tcbs u).restart else s.tcbs u).eraseSched := by
  induction l with
  | nil =>
    intro k h s r hchain hk hr
    obtain ⟨k, rfl⟩ := Nat.exists_eq_succ_of_ne_zero (Nat.ne_of_gt hk)
    obtain rfl : h = NULL := hchain
    exact ⟨s, by rw [restartLoop, if_pos rfl], hr, rfl, rfl, fun u => by simp⟩
  | cons x l ih =>
    intro k h s r hchain hk hr
    obtain ⟨rfl, hne, hchain⟩ := hchain
    obtain ⟨k, rfl⟩ := Nat.exists_eq_succ_of_ne_zero (Nat.ne_of_gt (Nat.zero_lt_of_lt hk))
    obtain ⟨hr₁, hlinks, haction, hntfn, htcbs⟩ := restart_enqueue hr hne
    obtain ⟨s', hloop, hr', haction', hntfn', htcbs'⟩ :=
      ih (hlinks ▸ hchain) (Nat.lt_of_succ_lt_succ hk) hr₁
    refine ⟨s', ?_, hr', haction'.trans haction, hntfn'.trans hntfn, fun u => ?_⟩
    · rw [restartLoop, if_neg hne]
      exact hloop
    · rw [htcbs']
      have hu := htcbs u
      by_cases huh : u = h
      · -- restarting a thread again changes nothing
        rw [if_pos huh] at hu
        rw [if_pos (List.mem_cons.2 (Or.inl huh))]
        split_ifs
        · exact congrArg Tcb.restart hu
        · exact hu
      · rw [if_neg huh] at hu
        simp only [List.mem_cons, huh, false_or]
        split_ifs
        · exact congrArg Tcb.restart hu
        · exact hu

end Loop

/-! ### The whole call -/

section Call

variable {s : KState} {n : Ptr} {l r : List Ptr}

/-- The pending target is enqueued in front of the others. -/
theorem ReadyQueue.rescheduleRequired (hr : ReadyQueue s r) :
    ∃ r', ReadyQueue (MicroKernel.rescheduleRequired s) r' ∧ r <:+ r' ∧
      ∀ u, u ∈ r' ↔ u ∈ r ∨ Pending s u := by
  simp only [MicroKernel.rescheduleRequired]
  split_ifs with ha
  · refine ⟨_, (hr.run ha.1 .enqueue).congr rfl rfl, suffix_enqueue_ref, fun u => ?_⟩
    rw [mem_enqueue_ref]
    exact or_congr_right ⟨fun hu => hu ▸ ⟨rfl, ha⟩, fun hu => hu.1.symm⟩
  · refine ⟨r, hr.congr rfl rfl, List.suffix_rfl, fun u => ⟨Or.inl, fun hu => ?_⟩⟩
    exact hu.elim id fun hp => absurd (hp.1 ▸ hp.2) ha

/-- For a waiting notification with the queue `l`, `cancel_allSignals` returns.  The waiters are
restarted and in the ready queue once, as is the pending target; the notification is idle, its queue
is empty.  No other thread has come into the ready queue, those that were in it are in the same
order, and the threads that did not wait are as they were. -/
theorem cancelAllSignals_wakes (hstate : (s.notifications n).state = .waiting)
    (hqueue : Repr NULL s.epLinks
      ⟨(s.notifications n).ntfnQueueHead, (s.notifications n).ntfnQueueTail⟩ l)
    (hready : ReadyQueue s r) :
    ∃ s' r', cancelAllSignals n s = some s' ∧ ReadyQueue s' r' ∧
      (∀ t ∈ l, (s'.tcbs t).tcbState.tsType = .restart ∧ r'.count t = 1) ∧
      s'.notifications = Function.update s.notifications n
        { s.notifications n with state := .idle, ntfnQueueHead := 0, ntfnQueueTail := 0 } ∧
      (∀ t, Pending s t → r'.count t = 1) ∧
      (∀ t ∉ l, (s'.tcbs t).eraseSched = (s.tcbs t).eraseSched) ∧
      (∀ t, t ∈ r' ↔ t ∈ r ∨ t ∈ l ∨ Pending s t) ∧ r <:+ r' := by
  have hready₀ : ReadyQueue (s.modNotification n fun ntfn =>
      { ntfn with state := .idle, ntfnQueueHead := 0, ntfnQueueTail := 0 }) r :=
    hready.congr rfl rfl
  obtain ⟨s₁, hloop, hr₁, haction, hntfn, htcbs⟩ := restartLoop_wakes (k := 2 ^ 64)
    (s := s.modNotification n fun ntfn =>
      { ntfn with state := .idle, ntfnQueueHead := 0, ntfnQueueTail := 0 })
    hqueue.nextChain (length_lt_of_nodup hqueue.nodup hqueue.null_notMem) hready₀
  obtain ⟨r', hr', hsuffix, hmem⟩ := hr₁.rescheduleRequired
  have hpending : ∀ t, Pending s₁ t ↔ Pending s t := fun t => by
    rw [Pending, haction]
    rfl
  have hmem' : ∀ t, t ∈ r' ↔ t ∈ r ∨ t ∈ l ∨ Pending s t := fun t => by
    rw [hmem, mem_wakeAll, hpending, or_assoc]
  have herase : ∀ t, ((rescheduleRequired s₁).tcbs t).eraseSched = (s₁.tcbs t).eraseSched :=
    fun t => KState.eq_of_eraseSched eraseSched_rescheduleRequired
      (fun s => (s.tcbs t).eraseSched) fun _ => rfl
  have hcount : ∀ t ∈ r', r'.count t = 1 := fun t => List.count_eq_one_of_mem hr'.repr.nodup
  refine ⟨rescheduleRequired s₁, r', ?_, hr', fun t ht => ⟨?_, ?_⟩, ?_, fun t ht => ?_,
    fun t ht => ?_, hmem', suffix_wakeAll.trans hsuffix⟩
  · rw [cancelAllSignals, if_pos hstate]
    simp only [bind, hloop, Option.bind_some, pure]
  · have hts := congrArg (fun t : Tcb => t.tcbState.tsType) ((herase t).trans (htcbs t))
    rw [if_pos ht] at hts
    exact hts
  · exact hcount t ((hmem' t).2 (Or.inr (Or.inl ht)))
  · rw [notifications_of_eraseSched eraseSched_rescheduleRequired, hntfn]
    rfl
  · exact hcount t ((hmem' t).2 (Or.inr (Or.inr ht)))
  · rw [herase, htcbs, if_neg ht]
    rfl

/-- Two threads that wait for the notification `0x5000`, and a third one that is the pending
target. -/
def waitingPair : KState :=
  { KState.zero with
    tcbs := fun p =>
      { Tcb.zero with
        tcbEPNext := if p = 0x1C00 then 0x2C00 else NULL
        tcbEPPrev := if p = 0x2C00 then 0x1C00 else NULL }
    notifications := fun _ => ⟨0, 0, 0x1C00, 0x2C00, .waiting⟩
    ksSchedulerAction := 0x3C00 }

/-- All three of them are ready afterwards. -/
theorem cancelAllSignals_wakes_pair : ∃ s' r', cancelAllSignals 0x5000 waitingPair = some s' ∧
    ReadyQueue s' r' ∧ ∀ t ∈ [0x1C00, 0x2C00, 0x3C00], t ∈ r' := by
  have hqueue : Repr NULL waitingPair.epLinks ⟨(waitingPair.notifications 0x5000).ntfnQueueHead,
      (waitingPair.notifications 0x5000).ntfnQueueTail⟩ [0x1C00, 0x2C00] :=
    ⟨by decide, by decide, ⟨by decide, by decide, by decide, by decide, trivial⟩, rfl, rfl⟩
  obtain ⟨s', r', hcall, hready, -, -, -, -, hmem, -⟩ :=
    cancelAllSignals_wakes (s := waitingPair) (n := 0x5000) rfl hqueue
      (ReadyQueue.nil rfl fun _ => rfl)
  refine ⟨s', r', hcall, hready, fun t ht => (hmem t).2 (Or.inr ?_)⟩
  rcases List.mem_cons.1 ht with rfl | ht
  · exact Or.inl (by decide)
  · rcases List.mem_pair.1 ht with rfl | rfl
    · exact Or.inl (by decide)
    · exact Or.inr ⟨rfl, by decide, by decide⟩

end Call

end MicroKernel
