import MicroKernel.Ipc.Notification
import MicroKernel.Pairing.Basic
import MicroKernel.System.Run

/-!
# Bound notifications

A notification and the thread that is bound to it name each other.  `bind_notification` writes both
sides without a look at the partners that they have, and the side of the notification is a field of
48 bits.

* `BindingSymmetric` : a notification names a thread exactly if the thread names it;
* `bindSystem_symmetric_iff` : that is kept in a run of binding and unbinding exactly if every call
  of `bind_notification` finds both sides free and the thread comes back from the field;
* `not_bindSystem_symmetric` : a notification that is bound to a second thread.
-/

namespace MicroKernel

/-! ### Calls -/

/-- The calls that bind and unbind. -/
inductive BindEvent where
  /-- `bind_notification(tcb, ntfnPtr)`. -/
  | bind (tcb ntfnPtr : Ptr)
  /-- `unbind_notification(tcb)`. -/
  | unbind (tcb : Ptr)
  /-- `unbind_maybe_notification(ntfnPtr)`. -/
  | unbindMaybe (ntfnPtr : Ptr)
  deriving DecidableEq

/-- What a call does, if it is about objects. -/
def bindStep (P : Packing) (s : KState) : BindEvent → Option KState
  | .bind tcb ntfnPtr =>
    if tcb = NULL ∨ ntfnPtr = NULL then none else some (bindNotification P tcb ntfnPtr s)
  | .unbind tcb => if tcb = NULL then none else some (unbindNotification tcb s)
  | .unbindMaybe ntfnPtr =>
    if ntfnPtr = NULL then none else some (unbindMaybeNotification ntfnPtr s)

/-- Sequences of calls. -/
def bindSystem (P : Packing) : System KState BindEvent := System.ofStep (bindStep P)

/-! ### Symmetry -/

/-- A notification names a thread as the one that is bound to it exactly if the thread names the
notification. -/
def BindingSymmetric (s : KState) : Prop :=
  Paired NULL NULL (fun n => (s.notifications n).ntfnBoundTCB)
    fun t => (s.tcbs t).tcbBoundNotification

/-- The condition on a call: a thread that is bound comes back from the field, and neither side has
another partner. -/
def BindsFree (P : Packing) (s : KState) : BindEvent → Prop
  | .bind tcb ntfnPtr =>
    P.ntfnBoundTCB tcb = tcb ∧
      ((s.notifications ntfnPtr).ntfnBoundTCB = NULL ∨
        (s.notifications ntfnPtr).ntfnBoundTCB = tcb) ∧
      ((s.tcbs tcb).tcbBoundNotification = NULL ∨ (s.tcbs tcb).tcbBoundNotification = ntfnPtr)
  | .unbind _ | .unbindMaybe _ => True

section Steps

variable {P : Packing} {s s' : KState} {n n' t : Ptr}

/-- A thread is bound to one notification at most. -/
theorem BindingSymmetric.eq_of_bound (h : BindingSymmetric s) (hn : n ≠ NULL) (hn' : n' ≠ NULL)
    (ht : (s.notifications n).ntfnBoundTCB ≠ NULL)
    (heq : (s.notifications n').ntfnBoundTCB = (s.notifications n).ntfnBoundTCB) : n' = n :=
  Paired.eq_of_eq h hn hn' ht heq

theorem bindingSymmetric_write {v : U64} {w : Ptr} :
    BindingSymmetric ((s.modNotification n fun ntfn => { ntfn with ntfnBoundTCB := v }).modTcb t
        fun tcb => { tcb with tcbBoundNotification := w }) ↔
      Paired NULL NULL (Function.update (fun n => (s.notifications n).ntfnBoundTCB) n v)
        (Function.update (fun t => (s.tcbs t).tcbBoundNotification) t w) := by
  have hntfn : ∀ x, (Function.update s.notifications n
      { s.notifications n with ntfnBoundTCB := v } x).ntfnBoundTCB =
        Function.update (fun n => (s.notifications n).ntfnBoundTCB) n v x :=
    Function.apply_update (fun _ ntfn => ntfn.ntfnBoundTCB) s.notifications n _
  have htcb : ∀ x, (Function.update s.tcbs t
      { s.tcbs t with tcbBoundNotification := w } x).tcbBoundNotification =
        Function.update (fun t => (s.tcbs t).tcbBoundNotification) t w x :=
    Function.apply_update (fun _ tcb => tcb.tcbBoundNotification) s.tcbs t _
  simp only [BindingSymmetric, Paired, KState.modTcb, KState.modNotification, hntfn, htcb]

theorem bindingSymmetric_doUnbind (h : BindingSymmetric s) (hn : n ≠ NULL) (ht : t ≠ NULL)
    (hlink : (s.notifications n).ntfnBoundTCB = t) :
    BindingSymmetric (doUnbindNotification n t s) :=
  bindingSymmetric_write.2 (Paired.unlink h hn ht hlink)

/-- A call keeps the symmetry exactly if it meets the condition. -/
theorem bindStep_symmetric_iff {ev : BindEvent} (hstep : bindStep P s ev = some s')
    (h : BindingSymmetric s) : BindingSymmetric s' ↔ BindsFree P s ev := by
  cases ev with
  | bind tcb ntfnPtr =>
    simp only [bindStep, Option.ite_none_left_eq_some, not_or, Option.some.injEq] at hstep
    obtain ⟨⟨htcb, hntfn⟩, rfl⟩ := hstep
    exact bindingSymmetric_write.trans (Paired.link_iff h hntfn htcb)
  | unbind tcb =>
    simp only [bindStep, Option.ite_none_left_eq_some, Option.some.injEq] at hstep
    obtain ⟨htcb, rfl⟩ := hstep
    refine iff_of_true ?_ trivial
    simp only [unbindNotification]
    split_ifs with hbound
    · exact bindingSymmetric_doUnbind h hbound htcb ((h _ tcb hbound htcb).2 rfl)
    · exact h
  | unbindMaybe ntfnPtr =>
    simp only [bindStep, Option.ite_none_left_eq_some, Option.some.injEq] at hstep
    obtain ⟨hntfn, rfl⟩ := hstep
    refine iff_of_true ?_ trivial
    simp only [unbindMaybeNotification]
    split_ifs with hbound
    · exact bindingSymmetric_doUnbind h hntfn hbound rfl
    · exact h

end Steps

/-- Binding is symmetric after every call of a run exactly if every call meets the condition. -/
theorem bindSystem_symmetric_iff {P : Packing} {s s' : KState}
    {tr : List (System.Step KState BindEvent)} (h₀ : BindingSymmetric s)
    (hrun : (bindSystem P).Run s tr s') :
    (∀ x ∈ tr, BindingSymmetric x.post) ↔ ∀ x ∈ tr, BindsFree P x.pre x.ev :=
  hrun.forall_iff h₀ (fun _ hstep hC h => (bindStep_symmetric_iff hstep h).2 hC)
    fun _ hstep h => bindStep_symmetric_iff hstep h

/-! ### Binding and unbinding -/

theorem bindingSymmetric_zero : BindingSymmetric KState.zero := by
  intro n t hn ht
  exact iff_of_false (fun h => ht h.symm) fun h => hn h.symm

/-- A thread is bound, unbound and bound to another notification; its address fits the field. -/
def boundTwice : List BindEvent :=
  [.bind 0x1C00 0x5000, .unbind 0x1C00, .bind 0x1C00 0x6000, .unbindMaybe 0x6000]

/-- The theorem for this thread. -/
theorem bindSystem_symmetric_iff_unbound :
    (∀ x ∈ System.trace (bindStep .bitFields) KState.zero boundTwice, BindingSymmetric x.post) ↔
      ∀ x ∈ System.trace (bindStep .bitFields) KState.zero boundTwice,
        BindsFree .bitFields x.pre x.ev :=
  bindSystem_symmetric_iff bindingSymmetric_zero (System.Run.of_possible (by decide))

/-- A notification is bound to a second thread. -/
def boundAgain : List BindEvent :=
  [.bind 0xFFFFFFFF9FEC1400 0xFFFFFFFF9FEC5000, .bind 0xFFFFFFFF9FEC2400 0xFFFFFFFF9FEC5000]

/-- Afterwards the first thread still names it; that is so whether or not threads come back from
the field. -/
theorem not_bindSystem_symmetric : ¬∃ P ∈ [Packing.bitFields, Packing.recoverable],
    ∀ (s s' : KState) (tr : List (System.Step KState BindEvent)), BindingSymmetric s →
      (bindSystem P).Run s tr s' → BindingSymmetric s' := by
  rintro ⟨P, hP, hall⟩
  have hfield : P.ntfnBoundTCB 0xFFFFFFFF9FEC2400 ≠ 0xFFFFFFFF9FEC1400 := by
    rcases List.mem_pair.1 hP with rfl | rfl <;> decide
  have hpossible : System.possible (bindStep P) KState.zero boundAgain = true := rfl
  have hsym := hall _ _ _ bindingSymmetric_zero (System.Run.of_possible hpossible)
  exact hfield ((hsym 0xFFFFFFFF9FEC5000 0xFFFFFFFF9FEC1400 (by decide) (by decide)).2 rfl)

end MicroKernel
