import MicroKernel.Kernel.Trap

/-!
# Trap frames during system calls

A system call works with the registers of its caller in the trap frame of the current thread.

* `SameFrames` : the trap frames and the current thread are the same in two states;
* `TrapCase.frame` : a system call that returns has changed one field of one frame, its result.
-/

namespace MicroKernel

/-- The trap frames of all threads and the current thread are the same. -/
structure SameFrames (s s' : KState) : Prop where
  /-- The trap frames. -/
  tf : ∀ t, (s'.tcbs t).tf = (s.tcbs t).tf
  /-- The current thread. -/
  cur : s'.ksCurThread = s.ksCurThread

namespace SameFrames

variable {P : Packing} {u : Undef} {s s' s'' : KState}

theorem trans (h : SameFrames s s') (h' : SameFrames s' s'') : SameFrames s s'' where
  tf t := (h'.tf t).trans (h.tf t)
  cur := h'.cur.trans h.cur

theorem of_eraseEP (h : s'.eraseEP = s.eraseEP) : SameFrames s s' where
  tf t := KState.eq_of_eraseEP h (fun s => (s.tcbs t).tf) fun _ => rfl
  cur := KState.eq_of_eraseEP h KState.ksCurThread fun _ => rfl

theorem of_eraseData (h : s'.eraseData = s.eraseData) : SameFrames s s' where
  tf t := KState.eq_of_eraseData h (fun s => (s.tcbs t).tf) fun _ => rfl
  cur := KState.eq_of_eraseData h KState.ksCurThread fun _ => rfl

theorem of_eraseSched (h : s'.eraseSched = s.eraseSched) : SameFrames s s' where
  tf t := KState.eq_of_eraseSched h (fun s => (s.tcbs t).tf) fun _ => rfl
  cur := KState.eq_of_eraseSched h KState.ksCurThread fun _ => rfl

theorem modTcb (s : KState) (p : Ptr) {f : Tcb → Tcb} (hf : ∀ t, (f t).tf = t.tf) :
    SameFrames s (s.modTcb p f) where
  tf t := s.field_modTcb Tcb.tf hf t
  cur := rfl

theorem modState (s : KState) (p : Ptr) (f : ThreadState → ThreadState) :
    SameFrames s (s.modState p f) :=
  modTcb s p (f := fun t => { t with tcbState := f t.tcbState }) fun _ => rfl

theorem setTsType (s : KState) (p : Ptr) (ts : ThreadStateType) : SameFrames s (s.setTsType p ts) :=
  modState s p fun st => { st with tsType := ts }

theorem completeSignal (s : KState) (n tcb : Ptr) : SameFrames s (completeSignal n tcb s) := by
  rw [MicroKernel.completeSignal]
  split_ifs
  · have h := modTcb s tcb (f := fun t => { t with
        registers := Function.update t.registers badgeRegister
          (s.notifications n).ntfnMsgIdentifier }) fun _ => rfl
    exact ⟨h.tf, h.cur⟩
  · exact of_eraseEP rfl

theorem transferred {e sender receiver t : Ptr} {badge : U64} {grant : Bool} {s₁ s₂ : KState}
    (hdequeue : epDequeue P t e s = some s₁)
    (htransfer : doIpcTransfer P u sender e badge grant receiver s₁ = some s₂) : SameFrames s s₂ :=
  (of_eraseEP (epDequeue_spec hdequeue).2.2.2).trans
    (.of_eraseData (doIpcTransfer_erase htransfer).2.2)

theorem woken {s₂ : KState} {t : Ptr} (h : SameFrames s s₂) :
    SameFrames s (possibleSwitchTo t (s₂.setTsType t .running)) :=
  (h.trans (.setTsType _ _ _)).trans (.of_eraseSched eraseSched_possibleSwitchTo)

theorem send {dest : U64} (h : MicroKernel.send P u dest s = some s') : SameFrames s s' := by
  by_cases hstate : (s.endpoints (slotEndpoint dest s)).state = .recv
  · obtain ⟨s₁, s₂, hdequeue, htransfer, rfl⟩ := sendIpc_deliver hstate h
    exact (transferred hdequeue htransfer).woken
  · obtain ⟨-, -, -, herase⟩ := sendIpc_block hstate h
    exact (modState s _ _).trans (.of_eraseEP herase)

theorem receive {dest : U64} (h : MicroKernel.receive P u dest s = some s') : SameFrames s s' := by
  by_cases hsignal : HasSignal s.ksCurThread s
  · obtain ⟨-, rfl⟩ := receiveIpc_signal hsignal h
    exact .completeSignal _ _ _
  · obtain ⟨s₁, s₂, hdequeue, htransfer, rfl⟩ :=
      receiveFromSender_spec (receiveIpc_dequeue hsignal h).2
    have hs := transferred hdequeue htransfer
    split_ifs
    · exact hs
    · exact hs.trans (.setTsType _ _ _)
    · exact hs.woken

end SameFrames

section Frames

variable {P : Packing} {u : Undef} {tf : Trapframe} {s k : KState}

theorem frame_setResult (hs : SameFrames (enterTrap tf s) k) (result : U64) :
    (setResult result k).ksCurThread = s.ksCurThread ∧
      ((setResult result k).tcbs s.ksCurThread).tf = { tf with rax := result } ∧
      ∀ t ≠ s.ksCurThread, ((setResult result k).tcbs t).tf = (s.tcbs t).tf := by
  have hcur : k.ksCurThread = s.ksCurThread := hs.cur
  refine ⟨hcur, ?_, fun t ht => ?_⟩
  · rw [setResult, hcur, KState.tcbs_modTcb_self, hs.tf, enterTrap_tf]
  · rw [setResult, hcur, KState.tcbs_modTcb_of_ne _ ht, hs.tf, enterTrap,
      KState.tcbs_modTcb_of_ne _ ht]

/-- A system call that returns has changed one field of one frame, its result. -/
theorem TrapCase.frame (hsys : tf.trapno = tSyscall) (h : TrapCase P u tf s (.user k)) :
    k.ksCurThread = s.ksCurThread ∧ (∃ v, (k.tcbs s.ksCurThread).tf = { tf with rax := v }) ∧
      ∀ t ≠ s.ksCurThread, (k.tcbs t).tf = (s.tcbs t).tf := by
  have hresult : ∀ {k result}, SameFrames (enterTrap tf s) k →
      (setResult result k).ksCurThread = s.ksCurThread ∧
        (∃ v, ((setResult result k).tcbs s.ksCurThread).tf = { tf with rax := v }) ∧
        ∀ t ≠ s.ksCurThread, ((setResult result k).tcbs t).tf = (s.tcbs t).tf :=
    fun hs => (frame_setResult hs _).imp_right (And.imp_left fun h => ⟨_, h⟩)
  cases h with
  | other hne => exact absurd hsys hne
  | quiet result memblock => exact hresult ⟨fun _ => rfl, rfl⟩
  | send _ _ hsend => exact hresult (.send hsend)
  | receive _ _ hreceive => exact hresult (.receive hreceive)

end Frames

end MicroKernel
