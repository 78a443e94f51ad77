import MicroKernel.Kernel.IpcTest
import MicroKernel.Vm.Reserved

/-!
# From boot to the system calls of the plugins

After `ipc_test`, `main` loads a plugin into each of the two threads, makes a control block for
itself and then schedules for ever.

The memory that the loads write is taken to be apart from the objects here.  They write to the
buffer, to kernel stacks, to page tables and to pages of the processes, all of it newly allocated
(but what does not fit in the buffer is written behind it).  As the kernel does not check the CPtr
of a call, the results are about runs in which the plugins use slots of their CNodes.

* `mainReady` : `main` from the return of `ipc_test` to its loop;
* `Within` : the threads that wait anywhere or run are among those of a set;
* `main_run` : in every run of the scheduling loop no other thread runs.
-/

namespace MicroKernel

open DList

/-! ### The code -/

/-- `load_plugin` for the thread at `t`: what it stores there. -/
def KState.setPlugin (t : Ptr) (x : Loaded) (s : KState) : KState :=
  s.modTcb t fun tcb =>
    { tcb with
      kStack := BitVec.ofNat 64 x.kStack
      tf := { Tcb.zero.tf with rdi := 0, rsi := BitVec.ofNat 64 (sub64 x.plugin.size 8) }
      context := ⟨.thread t, BitVec.ofNat 64 (x.kStack + 3848)⟩
      pml4 := BitVec.ofNat 64 x.plugin.pml4
      tcbIPCBuffer := BitVec.ofNat 64 x.plugin.tcbIPCBuffer }

/-- `main` from the return of `ipc_test` to its loop, if it gets there: the plugins are loaded, with
the contents `ram` of memory and the page table `kernPml4` of the kernel, and `main` gets a control
block and a context of its own. -/
def mainReady (K : Asm.Kernel) (disk : Ram) (fuel : ℕ) (ram : Ram) (kernPml4 : ℕ) (r : IpcTest) :
    Option Machine := do
  let ((x₀, x₁), vm) ← loadPlugins K disk fuel ⟨r.kernel.memblock, ram, kernPml4, []⟩
  let s := (r.kernel.setPlugin r.tcbPlugin0 x₀).setPlugin r.tcbPlugin1 x₁
  let (s, ksCurThread) ← (allocPage { s with memblock := vm.memblock }).toOption
  let (s, context) ← (allocPage { s with ksCurThread }).toOption
  return ⟨s.modTcb ksCurThread fun tcb => { tcb with context := ⟨.main, context⟩ }, .main, []⟩

/-! ### The scheduling loop -/

/-- The threads in the ready queue, those in the queues of endpoints and the one that runs are all
in `A`. -/
structure Within (A : Set Ptr) (m : Machine) : Prop where
  /-- The ready queue. -/
  ready : ∃ l, ReadyQueue m.kernel l ∧ ∀ t ∈ l, t ∈ A
  /-- The queues of endpoints. -/
  waiting : endpointThreads m.kernel ⊆ A
  /-- The thread that runs. -/
  running : ∀ t, m.running = .thread t → t ∈ A ∧ m.kernel.ksCurThread = t ∧
    m.kernel.ksSchedulerAction = chooseNewThread

section Within

variable {P : Packing} {A : Set Ptr} {m m' : Machine} {u : Undef} {t : Ptr}

/-- An iteration of the scheduling loop dispatches the first thread of the ready queue. -/
theorem Within.schedule {own : Bool} (hstep : m.step P (.schedule own) = some m')
    (h : Within A m) : Within A m' := by
  obtain ⟨l, hl, hA⟩ := h.ready
  have hwait : endpointThreads m'.kernel ⊆ A := by
    rw [(Machine.sameIpc_schedule hstep).endpointThreads_eq]
    exact h.waiting
  obtain ⟨hrun, ⟨-, rfl⟩ | ⟨hhead, hdispatch⟩⟩ := Machine.step_schedule hstep
  · exact ⟨⟨l, hl.congr rfl rfl, hA⟩, hwait, fun t ht => absurd (hrun.symm.trans ht) nofun⟩
  · obtain ⟨t₀, l, rfl⟩ : ∃ t₀ l₀, l = t₀ :: l₀ := by
      cases l with
      | nil => exact absurd hl.repr.head_eq hhead
      | cons t₀ l₀ => exact ⟨t₀, l₀, rfl⟩
    obtain ⟨ht₀, hA⟩ := List.forall_mem_cons.1 hA
    have hfirst : m.kernel.ksReadyQueues.head = t₀ := hl.repr.head_eq
    rw [hfirst] at hdispatch
    have hl' : ReadyQueue
        (switchToThreadEnter t₀ (m.kernel.setSchedulerAction chooseNewThread)) l :=
      ReadyQueue.switchToThreadEnter (hl.congr rfl rfl)
    rcases hdispatch with rfl | rfl
    · refine ⟨⟨l, ?_, hA⟩, hwait, fun t ht => ?_⟩
      · dsimp only
        split_ifs
        · exact hl'.of_sameSched (.setResult _ 0)
        · exact hl'
      · cases ht
        have haction := ksSchedulerAction_switchToThreadEnter t₀
          (m.kernel.setSchedulerAction chooseNewThread)
        refine ⟨ht₀, ?_, ?_⟩
        · dsimp only
          split_ifs <;> rfl
        · dsimp only
          split_ifs
          · exact haction
          · exact haction
    · exact ⟨⟨l, hl'.congr rfl rfl, hA⟩, hwait, fun t ht => absurd (hrun.symm.trans ht) nofun⟩

/-- A system call puts at most the thread that makes it into the queue of an endpoint, and only
threads from there into the ready queue. -/
theorem Within.call {tf : Trapframe} {k : KState} (hrun : m.running = .thread t)
    (hcase : TrapCase P u tf m.kernel (.user k))
    (hkept : ∀ queue, (u.tcbEpAppend queue).head = queue.head) (h : Within A m) :
    Within A { m with kernel := k } := by
  obtain ⟨l, hl, hA⟩ := h.ready
  obtain ⟨ht, hcur, haction⟩ := h.running t hrun
  have hk := hcase.ipcStep hkept
  obtain ⟨haction', l', hl', hmem⟩ := hk.ready l hl haction
  refine ⟨⟨l', hl', fun t' ht' => ?_⟩, fun t' ht' => ?_, fun t' ht' => ?_⟩
  · exact (hmem t' ht').elim (hA t') fun hwait => h.waiting hwait
  · rcases hk.threads ht' with rfl | hwait
    · exact hcur ▸ ht
    · exact h.waiting hwait
  · cases hrun.symm.trans ht'
    exact ⟨ht, hk.cur.trans hcur, haction'⟩

theorem Within.step {ev : KernelEvent} (hstep : m.step P ev = some m') (hkept : HeadKept ev)
    (h : Within A m) : Within A m' := by
  cases ev with
  | schedule own => exact h.schedule hstep
  | trap u tf =>
    obtain ⟨⟨t, hrun⟩, ⟨k, hcase, rfl⟩ | ⟨-, -, rfl⟩⟩ := Machine.step_trap hstep
    · exact h.call hrun hcase (hkept u tf rfl)
    · obtain ⟨l, hl, hA⟩ := h.ready
      refine ⟨⟨l, (hl.of_sameSched (.enterTrap m.kernel tf)).congr rfl rfl, hA⟩, ?_, nofun⟩
      have hi := (SameIpc.enterTrap m.kernel tf).trans (SameIpc.mainResumed _)
      exact hi.endpointThreads_eq.trans_subset h.waiting

end Within

section Loop

variable {s s' : KState} {t e : Ptr} {E : List Ptr}

/-- A thread keeps its CNode as long as no capability is lost. -/
theorem LeadsTo.cnode_eq (h : LeadsTo s t e) (hk : KeepsCaps s s') (c : U64) :
    lookupSlot t c s' = lookupSlot t c s := by
  have htable : (s'.ctes (tcbPtrCtePtr t tcbCTable)).cap =
      (s.ctes (tcbPtrCtePtr t tcbCTable)).cap :=
    (hk _).resolve_right fun hnull => h.table hnull.1
  rw [lookupSlot, lookupSlot, htable]

/-- A thread leads to the same endpoint as long as no capability is lost. -/
theorem LeadsTo.keep (h : LeadsTo s t e) (he : kernBase ≤ e) (hk : KeepsCaps s s') :
    LeadsTo s' t e := by
  have htable : (s'.ctes (tcbPtrCtePtr t tcbCTable)).cap =
      (s.ctes (tcbPtrCtePtr t tcbCTable)).cap :=
    (hk _).resolve_right fun hnull => h.table hnull.1
  have hslot := h.cnode_eq hk 0
  have hcap : (s'.ctes (lookupSlot t 0 s)).cap = (s.ctes (lookupSlot t 0 s)).cap :=
    (hk _).resolve_right fun hnull => Cap.not_names hnull.1 he h.names
  refine ⟨htable ▸ h.table, ?_, ?_, ?_, ?_, ?_⟩
  · rw [hslot, hcap, h.type]
  · rw [hslot, hcap]
    exact h.names
  · rw [hslot, hcap, h.send]
  · rw [hslot, hcap, h.receive]
  · rw [hslot, hcap, h.grant]

/-- A call of `send` or `receive` is made for a slot of a CNode of one page. -/
def InCNode (ev : KernelEvent) : Prop :=
  ∀ u tf, ev = .trap u tf → tf.trapno = tSyscall →
    sysNum tf = sysSendNum ∨ sysNum tf = sysReceiveNum →
      ∃ i : ℕ, 40 * (i + 1) ≤ pgsize ∧ tf.rdi = BitVec.ofNat 64 (40 * i)

theorem inCNode_schedule {own : Bool} : InCNode (.schedule own) := by
  intro u tf h
  cases h

/-- What holds while the scheduling loop runs. -/
structure InLoop (r : IpcTest) (m : Machine) : Prop where
  /-- No thread but the two waits, is ready or runs. -/
  within : Within {r.tcbPlugin0, r.tcbPlugin1} m
  /-- The endpoint is in the kernel. -/
  endpoint : kernBase ≤ r.endpointTest
  /-- Both threads reach the endpoint. -/
  leads : LeadsTo m.kernel r.tcbPlugin0 r.endpointTest ∧
    LeadsTo m.kernel r.tcbPlugin1 r.endpointTest
  /-- Each thread has its CNode. -/
  cnodes : lookupSlot r.tcbPlugin0 0 m.kernel = r.cnode0 ∧
    lookupSlot r.tcbPlugin1 0 m.kernel = r.cnode1
  /-- The slots of the CNodes name no other endpoint of the kernel. -/
  reached : ∀ slot ∈ r.cnodeSlots, ∀ e, kernBase ≤ e → (m.kernel.ctes slot).cap.Names e →
    e = r.endpointTest
  /-- All other endpoints of the kernel are as they were made. -/
  idle : ∀ e, kernBase ≤ e → e ≠ r.endpointTest → m.kernel.endpoints e = ⟨NULL, NULL, .idle⟩

variable {r : IpcTest} {P : Packing} {m m' : Machine} {ev : KernelEvent}

theorem AfterTest.inLoop (h : AfterTest r m.kernel) (hrun : m.running = .main) : InLoop r m where
  within := by
    refine ⟨⟨_, h.ready, by simp⟩, ?_, fun t ht => absurd (hrun.symm.trans ht) nofun⟩
    refine (endpointThreads_subset (S := ∅) (fun _ ht => ht.elim) fun e => ?_).trans
      (Set.empty_subset _)
    rw [h.boot.endpoint]
    exact .inl rfl
  endpoint := h.endpoint
  leads := h.leads
  cnodes := h.cnodes
  reached := h.reached
  idle e _ _ := h.boot.endpoint e

theorem InLoop.usesSlots (h : InLoop r m) (hstep : m.step P ev = some m') (hin : InCNode ev) :
    UsesSlots r.cnodeSlots m ev := by
  rintro u tf rfl htrap hnum
  obtain ⟨i, hi, hrdi⟩ := hin u tf rfl htrap hnum
  obtain ⟨⟨t, hrun⟩, -⟩ := Machine.step_trap hstep
  obtain ⟨ht, hcur, -⟩ := h.within.running t hrun
  have hslot : lookupSlot t tf.rdi m.kernel = lookupSlot t 0 m.kernel + tf.rdi :=
    (congrArg (· + tf.rdi) (BitVec.add_zero _)).symm
  rw [hcur, hslot, hrdi]
  rcases ht with rfl | rfl
  · exact .inl ⟨i, hi, by rw [h.cnodes.1]⟩
  · exact .inr ⟨i, hi, by rw [h.cnodes.2]⟩

theorem InLoop.step (hstep : m.step P ev = some m') (hkept : HeadKept ev) (hin : InCNode ev)
    (h : InLoop r m) : InLoop r m' := by
  have hk := Machine.keepsCaps_step hstep
  refine ⟨h.within.step hstep hkept, h.endpoint, ⟨h.leads.1.keep h.endpoint hk,
    h.leads.2.keep h.endpoint hk⟩, ⟨?_, ?_⟩, fun slot hslot e he hnames => ?_, fun e he hne => ?_⟩
  · rw [h.leads.1.cnode_eq hk]
    exact h.cnodes.1
  · rw [h.leads.2.cnode_eq hk]
    exact h.cnodes.2
  · exact h.reached slot hslot e he (hk.names he hnames)
  · rw [Machine.endpoints_step (h.usesSlots hstep hin) (fun slot hslot hnames => ?_) hstep]
    · exact h.idle e he hne
    · exact hne (h.reached slot hslot e he hnames)

/-- The plugins are loaded, and `main` gets its control block: all of it elsewhere. -/
theorem mainReady_stage {K : Asm.Kernel} {disk ram : Ram} {fuel kernPml4 : ℕ} {U : Set ℕ}
    {l q : List Ptr} {L : List (Ptr × Cap)} (h : Stage U r.kernel l q L)
    (hmain : mainReady K disk fuel ram kernPml4 r = some m) :
    ∃ l', (∀ p ∈ l, p ∈ l') ∧ Stage U m.kernel l' q L ∧ m.running = .main := by
  simp only [mainReady, bind, Option.bind_eq_some_iff, pure, Option.some.injEq, Prod.exists]
    at hmain
  obtain ⟨x₀, x₁, vm, hload, s₁, p₁, h₁, s₂, p₂, h₂, rfl⟩ := hmain
  have hplugin (x : Loaded) (t : Ptr) {k : KState} (hk : Stage U k l q L) :
      Stage U (k.setPlugin t x) l q L :=
    hk.modTcb (fun _ => rfl) (fun _ => rfl) fun _ => rfl
  obtain ⟨R, hR, -⟩ := h.served.reserved
  obtain ⟨htables, hkeeps, -⟩ :=
    loadPlugins_reservesOnly U K disk fuel ⟨h.served.memory, R, hR⟩ hload
  have hloaded := (hplugin x₁ r.tcbPlugin1 (hplugin x₀ r.tcbPlugin0 h)).load htables.memory hkeeps
  have hcur := ((hloaded.alloc (toOption_eq_some h₁)).setCurThread p₁).alloc (toOption_eq_some h₂)
  refine ⟨p₂ :: p₁ :: l, fun p hp => ?_, ?_, rfl⟩
  · exact List.mem_cons_of_mem _ (List.mem_cons_of_mem _ hp)
  · exact hcur.modTcb (f := fun tcb => { tcb with context := ⟨.main, p₂⟩ }) (fun _ => rfl)
      (fun _ => rfl) fun _ => rfl

end Loop

/-- From the start of the kernel through the loads of the two plugins and every run of the
scheduling loop, whatever is on the disk and whatever calls the plugins make for slots of their
CNodes: no other thread ever runs or waits, both plugins keep their capability for the endpoint, and
no other endpoint of the kernel is used. -/
theorem main_run {P : Packing} {U R : Set ℕ} {g : ℕ → Cap} {K : Asm.Kernel} {disk ram : Ram}
    {fuel kernPml4 : ℕ} {s : KState} {r : IpcTest} {m m' : Machine}
    {tr : List (System.Step Machine KernelEvent)} (h₀ : BeforeTest U R s)
    (htest : ipcTest g s = .ok r) (hmain : mainReady K disk fuel ram kernPml4 r = some m)
    (hrun : (kernelSystem P).Run m tr m') (hkept : ∀ x ∈ tr, HeadKept x.ev)
    (hin : ∀ x ∈ tr, InCNode x.ev) : InLoop r m' := by
  obtain ⟨cap, hstage⟩ := ipcTest_stage h₀ htest
  obtain ⟨l, hl, hready, hmain'⟩ := mainReady_stage hstage hmain
  have hstart : InLoop r m := (hready.afterTest hl).inLoop hmain'
  exact (hrun.invariant (C := fun x => HeadKept x.ev ∧ InCNode x.ev) hstart
    (fun _ hstep hC hI => hI.step hstep hC.1 hC.2) fun x hx => ⟨hkept x hx, hin x hx⟩).1

/-- A disk with the magic number at the start of every sector. -/
def magicDisk : Ram := fun a => [0x7F, 0x45, 0x4C, 0x46].getD (a % 512) 0

/-- One of the plugins sends and exits, the other one receives. -/
theorem exists_mainReady : ∃ r m, ipcTest (fun _ => ⟨0, 0, 0⟩) testStart = .ok r ∧
    mainReady Asm.quietKernel magicDisk 1 (fun _ => 0) 0xFFFFFFFF80001000 r = some m ∧
      System.possible (Machine.step .recoverable) m exitEvents = true := by
  have hrun : (do
      let r ← (ipcTest (fun _ => ⟨0, 0, 0⟩) testStart).toOption
      let m ← mainReady Asm.quietKernel magicDisk 1 (fun _ => 0) 0xFFFFFFFF80001000 r
      return System.possible (Machine.step .recoverable) m exitEvents) = some true := by
    decide +kernel
  simp only [bind, Option.bind_eq_some_iff, pure, Option.some.injEq] at hrun
  obtain ⟨r, htest, m, hmain, hpossible⟩ := hrun
  exact ⟨r, m, toOption_eq_some htest, hmain, hpossible⟩

/-- The run of the two plugins. -/
theorem main_run_example : ∃ r m, ipcTest (fun _ => ⟨0, 0, 0⟩) testStart = .ok r ∧
    mainReady Asm.quietKernel magicDisk 1 (fun _ => 0) 0xFFFFFFFF80001000 r = some m ∧
      InLoop r (System.final (Machine.step .recoverable) m exitEvents) := by
  obtain ⟨r, m, htest, hmain, hpossible⟩ := exists_mainReady
  refine ⟨r, m, htest, hmain, main_run beforeTest_testStart htest hmain
    (System.Run.of_possible hpossible) ?_ ?_⟩
  · simp [exitEvents, System.trace, HeadKept, Undef.benign]
  · simp only [exitEvents, System.trace, List.forall_mem_cons]
    refine ⟨inCNode_schedule, ?_, ?_, inCNode_schedule, ?_, List.forall_mem_nil _⟩
    · rintro u tf ⟨⟩ - -
      exact ⟨0, by decide, rfl⟩
    · rintro u tf ⟨⟩ - -
      exact ⟨0, by decide, rfl⟩
    · rintro u tf ⟨⟩ - -
      exact ⟨0, by decide, rfl⟩

end MicroKernel
