import MicroKernel.Sched.Scheduler

/-!
# Context switches

The scheduling loop of `main` and the threads run on kernel stacks of their own and hand the
processor to each other by `swtch`, which saves the stack pointer of the caller into a field
`context` and loads another one.  `main` has a control block too, the one it allocates for
`ksCurThread` before the loop.

* `switchSystem` : the executions, with `switch_to_thread(t)`, `sched()` and enqueueing as steps,
  and with the context each execution was last switched out with;
* `Intact` : a call of `swtch` saves into the control block of its caller and loads the context
  that the execution it is for was switched out with;
* `switchSystem_intact_iff` : every switch of a run is intact if and only if `main` only
  dispatches while its own control block is the current one, that is, only once;
* `switchSystem_resumes` : whatever the damage, a dispatch gives the processor to the dispatched
  thread or back to `main`, and `sched()` gives it to `main`;
* `not_switchSystem_intact` : the second dispatch saves the stack pointer of `main` into the
  control block of the thread dispatched first.
-/

namespace MicroKernel

/-- The context that `alloc_proc` sets up on a fresh kernel stack: above it are a return address
and the trap frame. -/
def allocProcContext (tcb kStack : Ptr) : Context :=
  ⟨.thread tcb, kStack + 4096 - 176 - 8 - 64⟩

/-- The machine: the kernel, the execution that has the processor, and for each execution the
context that it was last switched out with. -/
structure SwitchState where
  /-- The kernel. -/
  kernel : KState
  /-- Who has the processor. -/
  running : Execution
  /-- The contexts as they were saved. -/
  saved : Execution → Context

/-- The arguments of a call of `swtch`. -/
structure SwtchArgs where
  /-- The control block in which the context is saved. -/
  field : Ptr
  /-- The context to load. -/
  load : Context

/-- `swtch`, called with the stack pointer `rsp`. -/
def swtch (args : SwtchArgs) (rsp : U64) (s : SwitchState) : SwitchState where
  kernel := s.kernel.modTcb args.field fun t => { t with context := ⟨s.running, rsp⟩ }
  running := args.load.stack
  saved := Function.update s.saved s.running ⟨s.running, rsp⟩

/-- The execution that got the processor goes on: `main` is in `switch_to_thread`. -/
def resumed (s : SwitchState) : SwitchState :=
  if s.running = .main then { s with kernel := kernelSwitchVm s.kernel } else s

/-- The arguments of `swtch` in `switch_to_thread`. -/
def switchToThreadArgs (thread : Ptr) (s : KState) : SwtchArgs :=
  ⟨s.oldThread, (s.tcbs thread).context⟩

/-- `switch_to_thread`. -/
def switchToThreadSwtch (thread : Ptr) (rsp : U64) (s : SwitchState) : SwitchState :=
  let k := switchToThreadEnter thread s.kernel
  resumed (swtch (switchToThreadArgs thread k) rsp { s with kernel := k })

/-- The arguments of `swtch` in `sched`. -/
def schedArgs (s : KState) : SwtchArgs :=
  ⟨s.ksCurThread, (s.tcbs s.oldThread).context⟩

/-- `sched`. -/
def sched (rsp : U64) (s : SwitchState) : SwitchState :=
  resumed (swtch (schedArgs s.kernel) rsp s)

/-- The steps of the machine. -/
inductive SwitchEvent where
  /-- `main` calls `switch_to_thread(t)`. -/
  | switchToThread (t : Ptr) (rsp : U64)
  /-- The running thread calls `sched()`. -/
  | sched (rsp : U64)
  /-- A thread is put into the ready queue. -/
  | enqueue (t : Ptr)

/-- The machine with the threads `T`. -/
def switchSystem (T : Set Ptr) : System SwitchState SwitchEvent where
  step s ev s' :=
    match ev with
    | .switchToThread t rsp => s.running = .main ∧ t ∈ T ∧ s' = switchToThreadSwtch t rsp s
    | .sched rsp => s.running ≠ .main ∧ s' = sched rsp s
    | .enqueue t => t ∈ T ∧ s' = { s with kernel := tcbSchedEnqueue t s.kernel }

/-- Whose control block is at an address, if `main`'s is at `mainTcb`. -/
def owner (mainTcb t : Ptr) : Execution := if t = mainTcb then .main else .thread t

/-- The call of `swtch` with the arguments `args`, made in `s` to give the processor to `dest`,
saves into the caller's control block and loads what `dest` was switched out with. -/
def IntactSwtch (mainTcb : Ptr) (s : SwitchState) (args : SwtchArgs) (dest : Execution) : Prop :=
  owner mainTcb args.field = s.running ∧ args.load = s.saved dest

/-- Every dispatch loads the context that the dispatched thread was last switched out with, every
`sched()` the one of `main`, and both save into the control block of the execution that calls. -/
def Intact (mainTcb : Ptr) (x : System.Step SwitchState SwitchEvent) : Prop :=
  match x.ev with
  | .switchToThread t _ => IntactSwtch mainTcb x.pre
      (switchToThreadArgs t (switchToThreadEnter t x.pre.kernel)) (.thread t)
  | .sched _ => IntactSwtch mainTcb x.pre (schedArgs x.pre.kernel) .main
  | .enqueue _ => True

/-- The condition on a step: a dispatch is made while `main`'s control block is the current
one. -/
def FromMain (mainTcb : Ptr) (x : System.Step SwitchState SwitchEvent) : Prop :=
  ∀ t rsp, x.ev = .switchToThread t rsp → x.pre.kernel.ksCurThread = mainTcb

/-! ### The invariant -/

/-- The state in which `main` enters its loop: every thread has the context of `alloc_proc`. -/
structure SwitchInit (T : Set Ptr) (mainTcb : Ptr) (s : SwitchState) : Prop where
  /-- `main` has a control block of its own. -/
  notMem : mainTcb ∉ T
  /-- It is the current one. -/
  cur_eq : s.kernel.ksCurThread = mainTcb
  /-- `main` runs. -/
  running_eq : s.running = .main
  /-- The contexts of the threads. -/
  context_eq : ∀ t ∈ T, (s.kernel.tcbs t).context = allocProcContext t (s.kernel.tcbs t).kStack
  /-- They are what the threads are to be switched in with. -/
  saved_eq : ∀ t ∈ T, s.saved (.thread t) = (s.kernel.tcbs t).context

/-- A thread `k` runs, dispatched by `main`. -/
structure Dispatched (T : Set Ptr) (mainTcb : Ptr) (s : SwitchState) (k : Ptr) : Prop where
  /-- It is a thread. -/
  mem : k ∈ T
  /-- It has the processor. -/
  running_eq : s.running = .thread k
  /-- It is the current one. -/
  cur_eq : s.kernel.ksCurThread = k
  /-- It was dispatched by `main`. -/
  old_eq : s.kernel.oldThread = mainTcb
  /-- `main`'s control block has its context. -/
  context_main : (s.kernel.tcbs mainTcb).context = s.saved .main
  /-- That context is on the stack of `main`. -/
  stack_main : (s.saved .main).stack = .main

/-- The invariant: a thread without the processor has in its control block the context it was
switched out with, and either `main` runs or a thread dispatched by it. -/
structure SwitchInv (T : Set Ptr) (mainTcb : Ptr) (s : SwitchState) : Prop where
  /-- `main` has a control block of its own. -/
  notMem : mainTcb ∉ T
  /-- The contexts are on the stacks of their threads. -/
  stack : ∀ t ∈ T, (s.saved (.thread t)).stack = .thread t
  /-- They are in the control blocks of their threads. -/
  context_eq : ∀ t ∈ T, s.running ≠ .thread t →
    (s.kernel.tcbs t).context = s.saved (.thread t)
  /-- Who runs. -/
  running : s.running = .main ∨ ∃ k, Dispatched T mainTcb s k

section Invariant

variable {T : Set Ptr} {mainTcb : Ptr} {s : SwitchState}

theorem SwitchInit.inv (h : SwitchInit T mainTcb s) : SwitchInv T mainTcb s where
  notMem := h.notMem
  stack t ht := by rw [h.saved_eq t ht, h.context_eq t ht, allocProcContext]
  context_eq t ht _ := (h.saved_eq t ht).symm
  running := Or.inl h.running_eq

theorem context_switchToThreadEnter (t p : Ptr) (k : KState) :
    ((switchToThreadEnter t k).tcbs p).context = (k.tcbs p).context :=
  KState.eq_of_eraseSched eraseSched_tcbSchedDequeue (fun k => (k.tcbs p).context) fun _ => rfl

theorem oldThread_switchToThreadEnter (t : Ptr) (k : KState) :
    (switchToThreadEnter t k).oldThread = k.ksCurThread :=
  KState.eq_of_eraseSched eraseSched_tcbSchedDequeue KState.ksCurThread fun _ => rfl

@[simp] theorem saved_resumed : (resumed s).saved = s.saved := by
  simp only [resumed]
  split_ifs <;> rfl

@[simp] theorem running_resumed : (resumed s).running = s.running := by
  simp only [resumed]
  split_ifs <;> rfl

theorem resumed_kernel {α : Type*} (g : KState → α) (h : ∀ k, g (kernelSwitchVm k) = g k) :
    g (resumed s).kernel = g s.kernel := by
  simp only [resumed]
  split_ifs
  · exact h _
  · rfl

theorem owner_of_mem (h : mainTcb ∉ T) {t : Ptr} (ht : t ∈ T) : owner mainTcb t = .thread t := by
  rw [owner, if_neg]
  rintro rfl
  exact h ht

theorem owner_eq_main_iff {t : Ptr} : owner mainTcb t = .main ↔ t = mainTcb := by
  rw [owner]
  split_ifs with h <;> simp [h]

/-- A thread that is switched in loads its own context; the context of `main` is saved in its
control block exactly if that is the current one. -/
theorem intact_switchToThread_iff (h : SwitchInv T mainTcb s) (hrun : s.running = .main) {t : Ptr}
    (ht : t ∈ T) :
    IntactSwtch mainTcb s (switchToThreadArgs t (switchToThreadEnter t s.kernel)) (.thread t) ↔
      s.kernel.ksCurThread = mainTcb := by
  have hload : ((switchToThreadEnter t s.kernel).tcbs t).context = s.saved (.thread t) := by
    rw [context_switchToThreadEnter, h.context_eq t ht (by simp [hrun])]
  rw [IntactSwtch, switchToThreadArgs, hload, and_iff_left rfl, hrun, owner_eq_main_iff,
    oldThread_switchToThreadEnter]

/-- A dispatched thread gives the processor back to `main`. -/
theorem Dispatched.intact_sched {k : Ptr} (hk : Dispatched T mainTcb s k) (h : mainTcb ∉ T) :
    IntactSwtch mainTcb s (schedArgs s.kernel) .main := by
  refine ⟨?_, ?_⟩
  · rw [schedArgs, hk.cur_eq, owner_of_mem h hk.mem, hk.running_eq]
  · rw [schedArgs, hk.old_eq, hk.context_main]

theorem SwitchInv.switchToThread (h : SwitchInv T mainTcb s) (hrun : s.running = .main) {t : Ptr}
    (ht : t ∈ T) (hcur : s.kernel.ksCurThread = mainTcb) (rsp : U64) :
    SwitchInv T mainTcb (switchToThreadSwtch t rsp s) := by
  have hne : ∀ u ∈ T, u ≠ mainTcb := fun u hu heq => h.notMem (heq ▸ hu)
  have hcontext := h.context_eq t ht (by simp [hrun])
  have hsaved : ∀ u, (switchToThreadSwtch t rsp s).saved (.thread u) = s.saved (.thread u) :=
    fun u => by simp [switchToThreadSwtch, swtch, hrun]
  have hrunning : (switchToThreadSwtch t rsp s).running = .thread t := by
    simp [switchToThreadSwtch, swtch, switchToThreadArgs, context_switchToThreadEnter, hcontext,
      h.stack t ht]
  refine ⟨h.notMem, fun u hu => ?_, fun u hu _ => ?_, Or.inr ⟨t, ht, hrunning, ?_, ?_, ?_, ?_⟩⟩
  · rw [hsaved, h.stack u hu]
  · rw [hsaved, switchToThreadSwtch, resumed_kernel (fun k => (k.tcbs u).context) fun _ => rfl]
    simp only [swtch, switchToThreadArgs, oldThread_switchToThreadEnter, hcur]
    rw [KState.tcbs_modTcb_of_ne _ (hne u hu), context_switchToThreadEnter,
      h.context_eq u hu (by simp [hrun])]
  · rw [switchToThreadSwtch, resumed_kernel KState.ksCurThread fun _ => rfl]
    rfl
  · rw [switchToThreadSwtch, resumed_kernel KState.oldThread fun _ => rfl]
    exact (oldThread_switchToThreadEnter t s.kernel).trans hcur
  · rw [switchToThreadSwtch, resumed_kernel (fun k => (k.tcbs mainTcb).context) fun _ => rfl]
    simp [swtch, switchToThreadArgs, oldThread_switchToThreadEnter, hcur, hrun]
  · simp [switchToThreadSwtch, swtch, hrun]

theorem SwitchInv.sched (h : SwitchInv T mainTcb s) {k : Ptr} (hk : Dispatched T mainTcb s k)
    (rsp : U64) : SwitchInv T mainTcb (sched rsp s) := by
  have hrunning : (MicroKernel.sched rsp s).running = .main := by
    simp [MicroKernel.sched, swtch, schedArgs, hk.old_eq, hk.context_main, hk.stack_main]
  have hsaved : ∀ u, (MicroKernel.sched rsp s).saved (.thread u) =
      if u = k then ⟨.thread k, rsp⟩ else s.saved (.thread u) := fun u => by
    simp [MicroKernel.sched, swtch, hk.running_eq, Function.update_apply]
  refine ⟨h.notMem, fun u hu => ?_, fun u hu _ => ?_, Or.inl hrunning⟩
  · rw [hsaved]
    split_ifs with huk
    · rw [huk]
    · exact h.stack u hu
  · rw [hsaved, MicroKernel.sched, resumed_kernel (fun k => (k.tcbs u).context) fun _ => rfl]
    simp only [swtch, schedArgs, hk.cur_eq]
    split_ifs with huk
    · simp [huk, hk.running_eq]
    · rw [KState.tcbs_modTcb_of_ne _ huk, h.context_eq u hu]
      rw [hk.running_eq]
      exact fun heq => huk (by cases heq; rfl)

theorem SwitchInv.enqueue (h : SwitchInv T mainTcb s) (t : Ptr) :
    SwitchInv T mainTcb { s with kernel := tcbSchedEnqueue t s.kernel } := by
  have herase := eraseSched_tcbSchedEnqueue (s := s.kernel) (t := t)
  have hcontext : ∀ u, ((tcbSchedEnqueue t s.kernel).tcbs u).context = (s.kernel.tcbs u).context :=
    fun u => KState.eq_of_eraseSched herase (fun k => (k.tcbs u).context) fun _ => rfl
  refine ⟨h.notMem, h.stack, fun u hu hne => ?_, h.running.imp_right ?_⟩
  · exact (hcontext u).trans (h.context_eq u hu hne)
  · rintro ⟨k, hk⟩
    have hcur := KState.eq_of_eraseSched herase KState.ksCurThread fun _ => rfl
    have hold := KState.eq_of_eraseSched herase KState.oldThread fun _ => rfl
    exact ⟨k, hk.mem, hk.running_eq, hcur.trans hk.cur_eq, hold.trans hk.old_eq,
      (hcontext _).trans hk.context_main, hk.stack_main⟩

/-- A step keeps the invariant, if it does not dispatch from another control block. -/
theorem SwitchInv.step {x : System.Step SwitchState SwitchEvent}
    (hstep : (switchSystem T).step x.pre x.ev x.post) (hfrom : FromMain mainTcb x)
    (h : SwitchInv T mainTcb x.pre) : SwitchInv T mainTcb x.post := by
  obtain ⟨pre, ev, post⟩ := x
  simp only [switchSystem] at hstep
  cases ev with
  | switchToThread t rsp =>
    obtain ⟨hrun, ht, rfl⟩ := hstep
    exact h.switchToThread hrun ht (hfrom t rsp rfl) rsp
  | sched rsp =>
    obtain ⟨hrun, rfl⟩ := hstep
    obtain ⟨k, hk⟩ := h.running.resolve_left hrun
    exact h.sched hk rsp
  | enqueue t =>
    obtain ⟨-, rfl⟩ := hstep
    exact h.enqueue t

/-- A step is intact exactly if it does not dispatch from another control block. -/
theorem SwitchInv.intact_iff {x : System.Step SwitchState SwitchEvent}
    (hstep : (switchSystem T).step x.pre x.ev x.post) (h : SwitchInv T mainTcb x.pre) :
    Intact mainTcb x ↔ FromMain mainTcb x := by
  obtain ⟨pre, ev, post⟩ := x
  cases ev with
  | switchToThread t rsp =>
    obtain ⟨hrun, ht, -⟩ := hstep
    refine (intact_switchToThread_iff h hrun ht).trans ⟨fun hcur _ _ _ => hcur, fun hfrom => ?_⟩
    exact hfrom t rsp rfl
  | sched rsp =>
    obtain ⟨k, hk⟩ := h.running.resolve_left hstep.1
    exact iff_of_true (hk.intact_sched h.notMem) fun _ _ heq => by cases heq
  | enqueue t => exact iff_of_true trivial fun _ _ heq => by cases heq

end Invariant

/-- In a run of the scheduling loop every switch is intact, if and only if every dispatch is made
while the control block of `main` is the current one. -/
theorem switchSystem_intact_iff {T : Set Ptr} {mainTcb : Ptr} {s s' : SwitchState}
    {tr : List (System.Step SwitchState SwitchEvent)} (h₀ : SwitchInit T mainTcb s)
    (hrun : (switchSystem T).Run s tr s') :
    (∀ x ∈ tr, Intact mainTcb x) ↔ ∀ x ∈ tr, FromMain mainTcb x :=
  hrun.forall_iff h₀.inv (fun _ hstep hfrom h => h.step hstep hfrom)
    fun _ hstep h => h.intact_iff hstep

/-! ### Who goes on -/

/-- What holds in every run, damaged contexts included: the context of a thread is on its own stack
or on `main`'s, and the thread that runs is the current one and was dispatched from a control block
that has a context of `main`. -/
structure SwitchStacks (T : Set Ptr) (s : SwitchState) : Prop where
  /-- The contexts of threads. -/
  stack : ∀ t ∈ T, (s.kernel.tcbs t).context.stack = .main ∨
    (s.kernel.tcbs t).context.stack = .thread t
  /-- Who runs. -/
  running : s.running = .main ∨ s.kernel.ksCurThread ∈ T ∧
    s.running = .thread s.kernel.ksCurThread ∧
    (s.kernel.tcbs s.kernel.oldThread).context.stack = .main

section Stacks

variable {T : Set Ptr} {s : SwitchState}

theorem SwitchInit.stacks {mainTcb : Ptr} (h : SwitchInit T mainTcb s) : SwitchStacks T s :=
  ⟨fun t ht => Or.inr (by rw [h.context_eq t ht, allocProcContext]), Or.inl h.running_eq⟩

theorem context_modTcb (k : KState) (p q : Ptr) (c : Context) :
    ((k.modTcb p fun t => { t with context := c }).tcbs q).context =
      if q = p then c else (k.tcbs q).context := by
  split_ifs with h
  · subst h
    simp
  · simp [h]

theorem context_switchToThreadSwtch (t : Ptr) (rsp : U64) (q : Ptr) :
    ((switchToThreadSwtch t rsp s).kernel.tcbs q).context =
      if q = s.kernel.ksCurThread then ⟨s.running, rsp⟩ else (s.kernel.tcbs q).context := by
  rw [switchToThreadSwtch, resumed_kernel (fun k => (k.tcbs q).context) fun _ => rfl]
  simp only [swtch, switchToThreadArgs, context_modTcb, context_switchToThreadEnter,
    oldThread_switchToThreadEnter]

theorem context_sched (rsp : U64) (q : Ptr) :
    ((sched rsp s).kernel.tcbs q).context =
      if q = s.kernel.ksCurThread then ⟨s.running, rsp⟩ else (s.kernel.tcbs q).context := by
  rw [sched, resumed_kernel (fun k => (k.tcbs q).context) fun _ => rfl]
  simp only [swtch, schedArgs, context_modTcb]

theorem SwitchStacks.switchToThread (h : SwitchStacks T s) (hrun : s.running = .main) {t : Ptr}
    (ht : t ∈ T) (rsp : U64) : SwitchStacks T (switchToThreadSwtch t rsp s) ∧
      ((switchToThreadSwtch t rsp s).running = .main ∨
        (switchToThreadSwtch t rsp s).running = .thread t) := by
  have hrunning : (switchToThreadSwtch t rsp s).running = (s.kernel.tcbs t).context.stack := by
    simp [switchToThreadSwtch, swtch, switchToThreadArgs, context_switchToThreadEnter]
  have hcur : (switchToThreadSwtch t rsp s).kernel.ksCurThread = t := by
    rw [switchToThreadSwtch, resumed_kernel KState.ksCurThread fun _ => rfl]
    rfl
  have hold : (switchToThreadSwtch t rsp s).kernel.oldThread = s.kernel.ksCurThread := by
    rw [switchToThreadSwtch, resumed_kernel KState.oldThread fun _ => rfl]
    exact oldThread_switchToThreadEnter t s.kernel
  refine ⟨⟨fun u hu => ?_, ?_⟩, hrunning ▸ h.stack t ht⟩
  · rw [context_switchToThreadSwtch, hrun]
    split_ifs
    · exact Or.inl rfl
    · exact h.stack u hu
  · rw [hrunning, hcur, hold, context_switchToThreadSwtch, if_pos rfl, hrun]
    exact (h.stack t ht).imp_right fun hstack => ⟨ht, hstack, rfl⟩

theorem SwitchStacks.sched (h : SwitchStacks T s) (hrun : s.running ≠ .main) (rsp : U64) :
    SwitchStacks T (sched rsp s) ∧ (MicroKernel.sched rsp s).running = .main := by
  obtain ⟨hcur, hrunning, hold⟩ := h.running.resolve_left hrun
  have hmain : (MicroKernel.sched rsp s).running = .main := by
    simpa [MicroKernel.sched, swtch, schedArgs] using hold
  refine ⟨⟨fun u hu => ?_, Or.inl hmain⟩, hmain⟩
  rw [context_sched, hrunning]
  split_ifs with hu'
  · exact Or.inr (by rw [hu'])
  · exact h.stack u hu

/-- In every run a dispatch gives the processor to the dispatched thread or back to `main`, and
`sched()` gives it to `main`. -/
theorem switchSystem_resumes {mainTcb : Ptr} {s' : SwitchState}
    {tr : List (System.Step SwitchState SwitchEvent)} (h₀ : SwitchInit T mainTcb s)
    (hrun : (switchSystem T).Run s tr s') :
    ∀ x ∈ tr, (∀ t rsp, x.ev = .switchToThread t rsp →
        x.post.running = .main ∨ x.post.running = .thread t) ∧
      ∀ rsp, x.ev = .sched rsp → x.post.running = .main := by
  have hstep : ∀ x : System.Step SwitchState SwitchEvent,
      (switchSystem T).step x.pre x.ev x.post → True → SwitchStacks T x.pre →
        SwitchStacks T x.post ∧ (∀ t rsp, x.ev = .switchToThread t rsp →
          x.post.running = .main ∨ x.post.running = .thread t) ∧
          ∀ rsp, x.ev = .sched rsp → x.post.running = .main := by
    rintro ⟨pre, ev, post⟩ hst - hpre
    simp only [switchSystem] at hst
    cases ev with
    | switchToThread t rsp =>
      obtain ⟨hmain, ht, rfl⟩ := hst
      obtain ⟨hpost, hwho⟩ := hpre.switchToThread hmain ht rsp
      exact ⟨hpost, fun _ _ heq => by cases heq; exact hwho, fun _ heq => by cases heq⟩
    | sched rsp =>
      obtain ⟨hthread, rfl⟩ := hst
      obtain ⟨hpost, hwho⟩ := hpre.sched hthread rsp
      exact ⟨hpost, fun _ _ heq => (by cases heq), fun _ _ => hwho⟩
    | enqueue t =>
      obtain ⟨-, rfl⟩ := hst
      have herase := eraseSched_tcbSchedEnqueue (s := pre.kernel) (t := t)
      refine ⟨⟨fun u hu => ?_, ?_⟩, fun _ _ heq => (by cases heq), fun _ heq => by cases heq⟩
      · rw [KState.eq_of_eraseSched herase (fun k => (k.tcbs u).context) fun _ => rfl]
        exact hpre.stack u hu
      · dsimp only
        rw [KState.eq_of_eraseSched herase (fun k => (k.tcbs k.oldThread).context.stack)
            fun _ => rfl, KState.eq_of_eraseSched herase KState.ksCurThread fun _ => rfl]
        exact hpre.running
  intro x hx
  have hinv := (hrun.invariant h₀.stacks (fun x hst hC hpre => (hstep x hst hC hpre).1)
    fun _ _ => trivial).2 x hx
  exact (hstep x (hrun.step_of_mem x hx) trivial hinv.1).2

end Stacks

/-! ### A damaged context -/

/-- Two threads, at `0x1000` and `0x3000`, wait in the ready queue; `main`'s control block is at
`0x5000`. -/
def switchStart : SwitchState where
  kernel := tcbSchedEnqueue 0x1000 <| tcbSchedEnqueue 0x3000
    { KState.zero with
      tcbs := fun t => { Tcb.zero with
        kStack := t + 0x1000
        context := allocProcContext t (t + 0x1000) }
      ksCurThread := 0x5000 }
  running := .main
  saved
    | .main => ⟨.main, 0⟩
    | .thread t => allocProcContext t (t + 0x1000)

/-- `main` dispatches the first thread. -/
def switchFirst : SwitchState := switchToThreadSwtch 0x1000 0x7F00 switchStart

/-- The thread gives the processor back. -/
def switchBack : SwitchState := sched 0x2E00 switchFirst

/-- `main` dispatches the second thread. -/
def switchSecond : SwitchState := switchToThreadSwtch 0x3000 0x7F00 switchBack

/-- The three steps. -/
def switchTrace : List (System.Step SwitchState SwitchEvent) :=
  [⟨switchStart, .switchToThread 0x1000 0x7F00, switchFirst⟩,
    ⟨switchFirst, .sched 0x2E00, switchBack⟩,
    ⟨switchBack, .switchToThread 0x3000 0x7F00, switchSecond⟩]

theorem switchStart_init : SwitchInit {0x1000, 0x3000} 0x5000 switchStart where
  notMem := by simp
  cur_eq := rfl
  running_eq := rfl
  context_eq := by
    rintro t (rfl | rfl) <;> decide
  saved_eq := by
    rintro t (rfl | rfl) <;> decide

theorem switchBack_run :
    (switchSystem {0x1000, 0x3000}).Run switchStart switchTrace.dropLast switchBack := by
  have h₁ : (switchSystem {0x1000, 0x3000}).step switchStart (.switchToThread 0x1000 0x7F00)
      switchFirst := ⟨rfl, Or.inl rfl, rfl⟩
  have h₂ : (switchSystem {0x1000, 0x3000}).step switchFirst (.sched 0x2E00) switchBack :=
    ⟨by decide, rfl⟩
  exact (System.Run.single h₁).snoc h₂

theorem switchTrace_run :
    (switchSystem {0x1000, 0x3000}).Run switchStart switchTrace switchSecond :=
  have h₃ : (switchSystem {0x1000, 0x3000}).step switchBack (.switchToThread 0x3000 0x7F00)
      switchSecond := ⟨by decide, Or.inr rfl, rfl⟩
  switchBack_run.snoc h₃

/-- The two steps before the second dispatch meet the condition: nothing is damaged. -/
theorem switchSystem_intact_iff_back :
    switchTrace.dropLast.length = 2 ∧ ∀ x ∈ switchTrace.dropLast, Intact 0x5000 x := by
  refine ⟨rfl, (switchSystem_intact_iff switchStart_init switchBack_run).2 ?_⟩
  simp only [switchTrace, List.dropLast_cons_cons, List.dropLast_singleton, List.forall_mem_cons]
  exact ⟨fun _ _ _ => rfl, nofun, nofun⟩

/-- A switch can damage a context: at the second dispatch the current control block is the one of
the thread dispatched first, and the stack pointer of `main` is saved there. -/
theorem not_switchSystem_intact :
    ¬∀ (T : Set Ptr) (mainTcb : Ptr) (s s' : SwitchState)
      (tr : List (System.Step SwitchState SwitchEvent)), SwitchInit T mainTcb s →
      (switchSystem T).Run s tr s' → ∀ x ∈ tr, Intact mainTcb x := by
  intro hall
  have hintact := hall _ _ _ _ _ switchStart_init switchTrace_run
    ⟨switchBack, .switchToThread 0x3000 0x7F00, switchSecond⟩ (by simp [switchTrace])
  exact absurd hintact.1 (by decide)

end MicroKernel
