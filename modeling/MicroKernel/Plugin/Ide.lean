import Mathlib.Data.List.Basic
import Mathlib.Logic.Function.Basic
import MicroKernel.System.Run
import MicroKernel.System.While

/-!
# The disk driver

The driver keeps the buffers of its requests in a queue that is linked by `qnext`.  A request is
appended by `ide_rw`, the first one is given to the controller, and the interrupt that says that the
controller is ready takes it off the queue.

* `ideRw`, `ideIntr` : the functions of the driver;
* `Served` : the queue holds the requests that are not completed, in their order, the controller has
  got all requests up to the first of them, and the completed ones are valid and clean;
* `Inv.step` : what one step keeps;
* `served_iff` : the steps of a run serve the requests exactly if no request is appended to another
  and no buffer is completed whose data are not valid and clean already.
-/

namespace MicroKernel

namespace IdeDriver

/-! ### The code -/

/-- A pointer to a `Buf`. -/
abbrev Ptr := ℕ

/-- `B_VALID`. -/
def bValid : BitVec 32 := 0x2

/-- `B_DIRTY`. -/
def bDirty : BitVec 32 := 0x4

/-- `IDE_DF | IDE_ERR`. -/
def ideError : BitVec 32 := 0x20 ||| 0x01

/-- The fields of `struct Buf` that the driver uses. -/
structure Buf where
  /-- `flags`. -/
  flags : BitVec 32
  /-- `dev`. -/
  dev : BitVec 32
  /-- `blockNo`. -/
  blockNo : BitVec 32
  /-- The next buffer of the cache. -/
  next : Ptr
  /-- The next buffer of the queue. -/
  qnext : Ptr
  /-- `data`. -/
  data : List (BitVec 8)

/-- What the controller gets. -/
structure Command where
  /-- The ports and what is written to them. -/
  ports : List (ℕ × BitVec 32)
  /-- The data that follow. -/
  data : List (BitVec 8)

/-- The state of the driver, and what has happened so far. -/
structure Ide where
  /-- The buffers. -/
  bufs : Ptr → Buf
  /-- `ideQueue`. -/
  ideQueue : Ptr
  /-- The calls of `ide_start`. -/
  started : List (Ptr × Command)
  /-- The calls of `ide_rw`. -/
  submitted : List Ptr
  /-- The buffers that were taken off the queue. -/
  completed : List Ptr

/-- What `ide_start` tells the controller. -/
def Buf.command (b : Buf) : Command where
  ports := [(0x3f6, 0), (0x1f2, 1), (0x1f3, b.blockNo &&& 0xff),
    (0x1f4, (b.blockNo >>> 8) &&& 0xff), (0x1f5, (b.blockNo >>> 16) &&& 0xff),
    (0x1f6, 0xe0 ||| (b.dev &&& 1) <<< 4 ||| ((b.blockNo >>> 24) &&& 0x0f)),
    (0x1f7, if b.flags &&& bDirty ≠ 0 then 0x30 else 0x20)]
  data := if b.flags &&& bDirty ≠ 0 then b.data else []

/-- `ide_start`. -/
def ideStart (b : Ptr) (s : Ide) : Ide :=
  { s with started := s.started ++ [(b, (s.bufs b).command)] }

/-- What `ide_wait` returns if the disk becomes ready with this status. -/
def ideWait (checkErr : Bool) (status : BitVec 32) : ℤ :=
  if checkErr ∧ status &&& ideError ≠ 0 then -1 else 0

/-- `pp.next = b`. -/
def Ide.setNext (s : Ide) (pp b : Ptr) : Ide :=
  { s with bufs := Function.update s.bufs pp { s.bufs pp with next := b } }

/-- `insl(0x1f0, b.data, 512/4)`. -/
def Ide.setData (s : Ide) (b : Ptr) (sector : List (BitVec 8)) : Ide :=
  { s with bufs := Function.update s.bufs b { s.bufs b with data := sector } }

/-- `if(ideQueue == b) ide_start(b)`. -/
def startFirst (b : Ptr) (s : Ide) : Ide := if s.ideQueue = b then ideStart b s else s

/-- `ide_rw`, up to the wait for the request, where the loop makes at most `n` tests. -/
def ideRw (n : ℕ) (b : Ptr) (s : Ide) : Option Ide := do
  let s := { s with submitted := s.submitted ++ [b] }
  if s.ideQueue ≠ 0 then
    let pp ← whileLoop (fun pp => (s.bufs pp).qnext ≠ 0) (fun pp => (s.bufs pp).next) n s.ideQueue
    some (startFirst b (s.setNext pp b))
  else some (startFirst b { s with ideQueue := b })

/-- `ide_intr`, for a status of the disk and the sector that it has read. -/
def ideIntr (status : BitVec 32) (sector : List (BitVec 8)) (s : Ide) : Ide :=
  if s.ideQueue = 0 then s
  else
    let b := s.ideQueue
    let s := { s with ideQueue := (s.bufs b).qnext, completed := s.completed ++ [b] }
    let s := if (s.bufs b).flags &&& bDirty = 0 ∧ ideWait true status ≥ 0 then s.setData b sector
      else s
    if s.ideQueue ≠ 0 then ideStart s.ideQueue s else s

/-- The condition for which `ide_rw` waits. -/
def Buf.Done (b : Buf) : Prop := b.flags &&& (bValid ||| bDirty) = bValid

/-! ### Runs -/

/-- A call or an interrupt. -/
inductive Event where
  /-- `ide_rw(b)`. -/
  | rw (b : Ptr)
  /-- `ide_intr()`. -/
  | intr (status : BitVec 32) (sector : List (BitVec 8))

/-- The step of an event. -/
def ideStep (n : ℕ) (s : Ide) : Event → Option Ide
  | .rw b => ideRw n b s
  | .intr status sector => some (ideIntr status sector s)

/-- The calls are for distinct buffers. -/
def Event.Distinct (s : Ide) : Event → Prop
  | .rw b => b ≠ 0 ∧ b ∉ s.submitted
  | .intr _ _ => True

/-- Calls and interrupts in any order. -/
def ideSystem : System Ide Event where
  step s e s' := e.Distinct s ∧ ∃ n, ideStep n s e = some s'

/-- At the beginning nothing is queued. -/
structure Initial (s : Ide) : Prop where
  /-- The queue is empty. -/
  ideQueue : s.ideQueue = 0
  /-- The buffers are not linked. -/
  qnext : ∀ p, (s.bufs p).qnext = 0
  /-- Nothing was started. -/
  started : s.started = []
  /-- Nothing was submitted. -/
  submitted : s.submitted = []
  /-- Nothing was completed. -/
  completed : s.completed = []

/-- The buffers from a pointer on, linked by `qnext`. -/
def Chain (bufs : Ptr → Buf) : Ptr → List Ptr → Prop
  | p, [] => p = 0
  | p, b :: l => p ≠ 0 ∧ p = b ∧ Chain bufs (bufs b).qnext l

/-- The requests are served in their order, and none is lost. -/
structure Served (s : Ide) : Prop where
  /-- The queue holds the requests that are not completed. -/
  queued : ∃ l, Chain s.bufs s.ideQueue l ∧ s.submitted = s.completed ++ l
  /-- The controller has got all requests up to the first in the queue, each once. -/
  started : s.started.map Prod.fst = s.submitted.take (s.completed.length + 1)
  /-- The waiters of the completed requests finish. -/
  done : ∀ b ∈ s.completed, (s.bufs b).Done

/-- The request is alone, or the buffer is valid and clean before the interrupt. -/
def Event.Harmless (s : Ide) : Event → Prop
  | .rw _ => s.ideQueue = 0
  | .intr _ _ => s.ideQueue = 0 ∨ (s.bufs s.ideQueue).Done

/-! ### One step -/

section Step

variable {s s' : Ide} {e : Event} {n : ℕ} {p b : Ptr} {l : List Ptr} {status : BitVec 32}
  {sector : List (BitVec 8)}

/-- The links of the queue and the flags are the same. -/
def SameLinks (s s' : Ide) : Prop :=
  ∀ p, (s'.bufs p).qnext = (s.bufs p).qnext ∧ (s'.bufs p).flags = (s.bufs p).flags

theorem sameLinks_update {x : Buf} (hqnext : x.qnext = (s.bufs b).qnext)
    (hflags : x.flags = (s.bufs b).flags) (hbufs : s'.bufs = Function.update s.bufs b x) :
    SameLinks s s' := by
  intro p
  rw [hbufs]
  by_cases hp : p = b
  · rw [hp, Function.update_self]
    exact ⟨hqnext, hflags⟩
  · rw [Function.update_of_ne hp]
    exact ⟨rfl, rfl⟩

/-- No buffer is linked by `qnext`. -/
def Unlinked (s : Ide) : Prop := ∀ p, (s.bufs p).qnext = 0

theorem Unlinked.same (h : Unlinked s) (hsame : SameLinks s s') : Unlinked s' :=
  fun p => (hsame p).1.trans (h p)

/-- Without links, at most one buffer is in the queue. -/
theorem Unlinked.chain (h : Unlinked s) (hl : Chain s.bufs p l) :
    p = 0 ∧ l = [] ∨ p ≠ 0 ∧ l = [p] := by
  match l, hl with
  | [], hp => exact .inl ⟨hp, rfl⟩
  | [b], ⟨hp, hb, _⟩ => exact .inr ⟨hp, by rw [hb]⟩
  | b :: c :: l, ⟨_, _, hc, _⟩ => exact absurd (h b) hc

theorem Unlinked.chain_self (h : Unlinked s) (hp : p ≠ 0) : Chain s.bufs p [p] := ⟨hp, rfl, h p⟩

/-- What `ide_rw` does if the queue is empty. -/
theorem ideRw_empty (h : s.ideQueue = 0) : ideRw n b s = some (ideStart b
    { s with
      submitted := s.submitted ++ [b]
      ideQueue := b }) := by
  simp only [ideRw, h, ne_eq, not_true_eq_false, if_false, startFirst, if_true]

/-- What `ide_rw` does if there is another request: its buffer is not linked to the queue. -/
theorem ideRw_queued (hqnext : Unlinked s) (h : s.ideQueue ≠ 0) (hb : s.ideQueue ≠ b) :
    ideRw (n + 1) b s = some ({ s with submitted := s.submitted ++ [b] }.setNext s.ideQueue b) := by
  have hloop : whileLoop (fun pp => (s.bufs pp).qnext ≠ 0) (fun pp => (s.bufs pp).next) (n + 1)
      s.ideQueue = some s.ideQueue := by
    rw [whileLoop, if_neg (not_not.2 (hqnext _))]
  rw [ideRw]
  dsimp only
  rw [if_pos h, hloop, Option.bind_eq_bind, Option.bind_some, startFirst, if_neg]
  exact hb

theorem ideRw_zero (h : s.ideQueue ≠ 0) : ideRw 0 b s = none := by
  rw [ideRw]
  dsimp only
  rw [if_pos h]
  rfl

/-- What `ide_intr` does: the data may have been read. -/
theorem ideIntr_queued (status : BitVec 32) (sector : List (BitVec 8)) (hqnext : Unlinked s)
    (h : s.ideQueue ≠ 0) :
    (ideIntr status sector s).ideQueue = 0 ∧
      (ideIntr status sector s).submitted = s.submitted ∧
      (ideIntr status sector s).completed = s.completed ++ [s.ideQueue] ∧
      (ideIntr status sector s).started = s.started ∧
      SameLinks s (ideIntr status sector s) := by
  rw [ideIntr, if_neg h]
  dsimp only
  split_ifs with hread hnext hnext
  · exact absurd (hqnext _) hnext
  · exact ⟨hqnext _, rfl, rfl, rfl,
      sameLinks_update (x := { s.bufs s.ideQueue with data := sector }) rfl rfl rfl⟩
  · exact absurd (hqnext _) hnext
  · exact ⟨hqnext _, rfl, rfl, rfl, fun _ => ⟨rfl, rfl⟩⟩

/-- The invariant of the runs in which no request is appended to another. -/
structure Inv (s : Ide) : Prop where
  /-- The buffers are not linked. -/
  unlinked : Unlinked s
  /-- The requests are served. -/
  served : Served s

theorem Initial.inv (h : Initial s) : Inv s := by
  refine ⟨h.qnext, ⟨[], h.ideQueue, ?_⟩, ?_, ?_⟩
  · rw [h.submitted, h.completed]
    rfl
  · rw [h.started, h.submitted]
    rfl
  · rw [h.completed]
    exact fun _ hb => absurd hb List.not_mem_nil

theorem Inv.queued (h : Inv s) :
    s.ideQueue = 0 ∧ s.submitted = s.completed ∨
      s.ideQueue ≠ 0 ∧ s.submitted = s.completed ++ [s.ideQueue] := by
  obtain ⟨l, hl, hsubmitted⟩ := h.served.queued
  rcases h.unlinked.chain hl with ⟨hp, rfl⟩ | ⟨hp, rfl⟩
  · exact .inl ⟨hp, by rw [hsubmitted, List.append_nil]⟩
  · exact .inr ⟨hp, hsubmitted⟩

theorem Inv.rw_empty (h : Inv s) (hempty : s.ideQueue = 0) (hb : b ≠ 0)
    (hstep : ideRw n b s = some s') : Inv s' := by
  have hsubmitted : s.submitted = s.completed := by
    rcases h.queued with hq | hq
    · exact hq.2
    · exact absurd hempty hq.1
  rw [ideRw_empty hempty, Option.some_inj] at hstep
  subst hstep
  refine ⟨h.unlinked, ⟨[b], h.unlinked.chain_self hb, ?_⟩, ?_, h.served.done⟩
  · exact congrArg (· ++ [b]) hsubmitted
  · have hstarted := h.served.started
    rw [hsubmitted, List.take_of_length_le (Nat.le_succ _)] at hstarted
    simp only [ideStart, List.map_append, List.map_cons, List.map_nil]
    rw [hstarted, hsubmitted, List.take_of_length_le]
    rw [List.length_append, List.length_singleton]

/-- A further request is lost. -/
theorem Inv.not_served_rw (h : Inv s) (hqueue : s.ideQueue ≠ 0) (hb : b ∉ s.submitted)
    (hstep : ideRw n b s = some s') : ¬Served s' := by
  intro hserved
  have hsubmitted : s.submitted = s.completed ++ [s.ideQueue] := by
    rcases h.queued with hq | hq
    · exact absurd hq.1 hqueue
    · exact hq.2
  have hne : s.ideQueue ≠ b := by
    rintro rfl
    rw [hsubmitted] at hb
    exact hb (List.mem_append_right _ List.mem_cons_self)
  cases n with
  | zero =>
    rw [ideRw_zero hqueue] at hstep
    cases hstep
  | succ n =>
    rw [ideRw_queued h.unlinked hqueue hne, Option.some_inj] at hstep
    subst hstep
    obtain ⟨l, hl, hall⟩ := hserved.queued
    have hunlinked : Unlinked ({ s with submitted := s.submitted ++ [b] }.setNext s.ideQueue b) :=
      h.unlinked.same (sameLinks_update (b := s.ideQueue)
        (x := { s.bufs s.ideQueue with next := b }) rfl rfl rfl)
    rcases hunlinked.chain hl with ⟨hp, -⟩ | ⟨-, rfl⟩
    · exact hqueue hp
    · have hlen := congrArg List.length hall
      simp only [Ide.setNext, hsubmitted, List.length_append, List.length_singleton] at hlen
      omega

/-- The interrupt takes the request off the queue, and leaves the flags as they are. -/
theorem Inv.intr_queued (h : Inv s) (hqueue : s.ideQueue ≠ 0) :
    Unlinked (ideIntr status sector s) ∧
      (Served (ideIntr status sector s) ↔ (s.bufs s.ideQueue).Done) := by
  obtain ⟨hempty, hsub, hcomp, hstart, hsame⟩ := ideIntr_queued status sector h.unlinked hqueue
  have hsubmitted : s.submitted = s.completed ++ [s.ideQueue] := by
    rcases h.queued with hq | hq
    · exact absurd hq.1 hqueue
    · exact hq.2
  have hdone (p : Ptr) : ((ideIntr status sector s).bufs p).Done ↔ (s.bufs p).Done := by
    rw [Buf.Done, Buf.Done, (hsame p).2]
  refine ⟨h.unlinked.same hsame, fun hserved => ?_, fun hhead => ⟨⟨[], hempty, ?_⟩, ?_, ?_⟩⟩
  · refine (hdone _).1 (hserved.done _ ?_)
    rw [hcomp]
    exact List.mem_append_right _ List.mem_cons_self
  · rw [hsub, hcomp, hsubmitted, List.append_nil]
  · have hstarted := h.served.started
    rw [hsubmitted, List.take_of_length_le (by rw [List.length_append]; rfl)] at hstarted
    rw [hstart, hstarted, hsub, hcomp, hsubmitted, List.take_of_length_le (Nat.le_succ _)]
  · intro p hp
    rw [hcomp, List.mem_append, List.mem_singleton] at hp
    rcases hp with hp | rfl
    · exact (hdone p).2 (h.served.done p hp)
    · exact (hdone _).2 hhead

/-- A step serves the requests exactly if it is harmless. -/
theorem Inv.served_iff_harmless (h : Inv s) (hstep : ideSystem.step s e s') :
    Served s' ↔ e.Harmless s := by
  obtain ⟨hdistinct, n, hstep⟩ := hstep
  cases e with
  | rw b =>
    constructor
    · intro hserved
      by_contra hqueue
      exact h.not_served_rw hqueue hdistinct.2 hstep hserved
    · exact fun hempty => (h.rw_empty hempty hdistinct.1 hstep).served
  | intr status sector =>
    cases hstep
    by_cases hempty : s.ideQueue = 0
    · rw [ideIntr, if_pos hempty]
      exact ⟨fun _ => .inl hempty, fun _ => h.served⟩
    · exact (h.intr_queued hempty).2.trans (or_iff_right hempty).symm

theorem Inv.step (h : Inv s) (hstep : ideSystem.step s e s') (hharmless : e.Harmless s) :
    Inv s' := by
  refine ⟨?_, (h.served_iff_harmless hstep).2 hharmless⟩
  obtain ⟨hdistinct, n, hstep⟩ := hstep
  cases e with
  | rw b => exact (h.rw_empty hharmless hdistinct.1 hstep).unlinked
  | intr status sector =>
    cases hstep
    by_cases hempty : s.ideQueue = 0
    · rw [ideIntr, if_pos hempty]
      exact h.unlinked
    · exact (h.intr_queued hempty).1

/-- What holds in all runs: no buffer is ever linked, and the queue has at most a submitted one. -/
structure AtMostOne (s : Ide) : Prop where
  /-- The buffers are not linked. -/
  unlinked : Unlinked s
  /-- The head of the queue. -/
  head : s.ideQueue = 0 ∨ s.ideQueue ∈ s.submitted

theorem AtMostOne.ne (h : AtMostOne s) (hqueue : s.ideQueue ≠ 0) (hb : b ∉ s.submitted) :
    s.ideQueue ≠ b := by
  rintro rfl
  exact hb (h.head.resolve_left hqueue)

theorem AtMostOne.step (h : AtMostOne s) (hstep : ideSystem.step s e s') : AtMostOne s' := by
  obtain ⟨hdistinct, n, hstep⟩ := hstep
  cases e with
  | rw b =>
    by_cases hempty : s.ideQueue = 0
    · cases (ideRw_empty hempty).symm.trans hstep
      exact ⟨h.unlinked, .inr (List.mem_append_right _ List.mem_cons_self)⟩
    · cases n with
      | zero => cases (ideRw_zero hempty).symm.trans hstep
      | succ n =>
        cases (ideRw_queued h.unlinked hempty (h.ne hempty hdistinct.2)).symm.trans hstep
        refine ⟨h.unlinked.same (sameLinks_update (b := s.ideQueue)
          (x := { s.bufs s.ideQueue with next := b }) rfl rfl rfl), .inr ?_⟩
        exact List.mem_append_left _ (h.head.resolve_left hempty)
  | intr status sector =>
    cases hstep
    by_cases hempty : s.ideQueue = 0
    · rw [ideIntr, if_pos hempty]
      exact h
    · obtain ⟨hqueue, -, -, -, hsame⟩ := ideIntr_queued status sector h.unlinked hempty
      exact ⟨h.unlinked.same hsame, .inl hqueue⟩

theorem AtMostOne.exists_step (h : AtMostOne s) (hdistinct : e.Distinct s) :
    ∃ s', ideSystem.step s e s' := by
  cases e with
  | rw b =>
    by_cases hempty : s.ideQueue = 0
    · exact ⟨_, hdistinct, 0, ideRw_empty hempty⟩
    · exact ⟨_, hdistinct, 1, ideRw_queued h.unlinked hempty (h.ne hempty hdistinct.2)⟩
  | intr status sector => exact ⟨_, hdistinct, 0, rfl⟩

end Step

/-! ### Runs -/

section Runs

variable {s s' : Ide} {tr : List (System.Step Ide Event)}

/-- Calls and interrupts can follow each other in any order. -/
theorem exists_next (hrun : ideSystem.Run s tr s') (h : Initial s) {e : Event}
    (hdistinct : e.Distinct s') : ∃ s'', ideSystem.step s' e s'' :=
  ((hrun.invariant (C := fun _ => True) ⟨h.qnext, .inl h.ideQueue⟩
    (fun _ hstep _ hinv => AtMostOne.step hinv hstep) fun _ _ => trivial).1).exists_step hdistinct

/-- From the beginning, all steps serve the requests exactly if all of them are harmless. -/
theorem served_iff (hrun : ideSystem.Run s tr s') (h : Initial s) :
    (∀ x ∈ tr, Served x.post) ↔ ∀ x ∈ tr, x.ev.Harmless x.pre :=
  hrun.forall_iff h.inv (fun _ hstep hharmless hinv => hinv.step hstep hharmless)
    fun _ hstep hinv => hinv.served_iff_harmless hstep

/-- A driver without requests, for buffers that hold nothing. -/
def idle : Ide := ⟨fun _ => ⟨0, 0, 0, 0, 0, []⟩, 0, [], [], []⟩

theorem initial_idle : Initial idle := ⟨rfl, fun _ => rfl, rfl, rfl, rfl⟩

/-- The driver with one request. -/
def busy : Ide :=
  ideStart 1
    { idle with
      submitted := [1]
      ideQueue := 1 }

theorem step_busy : ideSystem.step idle (.rw 1) busy :=
  ⟨⟨by decide, List.not_mem_nil⟩, 0, ideRw_empty (n := 0) (s := idle) rfl⟩

/-- One request is served. -/
theorem served_iff_busy : Served busy := by
  refine (served_iff (.single step_busy) initial_idle).2 (fun x hx => ?_) _
    (List.mem_singleton_self _)
  cases List.mem_singleton.1 hx
  exact rfl

/-- The second of two requests is lost. -/
theorem not_served : ¬∀ (s s' : Ide) (tr : List (System.Step Ide Event)), ideSystem.Run s tr s' →
    Initial s → ∀ x ∈ tr, Served x.post := by
  intro hall
  have hbusy : Inv busy := initial_idle.inv.step step_busy rfl
  have hrw := ideRw_queued (n := 0) (b := 2) hbusy.unlinked (by decide) (by decide)
  have hstep : ideSystem.step busy (.rw 2)
      ({ busy with submitted := busy.submitted ++ [2] }.setNext busy.ideQueue 2) :=
    ⟨⟨by decide, by decide⟩, 1, hrw⟩
  have hserved := hall _ _ _ ((System.Run.single step_busy).snoc hstep) initial_idle _
    (List.mem_append_right _ List.mem_cons_self)
  exact hbusy.not_served_rw (by decide) (by decide) hrw hserved

end Runs

end IdeDriver

end MicroKernel
