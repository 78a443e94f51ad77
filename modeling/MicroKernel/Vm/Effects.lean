import MicroKernel.System.Frame
import MicroKernel.Vm.Load

/-!
# What the functions of `vm.c` leave

The functions that build page tables and load processes do two things: they access memory, and they
take blocks from the allocator.  So what no access changes and every block keeps is left by all of
them.

* `Effects` : what an access and a block do;
* `Effects.mapLoop`, `Effects.loadPlugin` : what the functions do.
-/

namespace MicroKernel

/-- The contents of memory do not matter for `I` and `R`, and a block that is reserved for one of
the purposes leads from a state in `I` to one, related by `R`. -/
structure Effects (I : VmState → Prop) (R : VmState → VmState → Prop) (purposes : Set Purpose) :
    Prop where
  /-- Memory. -/
  ram : ∀ s ram, I s → I { s with ram } ∧ R s { s with ram }
  /-- A block. -/
  reserve : ∀ size maxAddr, ∀ purpose ∈ purposes,
    Frames I R (reserveBlock size pgsize maxAddr purpose) fun _ => True

namespace Effects

variable {α : Type} {I : VmState → Prop} {R : VmState → VmState → Prop} {purposes : Set Purpose}
  {va v tab idx pml4 last perm n size maxAddr oldSize newSize pluginElf : ℕ} {purpose : Purpose}
  {alloc : Bool} {c : BitVec 8}

theorem of_ram (h : Effects I R purposes) {x : VmM α}
    (hx : ∀ s a s', x s = some (a, s') → ∃ ram, s' = { s with ram }) :
    Frames I R x fun _ => True := by
  intro s a s' hs hcall
  obtain ⟨ram, rfl⟩ := hx s a s' hcall
  exact ⟨(h.ram s ram hs).1, (h.ram s ram hs).2, trivial⟩

theorem readWord (h : Effects I R purposes) : Frames I R (readWord va) fun _ => True :=
  h.of_ram fun s _ _ hcall => ⟨s.ram, (readWord_eq_some.1 hcall).2.2.symm⟩

theorem writeWord (h : Effects I R purposes) : Frames I R (writeWord va v) fun _ => True :=
  h.of_ram fun _ _ _ hcall => ⟨_, (writeWord_eq_some.1 hcall).2.symm⟩

theorem memset (h : Effects I R purposes) : Frames I R (memset va c n) fun _ => True :=
  h.of_ram fun _ _ _ hcall => ⟨_, (memset_eq_some.1 hcall).2.symm⟩

theorem get (h : Effects I R purposes) : Frames I R (get : VmM VmState) fun _ => True :=
  h.of_ram fun s _ _ hcall => ⟨s.ram, (vm_get_eq_some.1 hcall).2.symm⟩

theorem move (h : Effects I R purposes) (src : Source) :
    Frames I R (src.move va n) fun _ => True := by
  refine h.of_ram fun s u s' hcall => ?_
  cases src with
  | memory buf => exact ⟨_, (memmove_eq_some.1 hcall).2.2.symm⟩
  | array f =>
    simp only [Source.move] at hcall
    split_ifs at hcall
    cases hcall
    exact ⟨_, rfl⟩

theorem readProgHdr (h : Effects I R purposes) : Frames I R (readProgHdr va) fun _ => True :=
  h.of_ram fun s _ _ hcall => ⟨s.ram, (readProgHdr_eq_some.1 hcall).2.2.symm⟩

theorem readElfHdr (h : Effects I R purposes) : Frames I R (readElfHdr va) fun _ => True :=
  h.of_ram fun s _ _ hcall => ⟨s.ram, (readElfHdr_eq_some.1 hcall).2.2.symm⟩

variable [IsPreorder VmState R]

theorem memblockAllocBase (h : Effects I R purposes) (hpurpose : purpose ∈ purposes) :
    Frames I R (Vm.memblockAllocBase size pgsize maxAddr purpose) fun _ => True := by
  refine Frames.bind (h.reserve size maxAddr purpose hpurpose) fun _ _ => ?_
  exact Frames.bind h.memset fun _ _ => Frames.pure trivial

theorem memblockAllocKernel (h : Effects I R purposes) (hpurpose : purpose ∈ purposes) :
    Frames I R (Vm.memblockAllocKernel size pgsize purpose) fun _ => True :=
  Frames.bind (h.memblockAllocBase hpurpose) fun _ _ => Frames.pure trivial

/-! ### Walks -/

section Walks

variable (h : Effects I R purposes) (htable : .pageTable ∈ purposes)

include h htable

theorem walkLevel : Frames I R (walkLevel tab idx alloc) fun _ => True := by
  refine Frames.bind h.readWord fun next _ => Frames.ite (fun _ => Frames.pure trivial)
    fun _ => Frames.ite (fun _ => Frames.pure trivial) fun _ => ?_
  refine Frames.bind (h.memblockAllocKernel htable) fun _ _ =>
    Frames.ite (fun _ => Frames.pure trivial) fun _ => ?_
  refine Frames.bind h.memset fun _ _ => ?_
  exact Frames.bind h.writeWord fun _ _ => Frames.pure trivial

theorem walkTables : Frames I R (walkTables pml4 va alloc) fun _ => True := by
  refine Frames.bind (h.walkLevel htable) fun r _ => ?_
  cases r with
  | none => exact Frames.pure trivial
  | some pdpte =>
    refine Frames.bind (h.walkLevel htable) fun r _ => ?_
    cases r with
    | none => exact Frames.pure trivial
    | some pde => exact h.walkLevel htable

theorem pageWalk : Frames I R (pageWalk pml4 va alloc) fun _ => True := by
  refine Frames.bind (h.walkTables htable) fun r _ => ?_
  cases r with
  | none => exact Frames.pure trivial
  | some pte => exact Frames.bind h.readWord fun _ _ => Frames.pure trivial

theorem pageWalkReturnPte : Frames I R (pageWalkReturnPte pml4 va alloc) fun _ => True := by
  refine Frames.bind (h.walkTables htable) fun r _ => ?_
  cases r with
  | none => exact Frames.pure trivial
  | some pte => exact Frames.pure trivial

theorem mapLoop (n : ℕ) :
    ∀ first pa, Frames I R (mapLoop pml4 last perm n first pa) fun _ => True := by
  induction n with
  | zero => exact fun _ _ => Frames.fail fun _ => rfl
  | succ n ih =>
    intro first pa
    refine Frames.bind (h.pageWalkReturnPte htable) fun _ _ =>
      Frames.ite (fun _ => Frames.pure trivial) fun _ => ?_
    refine Frames.bind h.readWord fun _ _ =>
      Frames.ite (fun _ => Frames.fail fun _ => rfl) fun _ => ?_
    exact Frames.bind h.writeWord fun _ _ =>
      Frames.ite (fun _ => Frames.pure trivial) fun _ => ih _ _

theorem copyLoop (n : ℕ) :
    ∀ call : CopyCall, Frames I R (call.copyLoop pml4 n) fun _ => True := by
  induction n with
  | zero => exact fun _ => Frames.fail fun _ => rfl
  | succ n ih =>
    intro call
    refine Frames.ite (fun _ => ?_) fun _ => Frames.pure trivial
    refine Frames.bind (Q := fun _ => True) ?_ fun _ _ => ih _
    exact Frames.bind (h.pageWalk htable) fun _ _ => h.move _

end Walks

/-! ### Processes -/

section Processes

variable (h : Effects I R Set.univ)

include h

theorem setupUserMemoryPages : Frames I R setupUserMemoryPages fun _ => True := by
  refine Frames.bind (h.memblockAllocKernel trivial) fun _ _ => ?_
  refine Frames.bind (h.memblockAllocKernel trivial) fun _ _ => ?_
  refine Frames.bind (h.memblockAllocKernel trivial) fun _ _ => ?_
  refine Frames.bind (h.memblockAllocKernel trivial) fun _ _ => ?_
  refine Frames.bind h.memset fun _ _ => Frames.bind h.memset fun _ _ => ?_
  refine Frames.bind h.memset fun _ _ => Frames.bind h.memset fun _ _ => ?_
  refine Frames.bind h.writeWord fun _ _ => Frames.bind h.get fun _ _ => ?_
  refine Frames.bind h.readWord fun _ _ => Frames.bind h.writeWord fun _ _ => ?_
  refine Frames.bind h.writeWord fun _ _ => Frames.bind h.writeWord fun _ _ => ?_
  refine Frames.bind (h.memblockAllocBase trivial) fun _ _ => ?_
  exact Frames.bind h.writeWord fun _ _ => Frames.pure trivial

theorem allocUvmLoop (n : ℕ) :
    ∀ va mem, Frames I R (allocUvmLoop pml4 newSize n va mem) fun _ => True := by
  induction n with
  | zero => exact fun _ _ => Frames.fail fun _ => rfl
  | succ n ih =>
    intro va mem
    refine Frames.ite (fun _ => ?_) fun _ => Frames.pure trivial
    exact Frames.bind (h.mapLoop trivial _ _ _) fun _ _ => ih _ _

theorem allocUvm : Frames I R (allocUvm pml4 oldSize newSize) fun _ => True := by
  refine Frames.ite (fun _ => Frames.pure trivial) fun _ => ?_
  refine Frames.bind (h.memblockAllocBase trivial) fun _ _ => ?_
  exact Frames.bind (h.allocUvmLoop _ _ _) fun _ _ => Frames.pure trivial

theorem loadHeaders (n : ℕ) :
    ∀ off size, Frames I R (loadHeaders pml4 pluginElf n off size) fun _ => True := by
  induction n with
  | zero => exact fun _ _ => Frames.pure trivial
  | succ n ih =>
    intro off size
    refine Frames.bind h.readProgHdr fun progHdr _ => Frames.ite (fun _ => ih _ _) fun _ => ?_
    refine Frames.bind h.allocUvm fun _ _ => ?_
    rw [copyUvm, copyUvmLoop_eq]
    exact Frames.bind (h.copyLoop trivial _ _) fun _ _ => ih _ _

theorem loadPlugin : Frames I R (loadPlugin pluginElf) fun _ => True := by
  refine Frames.bind h.readElfHdr fun elf _ => ?_
  refine Frames.bind h.setupUserMemoryPages fun _ _ => ?_
  refine Frames.bind (h.loadHeaders _ _ _) fun _ _ => ?_
  refine Frames.bind h.allocUvm fun _ _ => ?_
  refine Frames.bind (h.copyLoop trivial _ _) fun _ _ => ?_
  exact Frames.bind (h.pageWalk trivial) fun _ _ => Frames.pure trivial

end Processes

end Effects

end MicroKernel
