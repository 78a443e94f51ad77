import Mathlib.Data.List.Basic

/-!
# Runs of a transition system

The components of the kernel are modelled as transition systems: a state, a set of events
(calls, system calls, scheduler iterations), and a relation saying how an event changes the
state.  A *run* records every step it takes, with the state before and the state after, so
that a property of a whole run is a property of each of its recorded steps.

* `System.Run s tr s'` : the recorded steps `tr` lead from `s` to `s'`.
* `System.Run.invariant` : an inductive invariant holds before and after every step of a run
  all of whose steps meet a condition.
* `System.ofStep`, `System.Run.of_possible` : the system of a step function, and how to run it.
* `System.Run.forall_iff` : a property of the steps of a run is the same as a condition on
  them, if the two agree wherever the invariant kept by the condition holds.
-/

namespace MicroKernel

/-- A transition system with states `σ` and events `ε`. -/
structure System (σ ε : Type*) where
  /-- `step s e s'` : event `e` can take the system from `s` to `s'`. -/
  step : σ → ε → σ → Prop

namespace System

/-- One recorded step of a run. -/
structure Step (σ ε : Type*) where
  /-- State before the step. -/
  pre : σ
  /-- The event. -/
  ev : ε
  /-- State after the step. -/
  post : σ

variable {σ ε : Type*} (A : System σ ε)

/-- `A.Run s tr s'` : the steps `tr`, in order, lead from `s` to `s'`. -/
inductive Run : σ → List (Step σ ε) → σ → Prop
  | nil (s : σ) : Run s [] s
  | snoc {s s' s'' : σ} {tr : List (Step σ ε)} {e : ε} :
      Run s tr s' → A.step s' e s'' → Run s (tr ++ [⟨s', e, s''⟩]) s''

variable {A}

namespace Run

variable {s s' : σ} {tr : List (Step σ ε)}

theorem single {e : ε} (h : A.step s e s') : A.Run s [⟨s, e, s'⟩] s' :=
  Run.snoc (Run.nil s) h

/-- An invariant `I` that every step meeting `C` preserves holds along a run all of whose
steps meet `C`. -/
theorem invariant {I : σ → Prop} {C : Step σ ε → Prop} (h : A.Run s tr s') (h₀ : I s)
    (hstep : ∀ x : Step σ ε, A.step x.pre x.ev x.post → C x → I x.pre → I x.post)
    (hC : ∀ x ∈ tr, C x) : I s' ∧ ∀ x ∈ tr, I x.pre ∧ I x.post := by
  induction h with
  | nil => exact ⟨h₀, by simp⟩
  | @snoc s₁ s₂ tr e _ hst ih =>
    obtain ⟨hI, hall⟩ := ih fun x hx => hC x (List.mem_append_left _ hx)
    have hlast : I s₂ := hstep ⟨s₁, e, s₂⟩ hst (hC _ (by simp)) hI
    refine ⟨hlast, fun x hx => ?_⟩
    rcases List.mem_append.1 hx with hx | hx
    · exact hall x hx
    · obtain rfl := List.mem_singleton.1 hx
      exact ⟨hI, hlast⟩

theorem step_of_mem (h : A.Run s tr s') : ∀ x ∈ tr, A.step x.pre x.ev x.post := by
  induction h with
  | nil => simp
  | snoc _ hst ih =>
    intro x hx
    rcases List.mem_append.1 hx with hx | hx
    · exact ih x hx
    · obtain rfl := List.mem_singleton.1 hx
      exact hst

/-- If `I` is kept by every step that meets `C`, and at a step taken in `I` the property `P`
holds exactly when `C` does, then all steps of a run have `P` exactly when all meet `C`. -/
theorem forall_iff {I : σ → Prop} {C P : Step σ ε → Prop} (h : A.Run s tr s') (h₀ : I s)
    (hstep : ∀ x : Step σ ε, A.step x.pre x.ev x.post → C x → I x.pre → I x.post)
    (hP : ∀ x : Step σ ε, A.step x.pre x.ev x.post → I x.pre → (P x ↔ C x)) :
    (∀ x ∈ tr, P x) ↔ ∀ x ∈ tr, C x := by
  induction h with
  | nil => simp
  | @snoc s₁ s₂ tr e hrun hst ih =>
    simp only [List.mem_append, List.mem_singleton, or_imp, forall_and, forall_eq]
    rw [ih]
    refine and_congr_right fun hC => hP _ hst ?_
    exact (hrun.invariant h₀ hstep hC).1

theorem cons {e : ε} {s'' : σ} (hst : A.step s e s') (h : A.Run s' tr s'') :
    A.Run s (⟨s, e, s'⟩ :: tr) s'' := by
  induction h with
  | nil => exact single hst
  | snoc _ hst' ih => exact ih.snoc hst'

theorem append {s'' : σ} {tr' : List (Step σ ε)} (h : A.Run s tr s') (h' : A.Run s' tr' s'') :
    A.Run s (tr ++ tr') s'' := by
  induction h' with
  | nil => rwa [List.append_nil]
  | snoc _ hst ih =>
    rw [← List.append_assoc]
    exact ih.snoc hst

end Run

/-- The steps of a system that meet a condition. -/
def restrict (A : System σ ε) (K : Step σ ε → Prop) : System σ ε where
  step s e s' := A.step s e s' ∧ K ⟨s, e, s'⟩

/-- A run whose steps meet a condition is one of the restricted system. -/
theorem Run.restrict {K : Step σ ε → Prop} {s s' : σ} {tr : List (Step σ ε)} (h : A.Run s tr s')
    (hK : ∀ x ∈ tr, K x) : (A.restrict K).Run s tr s' := by
  induction h with
  | nil => exact .nil _
  | snoc _ hst ih =>
    exact (ih fun x hx => hK x (List.mem_append_left _ hx)).snoc ⟨hst, hK _ (by simp)⟩

/-! ### Step functions -/

section StepFunction

variable (f : σ → ε → Option σ)

/-- The transition system of a step function. -/
def ofStep : System σ ε where
  step s e s' := f s e = some s'

/-- Whether a list of events is possible from a state. -/
def possible : σ → List ε → Bool
  | _, [] => true
  | s, e :: es => (f s e).isSome && possible ((f s e).getD s) es

/-- The steps for a list of events. -/
def trace : σ → List ε → List (Step σ ε)
  | _, [] => []
  | s, e :: es => ⟨s, e, (f s e).getD s⟩ :: trace ((f s e).getD s) es

/-- The state after a list of events. -/
def final (s : σ) (es : List ε) : σ := es.foldl (fun s e => (f s e).getD s) s

variable {f}

/-- Possible events are a run. -/
theorem Run.of_possible {es : List ε} : ∀ {s : σ}, possible f s es = true →
    (ofStep f).Run s (trace f s es) (final f s es) := by
  induction es with
  | nil => exact fun _ => .nil _
  | cons e es ih =>
    intro s h
    simp only [possible, Bool.and_eq_true] at h
    obtain ⟨s', hs'⟩ := Option.isSome_iff_exists.1 h.1
    have hstep : (ofStep f).step s e ((f s e).getD s) := by simp [ofStep, hs']
    exact (ih h.2).cons hstep

end StepFunction

end System

end MicroKernel
