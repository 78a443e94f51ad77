import Mathlib.Order.Defs.Unbundled
import Mathlib.Tactic.SplitIfs

/-!
# What programs leave

A program works on a state and may fail.  From states in an invariant, it leads to states in the
invariant that a relation connects with the first one; the relation says what the program leaves as
it was.  Where the relation is a preorder, the parts of a program are looked at one by one.

* `Frames` : the invariant is kept, the relation holds, and the result has a property;
* `Frames.bind`, `Frames.ite` : programs that are put together.
-/

namespace MicroKernel

/-- Whenever `x` returns from a state in `I`, the state is in `I` and related to the first one by
`R`, and the result is in `Q`. -/
def Frames {σ α : Type} (I : σ → Prop) (R : σ → σ → Prop) (x : StateT σ Option α)
    (Q : α → Prop) : Prop :=
  ∀ ⦃s : σ⦄ ⦃a : α⦄ ⦃s' : σ⦄, I s → x s = some (a, s') → I s' ∧ R s s' ∧ Q a

namespace Frames

variable {σ α β : Type} {I : σ → Prop} {R : σ → σ → Prop} {x y : StateT σ Option α}
  {f : α → StateT σ Option β} {Q Q' : α → Prop} {Q₂ : β → Prop} {p : Prop} [Decidable p]

theorem imp (h : Frames I R x Q) (hQ : ∀ a, Q a → Q' a) : Frames I R x Q' := by
  intro s a s' hs hx
  obtain ⟨hs', hR, ha⟩ := h hs hx
  exact ⟨hs', hR, hQ a ha⟩

theorem fail (h : ∀ s, x s = none) : Frames I R x Q := by
  intro s a s' _ hx
  rw [h s] at hx
  cases hx

theorem ite (hx : p → Frames I R x Q) (hy : ¬p → Frames I R y Q) :
    Frames I R (if p then x else y) Q := by
  split_ifs with hp
  · exact hx hp
  · exact hy hp

variable [IsPreorder σ R]

theorem pure {a : α} (ha : Q a) : Frames I R (Pure.pure a) Q := by
  intro s b s' hs hx
  obtain ⟨rfl, rfl⟩ := Prod.mk.inj (Option.some.inj hx)
  exact ⟨hs, refl s, ha⟩

/-- One program after another. -/
theorem bind (hx : Frames I R x Q) (hf : ∀ a, Q a → Frames I R (f a) Q₂) :
    Frames I R (x >>= f) Q₂ := by
  intro s b s' hs h
  obtain ⟨⟨a, s₁⟩, hx₁, hf₁⟩ := Option.bind_eq_some_iff.1 h
  obtain ⟨hs₁, hR₁, ha⟩ := hx hs hx₁
  obtain ⟨hs', hR₂, hb⟩ := hf a ha hs₁ hf₁
  exact ⟨hs', IsTrans.trans _ _ _ hR₁ hR₂, hb⟩

end Frames

end MicroKernel
