import Mathlib.Logic.Function.Basic

/-!
# Partners

Two kinds of objects name each other: `f` is the partner that an object of the first kind names, `g`
the one that an object of the second kind names, and a null element stands for none.

* `Paired` : an object names its partner exactly if the partner names it;
* `Paired.unlink` : so it is after both sides of a link were cleared;
* `Paired.link_iff` : writing both sides of a link keeps it exactly if both objects were free.
-/

namespace MicroKernel

variable {α β : Type*}

/-- Apart from the null elements, `f` leads from `a` to `b` exactly if `g` leads back. -/
def Paired (a₀ : α) (b₀ : β) (f : α → β) (g : β → α) : Prop :=
  ∀ a b, a ≠ a₀ → b ≠ b₀ → (f a = b ↔ g b = a)

namespace Paired

variable {a₀ a a' : α} {b₀ b b' v : β} {f : α → β} {g : β → α}

theorem symm (h : Paired a₀ b₀ f g) : Paired b₀ a₀ g f :=
  fun b a hb ha => (h a b ha hb).symm

theorem eq_of_eq (h : Paired a₀ b₀ f g) (ha : a ≠ a₀) (ha' : a' ≠ a₀) (hb : f a ≠ b₀)
    (heq : f a' = f a) : a' = a :=
  ((h a' _ ha' hb).1 heq).symm.trans ((h a _ ha hb).1 rfl)

theorem not_named_of_free (h : Paired a₀ b₀ f g) (ha : a ≠ a₀) (hy : b' ≠ b₀) (hne : b' ≠ b)
    (hfree : f a = b₀ ∨ f a = b) : g b' ≠ a := by
  intro hg
  have hfa : f a = b' := (h a b' ha hy).2 hg
  rcases hfree with hfree | hfree
  · exact hy (hfa.symm.trans hfree)
  · exact hne (hfa.symm.trans hfree)

variable [DecidableEq α] [DecidableEq β]

/-- Both sides of a link are cleared. -/
theorem unlink (h : Paired a₀ b₀ f g) (ha : a ≠ a₀) (hb : b ≠ b₀) (hlink : f a = b) :
    Paired a₀ b₀ (Function.update f a b₀) (Function.update g b a₀) := by
  have hlink' : g b = a := (h a b ha hb).1 hlink
  intro x y hx hy
  by_cases hxa : x = a
  · subst hxa
    by_cases hyb : y = b
    · subst hyb
      simp [hb.symm, ha.symm]
    · have hne : ¬g y = x := fun hg => hyb (((h x y ha hy).2 hg).symm.trans hlink)
      simp [hyb, hy.symm, hne]
  · by_cases hyb : y = b
    · subst hyb
      have hne : ¬f x = y := fun hf => hxa (((h x y hx hb).1 hf).symm.trans hlink')
      simp [hxa, hx.symm, hne]
    · simp [hxa, hyb, h x y hx hy]

/-- If the objects of a new link are paired, the first one had no other partner: this would still
name it. -/
theorem free_of_link (h : Paired a₀ b₀ f g) (ha : a ≠ a₀)
    (h' : Paired a₀ b₀ (Function.update f a b) (Function.update g b a)) : f a = b₀ ∨ f a = b := by
  refine or_iff_not_imp_left.2 fun hfa => ?_
  by_contra hne
  have hold : g (f a) = a := (h a _ ha hfa).1 rfl
  have hnew := (h' a (f a) ha hfa).2 (by rw [Function.update_of_ne hne, hold])
  rw [Function.update_self] at hnew
  exact hne hnew.symm

/-- Both sides of a link are written, where `v` is written for `b`: the result is paired exactly if
`v` is `b` and both objects had no other partner. -/
theorem link_iff (h : Paired a₀ b₀ f g) (ha : a ≠ a₀) (hb : b ≠ b₀) :
    Paired a₀ b₀ (Function.update f a v) (Function.update g b a) ↔
      v = b ∧ (f a = b₀ ∨ f a = b) ∧ (g b = a₀ ∨ g b = a) := by
  constructor
  · intro h'
    obtain rfl : v = b := by simpa using (h' a b ha hb).2 (by simp)
    exact ⟨rfl, h.free_of_link ha h', h.symm.free_of_link hb h'.symm⟩
  · rintro ⟨rfl, hfa, hgb⟩ x y hx hy
    by_cases hxa : x = a
    · subst hxa
      by_cases hyb : y = v
      · simp [hyb]
      · have hne := h.not_named_of_free ha hy hyb hfa
        simp [hyb, Ne.symm hyb, hne]
    · by_cases hyb : y = v
      · subst hyb
        have hne := h.symm.not_named_of_free hb hx hxa hgb
        simp [hxa, Ne.symm hxa, hne]
      · simp [hxa, hyb, h x y hx hy]

end Paired

end MicroKernel
