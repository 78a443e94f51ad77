import Mathlib.Data.BitVec
import Mathlib.Logic.Function.Basic

/-!
# Bitmaps

A bitmap is an array of words of some width; the bit of an index is found by division and remainder.

* `Bitmap.bit` : the bit of an index;
* `Bitmap.and_mask_eq_zero` : the test of a bit by a mask;
* `Bitmap.bit_mark`, `Bitmap.bit_clear` : one bit is changed, and no other.
-/

namespace MicroKernel

namespace Bitmap

variable {w : ℕ} {f : ℕ → BitVec w} {i j : ℕ}

/-- The bit of an index. -/
def bit (f : ℕ → BitVec w) (i : ℕ) : Bool := (f (i / w)).getLsbD (i % w)

/-- The word with the bit of an index only. -/
def mask (w i : ℕ) : BitVec w := 1#w <<< (i % w)

/-- Set the bit of an index. -/
def mark (f : ℕ → BitVec w) (i : ℕ) : ℕ → BitVec w :=
  Function.update f (i / w) (f (i / w) ||| mask w i)

/-- Clear the bit of an index. -/
def clear (f : ℕ → BitVec w) (i : ℕ) : ℕ → BitVec w :=
  Function.update f (i / w) (f (i / w) &&& ~~~mask w i)

theorem getLsbD_mask (hj : j < w) : (mask w i).getLsbD j = decide (j = i % w) := by
  have hi : i % w < w := Nat.mod_lt i (Nat.zero_lt_of_lt hj)
  rw [mask, BitVec.getLsbD_shiftLeft, BitVec.getLsbD_one]
  rw [Bool.eq_iff_iff]
  simp only [Bool.and_eq_true, decide_eq_true_eq, Bool.not_eq_true', decide_eq_false_iff_not]
  omega

/-- The test of a bit. -/
theorem and_mask_eq_zero (hw : 0 < w) : f (i / w) &&& mask w i = 0 ↔ bit f i = false := by
  have hi : i % w < w := Nat.mod_lt i hw
  constructor
  · intro h
    have hbit := congrArg (fun x => x.getLsbD (i % w)) h
    simpa [getLsbD_mask hi, -BitVec.getLsbD_eq_getElem, bit] using hbit
  · intro h
    refine BitVec.eq_of_getLsbD_eq fun j hj => ?_
    rw [BitVec.getLsbD_and, getLsbD_mask hj]
    by_cases hji : j = i % w
    · subst hji
      rw [bit] at h
      simp [h, -BitVec.getLsbD_eq_getElem]
    · simp [hji]

theorem eq_iff : j = i ↔ j / w = i / w ∧ j % w = i % w := by
  refine ⟨fun h => ⟨by rw [h], by rw [h]⟩, fun ⟨hdiv, hmod⟩ => ?_⟩
  rw [← Nat.div_add_mod j w, ← Nat.div_add_mod i w, hdiv, hmod]

theorem bit_mark (hw : 0 < w) : bit (mark f i) j = (decide (j = i) || bit f j) := by
  have hj : j % w < w := Nat.mod_lt j hw
  by_cases hword : j / w = i / w
  · rw [bit, mark, hword, Function.update_self, BitVec.getLsbD_or, getLsbD_mask hj, bit, hword,
      Bool.or_comm]
    simp only [eq_iff (w := w) (i := i), hword, true_and]
  · have hne : j ≠ i := fun h => hword (by rw [h])
    rw [bit, mark, Function.update_of_ne hword, decide_eq_false hne, Bool.false_or, bit]

theorem bit_clear (hw : 0 < w) : bit (clear f i) j = (!decide (j = i) && bit f j) := by
  have hj : j % w < w := Nat.mod_lt j hw
  by_cases hword : j / w = i / w
  · rw [bit, clear, hword, Function.update_self, BitVec.getLsbD_and, BitVec.getLsbD_not,
      getLsbD_mask hj, bit, hword, Bool.and_comm]
    simp only [eq_iff (w := w) (i := i), hword, true_and, hj, decide_true, Bool.true_and]
  · have hne : j ≠ i := fun h => hword (by rw [h])
    rw [bit, clear, Function.update_of_ne hword, decide_eq_false hne, Bool.not_false, Bool.true_and,
      bit]

end Bitmap

end MicroKernel
