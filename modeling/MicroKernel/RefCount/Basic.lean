import Mathlib.Data.BitVec
import Mathlib.Data.List.Count
import Mathlib.Data.List.Dedup
import Mathlib.Logic.Function.Basic

/-!
# Reference counts

The counts of the references to each place, in words of some width.

* `RefCount.Counted` : the counts are those of a list of references;
* `RefCount.Counted.cons`, `RefCount.Counted.erase` : one reference more, and one less;
* `RefCount.Counted.toInt_pos_iff` : a signed count is positive while there are references.
-/

namespace MicroKernel

namespace RefCount

variable {ι : Type*} [DecidableEq ι] {w : ℕ} {count : ι → BitVec w} {refs : List ι} {i : ι}

/-- The counts are those of the references. -/
def Counted (count : ι → BitVec w) (refs : List ι) : Prop :=
  ∀ i, count i = BitVec.ofNat w (refs.count i)

/-- One reference more. -/
theorem Counted.cons (h : Counted count refs) :
    Counted (Function.update count i (count i + 1)) (i :: refs) := by
  intro j
  by_cases hj : j = i
  · rw [hj, Function.update_self, h i, List.count_cons_self, BitVec.ofNat_add]
    rfl
  · rw [Function.update_of_ne hj, h j, List.count_cons_of_ne (Ne.symm hj)]

/-- One reference less. -/
theorem Counted.erase (h : Counted count refs) (hi : i ∈ refs) :
    Counted (Function.update count i (count i - 1)) (refs.erase i) := by
  intro j
  by_cases hj : j = i
  · obtain ⟨n, hn⟩ := Nat.exists_eq_succ_of_ne_zero (List.count_pos_iff.2 hi).ne'
    rw [hj, Function.update_self, h i, List.count_erase_self, hn, Nat.succ_sub_one,
      Nat.succ_eq_add_one, BitVec.ofNat_add]
    exact BitVec.add_sub_cancel ..
  · rw [Function.update_of_ne hj, h j, List.count_erase_of_ne hj]

variable (h : Counted count refs)
include h

theorem Counted.toNat_eq (hlen : refs.length < 2 ^ w) : (count i).toNat = refs.count i := by
  rw [h i, BitVec.toNat_ofNat]
  exact Nat.mod_eq_of_lt (List.count_le_length.trans_lt hlen)

theorem Counted.eq_zero_iff (hlen : refs.length < 2 ^ w) : count i = 0 ↔ i ∉ refs := by
  rw [← BitVec.toNat_inj, h.toNat_eq hlen, BitVec.ofNat_eq_ofNat, BitVec.toNat_ofNat, Nat.zero_mod,
    List.count_eq_zero]

/-- A signed count is positive while there are references. -/
theorem Counted.toInt_pos_iff (hlen : 2 * refs.length < 2 ^ w) :
    0 < (count i).toInt ↔ i ∈ refs := by
  have hcount := List.count_le_length (a := i) (l := refs)
  have hnat := h.toNat_eq (i := i) (by omega)
  rw [BitVec.toInt_eq_toNat_of_lt (by omega), hnat, Int.natCast_pos, List.count_pos_iff]

end RefCount

end MicroKernel
