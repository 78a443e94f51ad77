import Mathlib.Logic.Function.Iterate
import Mathlib.Order.Bounds.Basic

/-!
# While loops

A `while` loop whose condition and body are functions of one state, with a bound on the number of
tests.  Many loops are searches: they go from one position to the next until one of them is hit.

* `whileLoop_eq_some` : the state in which a loop ends;
* `whileLoop_search` : a search ends exactly if there is a hit, and at the first one.
-/

namespace MicroKernel

variable {σ : Type*} {cond : σ → Prop} [DecidablePred cond] {body : σ → σ} {s s' : σ} {n m : ℕ}

/-- `while(cond) body`, with at most `n` tests of the condition. -/
def whileLoop (cond : σ → Prop) [DecidablePred cond] (body : σ → σ) : ℕ → σ → Option σ
  | 0, _ => none
  | n + 1, s => if cond s then whileLoop cond body n (body s) else some s

/-- A loop ends after the first number of iterations that makes the condition false. -/
theorem whileLoop_eq_some : ∀ {n : ℕ} {s : σ}, whileLoop cond body n s = some s' ↔
    ∃ d < n, (∀ j < d, cond (body^[j] s)) ∧ ¬cond (body^[d] s) ∧ body^[d] s = s' := by
  intro n
  induction n with
  | zero => simp [whileLoop]
  | succ n ih =>
    intro s
    rw [whileLoop]
    by_cases hcond : cond s
    · rw [if_pos hcond, ih]
      constructor
      · rintro ⟨d, hd, hbefore, hend, rfl⟩
        refine ⟨d + 1, Nat.succ_lt_succ hd, fun j hj => ?_, hend, rfl⟩
        cases j with
        | zero => exact hcond
        | succ j => exact hbefore j (Nat.lt_of_succ_lt_succ hj)
      · rintro ⟨_ | d, hd, hbefore, hend, rfl⟩
        · exact absurd hcond hend
        · exact ⟨d, Nat.lt_of_succ_lt_succ hd, fun j hj => hbefore (j + 1) (Nat.succ_lt_succ hj),
            hend, rfl⟩
    · rw [if_neg hcond, Option.some_inj]
      constructor
      · rintro rfl
        exact ⟨0, Nat.succ_pos n, fun j hj => absurd hj (Nat.not_lt_zero j), hcond, rfl⟩
      · rintro ⟨_ | d, -, hbefore, -, rfl⟩
        · rfl
        · exact absurd (hbefore 0 (Nat.succ_pos d)) hcond

theorem whileLoop_mono (hle : n ≤ m) (h : whileLoop cond body n s = some s') :
    whileLoop cond body m s = some s' := by
  obtain ⟨d, hd, hrest⟩ := whileLoop_eq_some.1 h
  exact whileLoop_eq_some.2 ⟨d, hd.trans_le hle, hrest⟩

/-! ### Searches -/

/-- The first position from `p` on that is a hit. -/
def FirstFrom (hit : ℕ → Prop) (p k : ℕ) : Prop := IsLeast {k | p ≤ k ∧ hit k} k

namespace FirstFrom

variable {hit : ℕ → Prop} {p k k' : ℕ}

theorem le (h : FirstFrom hit p k) : p ≤ k := h.1.1

theorem hit_self (h : FirstFrom hit p k) : hit k := h.1.2

theorem not_hit {j : ℕ} (h : FirstFrom hit p k) (hp : p ≤ j) (hj : j < k) : ¬hit j :=
  fun hhit => Nat.not_lt.2 (h.2 ⟨hp, hhit⟩) hj

theorem unique (h : FirstFrom hit p k) (h' : FirstFrom hit p k') : k = k' := IsLeast.unique h h'

theorem self (h : hit p) : FirstFrom hit p p := ⟨⟨le_rfl, h⟩, fun _ hk => hk.1⟩

theorem of_not_hit (hp : p ≤ k) (hhit : hit k) (hnot : ∀ j, p ≤ j → j < k → ¬hit j) :
    FirstFrom hit p k :=
  ⟨⟨hp, hhit⟩, fun j hj => Nat.not_lt.1 fun hlt => hnot j hj.1 hlt hj.2⟩

end FirstFrom

/-- A loop that is at the position `p + j` after `j` iterations, and goes on while this is no hit,
ends exactly if there is a hit; it has then gone to the first. -/
theorem whileLoop_search {hit : ℕ → Prop} {p : ℕ}
    (hcond : ∀ j, cond (body^[j] s) ↔ ¬hit (p + j)) :
    (∃ n, whileLoop cond body n s = some s') ↔
      ∃ k, FirstFrom hit p k ∧ body^[k - p] s = s' := by
  constructor
  · rintro ⟨n, h⟩
    obtain ⟨d, -, hbefore, hend, hs'⟩ := whileLoop_eq_some.1 h
    have hhit : hit (p + d) := not_not.1 fun hnot => hend ((hcond d).2 hnot)
    refine ⟨p + d, .of_not_hit (Nat.le_add_right p d) hhit fun j hp hj => ?_, ?_⟩
    · have hnot := (hcond (j - p)).1 (hbefore (j - p) (by omega))
      rwa [Nat.add_sub_cancel' hp] at hnot
    · rw [Nat.add_sub_cancel_left, hs']
  · rintro ⟨k, hfirst, hs'⟩
    have hp := hfirst.le
    refine ⟨k - p + 1, whileLoop_eq_some.2
      ⟨k - p, Nat.lt_succ_self _, fun j hj => (hcond j).2 ?_, fun hgo => ?_, hs'⟩⟩
    · exact hfirst.not_hit (Nat.le_add_right p j) (by omega)
    · refine (hcond (k - p)).1 hgo ?_
      rw [Nat.add_sub_cancel' hp]
      exact hfirst.hit_self

end MicroKernel
