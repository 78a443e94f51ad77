import Mathlib.Data.List.Basic
import Mathlib.Logic.Function.Basic

/-!
# Disks and crashes

A disk maps sector numbers to contents.  Its sectors are written one at a time, each write is
atomic, and a crash leaves the disk as it is after some of the writes.

* `Disk.applyAll` : the disk after a list of writes;
* `Disk.Along` : a property of every disk that a crash during the writes can leave.
-/

namespace MicroKernel

/-- The contents of the sectors. -/
abbrev Disk (α : Type*) := ℕ → α

namespace Disk

/-- A sector and what is written to it. -/
structure Write (α : Type*) where
  /-- The sector number. -/
  sector : ℕ
  /-- The new contents. -/
  data : α

variable {α : Type*} {d d' : Disk α} {w : Write α} {ws ws' : List (Write α)} {k : ℕ}

/-- The disk after a write. -/
def apply (d : Disk α) (w : Write α) : Disk α := Function.update d w.sector w.data

/-- The disk after all the writes. -/
def applyAll (d : Disk α) (ws : List (Write α)) : Disk α := ws.foldl apply d

/-! ### What writes leave -/

@[simp] theorem applyAll_nil (d : Disk α) : d.applyAll [] = d := rfl

@[simp] theorem applyAll_cons (d : Disk α) (w : Write α) (ws : List (Write α)) :
    d.applyAll (w :: ws) = (d.apply w).applyAll ws := rfl

@[simp] theorem applyAll_append (d : Disk α) (ws ws' : List (Write α)) :
    d.applyAll (ws ++ ws') = (d.applyAll ws).applyAll ws' := List.foldl_append

@[simp] theorem apply_same (d : Disk α) (w : Write α) : d.apply w w.sector = w.data :=
  Function.update_self ..

theorem apply_of_ne (h : k ≠ w.sector) : d.apply w k = d k := Function.update_of_ne h ..

theorem applyAll_of_not_mem (h : ∀ w ∈ ws, w.sector ≠ k) : d.applyAll ws k = d k := by
  induction ws generalizing d with
  | nil => rfl
  | cons w ws ih =>
    rw [applyAll_cons, ih fun v hv => h v (List.mem_cons_of_mem _ hv)]
    exact apply_of_ne (h w List.mem_cons_self).symm

/-! ### Crashes -/

/-- The property `P` holds of the disk before the writes, after all of them, and in between. -/
def Along (P : Disk α → Prop) (d : Disk α) (ws : List (Write α)) : Prop :=
  ∀ k, P (d.applyAll (ws.take k))

variable {P Q : Disk α → Prop}

theorem Along.start (h : Along P d ws) : P d := h 0

theorem along_nil : Along P d [] ↔ P d := by simp [Along]

theorem along_cons : Along P d (w :: ws) ↔ P d ∧ Along P (d.apply w) ws := by
  constructor
  · exact fun h => ⟨h.start, fun k => h (k + 1)⟩
  · rintro ⟨h₀, h⟩ (_ | k)
    · exact h₀
    · exact h k

theorem along_append : Along P d (ws ++ ws') ↔ Along P d ws ∧ Along P (d.applyAll ws) ws' := by
  induction ws generalizing d with
  | nil => exact ⟨fun h => ⟨along_nil.2 h.start, h⟩, fun h => h.2⟩
  | cons w ws ih => rw [List.cons_append, along_cons, along_cons, ih, applyAll_cons, and_assoc]

theorem Along.mono (h : Along P d ws) (hPQ : ∀ d, P d → Q d) : Along Q d ws :=
  fun k => hPQ _ (h k)

end Disk

end MicroKernel
