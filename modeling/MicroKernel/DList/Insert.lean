import MicroKernel.DList.Basic

/-!
# Insertion behind a node

A new node is linked in between a node of a list and the one after it.

* `insertAfter` : the four writes;
* `Repr.insertAfter` : the list with the new node behind the given one.
-/

namespace MicroKernel.DList

variable {α : Type*} [DecidableEq α]

/-- Put `y` after the node `x`. -/
def insertAfter (null x y : α) (L : Links α) : Links α :=
  let n := L.next x
  let L := ((L.setNext y n).setPrev y x).setNext x y
  if n ≠ null then L.setPrev n y else L

variable {null x y z n p : α} {L : Links α} {q : Queue α} {l l₁ l₂ : List α}

theorem next_insertAfter (hxy : x ≠ y) : (insertAfter null x y L).next z =
    if z = x then y else if z = y then L.next x else L.next z := by
  have hsplit : (insertAfter null x y L).next z =
      (((L.setNext y (L.next x)).setPrev y x).setNext x y).next z := by
    simp only [insertAfter]
    split_ifs <;> rfl
  rw [hsplit]
  by_cases hzx : z = x
  · simp [hzx]
  · by_cases hzy : z = y
    · subst hzy
      simp [hzx]
    · simp [hzx, hzy]

theorem prev_insertAfter (hny : L.next x ≠ y) : (insertAfter null x y L).prev z =
    if z = y then x else if L.next x ≠ null ∧ z = L.next x then y else L.prev z := by
  simp only [insertAfter]
  by_cases hn : L.next x = null
  · by_cases hzy : z = y
    · subst hzy
      simp [hn]
    · simp [hn, hzy]
  · by_cases hzy : z = y
    · subst hzy
      simp [hn, hny.symm]
    · by_cases hzn : z = L.next x
      · subst hzn
        simp [hn, hzy]
      · simp [hn, hzy, hzn]

/-- In the part that ends with `x` only the link that leaves it is new. -/
theorem Linked.insertAfter_left (h : Linked L p l n) (hnd : l.Nodup) (hlast : l.getLastD p = x)
    (hxy : x ≠ y) (hny : L.next x ≠ y) (hy : y ∉ l) (hn : L.next x ≠ null → L.next x ∉ l) :
    Linked (insertAfter null x y L) p l y := by
  refine (h.setNext_last hnd y).congr (fun z hz => ?_) fun z hz => ?_
  · have hzy : z ≠ y := fun heq => hy (heq ▸ hz)
    rw [next_insertAfter hxy, hlast]
    by_cases hzx : z = x
    · simp [hzx]
    · simp [hzx, hzy]
  · have hzy : z ≠ y := fun heq => hy (heq ▸ hz)
    have hzn : ¬(L.next x ≠ null ∧ z = L.next x) := fun hz' => hn hz'.1 (hz'.2 ▸ hz)
    rw [prev_insertAfter hny, if_neg hzy, if_neg hzn]
    rfl

/-- In the part behind `x` only the link that leads back from it is new. -/
theorem Linked.insertAfter_right (h : Linked L x l null) (hnd : l.Nodup)
    (hhead : L.next x = l.headD null) (hnull : null ∉ l) (hx : x ∉ l) (hxy : x ≠ y) (hy : y ∉ l)
    (hny : L.next x ≠ y) : Linked (insertAfter null x y L) y l null := by
  refine (h.setPrev_head hnd y).congr (fun z hz => ?_) fun z hz => ?_
  · have hzx : z ≠ x := fun heq => hx (heq ▸ hz)
    have hzy : z ≠ y := fun heq => hy (heq ▸ hz)
    rw [next_insertAfter hxy, if_neg hzx, if_neg hzy]
    rfl
  · have hzy : z ≠ y := fun heq => hy (heq ▸ hz)
    have hn : L.next x ≠ null := by
      rw [hhead]
      exact fun heq => hnull (heq ▸ headD_mem (List.ne_nil_of_mem hz) null)
    rw [prev_insertAfter hny, if_neg hzy, ← hhead]
    by_cases hzn : z = L.next x
    · simp [hzn, hn]
    · simp [hzn]

namespace Repr

/-- The new node comes directly behind `x`, and all others stay in order. -/
theorem insertAfter (h : Repr null L q (l₁ ++ x :: l₂)) (hy : y ∉ l₁ ++ x :: l₂) (hne : y ≠ null) :
    Repr null (DList.insertAfter null x y L) ⟨q.head, l₂.getLastD y⟩ (l₁ ++ x :: y :: l₂) := by
  have hnext := h.prev_next_eq.2
  obtain ⟨hnull, hnd, hlinked, hhead, -⟩ := h
  rw [List.append_cons] at hnull hnd hlinked hy hhead
  obtain ⟨h₁, h₂⟩ := linked_append.1 hlinked
  obtain ⟨hnd₁, hnd₂, hdisj⟩ := List.nodup_append.1 hnd
  rw [List.mem_append, not_or] at hnull hy
  have hx : x ∈ l₁ ++ [x] := by simp
  have hxy : x ≠ y := fun heq => hy.1 (heq ▸ hx)
  have hx₂ : x ∉ l₂ := fun hmem => hdisj x hx x hmem rfl
  have hny : L.next x ≠ y := by
    rw [hnext]
    intro heq
    rcases eq_or_ne l₂ [] with rfl | hl
    · exact hne heq.symm
    · exact hy.2 (heq ▸ headD_mem hl null)
  have hlast : (l₁ ++ [x]).getLastD null = x := by rw [getLastD_append]; rfl
  rw [hlast] at h₂
  have hout : L.next x ≠ null → L.next x ∉ l₁ ++ [x] := by
    rw [hnext]
    intro hn hmem
    have hl : l₂ ≠ [] := fun hl => hn (by rw [hl]; rfl)
    exact hdisj _ hmem _ (headD_mem hl null) rfl
  have hfirst := h₁.insertAfter_left hnd₁ hlast hxy hny hy.1 hout
  have hsecond := h₂.insertAfter_right hnd₂ hnext hnull.2 hx₂ hxy hy.2 hny
  rw [List.append_cons]
  refine ⟨?_, ?_, linked_append.2 ⟨hfirst, ?_, ?_, hsecond⟩, ?_, ?_⟩
  · rw [List.mem_append, List.mem_cons, not_or, not_or]
    exact ⟨hnull.1, hne.symm, hnull.2⟩
  · refine List.nodup_append.2 ⟨hnd₁, List.nodup_cons.2 ⟨hy.2, hnd₂⟩, fun a ha b hb => ?_⟩
    rcases List.mem_cons.1 hb with rfl | hb
    · exact fun heq => hy.1 (heq ▸ ha)
    · exact hdisj a ha b hb
  · rw [prev_insertAfter hny, if_pos rfl, hlast]
  · rw [next_insertAfter hxy, if_neg hxy.symm, if_pos rfl, hnext]
  · rw [headD_append] at hhead ⊢
    rw [hhead]
    exact headD_of_ne_nil (by simp) _ _
  · rw [getLastD_append, List.getLastD_cons]

end Repr

end MicroKernel.DList
