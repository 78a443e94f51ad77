import MicroKernel.DList.Basic

/-!
# Circular lists

A list can also be closed to a ring by a node of its own, the head, so that no node has a neighbour
that is `null`.

* `Ring L h l` : with the fields `L`, the ring with the head `h` holds the nodes `l`;
* `Ring.unlink_first` : taking out the first node;
* `Ring.congr` : only the fields of its own nodes matter to a ring.
-/

namespace MicroKernel.DList

variable {α : Type*} {L L' : Links α} {h x y p n : α} {l : List α}

/-- With the fields `L`, the ring with the head `h` holds the nodes `l`, in this order. -/
structure Ring (L : Links α) (h : α) (l : List α) : Prop where
  /-- No node occurs twice, and the head is none of them. -/
  nodup : (h :: l).Nodup
  /-- The fields link the nodes in order, from the head and back to it. -/
  linked : Linked L h l h
  /-- The first node. -/
  next_eq : L.next h = l.headD h
  /-- The last node. -/
  prev_eq : L.prev h = l.getLastD h

theorem Ring.congr (hr : Ring L h l) (hn : ∀ y ∈ h :: l, L'.next y = L.next y)
    (hp : ∀ y ∈ h :: l, L'.prev y = L.prev y) : Ring L' h l :=
  ⟨hr.nodup, hr.linked.congr (fun y hy => hn y (List.mem_cons_of_mem h hy)) fun y hy =>
    hp y (List.mem_cons_of_mem h hy), (hn h List.mem_cons_self).trans hr.next_eq,
    (hp h List.mem_cons_self).trans hr.prev_eq⟩

theorem Ring.next_mem (hr : Ring L h l) : L.next h ∈ h :: l := by
  rw [hr.next_eq]
  cases l with
  | nil => exact List.mem_cons_self
  | cons x l => exact List.mem_cons_of_mem h List.mem_cons_self

theorem Ring.prev_mem (hr : Ring L h l) : L.prev h ∈ h :: l := by
  rw [hr.prev_eq]
  rcases eq_or_ne l [] with rfl | hl
  · exact List.mem_cons_self
  · exact List.mem_cons_of_mem h (getLastD_mem hl h)

theorem mem_cons_of_mem_tail (hy : y ∈ h :: l) : y ∈ h :: x :: l :=
  (List.mem_cons.1 hy).elim (fun heq => heq ▸ List.mem_cons_self)
    fun hmem => List.mem_cons_of_mem _ (List.mem_cons_of_mem _ hmem)

theorem Ring.next_prev_first (hr : Ring L h (x :: l)) :
    L.next h = x ∧ L.prev x = h ∧ L.next x ∈ h :: l := by
  obtain ⟨hprev, hnext, -⟩ := hr.linked
  refine ⟨hr.next_eq, hprev, ?_⟩
  rw [hnext]
  cases l with
  | nil => exact List.mem_cons_self
  | cons y l => exact List.mem_cons_of_mem h List.mem_cons_self

theorem Ring.first_not_mem (hr : Ring L h (x :: l)) : x ∉ h :: l := by
  have hnodup := hr.nodup
  rw [List.nodup_cons, List.mem_cons, not_or, List.nodup_cons] at hnodup
  exact fun hmem => (List.mem_cons.1 hmem).elim (fun heq => hnodup.1.1 heq.symm) hnodup.2.1

section Unlink

variable [DecidableEq α]

/-- Link the neighbours of `x` to each other. -/
def unlink (x : α) (L : Links α) : Links α :=
  (L.setNext (L.prev x) (L.next x)).setPrev (L.next x) (L.prev x)

theorem next_unlink_of_ne (hy : y ≠ L.prev x) : (unlink x L).next y = L.next y :=
  Links.next_setNext_of_ne L hy

theorem prev_unlink_of_ne (hy : y ≠ L.next x) : (unlink x L).prev y = L.prev y :=
  Links.prev_setPrev_of_ne _ hy

/-- Without its first node, the ring holds the others. -/
theorem Ring.unlink_first (hr : Ring L h (x :: l)) : Ring (unlink x L) h l := by
  obtain ⟨hnd, ⟨hprev, hnext, hlinked⟩, -, hlast⟩ := hr
  obtain ⟨hh, hnd⟩ := List.nodup_cons.1 hnd
  obtain ⟨hx, hnd⟩ := List.nodup_cons.1 hnd
  rw [List.mem_cons, not_or] at hh
  -- the head is not in the segment behind the first node
  have hrest : Linked (L.setNext h (l.headD h)) x l h :=
    hlinked.congr (fun y hy => Links.next_setNext_of_ne L fun heq => hh.2 (heq ▸ hy))
      fun y _ => rfl
  rw [unlink, hprev, hnext]
  refine ⟨List.nodup_cons.2 ⟨hh.2, hnd⟩, hrest.setPrev_head hnd h, by simp, ?_⟩
  · cases l with
    | nil => simp
    | cons y l =>
      have hy : h ≠ y := fun heq => hh.2 (heq ▸ List.mem_cons_self)
      rw [List.headD_cons, Links.prev_setPrev_of_ne _ hy, Links.prev_setNext, hlast,
        List.getLastD_cons, List.getLastD_cons, List.getLastD_cons]

end Unlink

end MicroKernel.DList
