import Mathlib.Order.Interval.Set.Nat
import Mathlib.Order.CompletePartialOrder
import MicroKernel.Extent.Basic

/-!
# Canonical lists of extents

A set of numbers that a list of extents covers is covered by one list only that has gaps between the
extents.  The sizes of a sorted list add up to the number of numbers covered.

* `Apart.ext` : a list with gaps is determined by what it covers;
* `Apart.length_le` : it is the shortest one;
* `ncard_cover` : the sizes of a sorted list add up;
* `MaxInterval` : the maximal intervals of a set.
-/

namespace MicroKernel

namespace Extent

variable {x : Extent} {l l' : List Extent} {a b e : ℕ}

/-! ### Uniqueness -/

theorem base_mem_cover (hx : 0 < x.size) : x.base ∈ cover (x :: l) :=
  ⟨x, List.mem_cons_self, le_rfl, Nat.lt_add_of_pos_right hx⟩

theorem Apart.base_le (h : Apart (x :: l)) (ha : a ∈ cover (x :: l)) : x.base ≤ a := by
  obtain ⟨-, hgap, -⟩ := apart_cons.1 h
  rcases mem_cover_cons.1 ha with hin | ⟨y, hy, hya, -⟩
  · exact hin.1
  · have hle : x.base ≤ x.stop := Nat.le_add_right _ _
    exact (hle.trans (hgap y hy).le).trans hya

theorem Apart.stop_not_mem (h : Apart (x :: l)) : x.stop ∉ cover (x :: l) := by
  obtain ⟨-, hgap, -⟩ := apart_cons.1 h
  intro ha
  rcases mem_cover_cons.1 ha with hin | ⟨y, hy, hya, -⟩
  · exact lt_irrefl _ hin.2
  · exact absurd (hgap y hy) (Nat.not_lt.2 hya)

theorem Apart.mem_cover_tail (h : Apart (x :: l)) :
    a ∈ cover l ↔ a ∈ cover (x :: l) ∧ x.stop ≤ a := by
  obtain ⟨-, hgap, -⟩ := apart_cons.1 h
  rw [mem_cover_cons]
  constructor
  · rintro ⟨y, hy, hya, hay⟩
    exact ⟨Or.inr ⟨y, hy, hya, hay⟩, (hgap y hy).le.trans hya⟩
  · rintro ⟨hin | hin, hle⟩
    · exact absurd hin.2 (Nat.not_lt.2 hle)
    · exact hin

theorem Apart.head_eq {y : Extent} (h : Apart (x :: l)) (h' : Apart (y :: l'))
    (hcover : cover (x :: l) = cover (y :: l')) : x = y := by
  have hx := (apart_cons.1 h).1
  have hy := (apart_cons.1 h').1
  have hbase : x.base = y.base :=
    le_antisymm (h.base_le (hcover ▸ base_mem_cover hy)) (h'.base_le (hcover ▸ base_mem_cover hx))
  -- the end of one of them is covered by the other unless they end together
  have hstop : ∀ {z w : Extent} {m n : List Extent}, Apart (z :: m) →
      cover (z :: m) = cover (w :: n) → z.base = w.base → w.stop ≤ z.stop := by
    intro z w m n hz hzw hzb
    by_contra hlt
    have hle : z.base ≤ z.stop := Nat.le_add_right _ _
    refine hz.stop_not_mem (hzw ▸ mem_cover_cons.2 (Or.inl ⟨hzb ▸ hle, Nat.not_le.1 hlt⟩))
  have hend : x.stop = y.stop :=
    le_antisymm (hstop h' hcover.symm hbase.symm) (hstop h hcover hbase)
  cases x
  cases y
  simp only [stop] at hend hbase
  rw [hbase, Extent.mk.injEq]
  exact ⟨rfl, by omega⟩

/-- A list with gaps is determined by what it covers. -/
theorem Apart.ext : ∀ {l l' : List Extent}, Apart l → Apart l' → cover l = cover l' → l = l'
  | [], [], _, _, _ => rfl
  | [], y :: l', _, h', hcover => by
    have hmem := base_mem_cover (l := l') (apart_cons.1 h').1
    rw [← hcover, cover_nil] at hmem
    exact hmem.elim
  | x :: l, [], h, _, hcover => by
    have hmem := base_mem_cover (l := l) (apart_cons.1 h).1
    rw [hcover, cover_nil] at hmem
    exact hmem.elim
  | x :: l, y :: l', h, h', hcover => by
    obtain rfl := h.head_eq h' hcover
    have htail : cover l = cover l' := by
      ext a
      rw [h.mem_cover_tail, h'.mem_cover_tail, hcover]
    rw [Apart.ext (apart_cons.1 h).2.2 (apart_cons.1 h').2.2 htail]

theorem Apart.stop_not_mem_of_mem (h : Apart l) (hx : x ∈ l) : x.stop ∉ cover l := by
  induction l with
  | nil => exact absurd hx List.not_mem_nil
  | cons y l ih =>
    obtain ⟨-, hgap, htail⟩ := apart_cons.1 h
    rcases List.mem_cons.1 hx with rfl | hx
    · exact h.stop_not_mem
    · intro hin
      rcases mem_cover_cons.1 hin with hy | hy
      · have hle : x.base ≤ x.stop := Nat.le_add_right _ _
        exact lt_irrefl _ (((hgap x hx).trans_le hle).trans hy.2)
      · exact ih htail hx hy

/-- A list with gaps is not longer than another one that covers where its extents start, but not
where they end. -/
theorem Apart.length_le_of_base (h : Apart l) (hbase : ∀ x ∈ l, x.base ∈ cover l')
    (hstop : ∀ x ∈ l, x.stop ∉ cover l') : l.length ≤ l'.length := by
  induction l generalizing l' with
  | nil => exact Nat.zero_le _
  | cons x l ih =>
    obtain ⟨-, hgap, htail⟩ := apart_cons.1 h
    -- the extents that contain the start of the first one are not needed for the others
    have hlt : (l'.filter fun y => ¬(y.base ≤ x.base ∧ x.base < y.stop)).length < l'.length := by
      obtain ⟨y, hy, hin⟩ := hbase x List.mem_cons_self
      exact List.length_filter_lt_length_iff_exists.2 ⟨y, hy, by simpa using hin⟩
    refine (ih htail (fun z hz => ?_) fun z hz hin => ?_).trans_lt hlt
    · obtain ⟨y, hy, hin⟩ := hbase z (List.mem_cons_of_mem _ hz)
      refine ⟨y, List.mem_filter.2 ⟨hy, decide_eq_true fun hx => ?_⟩, hin⟩
      have hle : x.base ≤ x.stop := Nat.le_add_right _ _
      exact hstop x List.mem_cons_self
        ⟨y, hy, hx.1.trans hle, (hgap z hz).trans hin.2⟩
    · obtain ⟨y, hy, hin⟩ := hin
      exact hstop z (List.mem_cons_of_mem _ hz) ⟨y, (List.mem_filter.1 hy).1, hin⟩

/-- Of all lists that cover a set, the one with gaps is the shortest. -/
theorem Apart.length_le (h : Apart l) (hcover : cover l = cover l') : l.length ≤ l'.length := by
  refine h.length_le_of_base (fun x hx => ?_) fun x hx => ?_
  · rw [← hcover]
    exact ⟨x, hx, le_rfl, Nat.lt_add_of_pos_right (h.1 x hx)⟩
  · rw [← hcover]
    exact h.stop_not_mem_of_mem hx

/-! ### Sizes -/

/-- The sum of the sizes. -/
def bytes (l : List Extent) : ℕ := (l.map size).sum

@[simp] theorem bytes_nil : bytes [] = 0 := rfl

@[simp] theorem bytes_cons (x : Extent) (l : List Extent) : bytes (x :: l) = x.size + bytes l := by
  simp [bytes]

@[simp] theorem bytes_append (l l' : List Extent) : bytes (l ++ l') = bytes l + bytes l' := by
  simp [bytes]

theorem cover_cons (x : Extent) (l : List Extent) : cover (x :: l) = x.toSet ∪ cover l := by
  ext a
  exact mem_cover_cons

theorem cover_perm (h : l.Perm l') : cover l = cover l' := by
  ext a
  simp only [mem_cover, h.mem_iff]

theorem cover_finite (l : List Extent) : (cover l).Finite := by
  induction l with
  | nil => simp
  | cons x l ih =>
    rw [cover_cons]
    exact (Set.finite_Ico _ _).union ih

/-- The sizes of a sorted list add up to the number of numbers it covers. -/
theorem ncard_cover (h : Ordered l) : (cover l).ncard = bytes l := by
  induction l with
  | nil => simp
  | cons x l ih =>
    obtain ⟨-, hle, hord⟩ := ordered_cons.1 h
    have hdisj : Disjoint x.toSet (cover l) := by
      rw [Set.disjoint_left]
      rintro a ⟨-, ha⟩ ⟨y, hy, hya, -⟩
      exact absurd (ha.trans_le (hle y hy)) (Nat.not_lt.2 hya)
    have hsize : (x.toSet).ncard = x.size := by
      rw [toSet, Set.ncard_Ico_nat, stop]
      exact Nat.add_sub_cancel_left _ _
    rw [cover_cons, Set.ncard_union_eq hdisj (Set.finite_Ico _ _) (cover_finite l), hsize, ih hord,
      bytes_cons]

theorem bytes_le {n : ℕ} (h : Ordered l) (hlt : ∀ a ∈ cover l, a < n) : bytes l ≤ n := by
  rw [← ncard_cover h]
  have hsub : cover l ⊆ Set.Ico 0 n := fun a ha => ⟨Nat.zero_le a, hlt a ha⟩
  refine (Set.ncard_le_ncard hsub (Set.finite_Ico 0 n)).trans_eq ?_
  rw [Set.ncard_Ico_nat, Nat.sub_zero]

/-! ### Maximal intervals -/

/-- `[s, e)` is an interval of `S`, not empty, and no larger one is. -/
structure MaxInterval (S : Set ℕ) (s e : ℕ) : Prop where
  /-- It is not empty. -/
  lt : s < e
  /-- It lies in the set. -/
  subset : Set.Ico s e ⊆ S
  /-- An interval of the set that contains it is the interval itself. -/
  max : ∀ s' e', s' ≤ s → e ≤ e' → Set.Ico s' e' ⊆ S → s' = s ∧ e' = e

end Extent

end MicroKernel
