import Mathlib.Data.Set.Lattice
import Mathlib.Order.Interval.Set.Basic

/-!
# Lists of extents

An *extent* is a half-open range of natural numbers given by its base and its size.  A sorted
list of extents represents the set of numbers it covers; this is how allocators keep tables
of used or usable address ranges.  The list operations here are the ones such tables need:

* `fill b e` adds the parts of `[b, e)` that the list does not cover (`cover_fill`), keeping
  it sorted (`Ordered.fill`);
* `coalesce` joins neighbours that touch: it covers the same set (`cover_coalesce`) and leaves
  no two extents touching (`Ordered.apart_coalesce`);
* `carve b e` removes `[b, e)` (`cover_carve`), again keeping the list in that form
  (`Apart.carve`).

`Ordered` lists are sorted, disjoint and free of empty extents; `Apart` ones moreover have a
gap between any two extents.
-/

namespace MicroKernel

/-- A half-open range of numbers. -/
structure Extent where
  /-- The first number. -/
  base : ℕ
  /-- How many numbers there are. -/
  size : ℕ
  deriving DecidableEq, Repr

namespace Extent

/-- The first number past the extent. -/
def stop (x : Extent) : ℕ := x.base + x.size

@[simp] theorem stop_mk_sub {a c : ℕ} (h : a ≤ c) : stop ⟨a, c - a⟩ = c :=
  Nat.add_sub_cancel' h

/-- The numbers of the extent. -/
def toSet (x : Extent) : Set ℕ := Set.Ico x.base x.stop

@[simp] theorem mem_toSet {x : Extent} {a : ℕ} : a ∈ x.toSet ↔ x.base ≤ a ∧ a < x.stop :=
  Iff.rfl

/-- The numbers that some extent of the list contains. -/
def cover (l : List Extent) : Set ℕ := {a | ∃ x ∈ l, a ∈ x.toSet}

theorem mem_cover {l : List Extent} {a : ℕ} :
    a ∈ cover l ↔ ∃ x ∈ l, x.base ≤ a ∧ a < x.stop := Iff.rfl

@[simp] theorem cover_nil : cover [] = ∅ := by ext a; simp [cover]

@[simp] theorem mem_cover_cons {x : Extent} {l : List Extent} {a : ℕ} :
    a ∈ cover (x :: l) ↔ (x.base ≤ a ∧ a < x.stop) ∨ a ∈ cover l := by
  simp [mem_cover]

/-- Sorted by base, disjoint, no empty extent. -/
def Ordered (l : List Extent) : Prop :=
  (∀ x ∈ l, 0 < x.size) ∧ l.Pairwise fun x y => x.stop ≤ y.base

/-- Sorted by base with a gap between any two extents, no empty extent. -/
def Apart (l : List Extent) : Prop :=
  (∀ x ∈ l, 0 < x.size) ∧ l.Pairwise fun x y => x.stop < y.base

theorem Apart.ordered {l : List Extent} (h : Apart l) : Ordered l :=
  ⟨h.1, h.2.imp fun h => h.le⟩

theorem ordered_cons {x : Extent} {l : List Extent} :
    Ordered (x :: l) ↔ 0 < x.size ∧ (∀ y ∈ l, x.stop ≤ y.base) ∧ Ordered l := by
  simp only [Ordered, List.mem_cons, forall_eq_or_imp, List.pairwise_cons]
  tauto

theorem apart_cons {x : Extent} {l : List Extent} :
    Apart (x :: l) ↔ 0 < x.size ∧ (∀ y ∈ l, x.stop < y.base) ∧ Apart l := by
  simp only [Apart, List.mem_cons, forall_eq_or_imp, List.pairwise_cons]
  tauto

theorem ordered_nil : Ordered [] := by simp [Ordered]

theorem apart_nil : Apart [] := by simp [Apart]

/-! ### Adding a range -/

/-- Add to the list the parts of `[b, e)` it does not cover. -/
def fill (b e : ℕ) : List Extent → List Extent
  | [] => if b < e then [⟨b, e - b⟩] else []
  | r :: rs =>
    if e ≤ r.base then if b < e then ⟨b, e - b⟩ :: r :: rs else r :: rs
    else if r.stop ≤ b then r :: fill b e rs
    else if b < r.base then ⟨b, r.base - b⟩ :: r :: fill (min r.stop e) e rs
    else r :: fill (min r.stop e) e rs

theorem cover_fill (b e : ℕ) (l : List Extent) :
    cover (fill b e l) = cover l ∪ Set.Ico b e := by
  induction l generalizing b with
  | nil =>
    ext a
    simp only [fill, cover_nil, Set.empty_union, Set.mem_Ico]
    split_ifs with h <;> simp [stop] <;> omega
  | cons r rs ih =>
    ext a
    have hr : r.base ≤ r.stop := Nat.le_add_right _ _
    simp only [fill, Set.mem_union, Set.mem_Ico, mem_cover_cons]
    split_ifs with h1 h2 h3 h4
    · have hstop : stop ⟨b, e - b⟩ = e := stop_mk_sub h2.le
      simp only [mem_cover_cons, hstop]
      tauto
    · rw [mem_cover_cons]
      constructor
      · tauto
      · rintro (h | h)
        · exact h
        · omega
    · rw [mem_cover_cons, ih]
      simp only [Set.mem_union, Set.mem_Ico]
      tauto
    · have hstop : stop ⟨b, r.base - b⟩ = r.base := stop_mk_sub h4.le
      simp only [mem_cover_cons, hstop, ih, Set.mem_union, Set.mem_Ico]
      by_cases ha : a ∈ cover rs
      · simp only [ha, or_true, true_or]
      · simp only [ha, or_false, false_or]; omega
    · simp only [mem_cover_cons, ih, Set.mem_union, Set.mem_Ico]
      by_cases ha : a ∈ cover rs
      · simp only [ha, or_true, true_or]
      · simp only [ha, or_false, false_or]; omega

theorem fill_of_le {b e : ℕ} (h : e ≤ b) (l : List Extent) : fill b e l = l := by
  induction l generalizing b with
  | nil => simp [fill, Nat.not_lt.2 h]
  | cons r rs ih =>
    simp only [fill]
    split_ifs with h1 h2 h3 h4
    · omega
    · rfl
    · rw [ih h]
    · omega
    · rw [ih (by omega)]

theorem le_base_of_mem_fill {b c e : ℕ} {l : List Extent} (hl : ∀ x ∈ l, c ≤ x.base)
    (hb : c ≤ b) : ∀ x ∈ fill b e l, c ≤ x.base := by
  induction l generalizing b with
  | nil =>
    simp only [fill]
    split_ifs <;> simp [hb]
  | cons r rs ih =>
    simp only [List.mem_cons, forall_eq_or_imp] at hl
    have hr : r.base ≤ r.stop := Nat.le_add_right _ _
    simp only [fill]
    split_ifs with h1 h2 h3 h4
    · simpa [hb] using hl
    · simpa using hl
    · simpa using ⟨hl.1, ih hl.2 hb⟩
    · simpa using ⟨hb, hl.1, ih hl.2 (by omega)⟩
    · simpa using ⟨hl.1, ih hl.2 (by omega)⟩

/-- Past an extent `r`, filling up to `e` adds nothing below the end of `r`. -/
theorem stop_le_of_mem_fill_min {r : Extent} {e : ℕ} {rs : List Extent}
    (hrs : ∀ y ∈ rs, r.stop ≤ y.base) : ∀ y ∈ fill (min r.stop e) e rs, r.stop ≤ y.base := by
  rcases le_total r.stop e with h | h
  · exact le_base_of_mem_fill hrs (by omega)
  · rwa [min_eq_right h, fill_of_le le_rfl]

theorem Ordered.fill {l : List Extent} (hl : Ordered l) (b e : ℕ) :
    Ordered (Extent.fill b e l) := by
  induction l generalizing b with
  | nil =>
    simp only [Extent.fill]
    split_ifs with h
    · exact ordered_cons.2 ⟨Nat.sub_pos_of_lt h, by simp, ordered_nil⟩
    · exact ordered_nil
  | cons r rs ih =>
    obtain ⟨hr, hrs, hord⟩ := ordered_cons.1 hl
    have hle : r.base ≤ r.stop := Nat.le_add_right _ _
    have hmin := stop_le_of_mem_fill_min (e := e) hrs
    simp only [Extent.fill]
    split_ifs with h1 h2 h3 h4
    · refine ordered_cons.2 ⟨Nat.sub_pos_of_lt h2, fun y hy => ?_, hl⟩
      have hstop : stop ⟨b, e - b⟩ = e := stop_mk_sub h2.le
      rw [hstop]
      rcases List.mem_cons.1 hy with rfl | hy
      · exact h1
      · have := hrs y hy; omega
    · exact hl
    · exact ordered_cons.2 ⟨hr, le_base_of_mem_fill hrs h3, ih hord b⟩
    · refine ordered_cons.2 ⟨Nat.sub_pos_of_lt h4, fun y hy => ?_,
        ordered_cons.2 ⟨hr, hmin, ih hord _⟩⟩
      have hstop : stop ⟨b, r.base - b⟩ = r.base := stop_mk_sub h4.le
      rw [hstop]
      rcases List.mem_cons.1 hy with rfl | hy
      · exact le_rfl
      · have := hmin y hy; omega
    · exact ordered_cons.2 ⟨hr, hmin, ih hord _⟩

/-! ### Joining neighbours -/

/-- Join the extent `x` with the extents after it as long as they touch. -/
def coalesceFrom (x : Extent) : List Extent → List Extent
  | [] => [x]
  | y :: l =>
    if x.stop ≠ y.base then x :: coalesceFrom y l else coalesceFrom ⟨x.base, x.size + y.size⟩ l

/-- Join the extents that touch. -/
def coalesce : List Extent → List Extent
  | [] => []
  | x :: l => coalesceFrom x l

theorem cover_coalesceFrom (x : Extent) (l : List Extent) :
    cover (coalesceFrom x l) = cover (x :: l) := by
  induction l generalizing x with
  | nil => rfl
  | cons y l ih =>
    ext a
    simp only [coalesceFrom]
    split_ifs with h
    · simp only [mem_cover_cons, ih]
    · simp only [ne_eq, not_not] at h
      simp only [ih, mem_cover_cons]
      by_cases ha : a ∈ cover l <;> simp only [ha, or_true, or_false]
      simp only [stop] at h ⊢
      omega

theorem cover_coalesce (l : List Extent) : cover (coalesce l) = cover l := by
  cases l with
  | nil => rfl
  | cons x l => exact cover_coalesceFrom x l

theorem base_le_of_mem_coalesceFrom {x : Extent} {l : List Extent} (h : Ordered (x :: l)) :
    ∀ y ∈ coalesceFrom x l, x.base ≤ y.base := by
  induction l generalizing x with
  | nil => simp [coalesceFrom]
  | cons z l ih =>
    obtain ⟨hx, hxl, hord⟩ := ordered_cons.1 h
    obtain ⟨hz, hzl, hl⟩ := ordered_cons.1 hord
    have hle : x.base ≤ x.stop := Nat.le_add_right _ _
    intro y hy
    simp only [coalesceFrom] at hy
    split_ifs at hy with hne
    · rcases List.mem_cons.1 hy with rfl | hy
      · exact le_rfl
      · have := ih hord y hy
        have := hxl z List.mem_cons_self
        omega
    · simp only [ne_eq, not_not] at hne
      refine ih (x := ⟨x.base, x.size + z.size⟩) (ordered_cons.2 ⟨by simp; omega, ?_, hl⟩) y hy
      intro w hw
      have := hzl w hw
      simp only [stop] at *
      omega

theorem Ordered.apart_coalesceFrom {x : Extent} {l : List Extent} (h : Ordered (x :: l)) :
    Apart (coalesceFrom x l) := by
  induction l generalizing x with
  | nil => exact apart_cons.2 ⟨(ordered_cons.1 h).1, by simp, apart_nil⟩
  | cons z l ih =>
    obtain ⟨hx, hxl, hord⟩ := ordered_cons.1 h
    obtain ⟨hz, hzl, hl⟩ := ordered_cons.1 hord
    simp only [coalesceFrom]
    split_ifs with hne
    · refine apart_cons.2 ⟨hx, fun y hy => ?_, ih hord⟩
      have := base_le_of_mem_coalesceFrom hord y hy
      have := hxl z List.mem_cons_self
      omega
    · simp only [ne_eq, not_not] at hne
      refine ih (ordered_cons.2 ⟨by simp; omega, fun w hw => ?_, hl⟩)
      have := hzl w hw
      simp only [stop] at *
      omega

/-- Joining the touching extents of a sorted list leaves a gap between any two. -/
theorem Ordered.apart_coalesce {l : List Extent} (h : Ordered l) : Apart (coalesce l) := by
  cases l with
  | nil => exact apart_nil
  | cons x l => exact h.apart_coalesceFrom

/-! ### Removing a range -/

/-- Remove `[b, e)` from the list, cutting the extents that stick out of it. -/
def carve (b e : ℕ) : List Extent → List Extent
  | [] => []
  | r :: rs =>
    if e ≤ r.base then r :: rs
    else if r.stop ≤ b then r :: carve b e rs
    else (if r.base < b then [⟨r.base, b - r.base⟩] else []) ++
      if e < r.stop then ⟨e, r.stop - e⟩ :: rs else carve b e rs

theorem cover_carve {l : List Extent} (hl : Ordered l) {b e : ℕ} (hbe : b < e) :
    cover (carve b e l) = cover l \ Set.Ico b e := by
  induction l with
  | nil => simp [carve]
  | cons r rs ih =>
    obtain ⟨hr, hrs, hord⟩ := ordered_cons.1 hl
    have hge : ∀ a ∈ cover rs, r.stop ≤ a := by
      rintro a ⟨y, hy, hya, -⟩
      have := hrs y hy; omega
    ext a
    simp only [carve, Set.mem_sdiff, Set.mem_Ico, mem_cover_cons]
    split_ifs with h1 h2 h3 h4 h4
    · simp only [mem_cover_cons]
      by_cases ha : a ∈ cover rs <;> simp only [ha, or_true, or_false, true_and]
      · have := hge a ha
        have : r.base ≤ r.stop := Nat.le_add_right _ _
        simp only [true_iff]; omega
      · omega
    · simp only [mem_cover_cons, ih hord, Set.mem_sdiff, Set.mem_Ico]
      by_cases ha : a ∈ cover rs <;>
        simp only [ha, or_true, or_false, true_and, false_and] <;> omega
    · have hs1 : stop ⟨r.base, b - r.base⟩ = b := stop_mk_sub h3.le
      have hs2 : stop ⟨e, r.stop - e⟩ = r.stop := stop_mk_sub h4.le
      simp only [List.cons_append, List.nil_append, mem_cover_cons, hs1, hs2]
      by_cases ha : a ∈ cover rs <;> simp only [ha, or_true, or_false, true_and]
      · have := hge a ha; simp only [true_iff]; omega
      · omega
    · have hs1 : stop ⟨r.base, b - r.base⟩ = b := stop_mk_sub h3.le
      simp only [List.cons_append, List.nil_append, mem_cover_cons, hs1, ih hord, Set.mem_sdiff,
        Set.mem_Ico]
      by_cases ha : a ∈ cover rs <;> simp only [ha, or_true, or_false, true_and, false_and] <;>
        omega
    · have hs2 : stop ⟨e, r.stop - e⟩ = r.stop := stop_mk_sub h4.le
      simp only [List.nil_append, mem_cover_cons, hs2]
      by_cases ha : a ∈ cover rs <;> simp only [ha, or_true, or_false, true_and]
      · have := hge a ha; simp only [true_iff]; omega
      · omega
    · simp only [List.nil_append, ih hord, Set.mem_sdiff, Set.mem_Ico]
      by_cases ha : a ∈ cover rs
      · simp only [ha, or_true, true_and]
      · simp only [ha, or_false, false_and, false_iff]; omega

theorem le_base_of_mem_carve {b c e : ℕ} {l : List Extent} (hl : Ordered l) (hbe : b < e)
    (hc : ∀ x ∈ l, c < x.base) : ∀ x ∈ carve b e l, c < x.base := by
  induction l with
  | nil => simp [carve]
  | cons r rs ih =>
    obtain ⟨hr, hrs, hord⟩ := ordered_cons.1 hl
    simp only [List.mem_cons, forall_eq_or_imp] at hc
    have ih' := ih hord hc.2
    simp only [carve]
    split_ifs with h1 h2 h3 h4 h4
    · simpa using hc
    · simpa using ⟨hc.1, ih'⟩
    · simpa using ⟨hc.1, by omega, hc.2⟩
    · simpa using ⟨hc.1, ih'⟩
    · simpa using ⟨by omega, hc.2⟩
    · simpa using ih'

theorem Apart.carve {l : List Extent} (hl : Apart l) {b e : ℕ} (hbe : b < e) :
    Apart (Extent.carve b e l) := by
  induction l with
  | nil => exact apart_nil
  | cons r rs ih =>
    obtain ⟨hr, hrs, hap⟩ := apart_cons.1 hl
    have hle : r.base ≤ r.stop := Nat.le_add_right _ _
    have hrest := le_base_of_mem_carve hap.ordered hbe hrs
    -- the part of `r` above `[b, e)`, when there is one, is followed by `rs` unchanged
    have htail : e < r.stop → Apart (⟨e, r.stop - e⟩ :: rs) := fun h =>
      apart_cons.2 ⟨by simp; omega, fun y hy => by
        have := hrs y hy; simp only [stop] at *; omega, hap⟩
    simp only [Extent.carve]
    split_ifs with h1 h2 h3 h4 h4
    · exact hl
    · exact apart_cons.2 ⟨hr, hrest, ih hap⟩
    · refine apart_cons.2 ⟨by simp; omega, fun y hy => ?_, htail h4⟩
      have hs1 : stop ⟨r.base, b - r.base⟩ = b := stop_mk_sub h3.le
      rw [hs1]
      rcases List.mem_cons.1 hy with rfl | hy
      · exact hbe
      · have := hrs y hy; omega
    · refine apart_cons.2 ⟨by simp; omega, fun y hy => ?_, ih hap⟩
      have hs1 : stop ⟨r.base, b - r.base⟩ = b := stop_mk_sub h3.le
      rw [hs1]
      have := hrest y hy
      omega
    · exact htail h4
    · exact ih hap

end Extent

end MicroKernel
