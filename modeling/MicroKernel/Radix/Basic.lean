import Mathlib.Data.Finset.Card
import Mathlib.Data.Finset.Prod
import Mathlib.Order.Interval.Finset.Nat

/-!
# Radix trees of tables

A table holds `B` words, and a word may lead to a table of the next level.  The digits of a number
in base `B` select the words on a path from the root, and in the end the word for the number.

* `Radix.descend`, `Radix.leaf` : the table on a path, and the word that is found;
* `Radix.Separate` : every table is on one path only;
* `Radix.descend_set`, `Radix.leaf_set` : a word is written in a last table;
* `Radix.Links.descend_eq`, `Radix.Links.leaf_eq` : a new table without words is linked to a table;
* `Radix.missing`, `Radix.Links.card_missing` : the tables that are not there for a range of
  numbers.
-/

namespace MicroKernel

namespace Radix

variable {α W : Type*}

/-! ### Paths -/

/-- The table at depth `d` for the number `x`, which has `d` digits. -/
def descend (child : W → Option α) (B : ℕ) (get : α → ℕ → W) (root : α) : ℕ → ℕ → Option α
  | 0, _ => some root
  | d + 1, x => (descend child B get root d (x / B)).bind fun a => child (get a (x % B))

/-- The word for `x`, which has `D + 1` digits, if it is one that leads somewhere. -/
def leaf (child : W → Option α) (B : ℕ) (get : α → ℕ → W) (root : α) (D x : ℕ) : Option W :=
  (descend child B get root D (x / B)).bind fun a =>
    if (child (get a (x % B))).isSome then some (get a (x % B)) else none

/-- No table is on two paths. -/
def Separate (child : W → Option α) (B : ℕ) (get : α → ℕ → W) (root : α) (D : ℕ) : Prop :=
  ∀ d ≤ D, ∀ d' ≤ D, ∀ x < B ^ d, ∀ x' < B ^ d', ∀ a, descend child B get root d x = some a →
    descend child B get root d' x' = some a → d = d' ∧ x = x'

/-- The tables down to depth `D`. -/
def tables (child : W → Option α) (B : ℕ) (get : α → ℕ → W) (root : α) (D : ℕ) : Set α :=
  {a | ∃ d ≤ D, ∃ x < B ^ d, descend child B get root d x = some a}

section Paths

variable {child : W → Option α} {B : ℕ} {get get' : α → ℕ → W} {root a b p : α} {D d e x y j : ℕ}
  {w : W}

theorem div_lt (hx : x < B ^ (d + 1)) : x / B < B ^ d :=
  Nat.div_lt_of_lt_mul (by rwa [Nat.pow_succ, Nat.mul_comm] at hx)

theorem base_pos (hx : x < B ^ (d + 1)) : 0 < B := by
  rcases Nat.eq_zero_or_pos B with rfl | hB
  · simp at hx
  · exact hB

theorem eq_snoc_iff (hj : j < B) : x = y * B + j ↔ x / B = y ∧ x % B = j := by
  constructor
  · rintro rfl
    rw [Nat.mul_comm, Nat.mul_add_div (Nat.zero_lt_of_lt hj), Nat.div_eq_of_lt hj, Nat.add_zero,
      Nat.mul_add_mod, Nat.mod_eq_of_lt hj]
    exact ⟨rfl, rfl⟩
  · rintro ⟨rfl, rfl⟩
    exact (Nat.div_add_mod' x B).symm

theorem snoc_lt (hy : y < B ^ d) (hj : j < B) : y * B + j < B ^ (d + 1) := by
  rw [Nat.pow_succ]
  calc y * B + j < y * B + B := Nat.add_lt_add_left hj _
    _ = (y + 1) * B := (Nat.succ_mul y B).symm
    _ ≤ B ^ d * B := Nat.mul_le_mul_right B hy

theorem descend_snoc (hb : descend child B get root d y = some b) (hj : j < B) :
    descend child B get root (d + 1) (y * B + j) = child (get b j) := by
  obtain ⟨h₁, h₂⟩ := (eq_snoc_iff hj).1 (rfl : y * B + j = y * B + j)
  rw [descend, h₁, h₂, hb, Option.bind_some]

/-- A path depends on where the words of its tables lead. -/
theorem descend_congr (h : ∀ e < d, ∀ y < B ^ e, ∀ a, descend child B get root e y = some a →
      ∀ i < B, child (get' a i) = child (get a i)) (hx : x < B ^ d) :
    descend child B get' root d x = descend child B get root d x := by
  induction d generalizing x with
  | zero => rfl
  | succ d ih =>
    have hpre := ih (fun e he => h e (Nat.lt_succ_of_lt he)) (div_lt hx)
    rw [descend, descend, hpre]
    cases ha : descend child B get root d (x / B) with
    | none => rfl
    | some a =>
      exact h d (Nat.lt_succ_self d) _ (div_lt hx) a ha _ (Nat.mod_lt _ (base_pos hx))

/-! ### A word of a last table -/

/-- The words of the tables are as they were, but for the word `j` of `b`, which is `w`. -/
structure Sets (child : W → Option α) (B : ℕ) (get get' : α → ℕ → W) (root : α) (D : ℕ) (b : α)
    (j : ℕ) (w : W) : Prop where
  /-- The word. -/
  word : get' b j = w
  /-- The other words. -/
  get_eq : ∀ a ∈ tables child B get root D, ∀ i < B, ¬(a = b ∧ i = j) → get' a i = get a i

/-- The tables stay where they are. -/
theorem descend_set (hsep : Separate child B get root D) (h : Sets child B get get' root D b j w)
    (hy : y < B ^ D) (hb : descend child B get root D y = some b) (hd : d ≤ D) (hx : x < B ^ d) :
    descend child B get' root d x = descend child B get root d x := by
  refine descend_congr (fun e he z hz a ha i hi => ?_) hx
  rw [h.get_eq a ⟨e, by omega, z, hz, ha⟩ i hi]
  rintro ⟨rfl, -⟩
  have := (hsep e (by omega) D le_rfl z hz y hy a ha hb).1
  omega

theorem separate_set (hsep : Separate child B get root D) (h : Sets child B get get' root D b j w)
    (hy : y < B ^ D) (hb : descend child B get root D y = some b) :
    Separate child B get' root D := by
  intro d hd d' hd' x hx x' hx' a ha ha'
  rw [descend_set hsep h hy hb hd hx] at ha
  rw [descend_set hsep h hy hb hd' hx'] at ha'
  exact hsep d hd d' hd' x hx x' hx' a ha ha'

/-- The word is found for its number, and nothing else is. -/
theorem leaf_set (hsep : Separate child B get root D) (h : Sets child B get get' root D b j w)
    (hy : y < B ^ D) (hb : descend child B get root D y = some b) (hj : j < B)
    (hw : (child w).isSome) (hx : x < B ^ (D + 1)) :
    leaf child B get' root D x = if x = y * B + j then some w else leaf child B get root D x := by
  rw [leaf, descend_set hsep h hy hb le_rfl (div_lt hx)]
  split_ifs with hxy
  · obtain ⟨h₁, h₂⟩ := (eq_snoc_iff hj).1 hxy
    rw [h₁, h₂, hb, Option.bind_some, h.word, if_pos hw]
  · rw [leaf]
    cases ha : descend child B get root D (x / B) with
    | none => rfl
    | some a =>
      have hmod := Nat.mod_lt x (base_pos hx)
      rw [Option.bind_some, Option.bind_some, h.get_eq a ⟨D, le_rfl, _, div_lt hx, ha⟩ _ hmod]
      rintro ⟨rfl, hxj⟩
      have := (hsep D le_rfl D le_rfl _ (div_lt hx) y hy a ha hb).2
      exact hxy ((eq_snoc_iff hj).2 ⟨this, hxj⟩)

/-! ### A new table -/

/-- A new table is linked to the word `j` of the table `b` at depth `d`. -/
structure Links (child : W → Option α) (B : ℕ) (get get' : α → ℕ → W) (root : α) (D d y : ℕ) (b : α)
    (j : ℕ) (p : α) : Prop where
  /-- It is above the last level. -/
  depth : d < D
  /-- The path to `b`. -/
  digits : y < B ^ d
  /-- The table. -/
  path : descend child B get root d y = some b
  /-- The last digit. -/
  digit : j < B
  /-- The word led nowhere. -/
  absent : child (get b j) = none
  /-- It leads to the new table. -/
  word : child (get' b j) = some p
  /-- The other words are as they were. -/
  get_eq : ∀ a ∈ tables child B get root D, ∀ i < B, ¬(a = b ∧ i = j) → get' a i = get a i
  /-- The table is new. -/
  fresh : p ∉ tables child B get root D
  /-- It has no words that lead somewhere. -/
  blank : ∀ i < B, child (get' p i) = none

namespace Links

/-- The new table is on its path, and the other paths are as they were. -/
theorem descend_eq (h : Links child B get get' root D d y b j p)
    (hsep : Separate child B get root D) (he : e ≤ D) (hx : x < B ^ e) :
    descend child B get' root e x =
      if e = d + 1 ∧ x = y * B + j then some p else descend child B get root e x := by
  induction e generalizing x with
  | zero => exact (if_neg fun hnew => absurd hnew.1 (by omega)).symm
  | succ e ih =>
    have hpre := ih (by omega) (div_lt hx)
    have hmod := Nat.mod_lt x (base_pos hx)
    have hsucc : (e + 1 = d + 1 ∧ x = y * B + j) ↔ e = d ∧ x / B = y ∧ x % B = j := by
      rw [eq_snoc_iff h.digit, Nat.succ_inj]
    rw [descend, descend, hpre]
    simp only [hsucc]
    split_ifs with hnew hthis hthis
    · -- the path goes on below the new table
      omega
    · obtain ⟨rfl, hxy⟩ := hnew
      rw [hxy, descend_snoc h.path h.digit, h.absent, Option.bind_some, Option.bind_none]
      exact h.blank _ hmod
    · obtain ⟨rfl, h₁, h₂⟩ := hthis
      rw [h₁, h₂, h.path, Option.bind_some, h.word]
    · cases ha : descend child B get root e (x / B) with
      | none => rfl
      | some a =>
        rw [Option.bind_some, Option.bind_some,
          h.get_eq a ⟨e, by omega, _, div_lt hx, ha⟩ _ hmod]
        rintro ⟨rfl, hxj⟩
        obtain ⟨h₁, h₂⟩ := hsep e (by omega) d h.depth.le _ (div_lt hx) y h.digits a ha h.path
        exact hthis ⟨h₁, h₂, hxj⟩

theorem separate (h : Links child B get get' root D d y b j p)
    (hsep : Separate child B get root D) : Separate child B get' root D := by
  intro e he e' he' x hx x' hx' a ha ha'
  rw [h.descend_eq hsep he hx] at ha
  rw [h.descend_eq hsep he' hx'] at ha'
  split_ifs at ha ha' with h₁ h₂ h₂
  · exact ⟨h₁.1.trans h₂.1.symm, h₁.2.trans h₂.2.symm⟩
  · obtain rfl := Option.some.inj ha
    exact absurd ⟨e', he', x', hx', ha'⟩ h.fresh
  · obtain rfl := Option.some.inj ha'
    exact absurd ⟨e, he, x, hx, ha⟩ h.fresh
  · exact hsep e he e' he' x hx x' hx' a ha ha'

theorem tables_eq (h : Links child B get get' root D d y b j p)
    (hsep : Separate child B get root D) :
    tables child B get' root D = insert p (tables child B get root D) := by
  have hnone : descend child B get root (d + 1) (y * B + j) = none := by
    rw [descend_snoc h.path h.digit, h.absent]
  ext a
  constructor
  · rintro ⟨e, he, x, hx, ha⟩
    rw [h.descend_eq hsep he hx] at ha
    split_ifs at ha
    · exact Or.inl (Option.some.inj ha).symm
    · exact Or.inr ⟨e, he, x, hx, ha⟩
  · rintro (rfl | ⟨e, he, x, hx, ha⟩)
    · have hlt := snoc_lt h.digits h.digit
      exact ⟨d + 1, h.depth, _, hlt, by rw [h.descend_eq hsep h.depth hlt, if_pos ⟨rfl, rfl⟩]⟩
    · refine ⟨e, he, x, hx, ?_⟩
      rw [h.descend_eq hsep he hx, if_neg, ha]
      rintro ⟨rfl, rfl⟩
      rw [hnone] at ha
      cases ha

/-- No word is found that was not found before. -/
theorem leaf_eq (h : Links child B get get' root D d y b j p)
    (hsep : Separate child B get root D) (hx : x < B ^ (D + 1)) :
    leaf child B get' root D x = leaf child B get root D x := by
  have hmod := Nat.mod_lt x (base_pos hx)
  rw [leaf, leaf, h.descend_eq hsep le_rfl (div_lt hx)]
  split_ifs with hnew
  · obtain ⟨rfl, hxy⟩ := hnew
    rw [hxy, descend_snoc h.path h.digit, h.absent, Option.bind_some, Option.bind_none,
      h.blank _ hmod]
    rfl
  · cases ha : descend child B get root D (x / B) with
    | none => rfl
    | some a =>
      rw [Option.bind_some, Option.bind_some, h.get_eq a ⟨D, le_rfl, _, div_lt hx, ha⟩ _ hmod]
      -- a last table is not the one that was linked to
      rintro ⟨rfl, -⟩
      have := (hsep D le_rfl d h.depth.le _ (div_lt hx) y h.digits a ha h.path).1
      have := h.depth
      omega

end Links

/-! ### Tables that are missing -/

/-- The paths of length 1 to `D` to the numbers from `lo` to `hi` that lead to no table. -/
def missing (child : W → Option α) (B : ℕ) (get : α → ℕ → W) (root : α) (D lo hi : ℕ) :
    Finset (ℕ × ℕ) :=
  (Finset.Icc 1 D ×ˢ Finset.range (hi + 1)).filter fun n =>
    lo / B ^ (D + 1 - n.1) ≤ n.2 ∧ n.2 ≤ hi / B ^ (D + 1 - n.1) ∧
      (descend child B get root n.1 n.2).isNone

variable {lo hi : ℕ}

theorem mem_missing : (d, x) ∈ missing child B get root D lo hi ↔ 1 ≤ d ∧ d ≤ D ∧
    lo / B ^ (D + 1 - d) ≤ x ∧ x ≤ hi / B ^ (D + 1 - d) ∧ descend child B get root d x = none := by
  simp only [missing, Finset.mem_filter, Finset.mem_product, Finset.mem_Icc, Finset.mem_range,
    Option.isNone_iff_eq_none]
  constructor
  · rintro ⟨⟨⟨h₁, h₂⟩, -⟩, h₃, h₄, h₅⟩
    exact ⟨h₁, h₂, h₃, h₄, h₅⟩
  · rintro ⟨h₁, h₂, h₃, h₄, h₅⟩
    exact ⟨⟨⟨h₁, h₂⟩, Nat.lt_succ_of_le (h₄.trans (Nat.div_le_self _ _))⟩, h₃, h₄, h₅⟩

theorem digits_lt (hd : d ≤ D) (hhi : hi < B ^ (D + 1)) (hx : x ≤ hi / B ^ (D + 1 - d)) :
    x < B ^ d := by
  refine hx.trans_lt (Nat.div_lt_of_lt_mul ?_)
  rwa [← Nat.pow_add, Nat.sub_add_cancel (by omega)]

theorem missing_congr (hhi : hi < B ^ (D + 1)) (h : ∀ e ≤ D, ∀ x < B ^ e,
      descend child B get' root e x = descend child B get root e x) :
    missing child B get' root D lo hi = missing child B get root D lo hi := by
  ext ⟨e, x⟩
  simp only [mem_missing]
  constructor
  · rintro ⟨h₁, h₂, h₃, h₄, h₅⟩
    exact ⟨h₁, h₂, h₃, h₄, h e h₂ x (digits_lt h₂ hhi h₄) ▸ h₅⟩
  · rintro ⟨h₁, h₂, h₃, h₄, h₅⟩
    exact ⟨h₁, h₂, h₃, h₄, (h e h₂ x (digits_lt h₂ hhi h₄)).trans h₅⟩

/-- After a new table is linked, one less is missing. -/
theorem Links.card_missing (h : Links child B get get' root D d y b j p)
    (hsep : Separate child B get root D) (hhi : hi < B ^ (D + 1))
    (hlow : lo / B ^ (D - d) ≤ y * B + j) (hhigh : y * B + j ≤ hi / B ^ (D - d)) :
    (missing child B get' root D lo hi).card + 1 = (missing child B get root D lo hi).card := by
  have hmem : (d + 1, y * B + j) ∈ missing child B get root D lo hi := by
    rw [mem_missing, Nat.add_sub_add_right]
    exact ⟨by omega, h.depth, hlow, hhigh, by rw [descend_snoc h.path h.digit, h.absent]⟩
  have herase : missing child B get' root D lo hi =
      (missing child B get root D lo hi).erase (d + 1, y * B + j) := by
    ext ⟨e, x⟩
    simp only [Finset.mem_erase, mem_missing, ne_eq, Prod.mk.injEq]
    constructor
    · rintro ⟨h₁, h₂, h₃, h₄, h₅⟩
      rw [h.descend_eq hsep h₂ (digits_lt h₂ hhi h₄)] at h₅
      split_ifs at h₅ with hnew
      exact ⟨hnew, h₁, h₂, h₃, h₄, h₅⟩
    · rintro ⟨hnew, h₁, h₂, h₃, h₄, h₅⟩
      refine ⟨h₁, h₂, h₃, h₄, ?_⟩
      rw [h.descend_eq hsep h₂ (digits_lt h₂ hhi h₄), if_neg hnew, h₅]
  rw [herase]
  exact Finset.card_erase_add_one hmem

end Paths

end Radix

end MicroKernel
