import MicroKernel.Memblock.Highest
import MicroKernel.Extent.Canonical

/-!
# Iterating over the free ranges

`for_each_mem_range_rev` calls the iterator until the index is `ULLONG_MAX`.  Here a call reads the
tables only where they have a region, and fails otherwise; it stores a range only if it finds one.

* `nextMemRangeRev?`, `rangeCalls` : one call, and all calls of the loop;
* `memLoop?_eq` : no call reads outside the tables;
* `exists_rangeOf_iff` : the parts of the regions in the gaps are the maximal free intervals;
* `rangeCalls_exact` : the loop ends, after every maximal free interval once, from the highest down.
-/

namespace MicroKernel

open Extent

/-! ### The calls -/

/-- `regions[k]`, for a region that the table has. -/
def MemblockType.region? (type : MemblockType) (k : ℕ) : Option MemblockRegion := type.regions[k]?

/-- `r_start`: `r[-1].base + r[-1].size`, or 0. -/
def gapStart? (type : MemblockType) (g : ℕ) : Option ℕ :=
  if g ≠ 0 then (type.region? (g - 1)).map rgnEnd else some 0

/-- `r_end`: `r->base`, or `ULLONG_MAX`. -/
def gapEnd? (type : MemblockType) (g : ℕ) : Option ℕ :=
  if g < type.cnt then (type.region? g).map base else some ullongMax

/-- `gapLoop`, where a region that the table does not have is not read. -/
def gapLoop? (typeB : MemblockType) (mStart mEnd idxA : ℕ) : ℕ → Option GapScan
  | 0 => some (.ended (-1))
  | b + 1 => do
    let rStart ← gapStart? typeB b
    let rEnd ← gapEnd? typeB b
    if rEnd ≤ mStart then some (.ended b)
    else if rStart < mEnd then
      if rStart ≤ mStart then
        some (.found (max mStart rStart) (min mEnd rEnd) ((idxA : ℤ) - 1) b)
      else some (.found (max mStart rStart) (min mEnd rEnd) idxA ((b : ℤ) - 1))
    else gapLoop? typeB mStart mEnd idxA b

/-- `memLoop`, where a region that the table does not have is not read: the new packed index, and
the range if one is stored. -/
def memLoop? (typeA typeB : MemblockType) : ℕ → ℤ → Option (ℕ × Option (ℕ × ℕ))
  | 0, _ => some (ullongMax, none)
  | a + 1, idxB => do
    let m ← typeA.region? a
    match ← gapLoop? typeB m.base (rgnEnd m) a (idxB + 1).toNat with
    | .found outStart outEnd idxA idxB => some (packIdx idxA idxB, some (outStart, outEnd))
    | .ended idxB => memLoop? typeA typeB a idxB

/-- `__next_mem_range_rev`, where a region that the tables do not have is not read. -/
def nextMemRangeRev? (idx : ℕ) (typeA typeB : MemblockType) : Option (ℕ × Option (ℕ × ℕ)) :=
  if idx = ullongMax then memLoop? typeA typeB typeA.cnt typeB.cnt
  else memLoop? typeA typeB (toInt32 (idx % 2 ^ 32) + 1).toNat (toInt32 (idx / 2 ^ 32 % 2 ^ 32))

/-- What the calls of `for_each_mem_range_rev` return, at most `n` of them, from the index `idx`
on: they end with the first that returns `ULLONG_MAX`. -/
def rangeCalls (typeA typeB : MemblockType) : ℕ → ℕ → Option (List (ℕ × Option (ℕ × ℕ)))
  | 0, _ => none
  | n + 1, idx => do
    let out ← nextMemRangeRev? idx typeA typeB
    if out.1 = ullongMax then some [out]
    else
      let rest ← rangeCalls typeA typeB n out.1
      some (out :: rest)

/-! ### The reads -/

section Reads

variable {A B : MemblockType} {U R : Set ℕ} (hA : Represents A U) (hB : Represents B R)

theorem region?_eq {t : MemblockType} {k : ℕ} (hk : k < t.cnt) :
    t.region? k = some (t.region k) := by
  rw [MemblockType.region?, region_eq_getElem hk]
  exact List.getElem?_eq_getElem hk

theorem gapStart?_eq {g : ℕ} (hg : g ≤ B.cnt) : gapStart? B g = some (gapStart B g) := by
  rw [gapStart?, gapStart]
  split_ifs with hzero
  · rw [region?_eq (by omega), Option.map_some]
  · rfl

theorem gapEnd?_eq (g : ℕ) : gapEnd? B g = some (gapEnd B g) := by
  rw [gapEnd?, gapEnd]
  split_ifs with hlt
  · rw [region?_eq hlt, Option.map_some]
  · rfl

theorem gapLoop?_eq (mStart mEnd k : ℕ) {n : ℕ} (hn : n ≤ B.cnt + 1) :
    gapLoop? B mStart mEnd k n = some (gapLoop B mStart mEnd k n) := by
  induction n with
  | zero => rfl
  | succ n ih =>
    rw [gapLoop?, gapStart?_eq (by omega), gapEnd?_eq, ih (by omega), gapLoop_succ]
    simp only [Option.bind_eq_bind, Option.bind_some]
    split_ifs <;> rfl

/-- A result of the iterator with the range only if one is stored. -/
def stored (r : ℕ × ℕ × ℕ) : ℕ × Option (ℕ × ℕ) := (r.1, if r.1 = ullongMax then none else some r.2)

include hA hB in
/-- The outer loop reads only regions that the tables have, and stores a range exactly if the new
index is not `ULLONG_MAX`. -/
theorem memLoop?_eq (n : ℕ) : ∀ b : ℤ, n ≤ A.cnt → -1 ≤ b → b ≤ B.cnt →
    memLoop? A B n b = some (stored (memLoop A (some B) n b)) := by
  have hcnt := hA.cnt_le
  have hcnt' := hB.cnt_le
  unfold maxRegions at hcnt hcnt'
  induction n with
  | zero => exact fun b _ _ _ => by rw [memLoop?, memLoop, stored, if_pos rfl]
  | succ n ih =>
    intro b hn hb hb'
    have hgap := gapLoop_complete hA hB (show n < A.cnt by omega) (b + 1).toNat (by omega)
    rw [memLoop?, region?_eq (by omega)]
    simp only [Option.bind_eq_bind, Option.bind_some, memLoop]
    rw [gapLoop?_eq _ _ _ (by omega)]
    cases hscan : gapLoop B (A.region n).base (rgnEnd (A.region n)) n (b + 1).toNat with
    | found s e a' b' =>
      obtain ⟨g, hfirst⟩ := hscan ▸ hgap
      have hi := hfirst.idx
      have hg := hfirst.le.2
      have hne : packIdx a' b' ≠ ullongMax :=
        packIdx_ne_ullongMax (by omega) (by omega) (by omega) (by omega) (by omega)
      simp only [Option.bind_some, stored, if_neg hne]
    | ended b' =>
      obtain ⟨h₁, h₂, -⟩ := hscan ▸ hgap
      exact ih b' (by omega) h₁ (by omega)

end Reads

/-! ### The free intervals -/

namespace Represents

variable {B : MemblockType} {R : Set ℕ} {k g g' : ℕ}

theorem base_lt_rgnEnd (h : Represents B R) (hk : k < B.cnt) (hpos : 0 < (B.region k).base) :
    (B.region k).base < rgnEnd (B.region k) := by
  have hmem := region_mem hk
  rcases h.form with hnil | ⟨-, hap, hw⟩
  · rw [hnil, List.mem_singleton] at hmem
    rw [hmem] at hpos
    exact absurd hpos (Nat.lt_irrefl 0)
  · rw [rgnEnd_of_lt (hw _ hmem), stop]
    exact Nat.lt_add_of_pos_right (hap.1 _ hmem)

theorem gapEnd_lt_gapStart (h : Represents B R) (hlt : g' < g) (hg : g ≤ B.cnt)
    (hpos : 0 < gapEnd B g') : gapEnd B g' < gapStart B g := by
  have hg' : g' < B.cnt := hlt.trans_le hg
  rw [gapEnd, if_pos hg'] at hpos ⊢
  rw [gapStart, if_pos (Nat.ne_of_gt (Nat.zero_lt_of_lt hlt))]
  have hregion := h.base_lt_rgnEnd hg' hpos
  rcases Nat.eq_or_lt_of_le (Nat.le_sub_one_of_lt hlt) with heq | hlt'
  · exact heq ▸ hregion
  · have hpred : g - 1 < B.cnt := by omega
    exact hregion.trans ((h.rgnEnd_lt_base hlt' hpred).trans_le (h.base_le_rgnEnd hpred))

/-- A gap is not empty, unless it lies below address 0 or above the last address. -/
theorem gapStart_lt_gapEnd (h : Represents B R) (hpos : 0 < gapEnd B g)
    (hlast : gapStart B g < ullongMax) : gapStart B g < gapEnd B g := by
  rw [gapEnd] at hpos ⊢
  split_ifs at hpos ⊢ with hg
  · rw [gapStart] at hlast ⊢
    split_ifs at hlast ⊢ with hzero
    · exact h.rgnEnd_lt_base (by omega) hg
    · exact hpos
  · exact hlast

end Represents

section Parts

variable {A B : MemblockType} {U R : Set ℕ} (hA : Represents A U) (hB : Represents B R)
  {k k' g g' s s' e e' : ℕ}

include hA hB in
theorem RangeOf.meets_iff (h : RangeOf A B k g s e) (hk : k < A.cnt) : Meets A B k g ↔ s < e := by
  obtain ⟨rfl, rfl⟩ := h
  constructor
  · rintro ⟨hstart, hend⟩
    have hbound := rgnEnd_lt (A.region k)
    have hgap := hB.gapStart_lt_gapEnd (g := g) (by omega) (by unfold ullongMax; omega)
    have hregion : (A.region k).base < rgnEnd (A.region k) := by
      rcases Nat.eq_zero_or_pos (A.region k).base with hzero | hpos
      · omega
      · exact hA.base_lt_rgnEnd hk hpos
    omega
  · exact fun hlt => ⟨by omega, by omega⟩

include hA hB in
theorem RangeOf.subset (h : RangeOf A B k g s e) (hk : k < A.cnt) (hg : g ≤ B.cnt) :
    Set.Ico s e ⊆ U \ R := by
  obtain ⟨rfl, rfl⟩ := h
  intro x hx
  obtain ⟨hs, he⟩ := hx
  exact ⟨hA.mem_of_region hk (by omega) (by omega), hB.not_mem_gap hg (by omega) (by omega)⟩

include hA hB in
/-- An interval of free addresses lies in the part of one region in one gap. -/
theorem exists_rangeOf (hlt : s < e) (hsub : Set.Ico s e ⊆ U \ R) :
    ∃ k g s' e', k < A.cnt ∧ g ≤ B.cnt ∧ RangeOf A B k g s' e' ∧ s' ≤ s ∧ e ≤ e' := by
  have hse : s + (e - s) = e := Nat.add_sub_cancel' hlt.le
  have hlast := hA.lt_of_mem _ (hsub (show e - 1 ∈ Set.Ico s e from ⟨by omega, by omega⟩)).1
  have hU : ∀ x ∈ Set.Ico s (s + (e - s)), x ∈ U := fun x hx => (hsub (hse ▸ hx)).1
  have hR : ∀ x ∈ Set.Ico s (s + (e - s)), x ∉ R := fun x hx => (hsub (hse ▸ hx)).2
  obtain ⟨k, hk, hregion⟩ := hA.exists_region (by omega) hU
  obtain ⟨g, hg, hgap⟩ := hB.exists_gap (by omega) (by omega) hR
  exact ⟨k, g, _, _, hk, hg, ⟨rfl, rfl⟩, by omega, by omega⟩

include hA hB in
/-- Two parts that overlap are parts of one region in one gap. -/
theorem RangeOf.eq_of_overlap (h : RangeOf A B k g s e) (h' : RangeOf A B k' g' s' e')
    (hk : k < A.cnt) (hk' : k' < A.cnt) (hg : g ≤ B.cnt) (hg' : g' ≤ B.cnt) (hlt : s < e)
    (hs : s' ≤ s) (he : e ≤ e') : k = k' ∧ g = g' := by
  obtain ⟨rfl, rfl⟩ := h
  obtain ⟨rfl, rfl⟩ := h'
  constructor
  · rcases Nat.lt_trichotomy k k' with hkk | heq | hkk
    · have := hA.rgnEnd_lt_base hkk hk'
      omega
    · exact heq
    · have := hA.rgnEnd_lt_base hkk hk
      omega
  · rcases Nat.lt_trichotomy g g' with hgg | heq | hgg
    · have := hB.gapEnd_le_gapStart hgg hg'
      omega
    · exact heq
    · have := hB.gapEnd_le_gapStart hgg hg
      omega

include hA hB in
/-- The parts of the regions in the gaps are the maximal intervals of free addresses. -/
theorem exists_rangeOf_iff :
    (∃ k g, k < A.cnt ∧ g ≤ B.cnt ∧ Meets A B k g ∧ RangeOf A B k g s e) ↔
      MaxInterval (U \ R) s e := by
  constructor
  · rintro ⟨k, g, hk, hg, hmeets, hrange⟩
    have hlt := (hrange.meets_iff hA hB hk).1 hmeets
    refine ⟨hlt, hrange.subset hA hB hk hg, fun s' e' hs he hsub => ?_⟩
    obtain ⟨k', g', s'', e'', hk', hg', hrange', hs', he'⟩ :=
      exists_rangeOf hA hB (hs.trans_lt (hlt.trans_le he)) hsub
    obtain ⟨rfl, rfl⟩ := hrange.eq_of_overlap hA hB hrange' hk hk' hg hg' hlt (hs'.trans hs)
      (he.trans he')
    obtain ⟨rfl, rfl⟩ := hrange
    obtain ⟨rfl, rfl⟩ := hrange'
    exact ⟨le_antisymm hs hs', le_antisymm he' he⟩
  · rintro ⟨hlt, hsub, hmax⟩
    obtain ⟨k, g, s', e', hk, hg, hrange, hs, he⟩ := exists_rangeOf hA hB hlt hsub
    obtain ⟨rfl, rfl⟩ := hmax s' e' hs he (hrange.subset hA hB hk hg)
    exact ⟨k, g, hk, hg, (hrange.meets_iff hA hB hk).2 hlt, hrange⟩

include hA hB in
theorem First.stop_lt {a b a' b' : ℤ} (h : First A B a b a' b' k g s e) (hk : k < A.cnt)
    (hg : g ≤ B.cnt) (hleft : Left A B a' b' k' g') (hrange : RangeOf A B k' g' s' e') :
    e' < s := by
  obtain ⟨hk', hg', hmeets⟩ := hleft
  have hidx := h.idx
  rw [h.range.1, hrange.2]
  rcases Nat.lt_or_ge k' k with hlt | hge
  · have := hA.rgnEnd_lt_base hlt hk
    omega
  · have := hB.gapEnd_lt_gapStart (show g' < g by omega) hg (Nat.zero_lt_of_lt hmeets.2)
    omega

include hA hB in
theorem gapLoop_lt {n : ℕ} {a b : ℤ} (hk : k < A.cnt)
    (h : gapLoop B (A.region k).base (rgnEnd (A.region k)) k n = .found s e a b) : s < e := by
  induction n with
  | zero => exact absurd h (by simp [gapLoop])
  | succ n ih =>
    have hpart : RangeOf A B k n _ _ := ⟨rfl, rfl⟩
    rw [gapLoop_succ] at h
    split_ifs at h with h1 h2 h3
    · obtain ⟨rfl, rfl, -, -⟩ := GapScan.found.inj h
      exact (hpart.meets_iff hA hB hk).1 ⟨h2, Nat.not_le.1 h1⟩
    · obtain ⟨rfl, rfl, -, -⟩ := GapScan.found.inj h
      exact (hpart.meets_iff hA hB hk).1 ⟨h2, Nat.not_le.1 h1⟩
    · exact ih h

include hA hB in
/-- The iterator returns no empty range. -/
theorem memLoop_lt (n : ℕ) : ∀ b : ℤ, n ≤ A.cnt → (memLoop A (some B) n b).1 ≠ ullongMax →
    (memLoop A (some B) n b).2.1 < (memLoop A (some B) n b).2.2 := by
  induction n with
  | zero => exact fun b _ hne => absurd rfl hne
  | succ n ih =>
    intro b hn hne
    simp only [memLoop] at hne ⊢
    cases hscan : gapLoop B (A.region n).base (rgnEnd (A.region n)) n (b + 1).toNat with
    | found s e a' b' => exact gapLoop_lt hA hB (Nat.lt_of_succ_le hn) hscan
    | ended b' =>
      rw [hscan] at hne
      exact ih b' (Nat.le_of_succ_le hn) hne

end Parts

/-! ### The loop -/

section Loop

variable {A B : MemblockType} {U R : Set ℕ} (hA : Represents A U) (hB : Represents B R)

/-- `l` holds the parts that are left from the indices `a` and `b` on, from the highest down, each
with the index that is returned for it. -/
structure Visits (A B : MemblockType) (a b : ℤ) (l : List (ℕ × ℕ × ℕ)) : Prop where
  /-- No index is `ULLONG_MAX`. -/
  ne : ∀ x ∈ l, x.1 ≠ ullongMax
  /-- A part lies below those before it. -/
  desc : (l.map Prod.snd).Pairwise fun p q => q.2 < p.1
  /-- These are the parts. -/
  mem : ∀ s e, (s, e) ∈ l.map Prod.snd ↔ ∃ k g, Left A B a b k g ∧ RangeOf A B k g s e

theorem Visits.nil {a b : ℤ} (h : ∀ k g, ¬Left A B a b k g) : Visits A B a b [] := by
  refine ⟨by simp, List.Pairwise.nil, fun s e => ?_⟩
  simp only [List.map_nil, List.not_mem_nil, false_iff]
  rintro ⟨k, g, hleft, -⟩
  exact h k g hleft

include hA hB in
theorem Visits.cons {a b a' b' : ℤ} {k g s e i : ℕ} {l : List (ℕ × ℕ × ℕ)}
    (h : Visits A B a' b' l) (hfirst : First A B a b a' b' k g s e) (hk : k < A.cnt)
    (hg : g ≤ B.cnt) (hlt : s < e) (hi : i ≠ ullongMax) : Visits A B a b ((i, s, e) :: l) := by
  have hidx := hfirst.idx
  have hle := hfirst.le
  refine ⟨?_, ?_, fun s' e' => ?_⟩
  · rintro x (_ | ⟨_, hx⟩)
    · exact hi
    · exact h.ne x hx
  · refine List.pairwise_cons.2 ⟨fun q hq => ?_, h.desc⟩
    obtain ⟨k', g', hleft, hrange⟩ := (h.mem q.1 q.2).1 hq
    exact hfirst.stop_lt hA hB hk hg hleft hrange
  · rw [List.map_cons, List.mem_cons, h.mem]
    constructor
    · rintro (heq | ⟨k', g', ⟨hk', hg', hmeets⟩, hrange⟩)
      · obtain ⟨rfl, rfl⟩ := Prod.mk.inj heq
        exact ⟨k, g, ⟨hle.1, hle.2, (hfirst.range.meets_iff hA hB hk).2 hlt⟩, hfirst.range⟩
      · exact ⟨k', g', ⟨by omega, by omega, hmeets⟩, hrange⟩
    · rintro ⟨k', g', hleft, hrange⟩
      rcases hfirst.left k' g' hleft with ⟨rfl, rfl⟩ | hleft'
      · obtain ⟨rfl, rfl⟩ := hrange
        obtain ⟨hs, he⟩ := hfirst.range
        exact Or.inl (by rw [hs, he])
      · exact Or.inr ⟨k', g', hleft', hrange⟩

/-- The indices behind a part are read back from the index that is returned. -/
theorem nextMemRangeRev?_packIdx {a b : ℤ} (hne : packIdx a b ≠ ullongMax) (ha : -1 ≤ a)
    (ha' : a < 2 ^ 31) (hb : -1 ≤ b) (hb' : b < 2 ^ 31) :
    nextMemRangeRev? (packIdx a b) A B = memLoop? A B (a + 1).toNat b := by
  rw [nextMemRangeRev?, if_neg hne, toInt32_packIdx_mod (by omega) (by omega),
    toInt32_packIdx_div (by omega) (by omega)]

include hA hB in
/-- From the indices `a` and `b` on, the loop visits the parts that are left: each call moves one of
the two indices down. -/
theorem rangeCalls_visits (n : ℕ) : ∀ (idx : ℕ) (a b : ℤ), -1 ≤ a → a < A.cnt → -1 ≤ b →
    b ≤ B.cnt → a + b + 2 < n → nextMemRangeRev? idx A B = memLoop? A B (a + 1).toNat b →
      ∃ l, Visits A B a b l ∧ rangeCalls A B n idx =
        some (l.map (fun x => (x.1, some x.2)) ++ [(ullongMax, none)]) := by
  have hcnt := hA.cnt_le
  have hcnt' := hB.cnt_le
  unfold maxRegions at hcnt hcnt'
  induction n with
  | zero => exact fun idx a b ha ha' hb hb' hn => by omega
  | succ n ih =>
    intro idx a b ha ha' hb hb' hn hnext
    have hfirst := memLoop_first hA hB (a + 1).toNat b (by omega) hb hb'
    have hlt := memLoop_lt hA hB (a + 1).toNat b (by omega)
    rw [show (((a + 1).toNat : ℕ) : ℤ) - 1 = a by omega] at hfirst
    rw [memLoop?_eq hA hB _ _ (by omega) hb hb'] at hnext
    rw [rangeCalls, hnext]
    generalize memLoop A (some B) (a + 1).toNat b = r at hfirst hlt
    obtain ⟨i, s, e⟩ := r
    simp only at hfirst hlt
    obtain ⟨rfl, hnone⟩ | ⟨hne, a', b', rfl, k, g, hk, hg, hpart⟩ := hfirst
    · refine ⟨[], .nil hnone, ?_⟩
      simp [stored]
    · have hidx := hpart.idx
      have hle := hpart.le
      obtain ⟨l, hvisits, hcalls⟩ := ih (packIdx a' b') a' b' (by omega) (by omega) (by omega)
        (by omega) (by omega)
        (nextMemRangeRev?_packIdx hne (by omega) (by omega) (by omega) (by omega))
      refine ⟨(packIdx a' b', s, e) :: l, hvisits.cons hA hB hpart hk hg (hlt hne) hne, ?_⟩
      simp [stored, hne, hcalls]

include hA hB in
/-- The loop of `for_each_mem_range_rev` ends: it visits the maximal intervals of the addresses that
the first table covers and the second does not, from the highest down, and only the last call
returns `ULLONG_MAX`.  No region is read that the tables do not have. -/
theorem rangeCalls_exact :
    ∃ l : List (ℕ × ℕ × ℕ), rangeCalls A B (A.cnt + B.cnt + 2) ullongMax =
        some (l.map (fun x => (x.1, some x.2)) ++ [(ullongMax, none)]) ∧
      (∀ x ∈ l, x.1 ≠ ullongMax) ∧ (l.map Prod.snd).Pairwise (fun p q => q.2 < p.1) ∧
      ∀ s e, (s, e) ∈ l.map Prod.snd ↔ MaxInterval (U \ R) s e := by
  obtain ⟨l, hvisits, hcalls⟩ := rangeCalls_visits hA hB (A.cnt + B.cnt + 2) ullongMax
    ((A.cnt : ℤ) - 1) B.cnt (by omega) (by omega) (by omega) le_rfl (by omega)
    (by rw [nextMemRangeRev?, if_pos rfl, show ((A.cnt : ℤ) - 1 + 1).toNat = A.cnt by omega])
  refine ⟨l, hcalls, hvisits.ne, hvisits.desc, fun s e => ?_⟩
  rw [hvisits.mem, ← exists_rangeOf_iff hA hB]
  constructor
  · rintro ⟨k, g, ⟨hk, hg, hmeets⟩, hrange⟩
    exact ⟨k, g, by omega, by omega, hmeets, hrange⟩
  · rintro ⟨k, g, hk, hg, hmeets, hrange⟩
    exact ⟨k, g, ⟨by omega, by omega, hmeets⟩, hrange⟩

omit hA hB in
/-- Two regions of memory, a reserved range inside the first and one across the gap between them. -/
theorem rangeCalls_exact_two :
    ∃ l : List (ℕ × ℕ × ℕ), rangeCalls ⟨[⟨0, 0x8000⟩, ⟨0x10000, 0x8000⟩], 0x10000⟩
        ⟨[⟨0x4000, 0x1000⟩, ⟨0x7000, 0xa000⟩], 0xb000⟩ (2 + 2 + 2) ullongMax =
        some (l.map (fun x => (x.1, some x.2)) ++ [(ullongMax, none)]) ∧
      (∀ x ∈ l, x.1 ≠ ullongMax) ∧ (l.map Prod.snd).Pairwise (fun p q => q.2 < p.1) ∧
      ∀ s e, (s, e) ∈ l.map Prod.snd ↔ MaxInterval (cover [⟨0, 0x8000⟩, ⟨0x10000, 0x8000⟩] \
        cover [⟨0x4000, 0x1000⟩, ⟨0x7000, 0xa000⟩]) s e :=
  rangeCalls_exact (A := ⟨[⟨0, 0x8000⟩, ⟨0x10000, 0x8000⟩], 0x10000⟩)
    (B := ⟨[⟨0x4000, 0x1000⟩, ⟨0x7000, 0xa000⟩], 0xb000⟩)
    ⟨by decide, Or.inr ⟨by simp, ⟨by simp, by simp [stop]⟩, by simp [NoWrap, stop]⟩, rfl⟩
    ⟨by decide, Or.inr ⟨by simp, ⟨by simp, by simp [stop]⟩, by simp [NoWrap, stop]⟩, rfl⟩

/-- Reserved ranges at the ends of the only region: the last index is that of the gap below them. -/
example : rangeCalls ⟨[⟨0x1000, 0x8000⟩], 0x8000⟩ ⟨[⟨0x1000, 0x1000⟩, ⟨0x8000, 0x1000⟩], 0x2000⟩ 5
    ullongMax = some [(packIdx 0 0, some (0x2000, 0x8000)), (ullongMax, none)] := by decide

end Loop

end MicroKernel
