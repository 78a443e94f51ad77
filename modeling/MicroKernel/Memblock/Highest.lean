import MicroKernel.Memblock.Total
import Mathlib.Data.Nat.Find

/-!
# The highest free block

The iterator visits every part of usable memory that lies in a gap between reserved regions, from
high addresses to low ones, so that the search finds the highest block there is.

* `FreeBlock` : a block that the allocator may return;
* `NextFirst` : what the iterator returns comes first among the parts it has not visited;
* `memblockFindInRange_isGreatest` : the search returns the greatest fit, and 0 when there is none;
* `memblockAllocBase_highest` : no free block of the size and alignment lies above the one that is
  returned.
-/

namespace MicroKernel

open Extent

/-- A block of `size` bytes at `p` that may be returned: aligned, in usable memory, not reserved and
not in the first page. -/
structure FreeBlock (m : Memblock) (size align p : ℕ) : Prop where
  /-- It is aligned. -/
  aligned : align ∣ p
  /-- It is not in the first page. -/
  page_le : pgsize ≤ p
  /-- It is usable and not reserved. -/
  free : ∀ a ∈ Set.Ico p (p + size), a ∈ cover m.memory.regions ∧ a ∉ cover m.reserved.regions

/-! ### The order of regions and gaps -/

theorem region_mem {B : MemblockType} {k : ℕ} (hk : k < B.cnt) : B.region k ∈ B.regions :=
  region_eq_getElem hk ▸ List.getElem_mem hk

namespace Represents

variable {B : MemblockType} {R : Set ℕ} {k k' g g' p size : ℕ}

theorem base_le_rgnEnd (h : Represents B R) (hk : k < B.cnt) :
    (B.region k).base ≤ rgnEnd (B.region k) := by
  have hmem := region_mem hk
  rcases h.form with hnil | ⟨-, -, hw⟩
  · rw [hnil, List.mem_singleton] at hmem
    rw [hmem]
    exact Nat.zero_le _
  · rw [rgnEnd_of_lt (hw _ hmem)]
    exact Nat.le_add_right _ _

theorem rgnEnd_lt_base (h : Represents B R) (hlt : k' < k) (hk : k < B.cnt) :
    rgnEnd (B.region k') < (B.region k).base := by
  have hk' : k' < B.cnt := hlt.trans hk
  rcases h.form with hnil | ⟨-, hap, hw⟩
  · have hcnt : B.cnt = 1 := by rw [MemblockType.cnt, hnil]; rfl
    omega
  · rw [rgnEnd_of_lt (hw _ (region_mem hk')), region_eq_getElem hk, region_eq_getElem hk']
    exact List.pairwise_iff_getElem.1 hap.2 k' k hk' hk hlt

theorem gapEnd_le_gapStart (h : Represents B R) (hlt : g' < g) (hg : g ≤ B.cnt) :
    gapEnd B g' ≤ gapStart B g := by
  have hg' : g' < B.cnt := hlt.trans_le hg
  have hpred : g - 1 < B.cnt := by omega
  rw [gapEnd, if_pos hg', gapStart, if_pos (Nat.ne_of_gt (Nat.zero_lt_of_lt hlt))]
  rcases Nat.eq_or_lt_of_le (Nat.le_sub_one_of_lt hlt) with heq | hlt'
  · exact heq ▸ h.base_le_rgnEnd hg'
  · exact (h.base_le_rgnEnd hg').trans
      ((h.rgnEnd_lt_base hlt' hpred).le.trans (h.base_le_rgnEnd hpred))

theorem gapStart_le_gapEnd (h : Represents B R) : gapStart B g ≤ gapEnd B g := by
  rw [gapStart, gapEnd]
  split_ifs with h₁ h₂ h₂
  · exact (h.rgnEnd_lt_base (by omega) h₂).le
  · have hend := rgnEnd_lt (B.region (g - 1))
    unfold ullongMax
    omega
  · exact Nat.zero_le _
  · exact Nat.zero_le _

/-- A block of covered addresses lies in one region. -/
theorem exists_region (h : Represents B R) (hsize : 0 < size)
    (hp : ∀ a ∈ Set.Ico p (p + size), a ∈ R) :
    ∃ k < B.cnt, (B.region k).base ≤ p ∧ p + size ≤ rgnEnd (B.region k) := by
  obtain ⟨x, hx, hxp, hpx⟩ := h.cover_eq ▸ hp p ⟨le_rfl, by omega⟩
  rcases h.form with hnil | ⟨-, hap, hw⟩
  · rw [hnil, List.mem_singleton] at hx
    rw [hx] at hpx
    exact absurd hpx (Nat.not_lt_zero p)
  obtain ⟨k, hk, rfl⟩ := List.getElem_of_mem hx
  have hreg : B.region k = B.regions[k] := region_eq_getElem hk
  refine ⟨k, hk, hreg ▸ hxp, ?_⟩
  rw [hreg, rgnEnd_of_lt (hw _ hx)]
  by_contra hlong
  -- the address behind the region is not covered
  obtain ⟨y, hy, hyx, hxy⟩ := h.cover_eq ▸ hp (B.regions[k]).stop ⟨by omega, by omega⟩
  obtain ⟨j, hj, rfl⟩ := List.getElem_of_mem hy
  have hpair := List.pairwise_iff_getElem.1 hap.2
  rcases Nat.lt_trichotomy j k with hjk | rfl | hjk
  · have hlt := hpair j k hj hk hjk
    omega
  · exact lt_irrefl _ hxy
  · have hlt := hpair k j hk hj hjk
    omega

/-- A block of addresses that are not covered lies in one gap. -/
theorem exists_gap (h : Represents B R) (hsize : 0 < size) (hend : p + size < 2 ^ 64)
    (hp : ∀ a ∈ Set.Ico p (p + size), a ∉ R) :
    ∃ g ≤ B.cnt, gapStart B g ≤ p ∧ p + size ≤ gapEnd B g := by
  -- the first gap that ends above `p`
  have hex : ∃ g, p < gapEnd B g :=
    ⟨B.cnt, by rw [gapEnd, if_neg (lt_irrefl _), ullongMax]; omega⟩
  have hfirst := Nat.find_spec hex
  have hmin : ∀ g' < Nat.find hex, gapEnd B g' ≤ p := fun g' hg' =>
    Nat.not_lt.1 (Nat.find_min hex hg')
  generalize Nat.find hex = g at hfirst hmin
  have hg : g ≤ B.cnt := by
    by_contra hgt
    have hlast := hmin B.cnt (Nat.not_le.1 hgt)
    rw [gapEnd, if_neg (lt_irrefl _), ullongMax] at hlast
    omega
  have hnot : ∀ j (hj : j < B.cnt) a, a ∈ Set.Ico p (p + size) →
      (B.region j).base ≤ a → rgnEnd (B.region j) ≤ a := by
    intro j hj a ha hbase
    by_contra hlt
    exact hp a ha (h.mem_of_region hj hbase (Nat.not_le.1 hlt))
  refine ⟨g, hg, ?_, ?_⟩
  · rw [gapStart]
    split_ifs with hzero
    · have hbelow := hmin (g - 1) (by omega)
      rw [gapEnd, if_pos (by omega)] at hbelow
      exact hnot (g - 1) (by omega) p ⟨le_rfl, by omega⟩ hbelow
    · exact Nat.zero_le _
  · rw [gapEnd] at hfirst ⊢
    split_ifs at hfirst ⊢ with hlt
    · by_contra hlong
      have hbase := hnot g hlt (B.region g).base ⟨by omega, by omega⟩ le_rfl
      -- the region above the gap is not empty
      rcases h.form with hnil | ⟨-, hap, hw⟩
      · have hzero : B.region g = ⟨0, 0⟩ := by
          have hcnt : B.cnt = 1 := by rw [MemblockType.cnt, hnil]; rfl
          obtain rfl : g = 0 := by omega
          rw [MemblockType.region, hnil]
          rfl
        rw [hzero] at hfirst
        exact absurd hfirst (Nat.not_lt_zero p)
      · have hmem : B.region g ∈ B.regions := region_eq_getElem hlt ▸ List.getElem_mem hlt
        rw [rgnEnd_of_lt (hw _ hmem), stop] at hbase
        exact absurd hbase (by have := hap.1 _ hmem; omega)
    · rw [ullongMax]
      omega

end Represents

/-! ### The iterator -/

section Iterator

variable {A B : MemblockType} {U R : Set ℕ} (hA : Represents A U) (hB : Represents B R)

/-- A part of the region `k` of memory may lie in the gap `g`. -/
def Meets (A B : MemblockType) (k g : ℕ) : Prop :=
  gapStart B g < rgnEnd (A.region k) ∧ (A.region k).base < gapEnd B g

/-- The parts that are left to be visited from the indices `a` and `b` on. -/
def Left (A B : MemblockType) (a b : ℤ) (k g : ℕ) : Prop :=
  (k : ℤ) ≤ a ∧ (g : ℤ) ≤ b ∧ Meets A B k g

/-- From the indices `a` and `b` on, the part of the region `k` in the gap `g` comes first, and the
others are left for the indices `a'` and `b'`. -/
structure First (A B : MemblockType) (a b a' b' : ℤ) (k g s e : ℕ) : Prop where
  /-- The part. -/
  range : RangeOf A B k g s e
  /-- The indices behind it. -/
  idx : a' = (k : ℤ) - 1 ∧ b' = g ∨ a' = k ∧ b' = (g : ℤ) - 1
  /-- The part is left. -/
  le : (k : ℤ) ≤ a ∧ (g : ℤ) ≤ b
  /-- The others. -/
  left : ∀ k' g', Left A B a b k' g' → k' = k ∧ g' = g ∨ Left A B a' b' k' g'

/-- What the inner loop for the region `k`, started at the gap `n - 1`, does: it finds the first
part that is left, or leaves all to the regions below. -/
def GapScan.Complete (A B : MemblockType) (k n : ℕ) : GapScan → Prop
  | .found s e a b => ∃ g, First A B k ((n : ℤ) - 1) a b k g s e
  | .ended b => -1 ≤ b ∧ b < n ∧ ∀ k' g', Left A B k ((n : ℤ) - 1) k' g' →
    Left A B ((k : ℤ) - 1) b k' g'

include hA hB in
theorem gapLoop_complete {k : ℕ} (hk : k < A.cnt) (n : ℕ) (hn : n ≤ B.cnt + 1) :
    (gapLoop B (A.region k).base (rgnEnd (A.region k)) k n).Complete A B k n := by
  induction n with
  | zero =>
    refine ⟨le_rfl, by omega, fun k' g' hleft => ?_⟩
    have hneg := hleft.2.1
    omega
  | succ n ih =>
    -- the regions below end below this one, the gaps below end below this one
    have hregion : ∀ k' < k, rgnEnd (A.region k') < (A.region k).base := fun k' hk' =>
      hA.rgnEnd_lt_base hk' hk
    have hgap : ∀ g' < n, gapEnd B g' ≤ gapStart B n := fun g' hg' =>
      hB.gapEnd_le_gapStart hg' (by omega)
    have hend := hA.base_le_rgnEnd hk
    have hself := hB.gapStart_le_gapEnd (g := n)
    rw [gapLoop_succ]
    split_ifs with h1 h2 h3
    · refine ⟨by omega, by omega, fun k' g' hleft => ?_⟩
      obtain ⟨hk', hg', hmeets⟩ := hleft
      refine ⟨?_, by omega, hmeets⟩
      rcases Nat.lt_or_ge k' k with hlt | hge
      · omega
      · obtain rfl : k' = k := by omega
        rcases Nat.lt_or_ge g' n with hlt | hge
        · have := hgap g' hlt
          exact absurd hmeets.2 (by omega)
        · obtain rfl : g' = n := by omega
          exact absurd hmeets.2 (by omega)
    · refine ⟨n, ⟨rfl, rfl⟩, Or.inl ⟨rfl, rfl⟩, by omega, fun k' g' hleft => ?_⟩
      obtain ⟨hk', hg', hmeets⟩ := hleft
      rcases Nat.lt_or_ge k' k with hlt | hge
      · exact Or.inr ⟨by omega, by omega, hmeets⟩
      · obtain rfl : k' = k := by omega
        rcases Nat.lt_or_ge g' n with hlt | hge
        · have := hgap g' hlt
          exact absurd hmeets.2 (by omega)
        · exact Or.inl ⟨rfl, by omega⟩
    · refine ⟨n, ⟨rfl, rfl⟩, Or.inr ⟨rfl, rfl⟩, by omega, fun k' g' hleft => ?_⟩
      obtain ⟨hk', hg', hmeets⟩ := hleft
      rcases Nat.lt_or_ge g' n with hlt | hge
      · exact Or.inr ⟨by omega, by omega, hmeets⟩
      · obtain rfl : g' = n := by omega
        rcases Nat.lt_or_ge k' k with hlt | hge
        · have := hregion k' hlt
          exact absurd hmeets.1 (by omega)
        · exact Or.inl ⟨by omega, rfl⟩
    · -- the gap lies above the region, and so above those below
      have hdrop : ∀ k' g', Left A B k (((n + 1 : ℕ) : ℤ) - 1) k' g' →
          Left A B k ((n : ℤ) - 1) k' g' := by
        rintro k' g' ⟨hk', hg', hmeets⟩
        refine ⟨hk', ?_, hmeets⟩
        rcases Nat.lt_or_ge g' n with hlt | hge
        · omega
        · obtain rfl : g' = n := by omega
          rcases Nat.lt_or_ge k' k with hlt | hge
          · have := hregion k' hlt
            exact absurd hmeets.1 (by omega)
          · obtain rfl : k' = k := by omega
            exact absurd hmeets.1 h2
      have hrest := ih (by omega)
      cases hscan : gapLoop B (A.region k).base (rgnEnd (A.region k)) k n with
      | found s e a b =>
        obtain ⟨g, hfirst⟩ := hscan ▸ hrest
        exact ⟨g, hfirst.range, hfirst.idx, ⟨hfirst.le.1, by have := hfirst.le.2; omega⟩,
          fun k' g' hleft => hfirst.left k' g' (hdrop k' g' hleft)⟩
      | ended b =>
        obtain ⟨h₁, h₂, h₃⟩ := hscan ▸ hrest
        exact ⟨h₁, by omega, fun k' g' hleft => h₃ k' g' (hdrop k' g' hleft)⟩

/-- What the iterator returns, from the indices `a` and `b` on: the end, if nothing is left, or the
part that comes first. -/
def NextFirst (A B : MemblockType) (a b : ℤ) (i s e : ℕ) : Prop :=
  (i = ullongMax ∧ ∀ k g, ¬Left A B a b k g) ∨
    i ≠ ullongMax ∧ ∃ a' b' : ℤ, i = packIdx a' b' ∧ ∃ k g, k < A.cnt ∧ g ≤ B.cnt ∧
      First A B a b a' b' k g s e

include hA hB in
theorem memLoop_first (n : ℕ) : ∀ b : ℤ, n ≤ A.cnt → -1 ≤ b → b ≤ B.cnt →
    NextFirst A B ((n : ℤ) - 1) b (memLoop A (some B) n b).1 (memLoop A (some B) n b).2.1
      (memLoop A (some B) n b).2.2 := by
  have hA' := hA.cnt_le
  have hB' := hB.cnt_le
  unfold maxRegions at hA' hB'
  induction n with
  | zero =>
    intro b _ _ _
    refine Or.inl ⟨rfl, fun k g hleft => ?_⟩
    have := hleft.1
    omega
  | succ n ih =>
    intro b hn hb hb'
    have hgap := gapLoop_complete hA hB (show n < A.cnt by omega) (b + 1).toNat (by omega)
    have hidx : (((b + 1).toNat : ℕ) : ℤ) - 1 = b := by omega
    have hidx' : (((n + 1 : ℕ) : ℤ) - 1) = n := by omega
    rw [hidx']
    simp only [memLoop]
    cases hscan : gapLoop B (A.region n).base (rgnEnd (A.region n)) n (b + 1).toNat with
    | found s e a' b' =>
      obtain ⟨g, hfirst⟩ := hscan ▸ hgap
      rw [hidx] at hfirst
      have hi := hfirst.idx
      have hg := hfirst.le.2
      have hne : packIdx a' b' ≠ ullongMax :=
        packIdx_ne_ullongMax (by omega) (by omega) (by omega) (by omega) (by omega)
      exact Or.inr ⟨hne, a', b', rfl, n, g, by omega, by omega, hfirst⟩
    | ended b' =>
      obtain ⟨h₁, h₂, h₃⟩ := hscan ▸ hgap
      rw [hidx] at h₃
      obtain ⟨hi, hnone⟩ | ⟨hne, a', b'', hi, k, g, hk, hg, hfirst⟩ :=
        ih b' (by omega) h₁ (by omega)
      · exact Or.inl ⟨hi, fun k g hleft => hnone k g (h₃ k g hleft)⟩
      · refine Or.inr ⟨hne, a', b'', hi, k, g, hk, hg, hfirst.range, hfirst.idx, ?_,
          fun k' g' hleft => hfirst.left k' g' (h₃ k' g' hleft)⟩
        have := hfirst.le
        omega

/-- The block of `size` bytes at `q` lies in the region `k` and in the gap `g`. -/
structure Inside (A B : MemblockType) (size q k g : ℕ) : Prop where
  /-- The region. -/
  region : (A.region k).base ≤ q ∧ q + size ≤ rgnEnd (A.region k)
  /-- The gap. -/
  gap : gapStart B g ≤ q ∧ q + size ≤ gapEnd B g

theorem Inside.meets {size q k g : ℕ} (h : Inside A B size q k g) (hsize : 0 < size) :
    Meets A B k g := by
  obtain ⟨⟨h₁, h₂⟩, h₃, h₄⟩ := h
  exact ⟨by omega, by omega⟩

include hA hB in
/-- A block in a part that is left lies below the part that came first. -/
theorem First.le_start {a b a' b' : ℤ} {k g s e size q k' g' : ℕ} (h : First A B a b a' b' k g s e)
    (hk : k < A.cnt) (hg : g ≤ B.cnt) (hleft : Left A B a' b' k' g')
    (hq : Inside A B size q k' g') : q ≤ s := by
  obtain ⟨hk', hg', -⟩ := hleft
  have hidx := h.idx
  rw [h.range.1]
  rcases Nat.lt_or_ge k' k with hlt | hge
  · have hbelow := hA.rgnEnd_lt_base hlt hk
    have hend := hq.region.2
    omega
  · have hbelow := hB.gapEnd_le_gapStart (show g' < g by omega) hg
    have hend := hq.gap.2
    omega

end Iterator

/-! ### The search -/

section Search

variable {m : Memblock} {U R : Set ℕ} (hmem : Represents m.memory U)
  (hres : Represents m.reserved R)

theorem le_roundDown {q x k : ℕ} (hx : x < 2 ^ 64) (hk : k < 64) (hdvd : 2 ^ k ∣ q) (h : q ≤ x) :
    q ≤ roundDown x (2 ^ k) := by
  rw [roundDown_two_pow hx hk]
  obtain ⟨c, rfl⟩ := hdvd
  have hpos := Nat.two_pow_pos k
  rw [Nat.mul_comm (2 ^ k) c]
  exact Nat.mul_le_mul_right _ ((Nat.le_div_iff_mul_le hpos).2 (Nat.mul_comm c _ ▸ h))

include hmem hres in
/-- No block in a part that is left lies above the one that is found. -/
theorem findLoop_highest {start end_ size k cand : ℕ} (hsize : 0 < size) (hk : k < 64) (n : ℕ) :
    ∀ (st : ℕ × ℕ × ℕ) (a b : ℤ), NextFirst m.memory m.reserved a b st.1 st.2.1 st.2.2 →
      findLoop m start end_ size (2 ^ k) n st = .ok cand →
        ∀ q i g, 2 ^ k ∣ q → start ≤ q → q + size ≤ end_ → Left m.memory m.reserved a b i g →
          Inside m.memory m.reserved size q i g → q ≤ cand := by
  induction n with
  | zero => exact fun _ _ _ _ h => nomatch h
  | succ n ih =>
    rintro ⟨idx, s, e⟩ a b hst hfind q i g hdvd hstart hend hleft hq
    obtain ⟨-, hnone⟩ | ⟨hne, a', b', rfl, k', g', hk', hg', hfirst⟩ := hst
    · exact absurd hleft (hnone i g)
    dsimp only at hne hfirst
    have hclamp : clamp s start end_ = min (max s start) end_ := rfl
    have hclamp' : clamp e start end_ = min (max e start) end_ := rfl
    have hlt := rgnEnd_lt (m.memory.region k')
    -- the search goes on with the parts that are left
    have hnext : NextFirst m.memory m.reserved a' b'
        (nextMemRangeRev (packIdx a' b') m.memory (some m.reserved)).1
        (nextMemRangeRev (packIdx a' b') m.memory (some m.reserved)).2.1
        (nextMemRangeRev (packIdx a' b') m.memory (some m.reserved)).2.2 := by
      have hcnt := hmem.cnt_le
      have hcnt' := hres.cnt_le
      have hidx := hfirst.idx
      unfold maxRegions at hcnt hcnt'
      rw [nextMemRangeRev, if_neg hne, toInt32_packIdx_mod (by omega) (by omega),
        toInt32_packIdx_div (by omega) (by omega)]
      have hloop := memLoop_first hmem hres (a' + 1).toNat b' (by omega) (by omega) (by omega)
      rwa [show (((a' + 1).toNat : ℕ) : ℤ) - 1 = a' by omega] at hloop
    rw [findLoop, if_neg hne] at hfind
    dsimp only at hfind
    obtain ⟨rfl, rfl⟩ := hfirst.range
    rcases hfirst.left i g hleft with ⟨rfl, rfl⟩ | hleft'
    · -- the block lies in the part that comes first
      obtain ⟨⟨h₁, h₂⟩, h₃, h₄⟩ := hq
      have hround := le_roundDown (x := clamp (min (rgnEnd (m.memory.region i))
        (gapEnd m.reserved g)) start end_ - size) (by omega) hk hdvd (by omega)
      rw [if_neg (by omega), if_pos (by omega)] at hfind
      exact Except.ok.inj hfind ▸ hround
    · have hbelow := hfirst.le_start hmem hres hk' hg' hleft' hq
      split_ifs at hfind with h1 h2
      · exact ih _ a' b' hnext hfind q i g hdvd hstart hend hleft' hq
      · rw [← Except.ok.inj hfind]
        omega
      · exact ih _ a' b' hnext hfind q i g hdvd hstart hend hleft' hq

include hmem hres in
/-- The block that is found is the highest one. -/
theorem memblockFindInRange_highest {size k start end_ cand : ℕ} (hsize : 0 < size) (hk : k < 64)
    (hfind : memblockFindInRange m size (2 ^ k) start end_ = .ok cand) {q : ℕ}
    (hq : FreeBlock m size (2 ^ k) q) (hstart : start ≤ q)
    (hlimit : q + size ≤ if end_ = memblockAllocAccessible then m.currentLimit else end_) :
    q ≤ cand := by
  have husable : ∀ a ∈ Set.Ico q (q + size), a ∈ U := fun a ha =>
    hmem.cover_eq ▸ (hq.free a ha).1
  have hunreserved : ∀ a ∈ Set.Ico q (q + size), a ∉ R := fun a ha =>
    hres.cover_eq ▸ (hq.free a ha).2
  have hlast := hmem.lt_of_mem _ (husable (q + size - 1) ⟨by omega, by omega⟩)
  obtain ⟨i, hi, hregion⟩ := hmem.exists_region hsize husable
  obtain ⟨g, hg, hgap⟩ := hres.exists_gap hsize (by omega) hunreserved
  have hinside : Inside m.memory m.reserved size q i g := ⟨hregion, hgap⟩
  have hpage := hq.page_le
  have hloop := memLoop_first hmem hres m.memory.cnt m.reserved.cnt le_rfl (by omega) le_rfl
  refine findLoop_highest hmem hres hsize hk _ _ ((m.memory.cnt : ℤ) - 1) m.reserved.cnt ?_ hfind
    q i
    g hq.aligned (by omega) (by omega) ⟨by omega, by omega, hinside.meets hsize⟩ hinside
  rw [nextMemRangeRev, if_pos rfl]
  exact hloop

include hmem hres in
/-- The block that is returned is free, and no free block lies above it. -/
theorem memblockAllocBase_highest {size k maxAddr p : ℕ} {m' : Memblock} (hsize : 0 < size)
    (hk : k < 64) (h : memblockAllocBase m size (2 ^ k) maxAddr = .ok (m', p)) :
    FreeBlock m size (2 ^ k) p ∧ ∀ q, FreeBlock m size (2 ^ k) q →
      (q + size ≤ if maxAddr = memblockAllocAccessible then m.currentLimit else maxAddr) →
        q ≤ p := by
  obtain ⟨hdvd, hpage, hfree, -⟩ := memblockAllocBase_spec hmem hres hsize hk h
  refine ⟨⟨hdvd, hpage, fun a ha => ?_⟩, fun q hq hlimit => ?_⟩
  · rw [hmem.cover_eq, hres.cover_eq]
    exact hfree a ha
  · obtain ⟨-, hfind, -, -⟩ := memblockAllocBase_eq_ok h
    exact memblockFindInRange_highest hmem hres hsize hk hfind hq (Nat.zero_le q) hlimit

/-- A block that `memblock_find_in_range` may return. -/
structure Fit (m : Memblock) (size align start end_ a : ℕ) : Prop where
  /-- It is aligned. -/
  aligned : align ∣ a
  /-- It does not start below `start`, nor in the first page. -/
  start_le : max start pgsize ≤ a
  /-- It does not reach beyond `end`; 0 stands for `current_limit`. -/
  le_end : a + size ≤ if end_ = memblockAllocAccessible then m.currentLimit else end_
  /-- It is usable memory. -/
  usable : Set.Ico a (a + size) ⊆ cover m.memory.regions
  /-- Nothing of it is reserved. -/
  unreserved : Disjoint (Set.Ico a (a + size)) (cover m.reserved.regions)

omit hmem hres in
/-- The search returns the greatest fit, and 0 exactly if there is none.  The empty tables are the
one that `memblock_remove_region` leaves. -/
theorem memblockFindInRange_isGreatest {size k start end_ : ℕ} (hmem : Canonical m.memory)
    (hres : Canonical m.reserved)
    (hzero : (m.memory.region 0).size = 0 → (m.memory.region 0).base = 0)
    (hzero' : (m.reserved.region 0).size = 0 → (m.reserved.region 0).base = 0)
    (hsize : 0 < size) (hk : k < 64) :
    ∃ a, memblockFindInRange m size (2 ^ k) start end_ = .ok a ∧
      (a = 0 ↔ ¬∃ q, Fit m size (2 ^ k) start end_ q) ∧
        (a ≠ 0 → IsGreatest {q | Fit m size (2 ^ k) start end_ q} a) := by
  have hmem' := hmem.represents hzero
  have hres' := hres.represents hzero'
  obtain ⟨a, hfind, hcand⟩ := memblockFindInRange_candidate (m := m) hmem.cnt_le hres.cnt_le size
    (2 ^ k) start end_
  have hgreatest : ∀ q, Fit m size (2 ^ k) start end_ q → q ≤ a := by
    intro q hq
    have hfree : FreeBlock m size (2 ^ k) q :=
      ⟨hq.aligned, (le_max_right _ _).trans hq.start_le, fun x hx =>
        ⟨hq.usable hx, Set.disjoint_left.1 hq.unreserved hx⟩⟩
    exact memblockFindInRange_highest hmem' hres' hsize hk hfind hfree
      ((le_max_left _ _).trans hq.start_le) hq.le_end
  have hfit : a ≠ 0 → Fit m size (2 ^ k) start end_ a := by
    intro hne
    obtain ⟨hdvd, hstart, hfree⟩ := (hcand hne).spec hmem' hres' hsize hk (le_max_left _ _)
    have hend := (hcand hne).le_end
    refine ⟨hdvd, hstart, ?_, fun x hx => (hfree x hx).1, ?_⟩
    · -- the block starts at `start` or above, so its end is not `start`
      omega
    · exact Set.disjoint_left.2 fun x hx => (hfree x hx).2
  refine ⟨a, hfind, ⟨?_, fun hno => ?_⟩, fun hne => ⟨hfit hne, hgreatest⟩⟩
  · rintro rfl ⟨q, hq⟩
    have hle := hgreatest q hq
    have hpage : pgsize ≤ q := (le_max_right _ _).trans hq.start_le
    exact absurd (hpage.trans hle) (by decide)
  · by_contra hne
    exact hno ⟨a, hfit hne⟩

omit hmem hres in
/-- A page below 64 KB of which the highest page is reserved. -/
theorem memblockFindInRange_isGreatest_page :
    ∃ a, memblockFindInRange ⟨0x10000, ⟨[⟨0, 0x10000⟩], 0x10000⟩, ⟨[⟨0xf000, 0x1000⟩], 0x1000⟩⟩
        0x1000 (2 ^ 12) 0 0 = .ok a ∧
      (a = 0 ↔ ¬∃ q, Fit ⟨0x10000, ⟨[⟨0, 0x10000⟩], 0x10000⟩, ⟨[⟨0xf000, 0x1000⟩], 0x1000⟩⟩
        0x1000 (2 ^ 12) 0 0 q) ∧
        (a ≠ 0 → IsGreatest {q | Fit ⟨0x10000, ⟨[⟨0, 0x10000⟩], 0x10000⟩,
          ⟨[⟨0xf000, 0x1000⟩], 0x1000⟩⟩ 0x1000 (2 ^ 12) 0 0 q} a) :=
  memblockFindInRange_isGreatest
    ⟨by decide, Or.inr ⟨by simp, ⟨by simp, by simp⟩, by simp [NoWrap, stop]⟩, rfl⟩
    ⟨by decide, Or.inr ⟨by simp, ⟨by simp, by simp⟩, by simp [NoWrap, stop]⟩, rfl⟩
    (by decide) (by decide) (by decide) (by decide)

end Search

end MicroKernel
