import MicroKernel.Memblock.Canon

/-!
# The search for a free block

The reverse iterator goes down two indices, one over the regions of usable memory and one over
the gaps between the reserved regions, and packs them into one `u64` between two calls.

* `IterAt.next` : a range returned by the iterator is the part of some region of memory
  in some gap, and the sum of the two indices goes down;
* `findLoop_spec` : so the search always ends, and a block it finds is aligned and lies in such a
  range;
* `memblockAllocBase_spec` : for tables in canonical form the block lies in usable memory and
  outside the reserved ranges, and is reserved afterwards.
-/

namespace MicroKernel

open Extent

/-! ### Arithmetic -/

theorem roundDown_two_pow {x k : ℕ} (hx : x < 2 ^ 64) (hk : k < 64) :
    roundDown x (2 ^ k) = x / 2 ^ k * 2 ^ k := by
  have hpow : 2 ^ k < 2 ^ 64 := Nat.pow_lt_pow_right (by decide) hk
  have hpos : 0 < 2 ^ k := Nat.two_pow_pos k
  have hlt : 2 ^ k - 1 < 2 ^ 64 := by omega
  have hmask : ullongMax - sub64 (2 ^ k) 1 = 2 ^ 64 - (2 ^ k - 1 + 1) := by
    rw [sub64_of_le hpow hpos, ullongMax]
    omega
  rw [← Nat.shiftRight_eq_div_pow, ← Nat.shiftLeft_eq]
  refine Nat.eq_of_testBit_eq fun i => ?_
  rw [roundDown, Nat.testBit_and, hmask, Nat.testBit_two_pow_sub_succ hlt,
    Nat.testBit_two_pow_sub_one, Nat.testBit_shiftLeft, Nat.testBit_shiftRight]
  by_cases hi : i < k
  · simp [hi, Nat.not_le.2 hi]
  · have hik : k + (i - k) = i := by omega
    by_cases h64 : i < 64
    · simp [hi, h64, hik, Nat.not_lt.1 hi]
    · have : x.testBit i = false :=
        Nat.testBit_lt_two_pow (hx.trans_le (Nat.pow_le_pow_right (by decide) (by omega)))
      simp [this, hik]

theorem roundDown_le (x y : ℕ) : roundDown x y ≤ x := Nat.and_le_left

theorem dvd_roundDown {x k : ℕ} (hx : x < 2 ^ 64) (hk : k < 64) : 2 ^ k ∣ roundDown x (2 ^ k) := by
  rw [roundDown_two_pow hx hk]
  exact Nat.dvd_mul_left _ _

theorem packIdx_eq (a b : ℤ) :
    packIdx a b = (b % 2 ^ 32).toNat * 2 ^ 32 + (a % 2 ^ 32).toNat := by
  have ha : (a % 2 ^ 32).toNat < 2 ^ 32 := by omega
  have hb : ((b % 2 ^ 64).toNat <<< 32) % 2 ^ 64 = (b % 2 ^ 32).toNat <<< 32 := by
    rw [Nat.shiftLeft_eq, Nat.shiftLeft_eq]
    omega
  rw [packIdx, hb, Nat.or_comm, ← Nat.shiftLeft_add_eq_or_of_lt ha, Nat.shiftLeft_eq]

section Pack

variable {a b : ℤ} (ha : -1 ≤ a) (ha' : a < 2 ^ 31) (hb : -1 ≤ b) (hb' : b < 2 ^ 31)

include ha ha' in
theorem toInt32_packIdx_mod : toInt32 (packIdx a b % 2 ^ 32) = a := by
  rw [packIdx_eq, toInt32]
  split_ifs <;> omega

include hb hb' in
theorem toInt32_packIdx_div : toInt32 (packIdx a b / 2 ^ 32 % 2 ^ 32) = b := by
  rw [packIdx_eq, toInt32]
  split_ifs <;> omega

include ha ha' hb hb' in
theorem packIdx_ne_ullongMax (h : a ≠ -1 ∨ b ≠ -1) : packIdx a b ≠ ullongMax := by
  rw [packIdx_eq, ullongMax]
  omega

end Pack

/-! ### The iterator -/

/-- The end of the region below the gap with index `g`, or 0. -/
def gapStart (type : MemblockType) (g : ℕ) : ℕ := if g ≠ 0 then rgnEnd (type.region (g - 1)) else 0

/-- The base of the region above the gap with index `g`, or `ULLONG_MAX`. -/
def gapEnd (type : MemblockType) (g : ℕ) : ℕ :=
  if g < type.cnt then (type.region g).base else ullongMax

/-- `[s, e)` is the part of the region `k` of memory that lies in the gap `g`. -/
def RangeOf (A B : MemblockType) (k g s e : ℕ) : Prop :=
  s = max (A.region k).base (gapStart B g) ∧ e = min (rgnEnd (A.region k)) (gapEnd B g)

/-- What the inner loop for the region `k`, started at the gap `n - 1`, may result in: a range
and the new indices, or the index at which it ended. -/
def GapScan.Sound (A B : MemblockType) (k n : ℕ) : GapScan → Prop
  | .found s e a b => ∃ g < n, RangeOf A B k g s e ∧
      (a = (k : ℤ) - 1 ∧ b = g ∨ a = k ∧ b = (g : ℤ) - 1)
  | .ended b => -1 ≤ b ∧ b < n

theorem gapLoop_succ (B : MemblockType) (mStart mEnd k n : ℕ) : gapLoop B mStart mEnd k (n + 1) =
    if gapEnd B n ≤ mStart then .ended n
    else if gapStart B n < mEnd then
      if gapStart B n ≤ mStart then
        .found (max mStart (gapStart B n)) (min mEnd (gapEnd B n)) ((k : ℤ) - 1) n
      else .found (max mStart (gapStart B n)) (min mEnd (gapEnd B n)) k ((n : ℤ) - 1)
    else gapLoop B mStart mEnd k n := rfl

theorem gapLoop_sound (A B : MemblockType) (k n : ℕ) :
    (gapLoop B (A.region k).base (rgnEnd (A.region k)) k n).Sound A B k n := by
  induction n with
  | zero => simp [gapLoop, GapScan.Sound]
  | succ n ih =>
    rw [gapLoop_succ]
    split_ifs with h1 h2 h3
    · exact ⟨by omega, by omega⟩
    · exact ⟨n, Nat.lt_succ_self n, ⟨rfl, rfl⟩, Or.inl ⟨rfl, rfl⟩⟩
    · exact ⟨n, Nat.lt_succ_self n, ⟨rfl, rfl⟩, Or.inr ⟨rfl, rfl⟩⟩
    · cases hscan : gapLoop B (A.region k).base (rgnEnd (A.region k)) k n with
      | found s e a b =>
        obtain ⟨g, hg, h⟩ := hscan ▸ ih
        exact ⟨g, by omega, h⟩
      | ended b =>
        obtain ⟨h, h'⟩ := hscan ▸ ih
        exact ⟨h, by omega⟩

/-- What the iterator returns, from the indices `a` and `b` on: the end of the iteration, or
the packed indices of a state with a smaller sum, and a range. -/
def Next (A B : MemblockType) (a b : ℤ) (i s e : ℕ) : Prop :=
  i = ullongMax ∨ ∃ a' b' : ℤ, i = packIdx a' b' ∧ i ≠ ullongMax ∧
    (-1 ≤ a' ∧ a' ≤ a) ∧ (-1 ≤ b' ∧ b' ≤ b) ∧ a' + b' < a + b ∧
    ∃ k g : ℕ, k < A.cnt ∧ g ≤ B.cnt ∧ RangeOf A B k g s e

/-- The outer loop, started at the region `n - 1` and the gap `b`. -/
theorem memLoop_spec {A B : MemblockType} (hA : A.cnt ≤ maxRegions) (hB : B.cnt ≤ maxRegions)
    (n : ℕ) : ∀ b : ℤ, n ≤ A.cnt → -1 ≤ b → b ≤ B.cnt →
      Next A B ((n : ℤ) - 1) b (memLoop A (some B) n b).1 (memLoop A (some B) n b).2.1
        (memLoop A (some B) n b).2.2 := by
  unfold maxRegions at hA hB
  induction n with
  | zero => exact fun b _ _ _ => Or.inl rfl
  | succ n ih =>
    intro b hn hb hb'
    have hgap := gapLoop_sound A B n (b + 1).toNat
    simp only [memLoop]
    cases hscan : gapLoop B (A.region n).base (rgnEnd (A.region n)) n (b + 1).toNat with
    | found s e a' b' =>
      obtain ⟨g, hg, hrange, hidx⟩ := hscan ▸ hgap
      have hne : packIdx a' b' ≠ ullongMax :=
        packIdx_ne_ullongMax (by omega) (by omega) (by omega) (by omega) (by omega)
      exact Or.inr ⟨a', b', rfl, hne, by omega, by omega, by omega, n, g, by omega, by omega,
        hrange⟩
    | ended b' =>
      obtain ⟨h₁, h₂⟩ := hscan ▸ hgap
      obtain h | ⟨a', b'', hi, hne, ha', hb', hlt, hrange⟩ := ih b' (by omega) h₁ (by omega)
      · exact Or.inl h
      · exact Or.inr ⟨a', b'', hi, hne, by omega, by omega, by omega, hrange⟩

section Find

variable {m : Memblock} (hA : m.memory.cnt ≤ maxRegions) (hB : m.reserved.cnt ≤ maxRegions)

/-- The iterator state `st` is that after the indices `a` and `b`, with a sum below `n`. -/
def IterAt (m : Memblock) (n : ℕ) (st : ℕ × ℕ × ℕ) : Prop :=
  ∃ a b : ℤ, a + b + 2 ≤ n ∧ a < m.memory.cnt ∧ b ≤ m.reserved.cnt ∧
    Next m.memory m.reserved a b st.1 st.2.1 st.2.2

include hA hB in
theorem iterAt_first :
    IterAt m (m.memory.cnt + m.reserved.cnt + 1)
      (nextMemRangeRev ullongMax m.memory (some m.reserved)) := by
  refine ⟨(m.memory.cnt : ℤ) - 1, m.reserved.cnt, by push_cast; omega, by omega, le_rfl, ?_⟩
  rw [nextMemRangeRev, if_pos rfl]
  exact memLoop_spec hA hB _ _ le_rfl (by omega) le_rfl

include hA hB in
theorem IterAt.next {n : ℕ} {st : ℕ × ℕ × ℕ} (h : IterAt m (n + 1) st) (hne : st.1 ≠ ullongMax) :
    (∃ k g : ℕ, k < m.memory.cnt ∧ g ≤ m.reserved.cnt ∧
        RangeOf m.memory m.reserved k g st.2.1 st.2.2) ∧
      IterAt m n (nextMemRangeRev st.1 m.memory (some m.reserved)) := by
  unfold maxRegions at hA hB
  obtain ⟨a, b, hsum, ha, hb, h⟩ := h
  obtain ⟨a', b', hi, -, ha', hb', hlt, hrange⟩ := h.resolve_left hne
  refine ⟨hrange, a', b', by omega, by omega, by omega, ?_⟩
  rw [nextMemRangeRev, if_neg hne, hi, toInt32_packIdx_mod (by omega) (by omega),
    toInt32_packIdx_div (by omega) (by omega)]
  have := memLoop_spec hA hB (a' + 1).toNat b' (by omega) hb'.1 (by omega)
  rwa [show (((a' + 1).toNat : ℕ) : ℤ) - 1 = a' by omega] at this

/-- What a search for `size` bytes in `[start, end_)` may find: an aligned address such that the
block lies in a range of the iterator, cut down to `[start, end_)`. -/
def Candidate (m : Memblock) (start end_ size align cand : ℕ) : Prop :=
  ∃ k g s e : ℕ, k < m.memory.cnt ∧ g ≤ m.reserved.cnt ∧ RangeOf m.memory m.reserved k g s e ∧
    clamp s start end_ ≤ cand ∧ size ≤ clamp e start end_ ∧
      cand = roundDown (clamp e start end_ - size) align

include hA hB in
/-- The search ends; if it does not return 0, it returns a candidate. -/
theorem findLoop_spec (start end_ size align n : ℕ) : ∀ st : ℕ × ℕ × ℕ, IterAt m n st →
    ∃ cand, findLoop m start end_ size align (n + 1) st = .ok cand ∧
      (cand ≠ 0 → Candidate m start end_ size align cand) := by
  induction n with
  | zero =>
    rintro ⟨i, s, e⟩ ⟨a, b, hsum, ha, hb, h⟩
    obtain h | ⟨a', b', -, -, ha', hb', hlt, -⟩ := h
    · exact ⟨0, by simp only [findLoop]; rw [if_pos h], fun h => absurd rfl h⟩
    · omega
  | succ n ih =>
    rintro ⟨i, s, e⟩ h
    by_cases hi : i = ullongMax
    · exact ⟨0, by simp only [findLoop]; rw [if_pos hi], fun h => absurd rfl h⟩
    obtain ⟨⟨k, g, hk, hg, hrange⟩, hnext⟩ := h.next hA hB hi
    rw [findLoop, if_neg hi]
    dsimp only
    split_ifs with h1 h2
    · exact ih _ hnext
    · exact ⟨_, rfl, fun _ => ⟨k, g, s, e, hk, hg, hrange, h2, Nat.not_lt.1 h1, rfl⟩⟩
    · exact ih _ hnext

include hA hB in
theorem memblockFindInRange_candidate (size align start end_ : ℕ) :
    ∃ cand, memblockFindInRange m size align start end_ = .ok cand ∧
      (cand ≠ 0 → Candidate m (max start pgsize) (max (max start pgsize)
        (if end_ = memblockAllocAccessible then m.currentLimit else end_)) size align cand) :=
  findLoop_spec hA hB _ _ size align _ _ (iterAt_first hA hB)

include hA hB in
theorem memblockFindInRange_spec (size align start end_ : ℕ) :
    ∃ cand, memblockFindInRange m size align start end_ = .ok cand ∧
      (cand ≠ 0 → ∃ end', Candidate m (max start pgsize) (max (max start pgsize) end') size align
        cand) := by
  obtain ⟨cand, h, hc⟩ := memblockFindInRange_candidate hA hB size align start end_
  exact ⟨cand, h, fun hne => ⟨_, hc hne⟩⟩

/-! ### Tables in canonical form -/

theorem region_eq_getElem {B : MemblockType} {i : ℕ} (hi : i < B.regions.length) :
    B.region i = B.regions[i] := by
  simp [MemblockType.region, hi]

theorem Represents.not_mem_gap {B : MemblockType} {R : Set ℕ} (h : Represents B R) {g a : ℕ}
    (hg : g ≤ B.cnt) (hs : gapStart B g ≤ a) (he : a < gapEnd B g) : a ∉ R := by
  rw [← h.cover_eq]
  rintro ⟨x, hx, hxa, hax⟩
  rcases h.form with hnil | ⟨-, hap, hw⟩
  · rw [hnil] at hx
    simp only [List.mem_singleton] at hx
    simp [hx, stop] at hax
  obtain ⟨j, hj, rfl⟩ := List.getElem_of_mem hx
  have hpair := List.pairwise_iff_getElem.1 hap.2
  rcases Nat.lt_or_ge j g with hjg | hgj
  · -- the region lies below the gap
    have hg1 : g - 1 < B.regions.length := by simp only [MemblockType.cnt] at hg; omega
    rw [gapStart, if_pos (by omega), region_eq_getElem hg1,
      rgnEnd_of_lt (hw _ (List.getElem_mem _))] at hs
    rcases Nat.lt_or_ge j (g - 1) with hlt | hge
    · have := hpair j (g - 1) hj hg1 hlt
      have : (B.regions[g - 1]).base ≤ (B.regions[g - 1]).stop := Nat.le_add_right _ _
      omega
    · have : j = g - 1 := by omega
      subst this
      omega
  · -- the region lies above the gap
    have hgl : g < B.regions.length := by omega
    rw [gapEnd, if_pos (show g < B.cnt from hgl), region_eq_getElem hgl] at he
    rcases Nat.lt_or_ge g j with hlt | hge
    · have := hpair g j hgl hj hlt
      have : (B.regions[g]).base ≤ (B.regions[g]).stop := Nat.le_add_right _ _
      omega
    · have : j = g := by omega
      subst this
      omega

theorem Represents.mem_of_region {A : MemblockType} {U : Set ℕ} (h : Represents A U) {k a : ℕ}
    (hk : k < A.cnt) (hs : (A.region k).base ≤ a) (he : a < rgnEnd (A.region k)) : a ∈ U := by
  have hmem : A.region k ∈ A.regions := region_eq_getElem hk ▸ List.getElem_mem hk
  rw [← h.cover_eq]
  rcases h.form with hnil | ⟨-, -, hw⟩
  · rw [hnil, List.mem_singleton] at hmem
    rw [hmem] at he
    simp [rgnEnd, add64] at he
  · rw [rgnEnd_of_lt (hw _ hmem)] at he
    exact ⟨_, hmem, hs, he⟩

/-- A block that may be found for a positive size and a power of two as the alignment is
aligned, in usable memory, not reserved, and does not start below `start`. -/
theorem Candidate.spec {U R : Set ℕ} {start end_ size k cand : ℕ} (hmem : Represents m.memory U)
    (hres : Represents m.reserved R) (hsize : 0 < size) (hk : k < 64) (hle : start ≤ end_)
    (h : Candidate m start end_ size (2 ^ k) cand) :
    2 ^ k ∣ cand ∧ start ≤ cand ∧ ∀ a ∈ Set.Ico cand (cand + size), a ∈ U ∧ a ∉ R := by
  obtain ⟨i, g, s, e, hi, hg, ⟨rfl, rfl⟩, hs, he, hcand⟩ := h
  have hround := roundDown_le (clamp (min (rgnEnd (m.memory.region i)) (gapEnd m.reserved g)) start
    end_ - size) (2 ^ k)
  rw [← hcand] at hround
  have hM := rgnEnd_lt (m.memory.region i)
  have hdvd := dvd_roundDown (x := clamp (min (rgnEnd (m.memory.region i)) (gapEnd m.reserved g))
    start end_ - size) (k := k)
  simp only [clamp] at hs he hround hdvd hcand
  -- the block ends above `start`, so its end was not clamped up
  have hstart : start ≤ cand := by omega
  have hM' : cand + size ≤ rgnEnd (m.memory.region i) := by omega
  have hE : cand + size ≤ gapEnd m.reserved g := by omega
  have hS : max (m.memory.region i).base (gapStart m.reserved g) ≤ cand := by omega
  refine ⟨hcand ▸ hdvd (by omega) hk, hstart, fun a ha => ⟨?_, ?_⟩⟩
  · exact hmem.mem_of_region hi (by have := ha.1; omega) (ha.2.trans_le hM')
  · exact hres.not_mem_gap hg (by have := ha.1; omega) (ha.2.trans_le hE)

theorem Candidate.le_end {start end_ size align cand : ℕ}
    (h : Candidate m start end_ size align cand) : cand + size ≤ end_ := by
  obtain ⟨i, g, s, e, -, -, -, -, he, hcand⟩ := h
  have hround := roundDown_le (clamp e start end_ - size) align
  rw [← hcand] at hround
  simp only [clamp] at he hround
  omega

omit hA hB in
theorem memblockAllocBase_eq_ok {m' : Memblock} {size align maxAddr p : ℕ}
    (h : memblockAllocBase m size align maxAddr = .ok (m', p)) :
    p ≠ 0 ∧ memblockFindInRange m size align 0 maxAddr = .ok p ∧
      m' = { m with reserved := m'.reserved } ∧
      memblockAddRegions m.reserved p size = .ok m'.reserved := by
  obtain ⟨⟨m₁, alloc⟩, hrange, h⟩ := bind_eq_ok h
  obtain ⟨cand, hfind, hrange⟩ := bind_eq_ok hrange
  by_cases hz : cand = 0
  · rw [if_pos hz] at hrange
    cases hrange
    cases h
  · rw [if_neg hz] at hrange
    obtain ⟨m₂, hreserve, hrange⟩ := bind_eq_ok hrange
    obtain ⟨t, hadd, ht⟩ := bind_eq_ok hreserve
    cases ht
    cases hrange
    dsimp only at h
    rw [if_neg hz] at h
    cases h
    exact ⟨hz, hfind, rfl, hadd⟩

/-- A call that returns a block: it is aligned, in usable memory, not reserved before and
reserved after, and does not start in the first page. -/
theorem memblockAllocBase_spec {U R : Set ℕ} {m' : Memblock} {size k maxAddr p : ℕ}
    (hmem : Represents m.memory U) (hres : Represents m.reserved R) (hsize : 0 < size)
    (hk : k < 64) (h : memblockAllocBase m size (2 ^ k) maxAddr = .ok (m', p)) :
    2 ^ k ∣ p ∧ pgsize ≤ p ∧ (∀ a ∈ Set.Ico p (p + size), a ∈ U ∧ a ∉ R) ∧
      m'.memory = m.memory ∧ Represents m'.reserved (R ∪ Set.Ico p (p + size)) := by
  obtain ⟨hne, hcall, hm', hadd⟩ := memblockAllocBase_eq_ok h
  obtain ⟨cand, hfind, hcand⟩ := memblockFindInRange_spec (m := m) hmem.cnt_le hres.cnt_le size
    (2 ^ k) 0 maxAddr
  obtain rfl : cand = p := Except.ok.inj (hfind.symm.trans hcall)
  obtain ⟨end', hc⟩ := hcand hne
  obtain ⟨hdvd, hstart, hfree⟩ := hc.spec hmem hres hsize hk (le_max_left _ _)
  have hend : cand + size < 2 ^ 64 := by
    have := hmem.lt_of_mem _ (hfree (cand + size - 1) ⟨by omega, by omega⟩).1
    omega
  exact ⟨hdvd, (le_max_right _ _).trans hstart, hfree, by rw [hm'],
    hres.addRegions hsize hend hadd⟩

end Find

end MicroKernel
