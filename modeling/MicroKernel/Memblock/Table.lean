import MicroKernel.Memblock.Basic
import Mathlib.Data.List.Basic

/-!
# Region tables

What adding a range to a table and removing one from it do.  For any table, the number of
regions decides whether the `regions` array is overrun:

* `memblockAddRegions_ok`, `memblockAddRegions_overflow` : a range is added exactly if there is
  room for the parts of it that the table does not cover (`missing`);
* `memblockRemoveRange_ok`, `memblockRemoveRange_overflow` : a range is removed exactly if there
  is room for the regions its ends split off (`splits`).

`regions_memblockMergeRegions` says what the merge leaves of a sorted table.
-/

namespace MicroKernel

open Extent

/-! ### Arithmetic -/

theorem add64_lt (a b : ℕ) : add64 a b < 2 ^ 64 := Nat.mod_lt _ (Nat.two_pow_pos 64)

theorem sub64_lt (a b : ℕ) : sub64 a b < 2 ^ 64 := Nat.mod_lt _ (Nat.two_pow_pos 64)

theorem add64_of_lt {a b : ℕ} (h : a + b < 2 ^ 64) : add64 a b = a + b := Nat.mod_eq_of_lt h

theorem sub64_of_le {a b : ℕ} (ha : a < 2 ^ 64) (h : b ≤ a) : sub64 a b = a - b := by
  unfold sub64; omega

theorem rgnEnd_lt (r : MemblockRegion) : rgnEnd r < 2 ^ 64 := add64_lt _ _

theorem rgnEnd_of_lt {r : MemblockRegion} (h : r.stop < 2 ^ 64) : rgnEnd r = r.stop :=
  add64_of_lt h

/-! ### Results of calls -/

section Except

variable {ε α β : Type}

@[simp] theorem ok_bind (a : α) (f : α → Except ε β) : (Except.ok a >>= f) = f a := rfl

@[simp] theorem error_bind (x : ε) (f : α → Except ε β) :
    (Except.error x >>= f) = .error x := rfl

/-- A sequence of two calls that returns: both return. -/
theorem bind_eq_ok {x : Except ε α} {f : α → Except ε β} {b : β} (h : (x >>= f) = .ok b) :
    ∃ a, x = .ok a ∧ f a = .ok b := by
  cases x with
  | error e => cases h
  | ok a => exact ⟨a, rfl, h⟩

theorem toOption_eq_some {x : Except ε α} {a : α} (h : x.toOption = some a) : x = .ok a := by
  cases x with
  | error e => cases h
  | ok b => exact congrArg Except.ok (Option.some.inj h)

end Except

/-! ### Regions in the middle of a table -/

section List

variable {pre rest : List MemblockRegion} {r x y : MemblockRegion} {tot : ℕ}

@[simp] theorem cnt_mk (l : List MemblockRegion) (tot : ℕ) : MemblockType.cnt ⟨l, tot⟩ = l.length :=
  rfl

@[simp] theorem region_append_cons :
    MemblockType.region ⟨pre ++ r :: rest, tot⟩ pre.length = r := by
  simp [MemblockType.region]

@[simp] theorem insertIdx_append : (pre ++ rest).insertIdx pre.length x = pre ++ x :: rest := by
  induction pre with
  | nil => simp
  | cons a pre ih => simp [ih]

theorem eraseIdx_append_cons : (pre ++ r :: rest).eraseIdx pre.length = pre ++ rest := by
  induction pre with
  | nil => simp
  | cons a pre ih => simpa using ih

theorem append_cons_eq : pre ++ x :: rest = (pre ++ [x]) ++ rest := by simp

/-- Inserting after the regions `pre`, when there is room. -/
theorem memblockInsertRegion_ok (h : pre.length + rest.length < maxRegions) (b s : ℕ) :
    memblockInsertRegion ⟨pre ++ rest, tot⟩ pre.length b s =
      .ok ⟨pre ++ ⟨b, s⟩ :: rest, add64 tot s⟩ := by
  simp [memblockInsertRegion, h]

theorem memblockInsertRegion_overflow (h : maxRegions ≤ pre.length + rest.length) (b s : ℕ) :
    memblockInsertRegion ⟨pre ++ rest, tot⟩ pre.length b s = .error .overflow := by
  simp [memblockInsertRegion, Nat.not_lt.2 h]

end List

/-! ### Adding a range -/

/-- The number of parts of `[base, end)` that no region of the table covers, as the regions are
looked at from the first one on. -/
def missing (base end_ : ℕ) : List MemblockRegion → ℕ
  | [] => if base < end_ then 1 else 0
  | r :: rs =>
    if end_ ≤ r.base then if base < end_ then 1 else 0
    else if rgnEnd r ≤ base then missing base end_ rs
    else if base < r.base then missing (min (rgnEnd r) end_) end_ rs + 1
    else missing (min (rgnEnd r) end_) end_ rs

/-- No region wraps around at `2 ^ 64`. -/
def NoWrap (l : List MemblockRegion) : Prop := ∀ r ∈ l, r.stop < 2 ^ 64

theorem NoWrap.head {r : MemblockRegion} {l : List MemblockRegion} (h : NoWrap (r :: l)) :
    rgnEnd r = r.stop :=
  rgnEnd_of_lt (h r List.mem_cons_self)

theorem NoWrap.tail {r : MemblockRegion} {l : List MemblockRegion} (h : NoWrap (r :: l)) :
    NoWrap l := fun x hx => h x (List.mem_cons_of_mem _ hx)

/-- The regions of a table with the missing parts of `[base, end)` put in their places. -/
def fillRegions (base end_ : ℕ) : List MemblockRegion → List MemblockRegion
  | [] => if base < end_ then [⟨base, end_ - base⟩] else []
  | r :: rs =>
    if end_ ≤ r.base then if base < end_ then ⟨base, end_ - base⟩ :: r :: rs else r :: rs
    else if rgnEnd r ≤ base then r :: fillRegions base end_ rs
    else if base < r.base then
      ⟨base, r.base - base⟩ :: r :: fillRegions (min (rgnEnd r) end_) end_ rs
    else r :: fillRegions (min (rgnEnd r) end_) end_ rs

theorem length_fillRegions (b e : ℕ) (l : List MemblockRegion) :
    (fillRegions b e l).length = l.length + missing b e l := by
  induction l generalizing b with
  | nil => simp only [fillRegions, missing]; split_ifs <;> rfl
  | cons r rs ih =>
    simp only [fillRegions, missing]
    split_ifs with h1 h2 h3 h4 <;> simp only [List.length_cons, ih] <;> omega

/-- Between the regions and around them there is one place more than there are regions. -/
theorem missing_le (b e : ℕ) (l : List MemblockRegion) : missing b e l ≤ l.length + 1 := by
  induction l generalizing b with
  | nil =>
    simp only [missing]
    split_ifs <;> simp
  | cons r rs ih =>
    have hskip := ih b
    have hnext := ih (min (rgnEnd r) e)
    simp only [missing, List.length_cons]
    split_ifs <;> omega

theorem fillRegions_eq_fill {l : List MemblockRegion} (h : NoWrap l) (b e : ℕ) :
    fillRegions b e l = fill b e l := by
  induction l generalizing b with
  | nil => rfl
  | cons r rs ih => simp only [fillRegions, fill, h.head, ih h.tail]

theorem fillRegions_of_missing {b e : ℕ} {l : List MemblockRegion} (h : missing b e l = 0) :
    fillRegions b e l = l := by
  induction l generalizing b with
  | nil =>
    simp only [missing, fillRegions] at h ⊢
    split_ifs at h ⊢
    rfl
  | cons r rs ih =>
    simp only [missing, fillRegions] at h ⊢
    split_ifs at h ⊢
    · rfl
    · rw [ih h]
    · rw [ih h]

theorem addLoop_end {insert : Bool} {e n tot b k : ℕ} {l : List MemblockRegion} :
    addLoop insert e (n + 1) ⟨l, tot⟩ l.length b k = .ok (⟨l, tot⟩, l.length, b, k) := by
  simp [addLoop]

theorem addLoop_cons {insert : Bool} {e n tot b k : ℕ} {pre rs : List MemblockRegion}
    {r : MemblockRegion} :
    addLoop insert e (n + 1) ⟨pre ++ r :: rs, tot⟩ pre.length b k =
      if e ≤ r.base then .ok (⟨pre ++ r :: rs, tot⟩, pre.length, b, k)
      else if rgnEnd r ≤ b then addLoop insert e n ⟨pre ++ r :: rs, tot⟩ (pre.length + 1) b k
      else if b < r.base then
        if insert then
          memblockInsertRegion ⟨pre ++ r :: rs, tot⟩ pre.length b (r.base - b) >>= fun type =>
            addLoop insert e n type (pre.length + 2) (min (rgnEnd r) e) (k + 1)
        else addLoop insert e n ⟨pre ++ r :: rs, tot⟩ (pre.length + 1) (min (rgnEnd r) e) (k + 1)
      else addLoop insert e n ⟨pre ++ r :: rs, tot⟩ (pre.length + 1) (min (rgnEnd r) e) k := by
  simp [addLoop]

section AddLoop

variable (e : ℕ)

/-- The counting pass leaves the table as it is. -/
theorem addLoop_count (rest : List MemblockRegion) : ∀ (pre : List MemblockRegion) (n tot b k : ℕ),
    rest.length < n →
      (addLoop false e n ⟨pre ++ rest, tot⟩ pre.length b k >>= addLast false e) =
        .ok (⟨pre ++ rest, tot⟩, k + missing b e rest) := by
  induction rest with
  | nil =>
    intro pre n tot b k hn
    obtain ⟨n, rfl⟩ := Nat.exists_eq_add_one_of_ne_zero hn.ne'
    rw [List.append_nil, addLoop_end, ok_bind]
    simp only [addLast, missing, Bool.false_eq_true, if_false]
    split_ifs <;> rfl
  | cons r rs ih =>
    intro pre n tot b k hn
    obtain ⟨n, rfl⟩ := Nat.exists_eq_add_one_of_ne_zero (by omega : n ≠ 0)
    have hnext := fun b k => ih (pre ++ [r]) n tot b k (by simpa using hn)
    simp only [List.append_assoc, List.singleton_append, List.length_append, List.length_singleton]
      at hnext
    simp only [addLoop_cons, missing, Bool.false_eq_true, if_false]
    split_ifs with h1 h2 h3 h4
    · simp [addLast, h2]
    · simp [addLast, h2]
    · exact hnext b k
    · rw [hnext, Nat.add_right_comm, Nat.add_assoc]
    · exact hnext _ k

/-- The inserting pass, when there is room for the missing parts. -/
theorem addLoop_insert (rest : List MemblockRegion) : ∀ (pre : List MemblockRegion) (n tot b k : ℕ),
    rest.length < n → pre.length + rest.length + missing b e rest ≤ maxRegions →
      ∃ tot' k', (addLoop true e n ⟨pre ++ rest, tot⟩ pre.length b k >>= addLast true e) =
        .ok (⟨pre ++ fillRegions b e rest, tot'⟩, k') := by
  induction rest with
  | nil =>
    intro pre n tot b k hn hcap
    obtain ⟨n, rfl⟩ := Nat.exists_eq_add_one_of_ne_zero hn.ne'
    rw [List.append_nil, addLoop_end, ok_bind]
    simp only [addLast, missing, fillRegions, if_true] at hcap ⊢
    split_ifs at hcap ⊢ with h
    · have hins := @memblockInsertRegion_ok pre [] tot (Nat.lt_of_succ_le hcap) b (e - b)
      rw [List.append_nil] at hins
      exact ⟨_, _, by rw [hins]; rfl⟩
    · exact ⟨tot, k, by simp⟩
  | cons r rs ih =>
    intro pre n tot b k hn hcap
    obtain ⟨n, rfl⟩ := Nat.exists_eq_add_one_of_ne_zero (by omega : n ≠ 0)
    have hn' : rs.length < n := by simpa using hn
    have hnext := fun b k h => ih (pre ++ [r]) n tot b k hn' h
    have hins := @memblockInsertRegion_ok pre (r :: rs) tot
    simp only [List.append_assoc, List.singleton_append, List.length_append, List.length_cons,
      List.length_nil, Nat.zero_add] at hnext hcap hins
    simp only [addLoop_cons, missing, if_true, fillRegions] at hcap ⊢
    split_ifs at hcap ⊢ with h1 h2 h3 h4
    · exact ⟨_, _, by simp only [ok_bind, addLast, h2, if_true]; rw [hins (by omega)]; rfl⟩
    · exact ⟨tot, k, by simp [addLast, h2]⟩
    · exact hnext b k (by omega)
    · rw [hins (by omega), ok_bind]
      have := ih (pre ++ [⟨b, r.base - b⟩, r]) n (add64 tot (r.base - b)) (min (rgnEnd r) e) (k + 1)
        hn' (by simp; omega)
      simpa using this
    · exact hnext _ k (by omega)

/-- The inserting pass, when there is no room for the missing parts. -/
theorem addLoop_overflow (rest : List MemblockRegion) :
    ∀ (pre : List MemblockRegion) (n tot b k : ℕ), rest.length < n →
      pre.length + rest.length ≤ maxRegions →
      maxRegions < pre.length + rest.length + missing b e rest →
      (addLoop true e n ⟨pre ++ rest, tot⟩ pre.length b k >>= addLast true e) =
        .error .overflow := by
  induction rest with
  | nil =>
    intro pre n tot b k hn hcnt hcap
    obtain ⟨n, rfl⟩ := Nat.exists_eq_add_one_of_ne_zero hn.ne'
    rw [List.append_nil, addLoop_end, ok_bind]
    simp only [missing] at hcap
    split_ifs at hcap with h
    · have hins := @memblockInsertRegion_overflow pre [] tot
        (by simp at *; omega) b (e - b)
      rw [List.append_nil] at hins
      simp [addLast, h, hins]
    · simp at *; omega
  | cons r rs ih =>
    intro pre n tot b k hn hcnt hcap
    obtain ⟨n, rfl⟩ := Nat.exists_eq_add_one_of_ne_zero (by omega : n ≠ 0)
    have hn' : rs.length < n := by simpa using hn
    have hnext := fun b k h h' => ih (pre ++ [r]) n tot b k hn' h h'
    have hins := @memblockInsertRegion_ok pre (r :: rs) tot
    have hover := @memblockInsertRegion_overflow pre (r :: rs) tot
    simp only [List.append_assoc, List.singleton_append, List.length_append, List.length_cons,
      List.length_nil, Nat.zero_add] at hnext hcnt hcap hins hover
    simp only [addLoop_cons, missing, if_true] at hcap ⊢
    split_ifs at hcap ⊢ with h1 h2 h3 h4
    · simp only [ok_bind, addLast, h2, if_true, hover (by omega), error_bind]
    · omega
    · exact hnext b k (by omega) (by omega)
    · rcases Nat.lt_or_ge (pre.length + (rs.length + 1)) maxRegions with hlt | hge
      · rw [hins hlt, ok_bind]
        have := ih (pre ++ [⟨b, r.base - b⟩, r]) n (add64 tot (r.base - b)) (min (rgnEnd r) e)
          (k + 1)
          hn' (by simp; omega) (by simp; omega)
        simpa using this
      · simp only [hover hge, error_bind]
    · exact hnext _ k (by omega) (by omega)

end AddLoop

theorem length_mergeLoop (x : MemblockRegion) (l : List MemblockRegion) :
    (mergeLoop x l).length ≤ l.length + 1 := by
  induction l generalizing x with
  | nil => rfl
  | cons y l ih =>
    simp only [mergeLoop]
    split_ifs
    · simpa using ih y
    · exact (ih _).trans (by simp)

theorem cnt_memblockMergeRegions (t : MemblockType) : (memblockMergeRegions t).cnt ≤ t.cnt := by
  unfold memblockMergeRegions
  split
  · exact le_rfl
  · next h => simpa [MemblockType.cnt, h] using length_mergeLoop _ _

/-- A sorted table without wrapped regions is merged as `coalesce` does. -/
theorem mergeLoop_eq_coalesceFrom {x : MemblockRegion} {l : List MemblockRegion}
    (h : Ordered (x :: l)) (hw : NoWrap (x :: l)) : mergeLoop x l = coalesceFrom x l := by
  induction l generalizing x with
  | nil => rfl
  | cons y l ih =>
    obtain ⟨hx, hxl, hyl⟩ := ordered_cons.1 h
    obtain ⟨hy, hyl', hl⟩ := ordered_cons.1 hyl
    simp only [mergeLoop, coalesceFrom, hw.head]
    split_ifs with hne
    · rw [ih hyl hw.tail]
    · simp only [ne_eq, not_not] at hne
      have hstop := hw.tail y List.mem_cons_self
      have hadd : add64 x.size y.size = x.size + y.size := add64_of_lt (by
        simp only [stop] at hne hstop; omega)
      have hjoin : stop ⟨x.base, x.size + y.size⟩ = y.stop := by
        simp only [stop] at hne ⊢; omega
      rw [hadd]
      refine ih (ordered_cons.2 ⟨by simp; omega, fun z hz => ?_, hl⟩) fun z hz => ?_
      · exact hjoin ▸ hyl' z hz
      · rcases List.mem_cons.1 hz with rfl | hz
        · exact hjoin ▸ hstop
        · exact hw.tail.tail z hz

theorem regions_memblockMergeRegions {t : MemblockType} (h : Ordered t.regions)
    (hw : NoWrap t.regions) : (memblockMergeRegions t).regions = coalesce t.regions := by
  unfold memblockMergeRegions
  split
  · next hnil => simp [hnil, coalesce]
  · next hcons =>
    rw [hcons] at h hw ⊢
    exact mergeLoop_eq_coalesceFrom h hw

/-- Whether the `regions` array has room for the parts of the range that the table lacks: the
check that `memblock_add_regions` has commented out.  Nothing is added for `size = 0`, and into
an empty table the range is written without an insertion. -/
def AddFits (t : MemblockType) (base size : ℕ) : Prop :=
  size = 0 ∨ (t.region 0).size = 0 ∨
    t.cnt + missing base (add64 base size) t.regions ≤ maxRegions

instance (t : MemblockType) (base size : ℕ) : Decidable (AddFits t base size) :=
  inferInstanceAs (Decidable (_ ∨ _ ∨ _))

theorem addPass_count (t : MemblockType) (b e : ℕ) :
    addPass false t b e = .ok (t, missing b e t.regions) := by
  have := addLoop_count e t.regions [] (t.cnt + 1) t.totalSize b 0 (Nat.lt_succ_self _)
  simpa [addPass] using this

/-- `memblock_add_regions` by cases: what it does without an insertion, and the inserting pass. -/
theorem memblockAddRegions_eq (t : MemblockType) (base size : ℕ) :
    memblockAddRegions t base size =
      if size = 0 then .ok t
      else if (t.region 0).size = 0 then .ok ⟨t.regions.set 0 ⟨base, size⟩, size⟩
      else if missing base (add64 base size) t.regions = 0 then .ok t
      else addPass true t base (add64 base size) >>= fun p => .ok (memblockMergeRegions p.1) := by
  simp only [memblockAddRegions, addPass_count, ok_bind]
  split_ifs <;> rfl

section AddRegions

variable {t : MemblockType} {base size : ℕ}

/-- The inserting pass and the merge, when there is room. -/
theorem memblockAddRegions_insert (hsize : size ≠ 0) (hne : (t.region 0).size ≠ 0)
    (hmis : missing base (add64 base size) t.regions ≠ 0) (h : AddFits t base size) :
    ∃ tot, memblockAddRegions t base size =
      .ok (memblockMergeRegions ⟨fillRegions base (add64 base size) t.regions, tot⟩) := by
  have hcap := (h.resolve_left hsize).resolve_left hne
  obtain ⟨tot, k, hpass⟩ := addLoop_insert (add64 base size) t.regions [] (t.cnt + 1) t.totalSize
    base 0 (Nat.lt_succ_self _) (by simpa [MemblockType.cnt] using hcap)
  refine ⟨tot, ?_⟩
  rw [memblockAddRegions_eq, if_neg hsize, if_neg hne, if_neg hmis]
  simp only [List.nil_append, List.length_nil] at hpass
  simp only [addPass, hpass, ok_bind]

/-- A range that fits is added, and the table stays within the array. -/
theorem memblockAddRegions_ok (hcnt : t.cnt ≤ maxRegions) (h : AddFits t base size) :
    ∃ t', memblockAddRegions t base size = .ok t' ∧ t'.cnt ≤ maxRegions := by
  by_cases hsize : size = 0
  · exact ⟨t, by rw [memblockAddRegions_eq, if_pos hsize], hcnt⟩
  by_cases hne : (t.region 0).size = 0
  · refine ⟨_, by rw [memblockAddRegions_eq, if_neg hsize, if_pos hne], ?_⟩
    simpa [MemblockType.cnt] using hcnt
  by_cases hmis : missing base (add64 base size) t.regions = 0
  · exact ⟨t, by rw [memblockAddRegions_eq, if_neg hsize, if_neg hne, if_pos hmis], hcnt⟩
  obtain ⟨tot, heq⟩ := memblockAddRegions_insert hsize hne hmis h
  refine ⟨_, heq, (cnt_memblockMergeRegions _).trans ?_⟩
  rw [cnt_mk, length_fillRegions]
  exact (h.resolve_left hsize).resolve_left hne

/-- A range that does not fit is written past the end of the array. -/
theorem memblockAddRegions_overflow (hcnt : t.cnt ≤ maxRegions) (h : ¬AddFits t base size) :
    memblockAddRegions t base size = .error .overflow := by
  simp only [AddFits, not_or, Nat.not_le] at h
  obtain ⟨hsize, hne, hcap⟩ := h
  have hmis : missing base (add64 base size) t.regions ≠ 0 := by omega
  have hpass := addLoop_overflow (add64 base size) t.regions [] (t.cnt + 1) t.totalSize base 0
    (Nat.lt_succ_self _) (by simpa [MemblockType.cnt] using hcnt)
    (by simpa [MemblockType.cnt] using hcap)
  simp only [List.nil_append, List.length_nil] at hpass
  rw [memblockAddRegions_eq, if_neg hsize, if_neg hne, if_neg hmis]
  simp only [addPass, hpass, error_bind]

end AddRegions

/-! ### Removing a range -/

/-- The number of regions that the ends of `[base, end)` split off, as the regions are looked at
from the first one on. -/
def splits (base end_ : ℕ) : List MemblockRegion → ℕ
  | [] => 0
  | r :: rs =>
    if end_ ≤ r.base then 0
    else if rgnEnd r ≤ base then splits base end_ rs
    else if r.base < base then
      if end_ ≤ base then 1 else if end_ < rgnEnd r then 2 else splits base end_ rs + 1
    else if end_ < rgnEnd r then 1
    else splits base end_ rs

/-- Whether the `regions` array has room for the regions that removing the range splits off. -/
def RemoveFits (t : MemblockType) (base size : ℕ) : Prop :=
  size = 0 ∨ t.cnt + splits base (add64 base size) t.regions ≤ maxRegions

instance (t : MemblockType) (base size : ℕ) : Decidable (RemoveFits t base size) :=
  inferInstanceAs (Decidable (_ ∨ _))

/-- The part of a region below `c`. -/
def lowPart (r : MemblockRegion) (c : ℕ) : MemblockRegion := ⟨r.base, c - r.base⟩

/-- The part of a region from `c` on. -/
def highPart (r : MemblockRegion) (c : ℕ) : MemblockRegion := ⟨c, sub64 r.size (c - r.base)⟩

theorem rgnEnd_lowPart {r : MemblockRegion} {c : ℕ} (h : r.base ≤ c) (hc : c < 2 ^ 64) :
    rgnEnd (lowPart r c) = c := by
  simp only [rgnEnd, add64, lowPart]; omega

theorem rgnEnd_highPart {r : MemblockRegion} {c : ℕ} (h : r.base ≤ c) (hc : c < 2 ^ 64) :
    rgnEnd (highPart r c) = rgnEnd r := by
  simp only [rgnEnd, add64, sub64, highPart]; omega

section IsolateLoop

variable {b e n tot s f : ℕ} {pre rs : List MemblockRegion} {r : MemblockRegion}

theorem isolateLoop_end :
    isolateLoop b e (n + 1) ⟨pre, tot⟩ pre.length s f = .ok (⟨pre, tot⟩, s, f) := by
  simp [isolateLoop]

theorem isolateLoop_stop (h : e ≤ r.base) :
    isolateLoop b e (n + 1) ⟨pre ++ r :: rs, tot⟩ pre.length s f =
      .ok (⟨pre ++ r :: rs, tot⟩, s, f) := by
  simp [isolateLoop, h]

theorem isolateLoop_skip (h : r.base < e) (h' : rgnEnd r ≤ b) :
    isolateLoop b e (n + 1) ⟨pre ++ r :: rs, tot⟩ pre.length s f =
      isolateLoop b e n ⟨pre ++ r :: rs, tot⟩ (pre.length + 1) s f := by
  simp [isolateLoop, Nat.not_le.2 h, h']

theorem isolateLoop_low (h : r.base < e) (h' : b < rgnEnd r) (hb : r.base < b) :
    isolateLoop b e (n + 1) ⟨pre ++ r :: rs, tot⟩ pre.length s f =
      memblockInsertRegion ⟨pre ++ highPart r b :: rs, sub64 tot (b - r.base)⟩ pre.length r.base
        (b - r.base) >>= fun t => isolateLoop b e n t (pre.length + 1) s f := by
  simp [isolateLoop, highPart, Nat.not_le.2 h, Nat.not_le.2 h', hb]

theorem isolateLoop_high (h : r.base < e) (h' : b < rgnEnd r) (hb : b ≤ r.base)
    (he : e < rgnEnd r) :
    isolateLoop b e (n + 1) ⟨pre ++ r :: rs, tot⟩ pre.length s f =
      memblockInsertRegion ⟨pre ++ highPart r e :: rs, sub64 tot (e - r.base)⟩ pre.length r.base
        (e - r.base) >>= fun t => isolateLoop b e n t pre.length s f := by
  simp [isolateLoop, highPart, Nat.not_le.2 h, Nat.not_le.2 h', Nat.not_lt.2 hb, he]

theorem isolateLoop_inside (h : r.base < e) (h' : b < rgnEnd r) (hb : b ≤ r.base)
    (he : rgnEnd r ≤ e) :
    isolateLoop b e (n + 1) ⟨pre ++ r :: rs, tot⟩ pre.length s f =
      isolateLoop b e n ⟨pre ++ r :: rs, tot⟩ (pre.length + 1)
        (if f = 0 then pre.length else s) (pre.length + 1) := by
  simp [isolateLoop, Nat.not_le.2 h, Nat.not_le.2 h', Nat.not_lt.2 hb, Nat.not_lt.2 he]

theorem isolateLoop_split (h : r.base < e) (h' : b < rgnEnd r) (hb : r.base < b)
    (hcap : pre.length + rs.length + 1 < maxRegions) :
    isolateLoop b e (n + 1) ⟨pre ++ r :: rs, tot⟩ pre.length s f =
      isolateLoop b e n ⟨(pre ++ [lowPart r b]) ++ highPart r b :: rs,
        add64 (sub64 tot (b - r.base)) (b - r.base)⟩ (pre ++ [lowPart r b]).length s f := by
  rw [isolateLoop_low h h' hb, memblockInsertRegion_ok (by simpa [Nat.add_assoc] using hcap),
    ok_bind]
  simp [lowPart]

theorem isolateLoop_cut (h : r.base < e) (h' : b < rgnEnd r) (hb : b ≤ r.base)
    (he : e < rgnEnd r) (hcap : pre.length + rs.length + 1 < maxRegions) :
    isolateLoop b e (n + 3) ⟨pre ++ r :: rs, tot⟩ pre.length s f =
      .ok (⟨pre ++ lowPart r e :: highPart r e :: rs,
          add64 (sub64 tot (e - r.base)) (e - r.base)⟩,
        if f = 0 then pre.length else s, pre.length + 1) := by
  have hend : rgnEnd (lowPart r e) = e := rgnEnd_lowPart h.le (he.trans (rgnEnd_lt r))
  have hstop := @isolateLoop_stop b e n (add64 (sub64 tot (e - r.base)) (e - r.base))
    (if f = 0 then pre.length else s) (pre.length + 1)
    (pre ++ [lowPart r e]) rs (highPart r e) le_rfl
  rw [isolateLoop_high h h' hb he, memblockInsertRegion_ok (by simpa [Nat.add_assoc] using hcap),
    ok_bind]
  change isolateLoop b e (n + 2) ⟨pre ++ lowPart r e :: _, _⟩ _ _ _ = _
  rw [isolateLoop_inside (r := lowPart r e) h (hb.trans_lt (h.trans_eq hend.symm)) hb
    hend.le]
  simpa using hstop

/-- When there is room for the regions split off, the loop ends and the table has them. -/
theorem isolateLoop_ok (hb : b < 2 ^ 64) (rest : List MemblockRegion) :
    ∀ (pre : List MemblockRegion) (n tot s f : ℕ), 2 * rest.length + 3 ≤ n →
      pre.length + rest.length + splits b e rest ≤ maxRegions →
      ∃ l tot' s' f', isolateLoop b e n ⟨pre ++ rest, tot⟩ pre.length s f =
          .ok (⟨pre ++ l, tot'⟩, s', f') ∧ l.length = rest.length + splits b e rest := by
  induction rest with
  | nil =>
    intro pre n tot s f hn _
    obtain ⟨n, rfl⟩ := Nat.exists_eq_add_one_of_ne_zero (by omega : n ≠ 0)
    exact ⟨[], tot, s, f, by rw [List.append_nil, isolateLoop_end], rfl⟩
  | cons r rs ih =>
    have hnext : ∀ (x : MemblockRegion) (pre : List MemblockRegion) (n tot s f : ℕ),
        2 * rs.length + 3 ≤ n → pre.length + rs.length + 1 + splits b e rs ≤ maxRegions →
        ∃ l tot' s' f', isolateLoop b e n ⟨pre ++ x :: rs, tot⟩ (pre.length + 1) s f =
          .ok (⟨pre ++ l, tot'⟩, s', f') ∧ l.length = rs.length + 1 + splits b e rs := by
      intro x pre n tot s f hn hcap
      obtain ⟨l, tot', s', f', h, hl⟩ := ih (pre ++ [x]) n tot s f hn (by simp; omega)
      exact ⟨x :: l, tot', s', f', by simpa using h, by simp [hl]; omega⟩
    -- a region that does not start below the range
    have hupper : ∀ (x : MemblockRegion) (pre : List MemblockRegion) (n tot s f : ℕ),
        2 * rs.length + 4 ≤ n → b ≤ x.base → x.base < e → b < rgnEnd x →
        pre.length + rs.length + 1 + (if e < rgnEnd x then 1 else splits b e rs) ≤ maxRegions →
        ∃ l tot' s' f', isolateLoop b e n ⟨pre ++ x :: rs, tot⟩ pre.length s f =
          .ok (⟨pre ++ l, tot'⟩, s', f') ∧
          l.length = rs.length + 1 + (if e < rgnEnd x then 1 else splits b e rs) := by
      intro x pre n tot s f hn hbx he hx hcap
      obtain ⟨n, rfl⟩ := Nat.exists_eq_add_of_le' (by omega : 3 ≤ n)
      split_ifs at hcap ⊢ with hlt
      · exact ⟨_, _, _, _, isolateLoop_cut he hx hbx hlt (by omega), by simp⟩
      · rw [isolateLoop_inside he hx hbx (Nat.not_lt.1 hlt)]
        exact hnext x pre _ _ _ _ (by omega) hcap
    intro pre n tot s f hn hcap
    obtain ⟨n, rfl⟩ := Nat.exists_eq_add_one_of_ne_zero (by omega : n ≠ 0)
    simp only [splits, List.length_cons] at hn hcap ⊢
    split_ifs at hcap ⊢ with h1 h2 h3 h4 h5 h6
    · exact ⟨r :: rs, tot, s, f, isolateLoop_stop h1, rfl⟩
    · rw [isolateLoop_skip (Nat.not_le.1 h1) h2]
      exact hnext r pre n tot s f (by omega) (by omega)
    · obtain ⟨n, rfl⟩ := Nat.exists_eq_add_one_of_ne_zero (by omega : n ≠ 0)
      rw [isolateLoop_split (by omega) (by omega) h3 (by omega), isolateLoop_stop h4]
      exact ⟨_, _, _, _, by rw [← append_cons_eq], by simp⟩
    · rw [isolateLoop_split (by omega) (by omega) h3 (by omega)]
      have hend := rgnEnd_highPart h3.le hb
      obtain ⟨l, tot', s', f', h, hl⟩ := hupper (highPart r b) (pre ++ [lowPart r b]) n
        (add64 (sub64 tot (b - r.base)) (b - r.base)) s f (by omega) le_rfl
        (Nat.not_le.1 h4) (by omega) (by simp [hend, h5]; omega)
      exact ⟨lowPart r b :: l, tot', s', f', by simpa using h, by simp [hl, hend, h5]⟩
    · rw [isolateLoop_split (by omega) (by omega) h3 (by omega)]
      have hend := rgnEnd_highPart h3.le hb
      obtain ⟨l, tot', s', f', h, hl⟩ := hupper (highPart r b) (pre ++ [lowPart r b]) n
        (add64 (sub64 tot (b - r.base)) (b - r.base)) s f (by omega) le_rfl
        (Nat.not_le.1 h4) (by omega) (by simp [hend, h5]; omega)
      exact ⟨lowPart r b :: l, tot', s', f', by simpa using h, by simp [hl, hend, h5]; omega⟩
    · obtain ⟨l, tot', s', f', h, hl⟩ := hupper r pre (n + 1) tot s f (by omega) (by omega)
        (by omega) (by omega) (by simp [h6]; omega)
      exact ⟨l, tot', s', f', h, by simp [hl, h6]⟩
    · obtain ⟨l, tot', s', f', h, hl⟩ := hupper r pre (n + 1) tot s f (by omega) (by omega)
        (by omega) (by omega) (by simp [h6]; omega)
      exact ⟨l, tot', s', f', h, by simp [hl, h6]⟩

/-- When there is no room for the regions split off, one is written past the array. -/
theorem isolateLoop_overflow (hb : b < 2 ^ 64) (rest : List MemblockRegion) :
    ∀ (pre : List MemblockRegion) (n tot s f : ℕ), 2 * rest.length + 3 ≤ n →
      pre.length + rest.length ≤ maxRegions →
      maxRegions < pre.length + rest.length + splits b e rest →
      isolateLoop b e n ⟨pre ++ rest, tot⟩ pre.length s f = .error .overflow := by
  induction rest with
  | nil => intro pre n tot s f _ h h'; simp only [splits] at h'; omega
  | cons r rs ih =>
    have hnext : ∀ (x : MemblockRegion) (pre : List MemblockRegion) (n tot s f : ℕ),
        2 * rs.length + 3 ≤ n → pre.length + rs.length + 1 ≤ maxRegions →
        maxRegions < pre.length + rs.length + 1 + splits b e rs →
        isolateLoop b e n ⟨pre ++ x :: rs, tot⟩ (pre.length + 1) s f = .error .overflow := by
      intro x pre n tot s f hn hcnt hcap
      simpa using ih (pre ++ [x]) n tot s f hn (by simp; omega) (by simp; omega)
    -- a region that does not start below the range
    have hupper : ∀ (x : MemblockRegion) (pre : List MemblockRegion) (n tot s f : ℕ),
        2 * rs.length + 4 ≤ n → b ≤ x.base → x.base < e → b < rgnEnd x →
        pre.length + rs.length + 1 ≤ maxRegions →
        maxRegions < pre.length + rs.length + 1 + (if e < rgnEnd x then 1 else splits b e rs) →
        isolateLoop b e n ⟨pre ++ x :: rs, tot⟩ pre.length s f = .error .overflow := by
      intro x pre n tot s f hn hbx he hx hcnt hcap
      obtain ⟨n, rfl⟩ := Nat.exists_eq_add_one_of_ne_zero (by omega : n ≠ 0)
      split_ifs at hcap with hlt
      · rw [isolateLoop_high he hx hbx hlt, memblockInsertRegion_overflow (by simp; omega),
          error_bind]
      · rw [isolateLoop_inside he hx hbx (Nat.not_lt.1 hlt)]
        exact hnext x pre _ _ _ _ (by omega) hcnt hcap
    intro pre n tot s f hn hcnt hcap
    obtain ⟨n, rfl⟩ := Nat.exists_eq_add_one_of_ne_zero (by omega : n ≠ 0)
    simp only [splits, List.length_cons] at hn hcnt hcap
    by_cases h1 : e ≤ r.base
    · rw [if_pos h1] at hcap; omega
    rw [if_neg h1] at hcap
    by_cases h2 : rgnEnd r ≤ b
    · rw [if_pos h2] at hcap
      rw [isolateLoop_skip (Nat.not_le.1 h1) h2]
      exact hnext r pre n tot s f (by omega) (by omega) (by omega)
    rw [if_neg h2] at hcap
    by_cases h3 : r.base < b
    · rw [if_pos h3] at hcap
      rcases Nat.lt_or_ge (pre.length + rs.length + 1) maxRegions with hlt | hge
      · rw [isolateLoop_split (by omega) (by omega) h3 hlt]
        have hend := rgnEnd_highPart h3.le hb
        have h4 : ¬e ≤ b := fun h4 => by rw [if_pos h4] at hcap; omega
        refine hupper (highPart r b) (pre ++ [lowPart r b]) n _ s f (by omega) le_rfl
          (Nat.not_le.1 h4) (by omega) (by simp; omega) ?_
        simp only [hend, List.length_append, List.length_singleton]
        split_ifs at hcap ⊢
        all_goals omega
      · rw [isolateLoop_low (by omega) (by omega) h3,
          memblockInsertRegion_overflow (by simp; omega), error_bind]
    · rw [if_neg h3] at hcap
      exact hupper r pre (n + 1) tot s f (by omega) (by omega) (by omega) (by omega) (by omega)
        (by split_ifs at hcap ⊢ <;> omega)

end IsolateLoop

theorem cnt_memblockRemoveRegion_le (t : MemblockType) (i : ℕ) :
    (memblockRemoveRegion t i).cnt ≤ max t.cnt 1 := by
  have := List.length_eraseIdx_le t.regions i
  simp only [memblockRemoveRegion, MemblockType.cnt]
  split_ifs
  · exact le_max_right _ _
  · omega

theorem cnt_removeLoop_le (s n : ℕ) (t : MemblockType) : (removeLoop s n t).cnt ≤ max t.cnt 1 := by
  induction n generalizing t with
  | zero => exact le_max_left _ _
  | succ n ih =>
    have := cnt_memblockRemoveRegion_le t (s + n)
    have := ih (memblockRemoveRegion t (s + n))
    simp only [removeLoop]
    omega

section RemoveRange

variable {t : MemblockType} {base size : ℕ}

/-- A range whose ends fit is removed, and the table stays within the array. -/
theorem memblockRemoveRange_ok (hb : base < 2 ^ 64) (hcnt : t.cnt ≤ maxRegions)
    (h : RemoveFits t base size) :
    ∃ t', memblockRemoveRange t base size = .ok t' ∧ t'.cnt ≤ maxRegions := by
  by_cases hsize : size = 0
  · exact ⟨t, by simp [memblockRemoveRange, memblockIsolateRange, hsize, removeLoop], hcnt⟩
  obtain ⟨l, tot, s, f, hiso, hl⟩ := isolateLoop_ok hb t.regions [] (2 * t.cnt + 4) t.totalSize
    0 0 (by simp [MemblockType.cnt]) (by simpa [MemblockType.cnt] using h.resolve_left hsize)
  simp only [List.nil_append, List.length_nil] at hiso
  refine ⟨removeLoop s (f - s) ⟨l, tot⟩, ?_, (cnt_removeLoop_le _ _ _).trans ?_⟩
  · simp only [memblockRemoveRange, memblockIsolateRange, if_neg hsize, hiso, ok_bind]
    rfl
  · have := h.resolve_left hsize
    simp only [hl, MemblockType.cnt] at *
    exact max_le this (by decide)

/-- A range whose ends split off more regions than there is room for overruns the array. -/
theorem memblockRemoveRange_overflow (hb : base < 2 ^ 64) (hcnt : t.cnt ≤ maxRegions)
    (h : ¬RemoveFits t base size) : memblockRemoveRange t base size = .error .overflow := by
  simp only [RemoveFits, not_or, Nat.not_le] at h
  have hiso := isolateLoop_overflow hb t.regions [] (2 * t.cnt + 4) t.totalSize 0 0
    (by simp [MemblockType.cnt]) (by simpa [MemblockType.cnt] using hcnt)
    (by simpa [MemblockType.cnt] using h.2)
  simp only [List.nil_append, List.length_nil] at hiso
  simp only [memblockRemoveRange, memblockIsolateRange, if_neg h.1, hiso, error_bind]

end RemoveRange

end MicroKernel
