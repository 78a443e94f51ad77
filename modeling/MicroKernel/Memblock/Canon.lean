import MicroKernel.Memblock.Table
import Mathlib.Data.List.Induction

/-!
# Tables in canonical form

The tables of the allocator are sorted, have a gap between any two regions, and hold no address
beyond `2 ^ 64 - 2`; an empty table holds one region of size 0.  `Represents t s` says that the
table `t` has this form and covers the set `s` of addresses.

* `Represents.addRegions` : adding a range to a table makes it represent the union;
* `Represents.removeRange` : removing a range makes it represent the difference.
-/

namespace MicroKernel

open Extent

/-- The table `t` is in the form the allocator keeps it in, and covers the set `s`. -/
structure Represents (t : MemblockType) (s : Set ℕ) : Prop where
  /-- The table fits the array. -/
  cnt_le : t.cnt ≤ maxRegions
  /-- The table is empty, or sorted with gaps between the regions, none of which wraps. -/
  form : t.regions = [⟨0, 0⟩] ∨ t.regions ≠ [] ∧ Apart t.regions ∧ NoWrap t.regions
  /-- The addresses covered. -/
  cover_eq : cover t.regions = s

theorem noWrap_of_cover {l : List MemblockRegion} (hpos : ∀ x ∈ l, 0 < x.size)
    (h : ∀ a ∈ cover l, a + 1 < 2 ^ 64) : NoWrap l := by
  intro x hx
  have hx' := hpos x hx
  have := h (x.stop - 1) ⟨x, hx, by simp only [mem_toSet, stop]; omega⟩
  simp only [stop] at this ⊢
  omega

theorem NoWrap.lt_of_mem_cover {l : List MemblockRegion} (h : NoWrap l) :
    ∀ a ∈ cover l, a + 1 < 2 ^ 64 := by
  rintro a ⟨x, hx, -, ha⟩
  have := h x hx
  omega

theorem cover_sentinel : cover [⟨0, 0⟩] = ∅ := by
  ext a
  simp [mem_cover, stop]

namespace Represents

variable {t t' : MemblockType} {s : Set ℕ} {base size : ℕ}

theorem lt_of_mem (h : Represents t s) : ∀ a ∈ s, a + 1 < 2 ^ 64 := by
  intro a ha
  rw [← h.cover_eq] at ha
  rcases h.form with hnil | ⟨-, -, hw⟩
  · rw [hnil, cover_sentinel] at ha
    exact ha.elim
  · exact hw.lt_of_mem_cover a ha

theorem region_zero (h : Represents t s) (hz : (t.region 0).size = 0) : t.regions = [⟨0, 0⟩] := by
  rcases h.form with hnil | ⟨hne, hap, -⟩
  · exact hnil
  · obtain ⟨r, rs, hrs⟩ := List.exists_cons_of_ne_nil hne
    have := hap.1 r (by simp [hrs])
    simp only [MemblockType.region, hrs, List.getD_cons_zero] at hz
    omega

theorem form_of_ne (h : Represents t s) (hz : (t.region 0).size ≠ 0) :
    t.regions ≠ [] ∧ Apart t.regions ∧ NoWrap t.regions := by
  refine h.form.resolve_left fun hnil => hz ?_
  simp [MemblockType.region, hnil]

/-- Adding a range. -/
theorem addRegions (h : Represents t s) (hsize : 0 < size) (hend : base + size < 2 ^ 64)
    (hok : memblockAddRegions t base size = .ok t') :
    Represents t' (s ∪ Set.Ico base (base + size)) := by
  have hfits : AddFits t base size := by
    by_contra hno
    rw [memblockAddRegions_overflow h.cnt_le hno] at hok
    cases hok
  have hcnt : t'.cnt ≤ maxRegions := by
    obtain ⟨t₁, h₁, hle⟩ := memblockAddRegions_ok h.cnt_le hfits
    rw [hok] at h₁
    cases h₁
    exact hle
  have hadd : add64 base size = base + size := add64_of_lt hend
  by_cases hz : (t.region 0).size = 0
  · have hnil := h.region_zero hz
    rw [memblockAddRegions_eq, if_neg hsize.ne', if_pos hz, hnil] at hok
    cases hok
    refine ⟨hcnt, Or.inr ⟨by simp, ⟨by simpa using hsize, by simp⟩, ?_⟩, ?_⟩
    · simpa [NoWrap, stop] using hend
    · rw [← h.cover_eq, hnil, cover_sentinel]
      ext a
      simp [mem_cover, stop]
  obtain ⟨hne, hap, hw⟩ := h.form_of_ne hz
  have hcover : cover (fill base (base + size) t.regions) = s ∪ Set.Ico base (base + size) := by
    rw [cover_fill, h.cover_eq]
  by_cases hmis : missing base (add64 base size) t.regions = 0
  · rw [memblockAddRegions_eq, if_neg hsize.ne', if_neg hz, if_pos hmis] at hok
    cases hok
    refine ⟨hcnt, Or.inr ⟨hne, hap, hw⟩, ?_⟩
    rw [← hcover, ← hadd, ← fillRegions_eq_fill hw, fillRegions_of_missing hmis]
  · obtain ⟨tot, heq⟩ := memblockAddRegions_insert hsize.ne' hz hmis hfits
    rw [hok, fillRegions_eq_fill hw, hadd] at heq
    cases heq
    have hord := hap.ordered.fill base (base + size)
    have hw' : NoWrap (fill base (base + size) t.regions) := by
      refine noWrap_of_cover hord.1 fun a ha => ?_
      rw [hcover] at ha
      rcases ha with ha | ha
      · exact h.lt_of_mem a ha
      · have := ha.2; omega
    have hreg := regions_memblockMergeRegions (t := ⟨_, tot⟩) hord hw'
    have hcover' : cover (memblockMergeRegions ⟨fill base (base + size) t.regions, tot⟩).regions =
        s ∪ Set.Ico base (base + size) := by rw [hreg, cover_coalesce, hcover]
    refine ⟨hcnt, Or.inr ⟨fun hnil => ?_, hreg ▸ hord.apart_coalesce, ?_⟩, hcover'⟩
    · rw [hnil, cover_nil] at hcover'
      have : base ∈ s ∪ Set.Ico base (base + size) := Or.inr ⟨le_rfl, by omega⟩
      rw [← hcover'] at this
      exact this
    · refine noWrap_of_cover (hreg ▸ hord.apart_coalesce).1 fun a ha => ?_
      rw [hcover', ← hcover] at ha
      exact hw'.lt_of_mem_cover a ha

end Represents

/-! ### Removing a range -/

theorem highPart_eq {r : MemblockRegion} {c : ℕ} (hw : r.stop < 2 ^ 64) (h : r.base ≤ c)
    (hc : c ≤ r.stop) : highPart r c = ⟨c, r.stop - c⟩ := by
  simp only [highPart, stop] at *
  rw [sub64_of_le (by omega) (by omega)]
  congr 1
  omega

section Isolate

variable {b e : ℕ}

/-- From the first region inside the range on, the loop notes the regions inside, and what
follows them is what removing the range leaves. -/
theorem isolateLoop_upper (rest : List MemblockRegion) :
    ∀ (pre : List MemblockRegion) (n tot s f : ℕ), Ordered rest → NoWrap rest →
      (∀ x ∈ rest, b ≤ x.base) → 2 * rest.length + 3 ≤ n →
      pre.length + rest.length + splits b e rest ≤ maxRegions →
      ∃ M tot', isolateLoop b e n ⟨pre ++ rest, tot⟩ pre.length s f =
        .ok (⟨pre ++ (M ++ carve b e rest), tot'⟩,
          if M = [] then s else if f = 0 then pre.length else s,
          if M = [] then f else pre.length + M.length) := by
  induction rest with
  | nil =>
    intro pre n tot s f _ _ _ hn _
    obtain ⟨n, rfl⟩ := Nat.exists_eq_add_one_of_ne_zero (by omega : n ≠ 0)
    exact ⟨[], tot, by simp [carve, isolateLoop_end]⟩
  | cons r rs ih =>
    intro pre n tot s f hord hw hlow hn hcap
    obtain ⟨n, rfl⟩ := Nat.exists_eq_add_of_le' (by simp at hn; omega : 3 ≤ n)
    obtain ⟨hr, hrs, hord'⟩ := ordered_cons.1 hord
    have hb : b ≤ r.base := hlow r List.mem_cons_self
    have hend : rgnEnd r = r.stop := hw.head
    have hstop : r.base < r.stop := Nat.lt_add_of_pos_right hr
    simp only [splits, List.length_cons, hend] at hcap hn
    by_cases h1 : e ≤ r.base
    · exact ⟨[], tot, by simp [carve, h1, isolateLoop_stop h1]⟩
    have h2 : ¬ r.stop ≤ b := by omega
    have h3 : ¬ r.base < b := by omega
    rw [if_neg h1, if_neg h2, if_neg h3] at hcap
    by_cases h4 : e < r.stop
    · rw [if_pos h4] at hcap
      refine ⟨[lowPart r e], add64 (sub64 tot (e - r.base)) (e - r.base), ?_⟩
      rw [isolateLoop_cut (by omega) (by omega) hb (by omega) (by omega),
        highPart_eq (hw r List.mem_cons_self) (by omega) h4.le]
      simp [carve, h1, h2, h3, h4]
    · rw [if_neg h4] at hcap
      obtain ⟨M, tot', h⟩ := ih (pre ++ [r]) (n + 2) tot (if f = 0 then pre.length else s)
        (pre.length + 1) hord' hw.tail (fun x hx => hlow x (List.mem_cons_of_mem _ hx)) (by omega)
        (by simp; omega)
      refine ⟨r :: M, tot', ?_⟩
      rw [isolateLoop_inside (by omega) (by omega) hb (by omega)]
      simp only [List.append_assoc, List.singleton_append, List.length_append,
        List.length_singleton] at h
      rw [h]
      by_cases hM : M = [] <;> simp [carve, h1, h2, h3, h4, hM]
      omega

section Cut

variable {r : MemblockRegion} {rs : List MemblockRegion} (hw : NoWrap (r :: rs))
  (hlow : r.base < b) (hhigh : b < r.stop)
include hw hlow hhigh

theorem stop_highPart : (highPart r b).stop = r.stop := by
  rw [highPart_eq (hw r List.mem_cons_self) hlow.le hhigh.le]
  exact stop_mk_sub hhigh.le

theorem highPart_cons (hord : Ordered (r :: rs)) : Ordered (highPart r b :: rs) ∧
    NoWrap (highPart r b :: rs) ∧ ∀ x ∈ highPart r b :: rs, b ≤ x.base := by
  obtain ⟨hr, hrs, hord'⟩ := ordered_cons.1 hord
  have hstop := stop_highPart hw hlow hhigh
  refine ⟨ordered_cons.2 ⟨?_, by rwa [hstop], hord'⟩, fun x hx => ?_, fun x hx => ?_⟩
  · rw [highPart_eq (hw r List.mem_cons_self) hlow.le hhigh.le]
    exact Nat.sub_pos_of_lt hhigh
  · rcases List.mem_cons.1 hx with rfl | hx
    · rw [hstop]
      exact hw r List.mem_cons_self
    · exact hw.tail x hx
  · rcases List.mem_cons.1 hx with rfl | hx
    · exact le_rfl
    · have := hrs x hx
      omega

theorem splits_highPart (hbw : b < 2 ^ 64) (hbe : b < e) :
    splits b e (highPart r b :: rs) + 1 ≤ if e < r.stop then 2 else splits b e rs + 1 := by
  have hend : rgnEnd r = r.stop := hw.head
  have hbase : (highPart r b).base = b := rfl
  simp only [splits, rgnEnd_highPart hlow.le hbw, hend, hbase, if_neg (Nat.not_le.2 hhigh),
    if_neg (Nat.not_le.2 hbe), lt_irrefl, if_false]
  split_ifs <;> omega

end Cut

/-- After the loop the table consists of the regions `A` below the range, the regions `M`
inside it, whose indices are returned, and the regions `B` above it. -/
theorem isolateLoop_parts (hbw : b < 2 ^ 64) (hbe : b < e) (rest : List MemblockRegion) :
    ∀ (pre : List MemblockRegion) (n tot : ℕ), Ordered rest → NoWrap rest →
      2 * rest.length + 4 ≤ n → pre.length + rest.length + splits b e rest ≤ maxRegions →
      ∃ A M B tot', A ++ B = carve b e rest ∧
        isolateLoop b e n ⟨pre ++ rest, tot⟩ pre.length 0 0 =
          .ok (⟨pre ++ (A ++ (M ++ B)), tot'⟩,
            if M = [] then 0 else pre.length + A.length,
            if M = [] then 0 else pre.length + A.length + M.length) := by
  induction rest with
  | nil =>
    intro pre n tot _ _ hn _
    obtain ⟨n, rfl⟩ := Nat.exists_eq_add_one_of_ne_zero (by omega : n ≠ 0)
    exact ⟨[], [], [], tot, rfl, by simp [isolateLoop_end]⟩
  | cons r rs ih =>
    intro pre n tot hord hw hn hcap
    obtain ⟨n, rfl⟩ := Nat.exists_eq_add_one_of_ne_zero (by omega : n ≠ 0)
    obtain ⟨hr, hrs, hord'⟩ := ordered_cons.1 hord
    have hend : rgnEnd r = r.stop := hw.head
    have hwr : r.stop < 2 ^ 64 := hw r List.mem_cons_self
    by_cases hb : b ≤ r.base
    · -- no region starts below the range
      have hlow : ∀ x ∈ r :: rs, b ≤ x.base := by
        intro x hx
        rcases List.mem_cons.1 hx with rfl | hx
        · exact hb
        · have := hrs x hx; simp only [stop] at this; omega
      obtain ⟨M, tot', h⟩ := isolateLoop_upper (e := e) _ pre (n + 1) tot 0 0 hord hw hlow
        (by omega)
        hcap
      exact ⟨[], M, carve b e (r :: rs), tot', rfl, by simpa using h⟩
    have h1 : ¬ e ≤ r.base := by omega
    simp only [splits, List.length_cons, hend, if_neg h1, if_pos (Nat.not_le.1 hb)] at hcap hn
    by_cases h2 : r.stop ≤ b
    · rw [if_pos h2] at hcap
      obtain ⟨A, M, B, tot', hAB, h⟩ := ih (pre ++ [r]) n tot hord' hw.tail (by omega)
        (by simp; omega)
      refine ⟨r :: A, M, B, tot', by simp [carve, h1, h2, hAB], ?_⟩
      rw [isolateLoop_skip (by omega) (by omega)]
      simp only [List.append_assoc, List.singleton_append, List.length_append,
        List.length_singleton] at h
      rw [h]
      by_cases hM : M = [] <;> simp [hM]
      omega
    · rw [if_neg h2, if_neg (Nat.not_le.2 hbe)] at hcap
      have hbelow : r.base < b := Nat.not_le.1 hb
      have habove : b < r.stop := Nat.not_le.1 h2
      have hstop := stop_highPart hw hbelow habove
      have hsplits := splits_highPart hw hbelow habove hbw hbe
      obtain ⟨hordh, hwh, hlow⟩ := highPart_cons hw hbelow habove hord
      obtain ⟨M, tot', h⟩ := isolateLoop_upper (e := e) _ (pre ++ [lowPart r b]) n
        (add64 (sub64 tot (b - r.base)) (b - r.base)) 0 0 hordh hwh hlow (by simp; omega)
        (by simp; omega)
      refine ⟨[lowPart r b], M, carve b e (highPart r b :: rs), tot', ?_, ?_⟩
      · have hbase : (highPart r b).base = b := rfl
        simp [carve, h1, h2, hstop, hbase, hbelow, Nat.not_le.2 hbe, lowPart]
      · rw [isolateLoop_split (by omega) (by omega) (by omega) (by split_ifs at hcap <;> omega), h]
        by_cases hM : M = [] <;> simp [hM]

/-- Removing the regions `M` from the middle of a table. -/
theorem regions_removeLoop (A B M : List MemblockRegion) (hM : M ≠ []) (tot : ℕ) :
    (removeLoop A.length M.length ⟨A ++ (M ++ B), tot⟩).regions =
      if A ++ B = [] then [⟨0, 0⟩] else A ++ B := by
  induction M using List.reverseRecOn generalizing tot with
  | nil => exact absurd rfl hM
  | append_singleton M x ih =>
    have herase : (A ++ (M ++ [x] ++ B)).eraseIdx (A.length + M.length) = A ++ (M ++ B) := by
      have := @eraseIdx_append_cons (A ++ M) B x
      simpa using this
    simp only [List.length_append, List.length_singleton, removeLoop, memblockRemoveRegion,
      herase]
    by_cases hM' : M = []
    · subst hM'
      simp [removeLoop]
    · rw [if_neg (by simp [hM'])]
      exact ih hM' _

end Isolate

section Remove

variable {t t' : MemblockType} {base size : ℕ} (hsize : 0 < size) (hend : base + size < 2 ^ 64)
include hsize hend

theorem memblockRemoveRange_sentinel (tot : ℕ) :
    memblockRemoveRange ⟨[⟨0, 0⟩], tot⟩ base size = .ok ⟨[⟨0, 0⟩], tot⟩ := by
  have hadd : add64 base size = base + size := add64_of_lt hend
  have hskip := @isolateLoop_skip base (base + size) 5 tot 0 0 [] [] ⟨0, 0⟩ (by simp; omega)
    (by simp [rgnEnd, add64])
  have hloop := hskip.trans (@isolateLoop_end base (base + size) 4 tot 0 0 [⟨0, 0⟩])
  rw [memblockRemoveRange, memblockIsolateRange, if_neg hsize.ne', hadd]
  exact congrArg (fun r => r >>= fun x => pure (removeLoop x.2.1 (x.2.2 - x.2.1) x.1)) hloop

theorem regions_memblockRemoveRange (hne : t.regions ≠ []) (hord : Ordered t.regions)
    (hw : NoWrap t.regions) (hfits : RemoveFits t base size)
    (hok : memblockRemoveRange t base size = .ok t') :
    t'.regions = if carve base (base + size) t.regions = [] then [⟨0, 0⟩]
      else carve base (base + size) t.regions := by
  have hadd : add64 base size = base + size := add64_of_lt hend
  have hroom := hfits.resolve_left hsize.ne'
  simp only [memblockRemoveRange, memblockIsolateRange, if_neg hsize.ne', hadd] at hok hroom
  obtain ⟨A, M, B, tot', hAB, hloop⟩ := isolateLoop_parts (by omega) (by omega :
    base < base + size) t.regions [] (2 * t.cnt + 4) t.totalSize hord hw
    (by simp [MemblockType.cnt]) (by simpa [MemblockType.cnt] using hroom)
  simp only [List.nil_append, List.length_nil, Nat.zero_add] at hloop
  rw [hloop] at hok
  cases hok
  by_cases hM : M = []
  · -- nothing is removed, and the loop does not leave fewer regions than there were
    obtain ⟨l, tot₁, s₁, f₁, hok₁, hlen⟩ := isolateLoop_ok (e := base + size)
      (by omega : base < 2 ^ 64) t.regions [] (2 * t.cnt + 4) t.totalSize 0 0
      (by simp [MemblockType.cnt]) (by simpa [MemblockType.cnt] using hroom)
    simp only [List.nil_append, List.length_nil] at hok₁
    rw [hloop] at hok₁
    have hl : carve base (base + size) t.regions = l := by
      simp only [hM, List.nil_append, hAB, Except.ok.injEq, Prod.mk.injEq] at hok₁
      exact congrArg MemblockType.regions hok₁.1
    simp only [hM, if_true, Nat.sub_self, removeLoop, List.nil_append, hAB]
    rw [if_neg]
    intro hnil
    rw [← hl, hnil] at hlen
    have := List.length_pos_iff.2 hne
    simp only [List.length_nil] at hlen
    omega
  · have := regions_removeLoop A B M hM tot'
    simpa [hM, hAB] using this

end Remove

namespace Represents

variable {t t' : MemblockType} {s : Set ℕ} {base size : ℕ}

/-- Removing a range. -/
theorem removeRange (h : Represents t s) (hsize : 0 < size) (hend : base + size < 2 ^ 64)
    (hok : memblockRemoveRange t base size = .ok t') :
    Represents t' (s \ Set.Ico base (base + size)) := by
  have hfits : RemoveFits t base size := by
    by_contra hno
    rw [memblockRemoveRange_overflow (by omega) h.cnt_le hno] at hok
    cases hok
  have hcnt : t'.cnt ≤ maxRegions := by
    obtain ⟨t₁, h₁, hle⟩ := memblockRemoveRange_ok (by omega) h.cnt_le hfits
    rw [hok] at h₁
    cases h₁
    exact hle
  rcases h.form with hnil | ⟨hne, hap, hw⟩
  · have ht : t = ⟨[⟨0, 0⟩], t.totalSize⟩ := by rw [← hnil]
    rw [ht, memblockRemoveRange_sentinel hsize hend] at hok
    cases hok
    refine ⟨hcnt, Or.inl rfl, ?_⟩
    rw [← h.cover_eq, hnil, cover_sentinel, Set.empty_sdiff]
  · have hreg := regions_memblockRemoveRange hsize hend hne hap.ordered hw hfits hok
    have hcarve := cover_carve hap.ordered (by omega : base < base + size)
    have hap' := hap.carve (by omega : base < base + size)
    split_ifs at hreg with hnil
    · refine ⟨hcnt, Or.inl hreg, ?_⟩
      rw [hreg, cover_sentinel, ← h.cover_eq, ← hcarve, hnil, cover_nil]
    · refine ⟨hcnt, Or.inr ?_, ?_⟩
      · rw [hreg]
        refine ⟨hnil, hap', noWrap_of_cover hap'.1 fun a ha => ?_⟩
        rw [hcarve] at ha
        exact hw.lt_of_mem_cover a ha.1
      · rw [hreg, hcarve, h.cover_eq]

end Represents

end MicroKernel
