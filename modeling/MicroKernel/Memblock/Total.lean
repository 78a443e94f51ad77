import MicroKernel.Extent.Canonical
import MicroKernel.Memblock.Find

/-!
# Tables that are sums of their regions

Every step of the allocator keeps `total_size` equal to the sum of the sizes of the regions, on
`u64`.  Together with the form of the tables this makes adding a range a union of sets and removing
one a difference.

* `Sums` : the invariant, kept by `memblock_insert_region`, the loops and the merge;
* `Canonical` : the form in which the allocator keeps a table;
* `memblockAddRegions_union`, `memblockFree_difference` : what the two operations do.
-/

namespace MicroKernel

open Extent

/-! ### Sums -/

/-- `total_size` is the sum of the sizes. -/
def Sums (t : MemblockType) : Prop := t.totalSize = bytes t.regions % 2 ^ 64

section Lists

variable {l : List MemblockRegion} {x : MemblockRegion} {i : ℕ}

theorem bytes_perm {l l' : List Extent} (h : l.Perm l') : bytes l = bytes l' :=
  (h.map Extent.size).sum_nat

theorem bytes_insertIdx (hi : i ≤ l.length) : bytes (l.insertIdx i x) = x.size + bytes l := by
  rw [bytes_perm (List.perm_insertIdx x l hi), bytes_cons]

theorem bytes_set (hi : i < l.length) :
    bytes (l.set i x) + (l.getD i ⟨0, 0⟩).size = bytes l + x.size := by
  induction l generalizing i with
  | nil => exact absurd hi (Nat.not_lt_zero i)
  | cons y l ih =>
    cases i with
    | zero =>
      simp only [List.set_cons_zero, List.getD_cons_zero, bytes_cons]
      omega
    | succ i =>
      have hrest := ih (Nat.lt_of_succ_lt_succ hi)
      simp only [List.set_cons_succ, List.getD_cons_succ, bytes_cons]
      omega

theorem bytes_eraseIdx (i : ℕ) : bytes (l.eraseIdx i) + (l.getD i ⟨0, 0⟩).size = bytes l := by
  induction l generalizing i with
  | nil => simp
  | cons y l ih =>
    cases i with
    | zero =>
      simp only [List.eraseIdx_cons_zero, List.getD_cons_zero, bytes_cons]
      omega
    | succ i =>
      have hrest := ih i
      simp only [List.eraseIdx_cons_succ, List.getD_cons_succ, bytes_cons]
      omega

end Lists

namespace Sums

variable {t t' : MemblockType} {base size idx : ℕ}

theorem insert (h : Sums t) (hidx : idx ≤ t.cnt)
    (hok : memblockInsertRegion t idx base size = .ok t') : Sums t' ∧ t'.cnt = t.cnt + 1 := by
  unfold memblockInsertRegion at hok
  split_ifs at hok with hcnt
  cases hok
  refine ⟨?_, List.length_insertIdx_of_le_length hidx _⟩
  have hbytes : bytes (t.regions.insertIdx idx ⟨base, size⟩) = size + bytes t.regions :=
    bytes_insertIdx hidx
  unfold Sums at h ⊢
  dsimp only
  rw [hbytes, h]
  unfold add64
  omega

theorem addLoop {insert : Bool} {end_ : ℕ} (n : ℕ) :
    ∀ {t t' : MemblockType} {idx idx' base base' k k' : ℕ}, Sums t → idx ≤ t.cnt →
      MicroKernel.addLoop insert end_ n t idx base k = .ok (t', idx', base', k') →
        Sums t' ∧ idx' ≤ t'.cnt := by
  induction n with
  | zero => exact fun _ _ hok => nomatch hok
  | succ n ih =>
    intro t t' idx idx' base base' k k' h hidx hok
    simp only [MicroKernel.addLoop] at hok
    split_ifs at hok with h₁ h₂ h₃ h₄ h₅
    · cases hok
      exact ⟨h, hidx⟩
    · cases hok
      exact ⟨h, hidx⟩
    · exact ih h (by omega) hok
    · obtain ⟨t₁, hins, hok⟩ := bind_eq_ok hok
      obtain ⟨hsums, hcnt⟩ := h.insert hidx hins
      exact ih hsums (by omega) hok
    · exact ih h (by omega) hok
    · exact ih h (by omega) hok

theorem addPass {insert : Bool} {end_ k : ℕ} (h : Sums t)
    (hok : MicroKernel.addPass insert t base end_ = .ok (t', k)) : Sums t' := by
  obtain ⟨⟨t₁, idx, base', k'⟩, hloop, hlast⟩ := bind_eq_ok hok
  obtain ⟨hsums, hidx⟩ := addLoop _ h (Nat.zero_le _) hloop
  simp only [addLast] at hlast
  split_ifs at hlast with h₁ h₂
  · obtain ⟨t₂, hins, hret⟩ := bind_eq_ok hlast
    cases hret
    exact (hsums.insert hidx hins).1
  · cases hlast
    exact hsums
  · cases hlast
    exact hsums

theorem bytes_mergeLoop (x : MemblockRegion) (l : List MemblockRegion) :
    bytes (mergeLoop x l) % 2 ^ 64 = (x.size + bytes l) % 2 ^ 64 := by
  induction l generalizing x with
  | nil => simp [mergeLoop]
  | cons y l ih =>
    simp only [mergeLoop]
    split_ifs
    · have hrest := ih y
      simp only [bytes_cons]
      omega
    · rw [ih]
      simp only [bytes_cons]
      unfold add64
      omega

theorem merge (h : Sums t) : Sums (memblockMergeRegions t) := by
  unfold memblockMergeRegions
  split
  · exact h
  · rename_i x l hl
    unfold Sums at h ⊢
    rw [h, hl, bytes_cons]
    exact (bytes_mergeLoop x l).symm

/-- `memblock_add_regions`; a region written into an empty table is the first one. -/
theorem addRegions (h : Sums t) (hform : (t.region 0).size = 0 → ∃ b, t.regions = [⟨b, 0⟩])
    (hsize : size < 2 ^ 64) (hok : memblockAddRegions t base size = .ok t') : Sums t' := by
  rw [memblockAddRegions_eq] at hok
  split_ifs at hok with h₁ h₂ h₃
  · cases hok
    exact h
  · obtain ⟨b, hb⟩ := hform h₂
    cases hok
    unfold Sums
    rw [hb]
    exact (Nat.mod_eq_of_lt hsize).symm
  · cases hok
    exact h
  · obtain ⟨⟨t₁, k⟩, hpass, hret⟩ := bind_eq_ok hok
    cases hret
    exact (h.addPass hpass).merge

theorem split {new : MemblockRegion} {c : ℕ} (h : Sums t) (hidx : idx < t.cnt)
    (hnew : new.size = sub64 (t.region idx).size c)
    (hok : memblockInsertRegion ⟨t.regions.set idx new, sub64 t.totalSize c⟩ idx base c = .ok t') :
    Sums t' ∧ t'.cnt = t.cnt + 1 := by
  have hset := bytes_set (x := new) hidx
  have hmid : Sums ⟨t.regions.set idx new, sub64 t.totalSize c⟩ := by
    unfold Sums at h ⊢
    dsimp only
    rw [h]
    change bytes (t.regions.set idx new) + (t.region idx).size = _ at hset
    rw [hnew] at hset
    unfold sub64 at hset ⊢
    omega
  have hcnt : (MemblockType.mk (t.regions.set idx new) (sub64 t.totalSize c)).cnt = t.cnt :=
    List.length_set
  rw [← hcnt] at hidx ⊢
  exact hmid.insert hidx.le hok

/-- The loop of `memblock_isolate_range`; the sizes stay below `2 ^ 64`. -/
theorem isolateLoop {b e : ℕ} (hb : b < 2 ^ 64) (he : e < 2 ^ 64) (n : ℕ) :
    ∀ {t t' : MemblockType} {idx s f s' f' : ℕ}, Sums t → (∀ x ∈ t.regions, x.size < 2 ^ 64) →
      MicroKernel.isolateLoop b e n t idx s f = .ok (t', s', f') →
        Sums t' ∧ ∀ x ∈ t'.regions, x.size < 2 ^ 64 := by
  induction n with
  | zero => exact fun _ _ hok => nomatch hok
  | succ n ih =>
    intro t t' idx s f s' f' h hlt hok
    -- the two regions that a region is split into
    have hsplit : ∀ {new : MemblockRegion} {base c tot : ℕ} {t₁ : MemblockType}, new.size < 2 ^ 64 →
        c < 2 ^ 64 → memblockInsertRegion ⟨t.regions.set idx new, tot⟩ idx base c = .ok t₁ →
          ∀ x ∈ t₁.regions, x.size < 2 ^ 64 := by
      intro new base c tot t₁ hnew hc hins x hx
      unfold memblockInsertRegion at hins
      split_ifs at hins
      cases hins
      rcases List.eq_or_mem_of_mem_insertIdx hx with rfl | hx
      · exact hc
      · rcases List.mem_or_eq_of_mem_set hx with hx | rfl
        · exact hlt x hx
        · exact hnew
    simp only [MicroKernel.isolateLoop] at hok
    split_ifs at hok with h₁ h₂ h₃ h₄ h₅ h₆
    · cases hok
      exact ⟨h, hlt⟩
    · cases hok
      exact ⟨h, hlt⟩
    · exact ih h hlt hok
    · obtain ⟨t₁, hins, hok⟩ := bind_eq_ok hok
      refine ih (h.split (Nat.not_le.1 h₁) rfl hins).1 ?_ hok
      exact hsplit (sub64_lt _ _) (by omega) hins
    · obtain ⟨t₁, hins, hok⟩ := bind_eq_ok hok
      refine ih (h.split (Nat.not_le.1 h₁) rfl hins).1 ?_ hok
      exact hsplit (sub64_lt _ _) (by omega) hins
    all_goals exact ih h hlt hok

theorem removeRegion (h : Sums t) (i : ℕ) (hlt : ∀ x ∈ t.regions, x.size < 2 ^ 64) :
    Sums (memblockRemoveRegion t i) ∧
      ∀ x ∈ (memblockRemoveRegion t i).regions, x.size < 2 ^ 64 := by
  have hsize : (t.region i).size < 2 ^ 64 := by
    unfold MemblockType.region
    rcases Nat.lt_or_ge i t.regions.length with hi | hi
    · rw [List.getD_eq_getElem _ _ hi]
      exact hlt _ (List.getElem_mem hi)
    · rw [List.getD_eq_default _ _ hi]
      decide
  have herase : bytes (t.regions.eraseIdx i) + (t.region i).size = bytes t.regions :=
    bytes_eraseIdx i
  unfold Sums at h ⊢
  simp only [memblockRemoveRegion]
  rw [h, ← herase]
  split_ifs with hnil
  · rw [List.length_eq_zero_iff.1 hnil]
    refine ⟨?_, by simp⟩
    unfold sub64
    simp only [bytes_cons, bytes_nil]
    omega
  · refine ⟨?_, fun x hx => hlt x (List.mem_of_mem_eraseIdx hx)⟩
    unfold sub64
    omega

theorem removeLoop (s n : ℕ) : ∀ {t : MemblockType}, Sums t → (∀ x ∈ t.regions, x.size < 2 ^ 64) →
    Sums (MicroKernel.removeLoop s n t) := by
  induction n with
  | zero => exact fun h _ => h
  | succ n ih =>
    intro t h hlt
    obtain ⟨hsums, hlt'⟩ := h.removeRegion (s + n) hlt
    exact ih hsums hlt'

theorem removeRange (h : Sums t) (hlt : ∀ x ∈ t.regions, x.size < 2 ^ 64) (hbase : base < 2 ^ 64)
    (hok : memblockRemoveRange t base size = .ok t') : Sums t' := by
  obtain ⟨⟨t₁, s, f⟩, hiso, hret⟩ := bind_eq_ok hok
  cases hret
  unfold memblockIsolateRange at hiso
  split_ifs at hiso
  · cases hiso
    exact removeLoop _ _ h hlt
  · obtain ⟨hsums, hlt'⟩ := isolateLoop hbase (add64_lt _ _) _ h hlt hiso
    exact removeLoop _ _ hsums hlt'

end Sums

/-! ### Canonical tables -/

/-- The form in which the allocator keeps a table. -/
structure Canonical (t : MemblockType) : Prop where
  /-- The table fits the array. -/
  cnt_le : t.cnt ≤ maxRegions
  /-- An empty table holds one region of size 0; in any other the regions are sorted and not empty,
  no two of them touch, and none wraps. -/
  form : (∃ b < 2 ^ 64, t.regions = [⟨b, 0⟩]) ∨ t.regions ≠ [] ∧ Apart t.regions ∧ NoWrap t.regions
  /-- `total_size` is the sum of the sizes. -/
  total : t.totalSize = bytes t.regions

theorem cover_empty (b : ℕ) : cover [⟨b, 0⟩] = ∅ := by
  ext a
  simp [mem_cover, stop]

theorem bytes_lt {l : List MemblockRegion} (h : Ordered l) (hw : NoWrap l) : bytes l < 2 ^ 64 := by
  refine Nat.lt_succ_of_le (bytes_le (n := 2 ^ 64 - 1) h fun a ha => ?_)
  have := hw.lt_of_mem_cover a ha
  omega

theorem Represents.canonical {t : MemblockType} {s : Set ℕ} (h : Represents t s) (hsums : Sums t) :
    Canonical t := by
  unfold Sums at hsums
  rcases h.form with hnil | hform
  · refine ⟨h.cnt_le, Or.inl ⟨0, by decide, hnil⟩, ?_⟩
    rw [hsums, hnil]
    rfl
  · refine ⟨h.cnt_le, Or.inr hform, ?_⟩
    rw [hsums, Nat.mod_eq_of_lt (bytes_lt hform.2.1.ordered hform.2.2)]

namespace Canonical

variable {t t' : MemblockType} {base size : ℕ}

theorem region_zero (h : Canonical t) (hz : (t.region 0).size = 0) :
    ∃ b < 2 ^ 64, t.regions = [⟨b, 0⟩] := by
  rcases h.form with hnil | ⟨hne, hap, -⟩
  · exact hnil
  · obtain ⟨r, rs, hrs⟩ := List.exists_cons_of_ne_nil hne
    have hpos := hap.1 r (by simp [hrs])
    simp only [MemblockType.region, hrs, List.getD_cons_zero] at hz
    omega

theorem sums (h : Canonical t) : Sums t := by
  unfold Sums
  rw [h.total]
  rcases h.form with ⟨b, -, hnil⟩ | ⟨-, hap, hw⟩
  · rw [hnil]
    rfl
  · exact (Nat.mod_eq_of_lt (bytes_lt hap.ordered hw)).symm

/-- `total_size` is the number of addresses covered. -/
theorem total_eq_ncard (h : Canonical t) : t.totalSize = (cover t.regions).ncard := by
  rw [h.total]
  rcases h.form with ⟨b, -, hnil⟩ | ⟨-, hap, -⟩
  · rw [hnil, cover_empty, Set.ncard_empty]
    rfl
  · exact (ncard_cover hap.ordered).symm

theorem represents (h : Canonical t) (hzero : (t.region 0).size = 0 → (t.region 0).base = 0) :
    Represents t (cover t.regions) := by
  refine ⟨h.cnt_le, ?_, rfl⟩
  rcases h.form with ⟨b, -, hnil⟩ | hform
  · have hb := hzero (by rw [MemblockType.region, hnil]; rfl)
    rw [MemblockType.region, hnil] at hb
    obtain rfl : b = 0 := hb
    exact Or.inl hnil
  · exact Or.inr hform

theorem size_lt (h : Canonical t) : ∀ x ∈ t.regions, x.size < 2 ^ 64 := by
  intro x hx
  rcases h.form with ⟨b, -, hnil⟩ | ⟨-, -, hw⟩
  · rw [hnil, List.mem_singleton] at hx
    rw [hx]
    exact Nat.two_pow_pos 64
  · exact (Nat.le_add_left _ _).trans_lt (hw x hx)

theorem of_cover_empty (h : Canonical t) (hnil : cover t.regions = ∅) :
    t.cnt = 1 ∧ (t.region 0).size = 0 := by
  rcases h.form with ⟨b, -, hb⟩ | ⟨hne, hap, -⟩
  · simp [MemblockType.cnt, MemblockType.region, hb]
  · obtain ⟨r, rs, hrs⟩ := List.exists_cons_of_ne_nil hne
    rw [hrs] at hnil hap
    have hmem := base_mem_cover (l := rs) (hap.1 r List.mem_cons_self)
    rw [hnil] at hmem
    exact hmem.elim

end Canonical

/-! ### Union and difference -/

section Sets

variable {t : MemblockType} {base size : ℕ}

/-- Adding a range to a canonical table, when there is room, leaves the canonical table of the
union. -/
theorem memblockAddRegions_union (h : Canonical t) (hend : base + size < 2 ^ 64)
    (hroom : AddFits t base size) :
    ∃ t', memblockAddRegions t base size = .ok t' ∧ Canonical t' ∧
      cover t'.regions = cover t.regions ∪ Set.Ico base (base + size) ∧
        t'.totalSize = (cover t'.regions).ncard := by
  suffices ∃ t', memblockAddRegions t base size = .ok t' ∧ Canonical t' ∧
      cover t'.regions = cover t.regions ∪ Set.Ico base (base + size) by
    obtain ⟨t', hok, hcanon, hcover⟩ := this
    exact ⟨t', hok, hcanon, hcover, hcanon.total_eq_ncard⟩
  rcases Nat.eq_zero_or_pos size with rfl | hsize
  · exact ⟨t, by rw [memblockAddRegions_eq, if_pos rfl], h, by simp⟩
  by_cases hz : (t.region 0).size = 0
  · -- the range is written into the empty table
    obtain ⟨b, -, hnil⟩ := h.region_zero hz
    refine ⟨⟨[⟨base, size⟩], size⟩, ?_, ⟨?_, Or.inr ⟨by simp, ?_, ?_⟩, by simp⟩, ?_⟩
    · rw [memblockAddRegions_eq, if_neg hsize.ne', if_pos hz, hnil]
      rfl
    · exact (show 1 ≤ maxRegions by decide)
    · exact ⟨by simpa using hsize, by simp⟩
    · simpa [NoWrap, stop] using hend
    · rw [hnil, cover_empty, Set.empty_union]
      ext a
      simp [mem_cover, stop]
  · have hrep := h.represents fun hz' => absurd hz' hz
    obtain ⟨t', hok, -⟩ := memblockAddRegions_ok h.cnt_le hroom
    have hrep' := hrep.addRegions hsize hend hok
    have hsums := h.sums.addRegions (fun hz' => absurd hz' hz) (by omega) hok
    exact ⟨t', hok, hrep'.canonical hsums, hrep'.cover_eq⟩

/-- A range that two regions of 4 KB touch. -/
theorem memblockAddRegions_union_bridge :
    ∃ t', memblockAddRegions ⟨[⟨0x1000, 0x1000⟩, ⟨0x3000, 0x1000⟩], 0x2000⟩ 0x2000 0x1000 = .ok t' ∧
      Canonical t' ∧
      cover t'.regions = cover [⟨0x1000, 0x1000⟩, ⟨0x3000, 0x1000⟩] ∪
        Set.Ico 0x2000 (0x2000 + 0x1000) ∧
        t'.totalSize = (cover t'.regions).ncard :=
  memblockAddRegions_union ⟨by decide, Or.inr ⟨by simp, ⟨by simp, by simp [stop]⟩,
    by simp [NoWrap, stop]⟩, rfl⟩ (by decide) (by decide)

/-- The ends of a range split at most one region that starts inside it or above. -/
theorem splits_le_one {b e : ℕ} {l : List MemblockRegion} (hord : Ordered l)
    (hlow : ∀ x ∈ l, b ≤ x.base) (hw : NoWrap l) : splits b e l ≤ 1 := by
  induction l with
  | nil => exact Nat.zero_le 1
  | cons r rs ih =>
    have hrest := ih (ordered_cons.1 hord).2.2 (fun x hx =>
      hlow x (List.mem_cons_of_mem _ hx)) hw.tail
    have hb : ¬r.base < b := Nat.not_lt.2 (hlow r List.mem_cons_self)
    simp only [splits, if_neg hb]
    split_ifs <;> omega

/-- The ends of a range split at most two regions. -/
theorem splits_le_two {b e : ℕ} {l : List MemblockRegion} (hord : Ordered l) (hw : NoWrap l) :
    splits b e l ≤ 2 := by
  induction l with
  | nil => exact Nat.zero_le 2
  | cons r rs ih =>
    obtain ⟨hr, hrs, hord'⟩ := ordered_cons.1 hord
    have hrest := ih hord' hw.tail
    have hend : rgnEnd r = r.stop := hw.head
    by_cases hb : rgnEnd r ≤ b
    · simp only [splits, if_pos hb]
      split_ifs <;> omega
    · -- the regions above this one start above the base of the range
      have hone : splits b e rs ≤ 1 := by
        refine splits_le_one hord' (fun x hx => ?_) hw.tail
        have := hrs x hx
        omega
      simp only [splits]
      split_ifs <;> omega

theorem memblockRemoveRange_empty {b : ℕ} (ht : t.regions = [⟨b, 0⟩]) (hb : b < 2 ^ 64)
    (htot : t.totalSize = 0) (hend : base + size < 2 ^ 64) :
    ∃ c < 2 ^ 64, memblockRemoveRange t base size = .ok ⟨[⟨c, 0⟩], 0⟩ := by
  obtain ⟨l, tot⟩ := t
  obtain rfl : l = _ := ht
  obtain rfl : tot = 0 := htot
  rcases Nat.eq_zero_or_pos size with rfl | hsize
  · exact ⟨b, hb, rfl⟩
  have hrend : rgnEnd ⟨b, 0⟩ = b := add64_of_lt hb
  have hadd : add64 base size = base + size := add64_of_lt hend
  simp only [memblockRemoveRange, memblockIsolateRange, if_neg hsize.ne', hadd]
  change ∃ c < 2 ^ 64, (isolateLoop base (base + size) (5 + 1) ⟨[] ++ [⟨b, 0⟩], 0⟩
    ([] : List MemblockRegion).length 0 0 >>= _) = _
  by_cases hstop : base + size ≤ b
  · rw [isolateLoop_stop hstop]
    exact ⟨b, hb, rfl⟩
  · have hlt : (⟨b, 0⟩ : MemblockRegion).base < base + size := Nat.not_le.1 hstop
    rcases Nat.lt_or_ge base b with hin | hout
    · -- the region of size 0 counts as one inside the range
      rw [isolateLoop_inside hlt (hin.trans_eq hrend.symm) hin.le (hrend.le.trans hlt.le)]
      refine ⟨0, by decide, ?_⟩
      simp [isolateLoop, MemblockType.cnt, removeLoop, memblockRemoveRegion, MemblockType.region,
        sub64]
    · rw [isolateLoop_skip hlt (hrend.le.trans hout)]
      exact ⟨b, hb, rfl⟩

/-- Freeing a range of a canonical table with room for two regions leaves the canonical table of
the difference; when nothing is left it is the empty table. -/
theorem memblockFree_difference {m : Memblock} (h : Canonical m.reserved)
    (hroom : m.reserved.cnt + 2 ≤ maxRegions) (hend : base + size < 2 ^ 64) :
    ∃ t', memblockFree m base size = .ok { m with reserved := t' } ∧ Canonical t' ∧
      cover t'.regions = cover m.reserved.regions \ Set.Ico base (base + size) ∧
        t'.totalSize = (cover t'.regions).ncard ∧
          (cover t'.regions = ∅ → t'.cnt = 1 ∧ (t'.region 0).size = 0) := by
  suffices ∃ t', memblockRemoveRange m.reserved base size = .ok t' ∧ Canonical t' ∧
      cover t'.regions = cover m.reserved.regions \ Set.Ico base (base + size) by
    obtain ⟨t', hok, hcanon, hcover⟩ := this
    refine ⟨t', ?_, hcanon, hcover, hcanon.total_eq_ncard, hcanon.of_cover_empty⟩
    rw [memblockFree, hok]
    rfl
  rcases h.form with ⟨b, hb, hnil⟩ | ⟨hne, hap, hw⟩
  · have htot : m.reserved.totalSize = 0 := by rw [h.total, hnil]; rfl
    obtain ⟨c, hc, hok⟩ := memblockRemoveRange_empty hnil hb htot hend
    refine ⟨_, hok, ⟨(show 1 ≤ maxRegions by decide), Or.inl ⟨c, hc, rfl⟩, rfl⟩, ?_⟩
    rw [hnil, cover_empty, cover_empty, Set.empty_sdiff]
  rcases Nat.eq_zero_or_pos size with rfl | hsize
  · exact ⟨m.reserved, rfl, h, by simp⟩
  have hfits : RemoveFits m.reserved base size := by
    refine Or.inr (le_trans ?_ hroom)
    exact Nat.add_le_add_left (splits_le_two hap.ordered hw) _
  have hrep : Represents m.reserved (cover m.reserved.regions) :=
    ⟨h.cnt_le, Or.inr ⟨hne, hap, hw⟩, rfl⟩
  obtain ⟨t', hok, -⟩ := memblockRemoveRange_ok (by omega) h.cnt_le hfits
  have hrep' := hrep.removeRange hsize hend hok
  have hsums := h.sums.removeRange h.size_lt (by omega) hok
  exact ⟨t', hok, hrep'.canonical hsums, hrep'.cover_eq⟩

/-- A range inside a region. -/
theorem memblockFree_difference_hole :
    ∃ t', memblockFree ⟨0, ⟨[⟨0, 0⟩], 0⟩, ⟨[⟨0x1000, 0x3000⟩], 0x3000⟩⟩ 0x2000 0x1000 =
        .ok ⟨0, ⟨[⟨0, 0⟩], 0⟩, t'⟩ ∧ Canonical t' ∧
      cover t'.regions = cover [⟨0x1000, 0x3000⟩] \ Set.Ico 0x2000 (0x2000 + 0x1000) ∧
        t'.totalSize = (cover t'.regions).ncard ∧
          (cover t'.regions = ∅ → t'.cnt = 1 ∧ (t'.region 0).size = 0) :=
  memblockFree_difference (m := ⟨0, ⟨[⟨0, 0⟩], 0⟩, ⟨[⟨0x1000, 0x3000⟩], 0x3000⟩⟩)
    ⟨by decide, Or.inr ⟨by simp, ⟨by simp, by simp⟩, by simp [NoWrap, stop]⟩, rfl⟩
    (by decide) (by decide)

end Sets

end MicroKernel
