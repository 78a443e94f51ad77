import MicroKernel.Memblock.Total
import MicroKernel.Memblock.Safety

/-!
# Tables are determined by what they cover

A set of addresses has one canonical table.  So it does not matter in which order ranges are added,
and freeing what was just reserved restores the table.

* `Represents.ext` : two tables of the same set are equal;
* `addAll_spec` : adding a list of ranges, with only the room in the array as a condition;
* `memblockInit_ok` : the array has room for every memory map;
* `memblockAdd_order` : the memory table does not depend on the order of the ranges;
* `memblockFree_reserve` : `memblock_free` undoes `memblock_reserve`.
-/

namespace MicroKernel

open Extent

/-- A set of addresses is represented by one table only. -/
theorem Represents.ext {t t' : MemblockType} {s : Set ℕ} (h : Represents t s) (h' : Represents t' s)
    (hsums : Sums t) (hsums' : Sums t') : t = t' := by
  have hregions : t.regions = t'.regions := by
    have hcover : cover t.regions = cover t'.regions := h.cover_eq.trans h'.cover_eq.symm
    rcases h.form with hnil | ⟨hne, hap, -⟩ <;> rcases h'.form with hnil' | ⟨hne', hap', -⟩
    · rw [hnil, hnil']
    · rw [hnil, cover_sentinel, ← cover_nil] at hcover
      exact absurd (hap'.ext apart_nil hcover.symm) hne'
    · rw [hnil', cover_sentinel, ← cover_nil] at hcover
      exact absurd (hap.ext apart_nil hcover) hne
    · exact hap.ext hap' hcover
  have htotal : t.totalSize = t'.totalSize := by
    unfold Sums at hsums hsums'
    rw [hsums, hsums', hregions]
  cases t
  cases t'
  exact congrArg₂ MemblockType.mk hregions htotal

/-! ### Adding a list of ranges -/

/-- Add the ranges to a table, one after the other. -/
def addAll (t : MemblockType) (l : List Extent) : Except Fault MemblockType :=
  l.foldlM (fun t x => memblockAddRegions t x.base x.size) t

/-- Add the ranges to the usable memory, one after the other. -/
def memblockAddAll (m : Memblock) (l : List Extent) : Except Fault Memblock :=
  l.foldlM (fun m x => memblockAdd m x.base x.size) m

section AddAll

variable {t : MemblockType} {m : Memblock} {l l' : List Extent} {s : Set ℕ}

/-- Either the array has no room for one of the ranges, or the table ends up with the union. -/
theorem addAll_spec (h : Represents t s) (hsums : Sums t) (hl : NoWrap l) :
    addAll t l = .error .overflow ∨
      ∃ t', addAll t l = .ok t' ∧ Represents t' (s ∪ cover l) ∧ Sums t' := by
  induction l generalizing t s with
  | nil => exact Or.inr ⟨t, rfl, by simpa using h, hsums⟩
  | cons x l ih =>
    have hx : x.base + x.size < 2 ^ 64 := hl x List.mem_cons_self
    unfold addAll
    rw [List.foldlM_cons]
    by_cases hfits : AddFits t x.base x.size
    · obtain ⟨t₁, hok, -⟩ := memblockAddRegions_ok h.cnt_le hfits
      have hrep := h.addRegions' hx hok
      have hsums₁ : Sums t₁ := by
        refine hsums.addRegions (fun hz => ⟨0, h.region_zero hz⟩) ?_ hok
        exact (Nat.le_add_left _ _).trans_lt hx
      rw [hok, cover_cons, ← Set.union_assoc]
      exact ih hrep hsums₁ hl.tail
    · rw [memblockAddRegions_overflow h.cnt_le hfits]
      exact Or.inl rfl

/-- There is room for 64 ranges: a table is never longer than the list of the ranges added. -/
theorem addAll_ne_overflow {l₀ : List Extent} (h : Represents t (cover l₀)) (hl : NoWrap l)
    (hlen : l₀.length + l.length ≤ 64) : addAll t l ≠ .error .overflow := by
  induction l generalizing t l₀ with
  | nil => exact nofun
  | cons x l ih =>
    rw [List.length_cons] at hlen
    have hx : x.base + x.size < 2 ^ 64 := hl x List.mem_cons_self
    have hfits : AddFits t x.base x.size := by
      rcases h.form with hnil | ⟨-, hap, -⟩
      · refine Or.inr (Or.inl ?_)
        rw [MemblockType.region, hnil]
        rfl
      · have hcnt : t.regions.length ≤ l₀.length := hap.length_le h.cover_eq
        have hmissing := missing_le x.base (add64 x.base x.size) t.regions
        refine Or.inr (Or.inr ?_)
        unfold MemblockType.cnt maxRegions
        omega
    obtain ⟨t₁, hok, -⟩ := memblockAddRegions_ok h.cnt_le hfits
    have hrep : Represents t₁ (cover (x :: l₀)) := by
      rw [cover_cons, Set.union_comm]
      exact h.addRegions' hx hok
    unfold addAll
    rw [List.foldlM_cons, hok]
    exact ih hrep hl.tail (by rw [List.length_cons]; omega)

theorem memblockAddAll_eq (m : Memblock) (l : List Extent) :
    memblockAddAll m l = addAll m.memory l >>= fun t => .ok { m with memory := t } := by
  induction l generalizing m with
  | nil => rfl
  | cons x l ih =>
    unfold memblockAddAll addAll at *
    rw [List.foldlM_cons, List.foldlM_cons, memblockAdd]
    cases memblockAddRegions m.memory x.base x.size with
    | error e => rfl
    | ok t => exact ih { m with memory := t }

theorem initLoop_memory (l : List E820Entry) (m : Memblock) :
    (initLoop l m >>= fun m' => .ok m'.memory) =
      addAll m.memory ((usablePrefix l).map E820Entry.extent) := by
  induction l generalizing m with
  | nil => rfl
  | cons x xs ih =>
    rw [usablePrefix_cons]
    simp only [initLoop]
    split_ifs with h₁ h₂
    · rfl
    · unfold addAll
      rw [List.map_cons, List.foldlM_cons, memblockAdd]
      change _ = memblockAddRegions m.memory x.addr x.len >>= _
      cases memblockAddRegions m.memory x.addr x.len with
      | error e => rfl
      | ok t => exact ih _
    · exact ih m

theorem sums_empty : Sums memblockEmpty.memory := rfl

/-- Either the map has more ranges than the array has room for, or the memory table is the one of
the usable entries. -/
theorem memblockInit_memory {map : List E820Entry}
    (hmap : ∀ x ∈ usableEntries map, x.addr + x.len < 2 ^ 64)
    (hok : memblockInit map ≠ .error .overflow) :
    ∃ m, memblockInit map = .ok m ∧ Represents m.memory (usableMemory map) ∧ Sums m.memory := by
  have hmem := initLoop_memory (map.take 32) memblockEmpty
  have hw : NoWrap ((usableEntries map).map E820Entry.extent) := by
    intro y hy
    obtain ⟨x, hx, rfl⟩ := List.mem_map.1 hy
    exact hmap x hx
  have hspec := addAll_spec (t := memblockEmpty.memory) represents_empty sums_empty hw
  unfold usableEntries at hspec
  unfold memblockInit at hok ⊢
  rw [← hmem] at hspec
  cases hinit : initLoop (map.take 32) memblockEmpty with
  | error e =>
    rw [hinit] at hspec hok
    rcases hspec with h | ⟨t, h, -⟩
    · cases h
      exact absurd rfl hok
    · cases h
  | ok m =>
    rw [hinit] at hspec
    rcases hspec with h | ⟨t, h, hrep, hsums⟩
    · cases h
    · cases h
      exact ⟨m, rfl, by simpa [usableMemory, usableEntries] using hrep, hsums⟩

theorem length_usableEntries (map : List E820Entry) : (usableEntries map).length ≤ 32 :=
  (List.length_filter_le _ _).trans
    ((List.takeWhile_sublist _).length_le.trans (List.length_take_le _ _))

/-- `memblock_init` returns for every map whose usable entries do not wrap. -/
theorem memblockInit_ok {map : List E820Entry}
    (hmap : ∀ x ∈ usableEntries map, x.addr + x.len < 2 ^ 64 - 1) :
    ∃ m, memblockInit map = .ok m ∧ Represents m.memory (usableMemory map) ∧
      Represents m.reserved ∅ := by
  have hmap' : ∀ x ∈ usableEntries map, x.addr + x.len < 2 ^ 64 := fun x hx =>
    (hmap x hx).trans (by decide)
  have hw : NoWrap ((usableEntries map).map E820Entry.extent) := by
    intro y hy
    obtain ⟨x, hx, rfl⟩ := List.mem_map.1 hy
    exact hmap' x hx
  have hempty : Represents memblockEmpty.memory (cover []) := cover_nil ▸ represents_empty
  have hroom := addAll_ne_overflow hempty hw (by
    have := length_usableEntries map
    rw [List.length_nil, List.length_map]
    omega)
  have hok : memblockInit map ≠ .error .overflow := fun heq => hroom (by
    rw [usableEntries, ← initLoop_memory (map.take 32) memblockEmpty]
    rw [memblockInit] at heq
    rw [heq]
    rfl)
  obtain ⟨m, hm, -⟩ := memblockInit_memory hmap' hok
  exact ⟨m, hm, memblockInit_spec hmap hm⟩

/-- The memory table does not depend on the order in which the ranges are added, and that of
`memblock_init` depends on the map only through the addresses of the usable entries. -/
theorem memblockAdd_order :
    (∀ l l' : List Extent, l.Perm l' → (∀ x ∈ l, x.base + x.size < 2 ^ 64) →
      memblockAddAll memblockEmpty l ≠ .error .overflow →
      memblockAddAll memblockEmpty l' ≠ .error .overflow →
        ∃ m m', memblockAddAll memblockEmpty l = .ok m ∧ memblockAddAll memblockEmpty l' = .ok m' ∧
          m.memory = m'.memory) ∧
    ∀ map map' : List E820Entry, usableMemory map = usableMemory map' →
      (∀ x ∈ usableEntries map, x.addr + x.len < 2 ^ 64) →
      (∀ x ∈ usableEntries map', x.addr + x.len < 2 ^ 64) →
      memblockInit map ≠ .error .overflow → memblockInit map' ≠ .error .overflow →
        ∃ m m', memblockInit map = .ok m ∧ memblockInit map' = .ok m' ∧ m.memory = m'.memory := by
  have hempty : Represents memblockEmpty.memory ∅ := represents_empty
  constructor
  · intro l l' hperm hl hok hok'
    have hl' : NoWrap l' := fun x hx => hl x (hperm.mem_iff.2 hx)
    rw [memblockAddAll_eq] at hok hok'
    obtain ⟨t, ht, hrep, hsums⟩ := (addAll_spec hempty sums_empty hl).resolve_left
      (fun h => hok (by rw [h]; rfl))
    obtain ⟨t', ht', hrep', hsums'⟩ := (addAll_spec hempty sums_empty hl').resolve_left
      (fun h => hok' (by rw [h]; rfl))
    rw [memblockAddAll_eq, memblockAddAll_eq, ht, ht']
    rw [← cover_perm hperm] at hrep'
    exact ⟨_, _, rfl, rfl, hrep.ext hrep' hsums hsums'⟩
  · intro map map' hmap hx hx' hok hok'
    obtain ⟨m, hm, hrep, hsums⟩ := memblockInit_memory hx hok
    obtain ⟨m', hm', hrep', hsums'⟩ := memblockInit_memory hx' hok'
    rw [← hmap] at hrep'
    exact ⟨m, m', hm, hm', hrep.ext hrep' hsums hsums'⟩

/-- Two ranges that overlap, in both orders, and the map of a machine with one usable entry. -/
theorem memblockAdd_order_overlap :
    (∃ m m', memblockAddAll memblockEmpty [⟨0x1000, 0x2000⟩, ⟨0x2000, 0x2000⟩] = .ok m ∧
      memblockAddAll memblockEmpty [⟨0x2000, 0x2000⟩, ⟨0x1000, 0x2000⟩] = .ok m' ∧
        m.memory = m'.memory) ∧
    ∃ m m', memblockInit [⟨0, 0x9fc00, 1⟩, ⟨0xf0000, 0x10000, 2⟩] = .ok m ∧
      memblockInit [⟨0, 0x9fc00, 1⟩] = .ok m' ∧ m.memory = m'.memory := by
  have h := memblockAdd_order
  refine ⟨h.1 _ _ (List.Perm.swap _ _ _) (by decide) (by decide) (by decide), ?_⟩
  exact h.2 _ _ rfl (by decide) (by decide) (by decide) (by decide)

end AddAll

/-! ### Freeing what was reserved -/

/-- `memblock_reserve` of a range and `memblock_free` of the same range, if neither writes past the
end of the array, return to the same tables. -/
theorem memblockFree_reserve {m : Memblock} {base size : ℕ} (h : Canonical m.reserved)
    (hzero : (m.reserved.region 0).size = 0 → (m.reserved.region 0).base = 0)
    (hsize : 0 < size) (hend : base + size < 2 ^ 64)
    (hdisj : Disjoint (Set.Ico base (base + size)) (cover m.reserved.regions))
    (hcap : (memblockReserve m base size >>= fun m' => memblockFree m' base size) ≠
      .error .overflow) :
    (memblockReserve m base size >>= fun m' => memblockFree m' base size) = .ok m := by
  have hrep := h.represents hzero
  have hfits : AddFits m.reserved base size := by
    by_contra hno
    refine hcap ?_
    rw [memblockReserve, memblockAddRegions_overflow h.cnt_le hno]
    rfl
  obtain ⟨t, ht, -⟩ := memblockAddRegions_ok h.cnt_le hfits
  have hrep₁ := hrep.addRegions hsize hend ht
  have hsums₁ : Sums t := h.sums.addRegions (fun hz => ⟨0, hrep.region_zero hz⟩) (by omega) ht
  have hreserve : memblockReserve m base size = .ok { m with reserved := t } := by
    rw [memblockReserve, ht]
    rfl
  rw [hreserve] at hcap ⊢
  have hroom : RemoveFits t base size := by
    by_contra hno
    refine hcap ?_
    show memblockFree { m with reserved := t } base size = _
    rw [memblockFree, memblockRemoveRange_overflow (by omega) hrep₁.cnt_le hno]
    rfl
  obtain ⟨t', ht', -⟩ := memblockRemoveRange_ok (by omega) hrep₁.cnt_le hroom
  have hrep₂ := hrep₁.removeRange hsize hend ht'
  have hsums₂ : Sums t' := hsums₁.removeRange (hrep₁.canonical hsums₁).size_lt (by omega) ht'
  -- the union without the range is what was covered before
  have hset : (cover m.reserved.regions ∪ Set.Ico base (base + size)) \ Set.Ico base (base + size) =
      cover m.reserved.regions := by
    rw [Set.union_sdiff_right, hdisj.symm.sdiff_eq_left]
  rw [hset] at hrep₂
  show memblockFree { m with reserved := t } base size = _
  rw [memblockFree, ht', hrep₂.ext hrep hsums₂ h.sums]
  rfl

/-- A range between two regions that it touches. -/
theorem memblockFree_reserve_between :
    (memblockReserve ⟨0, ⟨[⟨0, 0⟩], 0⟩, ⟨[⟨0x1000, 0x1000⟩, ⟨0x3000, 0x1000⟩], 0x2000⟩⟩
        0x2000 0x1000 >>=
        fun m' => memblockFree m' 0x2000 0x1000) =
      .ok ⟨0, ⟨[⟨0, 0⟩], 0⟩, ⟨[⟨0x1000, 0x1000⟩, ⟨0x3000, 0x1000⟩], 0x2000⟩⟩ := by
  refine memblockFree_reserve ⟨by decide, Or.inr ⟨by simp, ⟨by simp, by simp [stop]⟩,
    by simp [NoWrap, stop]⟩, rfl⟩ (by decide) (by decide) (by decide) ?_ (by decide)
  rw [Set.disjoint_left]
  rintro a ⟨ha, ha'⟩ hcov
  simp only [mem_cover_cons, cover_nil, Set.mem_empty_iff_false, or_false, stop] at hcov
  omega

end MicroKernel
