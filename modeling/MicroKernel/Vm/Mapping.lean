import MicroKernel.Radix.Basic
import MicroKernel.Vm.Lookup

/-!
# Mapping a range

A page table with the tables below it is a radix tree, and `map_pages` adds the tables that are
missing on the way to each page of the range.  It ends when the allocator has pages for them, and
then the pages of the range lead where they should and all other pages lead where they led.

* `PageTree` : a tree whose tables are distinct frames;
* `walkLevel_stocked`, `walkTables_stocked` : a walk adds what is missing and maps no page;
* `mapPages_maps` : the call, for any range.
-/

namespace MicroKernel

attribute [local irreducible] p2v v2p pteAddr

/-! ### The tree -/

/-- Where a present entry leads. -/
def pteChild (pte : ℕ) : Option ℕ := if Present pte then some (pteAddr pte) else none

/-- The number of the page of an address; walks ignore the upper 16 bits. -/
def vpn (va : ℕ) : ℕ := va % 2 ^ 48 / pgsize

/-- The entry for the page of `va`, if there is one that is present. -/
def presentLeaf (ram : Ram) (P va : ℕ) : Option ℕ := do
  let pt ← tableOf false ram P va
  let pte := entry ram pt (ptx va)
  if Present pte then some pte else none

/-- The tables of the tree at `P`. -/
abbrev treeTables (ram : Ram) (P : ℕ) : Set ℕ := Radix.tables pteChild 512 (entry ram) P 3

/-- The tables of the tree at `P` are distinct frames, which the kernel reaches. -/
structure PageTree (ram : Ram) (P : ℕ) : Prop where
  /-- The top table is a frame. -/
  dvd : pgsize ∣ P
  /-- No table is on two paths. -/
  separate : Radix.Separate pteChild 512 (entry ram) P 3
  /-- The kernel reaches the tables. -/
  low : ∀ b ∈ treeTables ram P, b + pgsize ≤ 2 ^ 31

/-- The next `n` pages that the allocator hands out are frames that the kernel reaches, and none of
them is one of the others or in `T`. -/
def Supplies : ℕ → Memblock → Set ℕ → Prop
  | 0, _, _ => True
  | n + 1, m, T => ∃ m' p, memblockAlloc m pgsize pgsize = .ok (m', p) ∧ pgsize ∣ p ∧
      p + pgsize ≤ 2 ^ 31 ∧ p ∉ T ∧ Supplies n m' (insert p T)

/-- The tables that are missing for the pages with the numbers from `lo` to `hi`. -/
abbrev missingTables (ram : Ram) (P lo hi : ℕ) : Finset (ℕ × ℕ) :=
  Radix.missing pteChild 512 (entry ram) P 3 lo hi

/-- There are pages for the tables that are missing. -/
structure Stocked (P lo hi : ℕ) (s : VmState) : Prop where
  /-- The tree. -/
  tree : PageTree s.ram P
  /-- The pages. -/
  supplies : Supplies (missingTables s.ram P lo hi).card s.memblock (treeTables s.ram P)

section Tree

variable {ram : Ram} {P va b i : ℕ}

theorem follow_eq_pteChild (ram : Ram) (b i : ℕ) :
    follow false ram b i = pteChild (entry ram b i) := by
  unfold follow pteChild
  simp

theorem vpn_lt (va : ℕ) : vpn va < 512 ^ 4 := by
  unfold vpn pgsize
  omega

/-- The digits of the number of a page are the indices of the walk. -/
theorem vpn_digits (va : ℕ) : vpn va / 512 / 512 / 512 = pml4x va ∧
    vpn va / 512 / 512 % 512 = pdptx va ∧ vpn va / 512 % 512 = pdx va ∧ vpn va % 512 = ptx va := by
  simp only [pml4x_eq, pdptx_eq, pdx_eq, ptx_eq]
  unfold vpn pgsize
  omega

/-- The paths to a page, level by level. -/
theorem vpn_prefixes (va : ℕ) : 0 * 512 + pml4x va = vpn va / 512 ^ 3 ∧
    pml4x va * 512 + pdptx va = vpn va / 512 ^ 2 ∧
    (pml4x va * 512 + pdptx va) * 512 + pdx va = vpn va / 512 ^ 1 := by
  obtain ⟨h₁, h₂, h₃, -⟩ := vpn_digits va
  omega

theorem tableOf_eq_descend (ram : Ram) (P va : ℕ) :
    tableOf false ram P va = Radix.descend pteChild 512 (entry ram) P 3 (vpn va / 512) := by
  obtain ⟨h₁, h₂, h₃, -⟩ := vpn_digits va
  have hlt : pml4x va % 512 = pml4x va := Nat.mod_eq_of_lt (pml4x_lt va)
  simp only [tableOf, follow_eq_pteChild, Radix.descend, h₁, h₂, h₃, hlt, Option.bind_eq_bind,
    Option.bind_some]
  cases pteChild (entry ram P (pml4x va)) <;> rfl

theorem presentLeaf_eq_leaf (ram : Ram) (P va : ℕ) :
    presentLeaf ram P va = Radix.leaf pteChild 512 (entry ram) P 3 (vpn va) := by
  have hsome : ∀ e, (pteChild e).isSome ↔ Present e := fun e => by
    unfold pteChild
    split_ifs with h <;> simp [h]
  simp only [presentLeaf, Radix.leaf, tableOf_eq_descend, (vpn_digits va).2.2.2, hsome,
    Option.bind_eq_bind]

theorem PageTree.dvd_of_mem (h : PageTree ram P) (hb : b ∈ treeTables ram P) : pgsize ∣ b := by
  obtain ⟨d, -, x, -, hx⟩ := hb
  cases d with
  | zero => exact Option.some.inj hx ▸ h.dvd
  | succ d =>
    obtain ⟨a, -, ha⟩ := Option.bind_eq_some_iff.1 hx
    rw [← follow_eq_pteChild] at ha
    exact follow_dvd ha

theorem mem_treeTables (h : OnPath ram P va b) : b ∈ treeTables ram P := by
  obtain ⟨h₁, h₂, h₃, -⟩ := vpn_digits va
  have hi₁ := pml4x_lt va
  have hi₂ := pdptx_lt va
  have hroot : Radix.descend pteChild 512 (entry ram) P 0 0 = some P := by rw [Radix.descend]
  have hsecond : ∀ {pdpt}, follow false ram P (pml4x va) = some pdpt →
      Radix.descend pteChild 512 (entry ram) P 1 (0 * 512 + pml4x va) = some pdpt := fun htop => by
    rw [Radix.descend_snoc hroot hi₁, ← follow_eq_pteChild, htop]
  cases h with
  | top => exact ⟨0, by decide, 0, by decide, hroot⟩
  | second top => exact ⟨1, by decide, _, by omega, hsecond top⟩
  | third top second =>
    refine ⟨2, by decide, (0 * 512 + pml4x va) * 512 + pdptx va, by omega, ?_⟩
    rw [Radix.descend_snoc (hsecond top) hi₂, ← follow_eq_pteChild, second]
  | last table =>
    rw [tableOf_eq_descend] at table
    exact ⟨3, le_rfl, _, Radix.div_lt (vpn_lt va), table⟩

end Tree

/-! ### One level of a walk -/

/-- From `s` to `s'` tables were added to the tree at `P`, and no page was mapped. -/
structure Extends (P : ℕ) (s s' : VmState) : Prop where
  /-- Tables stay where they are. -/
  tables : ∀ d ≤ 3, ∀ x < 512 ^ d, ∀ b, Radix.descend pteChild 512 (entry s.ram) P d x = some b →
    Radix.descend pteChild 512 (entry s'.ram) P d x = some b
  /-- What is mapped stays mapped, and nothing else is. -/
  leaves : ∀ x < 512 ^ 4, Radix.leaf pteChild 512 (entry s'.ram) P 3 x =
    Radix.leaf pteChild 512 (entry s.ram) P 3 x

section Level

variable {s s' s'' : VmState} {m : Memblock} {P b c d i p y lo hi : ℕ}

theorem Extends.refl (P : ℕ) (s : VmState) : Extends P s s :=
  ⟨fun _ _ _ _ _ h => h, fun _ _ => rfl⟩

theorem Extends.trans (h : Extends P s s') (h' : Extends P s' s'') : Extends P s s'' :=
  ⟨fun d hd x hx b hb => h'.tables d hd x hx b (h.tables d hd x hx b hb),
    fun x hx => (h'.leaves x hx).trans (h.leaves x hx)⟩

theorem memblockAllocKernel_of_ok (halloc : memblockAlloc s.memblock pgsize pgsize = .ok (m, p))
    (hlow : p + pgsize ≤ 2 ^ 31) : Vm.memblockAllocKernel pgsize pgsize .pageTable s =
      some (p2v p, { s with
        memblock := m
        ram := s.ram.memset p 0 pgsize
        log := ⟨⟨p, pgsize⟩, .pageTable⟩ :: s.log }) := by
  have hreserve : reserveBlock pgsize pgsize memblockAllocAccessible .pageTable s =
      some (p, { s with memblock := m, log := ⟨⟨p, pgsize⟩, .pageTable⟩ :: s.log }) :=
    reserveBlock_eq_some.2 ⟨m, halloc, rfl⟩
  have hsize : pgsize % 2 ^ 32 = pgsize := by decide
  have hrange : KernelRange (p2v p) pgsize :=
    (kernelRange_p2v (by omega) (by decide)).2 hlow
  have hset : memset (p2v p) 0 (pgsize % 2 ^ 32)
      { s with memblock := m, log := ⟨⟨p, pgsize⟩, .pageTable⟩ :: s.log } =
      some ((), { s with
        memblock := m
        ram := s.ram.memset p 0 pgsize
        log := ⟨⟨p, pgsize⟩, .pageTable⟩ :: s.log }) := by
    rw [hsize]
    refine memset_eq_some.2 ⟨hrange, ?_⟩
    rw [AllocInv.v2p_p2v (by omega)]
  unfold Vm.memblockAllocKernel Vm.memblockAllocBase
  rw [bind_assoc, vm_bind_of_eq hreserve, bind_assoc, vm_bind_of_eq hset]
  rfl

/-- The entry at `b` that led nowhere is linked to a new table. -/
theorem walkLevel_link (hb : b + pgsize ≤ 2 ^ 31) (hi : i < 512)
    (habsent : ¬Present (entry s.ram b i)) (hdvd : pgsize ∣ p) (hlow : p + pgsize ≤ 2 ^ 31)
    (halloc : memblockAlloc s.memblock pgsize pgsize = .ok (m, p)) :
    walkLevel (p2v b) i true s = some (some (p2v p), { s with
      memblock := m
      ram := (s.ram.memset p 0 pgsize).writeLe (b + 8 * i) 8 (p + 7)
      log := ⟨⟨p, pgsize⟩, .pageTable⟩ :: s.log }) := by
  have hp : p < 2 ^ 64 := by omega
  have hne : p2v p ≠ 0 := by
    unfold pgsize at hlow
    rw [p2v_eq (by omega)]
    unfold kernbase
    omega
  have hclear : Cleared (s.ram.memset p 0 pgsize) p := fun a ha => Ram.memset_of_mem ha
  have hself : pteAddr (p2v p) = p2v p := by rw [pteAddr_p2v hp, pteAddr_of_dvd hdvd hp]
  have hset : ∀ t : VmState, t.ram = s.ram.memset p 0 pgsize →
      memset (p2v p) 0 512 t = some ((), t) := by
    intro t ht
    refine memset_eq_some.2 ⟨(kernelRange_p2v hp (by decide)).2 ?_, ?_⟩
    · unfold pgsize at hlow
      omega
    · rw [AllocInv.v2p_p2v hp, ht, hclear.memset_eq, ← ht]
  have hwrite : ∀ t : VmState, writeWord (add64 (p2v b) (8 * i))
      (v2p (p2v p) ||| pteP ||| pteW ||| pteU) t =
        some ((), { t with ram := t.ram.writeLe (b + 8 * i) 8 (p + 7) }) := by
    intro t
    rw [AllocInv.v2p_p2v hp, (entry_value hdvd hp).1]
    exact writeWord_entry hb hi _
  unfold walkLevel
  rw [vm_bind_of_eq (readWord_entry hb hi), if_neg fun h => habsent (present_p2v.1 h),
    if_neg (by decide), vm_bind_of_eq (memblockAllocKernel_of_ok halloc hlow), if_neg hne,
    vm_bind_of_eq (hset _ rfl), vm_bind_of_eq (hwrite _), hself]
  rfl

theorem radixLinks_walkLevel (h : PageTree s.ram P) (hd : d < 3) (hy : y < 512 ^ d)
    (hb : Radix.descend pteChild 512 (entry s.ram) P d y = some b) (hi : i < 512)
    (habsent : ¬Present (entry s.ram b i)) (hdvd : pgsize ∣ p) (hlow : p + pgsize ≤ 2 ^ 31)
    (hfresh : p ∉ treeTables s.ram P) :
    Radix.Links pteChild 512 (entry s.ram)
      (entry ((s.ram.memset p 0 pgsize).writeLe (b + 8 * i) 8 (p + 7))) P 3 d y b i p := by
  have hbmem : b ∈ treeTables s.ram P := ⟨d, hd.le, y, hy, hb⟩
  have hbdvd := h.dvd_of_mem hbmem
  have hp : p < 2 ^ 64 := by omega
  obtain ⟨-, -, hvlt, hvp, -, haddr⟩ := entry_value hdvd hp
  have hclear : Cleared (s.ram.memset p 0 pgsize) p := fun a ha => Ram.memset_of_mem ha
  have hpb : p ≠ b := fun heq => hfresh (heq ▸ hbmem)
  refine ⟨hd, hy, hb, hi, if_neg habsent, ?_, fun a ha j hj hne => ?_, hfresh, fun j hj => ?_⟩
  · rw [entry_writeLe _ hbdvd hbdvd hi hi hvlt, if_pos ⟨rfl, rfl⟩, pteChild, if_pos hvp, haddr]
  · have hadvd := h.dvd_of_mem ha
    rw [entry_writeLe _ hbdvd hadvd hi hj hvlt, if_neg hne]
    -- the page of the new table is no other table
    refine entry_congr hj fun x hx => Ram.memset_of_not_mem fun hin => hfresh ?_
    obtain ⟨h₁, h₂⟩ := hx
    obtain ⟨h₃, h₄⟩ := hin
    unfold pgsize at hadvd hdvd h₂ h₄
    obtain rfl : a = p := by omega
    exact ha
  · rw [entry_writeLe _ hbdvd hdvd hi hj hvlt, if_neg fun heq => hpb heq.1, hclear.entry_eq hj]
    decide

/-- One level of a walk: afterwards there is a table. -/
theorem walkLevel_stocked (h : Stocked P lo hi s) (hhi : hi < 512 ^ 4) (hd : d < 3)
    (hy : y < 512 ^ d) (hb : Radix.descend pteChild 512 (entry s.ram) P d y = some b)
    (hi' : i < 512)
    (hlow : lo / 512 ^ (3 - d) ≤ y * 512 + i) (hhigh : y * 512 + i ≤ hi / 512 ^ (3 - d)) :
    ∃ s' c, walkLevel (p2v b) i true s = some (some (p2v c), s') ∧ Stocked P lo hi s' ∧
      Extends P s s' ∧
      Radix.descend pteChild 512 (entry s'.ram) P (d + 1) (y * 512 + i) = some c := by
  have hblow := h.tree.low b ⟨d, hd.le, y, hy, hb⟩
  by_cases hp : Present (entry s.ram b i)
  · refine ⟨s, pteAddr (entry s.ram b i), ?_, h, .refl P s, ?_⟩
    · unfold walkLevel
      rw [vm_bind_of_eq (readWord_entry hblow hi'), if_pos (present_p2v.2 hp),
        pteAddr_p2v (entry_lt _ _ _)]
      rfl
    · rw [Radix.descend_snoc hb hi', pteChild, if_pos hp]
  · -- one of the missing tables
    have hcard : 0 < (missingTables s.ram P lo hi).card := by
      refine Finset.card_pos.2 ⟨(d + 1, y * 512 + i), Radix.mem_missing.2
        ⟨by omega, by omega, ?_, ?_, ?_⟩⟩
      · rwa [Nat.add_sub_add_right]
      · rwa [Nat.add_sub_add_right]
      · rw [Radix.descend_snoc hb hi', pteChild, if_neg hp]
    obtain ⟨n, hn⟩ := Nat.exists_eq_succ_of_ne_zero hcard.ne'
    have hsupplies := h.supplies
    rw [hn] at hsupplies
    obtain ⟨m, p, halloc, hdvd, hplow, hfresh, hrest⟩ := hsupplies
    have hlinks := radixLinks_walkLevel h.tree hd hy hb hi' hp hdvd hplow hfresh
    have htables := hlinks.tables_eq h.tree.separate
    refine ⟨_, p, walkLevel_link hblow hi' hp hdvd hplow halloc, ⟨⟨h.tree.dvd,
      hlinks.separate h.tree.separate, fun c hc => ?_⟩, ?_⟩, ⟨fun e he x hx c hc => ?_,
      fun x hx => hlinks.leaf_eq h.tree.separate hx⟩, ?_⟩
    · rcases (Set.ext_iff.1 htables c).1 hc with rfl | hold
      · exact hplow
      · exact h.tree.low c hold
    · have hless := hlinks.card_missing h.tree.separate hhi hlow hhigh
      have hcard' : (missingTables ((s.ram.memset p 0 pgsize).writeLe (b + 8 * i) 8 (p + 7)) P lo
          hi).card = n := by
        have hn' : (missingTables s.ram P lo hi).card = n + 1 := hn
        exact Nat.succ_injective (hless.trans hn')
      have hT : treeTables ((s.ram.memset p 0 pgsize).writeLe (b + 8 * i) 8 (p + 7)) P =
          insert p (treeTables s.ram P) := htables
      rw [hcard', hT]
      exact hrest
    · rw [hlinks.descend_eq h.tree.separate he hx, if_neg, hc]
      rintro ⟨rfl, rfl⟩
      rw [Radix.descend_snoc hb hi', pteChild, if_neg hp] at hc
      cases hc
    · rw [hlinks.descend_eq h.tree.separate (by omega) (Radix.snoc_lt hy hi'), if_pos ⟨rfl, rfl⟩]

end Level

/-! ### The walk, and the entry -/

section Entry

variable {s : VmState} {P pt va w lo hi : ℕ}

/-- A walk to a page of the range. -/
theorem walkTables_stocked (h : Stocked P lo hi s) (hhi : hi < 512 ^ 4) (hlow : lo ≤ vpn va)
    (hhigh : vpn va ≤ hi) : ∃ s' pt, walkTables (p2v P) va true s = some (some (p2v pt), s') ∧
      Stocked P lo hi s' ∧ Extends P s s' ∧ tableOf false s'.ram P va = some pt := by
  obtain ⟨hx₁, hx₂, hx₃⟩ := vpn_prefixes va
  have hi₁ := pml4x_lt va
  have hi₂ := pdptx_lt va
  have hi₃ := pdx_lt va
  have hr : ∀ k, lo / 512 ^ k ≤ vpn va / 512 ^ k ∧ vpn va / 512 ^ k ≤ hi / 512 ^ k := fun k =>
    ⟨Nat.div_le_div_right hlow, Nat.div_le_div_right hhigh⟩
  have hroot : Radix.descend pteChild 512 (entry s.ram) P 0 0 = some P := by rw [Radix.descend]
  obtain ⟨s₁, pdpt, hw₁, hs₁, hext₁, hd₁⟩ :=
    walkLevel_stocked (d := 0) (y := 0) (b := P) h hhi (by decide) (by decide) hroot hi₁
      (hx₁ ▸ (hr 3).1) (hx₁ ▸ (hr 3).2)
  rw [Nat.zero_mul, Nat.zero_add, Nat.zero_add] at hd₁
  obtain ⟨s₂, pd, hw₂, hs₂, hext₂, hd₂⟩ :=
    walkLevel_stocked (d := 1) hs₁ hhi (by decide) (by omega) hd₁ hi₂
      (hx₂ ▸ (hr 2).1) (hx₂ ▸ (hr 2).2)
  obtain ⟨s₃, pt, hw₃, hs₃, hext₃, hd₃⟩ :=
    walkLevel_stocked (d := 2) hs₂ hhi (by decide) (by omega) hd₂ hi₃
      (hx₃ ▸ (hr 1).1) (hx₃ ▸ (hr 1).2)
  rw [hx₃, Nat.pow_one] at hd₃
  refine ⟨s₃, pt, ?_, hs₃, (hext₁.trans hext₂).trans hext₃, ?_⟩
  · unfold walkTables
    rw [vm_bind_of_eq hw₁]
    dsimp only
    rw [vm_bind_of_eq hw₂]
    exact hw₃
  · rw [tableOf_eq_descend]
    exact hd₃

/-- A page is mapped, and no other. -/
theorem Stocked.write (h : Stocked P lo hi s) (hhi : hi < 512 ^ 4)
    (htab : tableOf false s.ram P va = some pt) (hw : Present w) (hlt : w < 2 ^ 64) :
    Stocked P lo hi { s with ram := s.ram.writeLe (pt + 8 * ptx va) 8 w } ∧
      ∀ x < 512 ^ 4, Radix.leaf pteChild 512 (entry (s.ram.writeLe (pt + 8 * ptx va) 8 w)) P 3 x =
        if x = vpn va then some w else Radix.leaf pteChild 512 (entry s.ram) P 3 x := by
  rw [tableOf_eq_descend] at htab
  have hy : vpn va / 512 < 512 ^ 3 := Radix.div_lt (vpn_lt va)
  have hdvd : ∀ a ∈ treeTables s.ram P, pgsize ∣ a := fun a ha => h.tree.dvd_of_mem ha
  have hpt : pt ∈ treeTables s.ram P := ⟨3, le_rfl, _, hy, htab⟩
  have hptx := ptx_lt va
  have hsets : Radix.Sets pteChild 512 (entry s.ram)
      (entry (s.ram.writeLe (pt + 8 * ptx va) 8 w)) P 3 pt (ptx va) w :=
    ⟨(entry_writeLe _ (hdvd pt hpt) (hdvd pt hpt) hptx hptx hlt).trans (if_pos ⟨rfl, rfl⟩),
      fun a ha j hj hne => (entry_writeLe _ (hdvd pt hpt) (hdvd a ha) hptx hj hlt).trans
        (if_neg hne)⟩
  have hsame : ∀ d ≤ 3, ∀ x < 512 ^ d, Radix.descend pteChild 512
      (entry (s.ram.writeLe (pt + 8 * ptx va) 8 w)) P d x =
        Radix.descend pteChild 512 (entry s.ram) P d x :=
    fun d hd x hx => Radix.descend_set h.tree.separate hsets hy htab hd hx
  have htables : treeTables (s.ram.writeLe (pt + 8 * ptx va) 8 w) P = treeTables s.ram P := by
    ext a
    constructor
    · rintro ⟨d, hd, x, hx, ha⟩
      exact ⟨d, hd, x, hx, hsame d hd x hx ▸ ha⟩
    · rintro ⟨d, hd, x, hx, ha⟩
      exact ⟨d, hd, x, hx, (hsame d hd x hx).trans ha⟩
  have hmissing : missingTables (s.ram.writeLe (pt + 8 * ptx va) 8 w) P lo hi =
      missingTables s.ram P lo hi := Radix.missing_congr hhi hsame
  refine ⟨⟨⟨h.tree.dvd, Radix.separate_set h.tree.separate hsets hy htab, ?_⟩, ?_⟩, fun x hx => ?_⟩
  · rw [htables]
    exact h.tree.low
  · rw [htables, hmissing]
    exact h.supplies
  · have hchild : (pteChild w).isSome := by
      unfold pteChild
      rw [if_pos hw]
      rfl
    have hnum : vpn va / 512 * 512 + ptx va = vpn va := by
      rw [← (vpn_digits va).2.2.2]
      exact Nat.div_add_mod' _ _
    rw [Radix.leaf_set h.tree.separate hsets hy htab hptx hchild hx, hnum]

/-- The entries of the tree are zero or lead somewhere where no page is mapped. -/
theorem absent_of_leaf (htab : tableOf false s.ram P va = some pt)
    (hleaf : Radix.leaf pteChild 512 (entry s.ram) P 3 (vpn va) = none) :
    ¬Present (entry s.ram pt (ptx va)) := by
  intro hp
  rw [← presentLeaf_eq_leaf, presentLeaf, htab] at hleaf
  simp [hp] at hleaf

end Entry

/-! ### The loop -/

section Loop

variable {P lo hi pa perm : ℕ}

theorem pageEntry (hdvd : pgsize ∣ pa) (hpa : pa < 2 ^ 64) (hperm : perm < 4096) :
    Present (pa ||| perm ||| pteP) ∧ pa ||| perm ||| pteP < 2 ^ 64 ∧
      pteAddr (pa ||| perm ||| pteP) = pa := by
  have hflags : perm ||| pteP < 4096 := Nat.or_lt_two_pow (n := 12) hperm (by decide)
  unfold pgsize at hdvd
  rw [Nat.or_assoc, present_iff, or_flags hdvd hflags, pteAddr_add hdvd hflags hpa]
  refine ⟨?_, by omega, rfl⟩
  have hodd : (perm ||| pteP) % 2 = 1 := by
    have hone : (perm ||| pteP) &&& 1 = 1 := by
      unfold pteP
      rw [Nat.and_or_distrib_right]
      have := Nat.and_one_is_mod perm
      rcases Nat.mod_two_eq_zero_or_one perm with h | h <;> rw [this, h] <;> rfl
    rwa [Nat.and_one_is_mod] at hone
  omega

/-- The next page of a range that does not wrap around. -/
theorem vpn_next {first k : ℕ} (hdvd : pgsize ∣ first)
    (hwrap : (first + (k + 1) * pgsize) / 2 ^ 48 = first / 2 ^ 48) (hlt : first < 2 ^ 64) :
    add64 first pgsize = first + pgsize ∧ vpn (first + pgsize) = vpn first + 1 ∧
      (first + pgsize + k * pgsize) / 2 ^ 48 = (first + pgsize) / 2 ^ 48 := by
  unfold pgsize at *
  have hadd : first + 4096 < 2 ^ 64 := by omega
  refine ⟨add64_of_lt hadd, ?_, by omega⟩
  unfold vpn pgsize
  omega

/-- One iteration maps the page of `first`, and no other. -/
theorem mapLoop_page {s : VmState} {first : ℕ} (h : Stocked P lo hi s) (hhi : hi < 512 ^ 4)
    (hperm : perm < 4096) (hlow : lo ≤ vpn first) (hhigh : vpn first ≤ hi)
    (habsent : Radix.leaf pteChild 512 (entry s.ram) P 3 (vpn first) = none) (hpa : pgsize ∣ pa)
    (hpalt : pa < 2 ^ 64) :
    ∃ s', Stocked P lo hi s' ∧
      (∀ x < 512 ^ 4, Radix.leaf pteChild 512 (entry s'.ram) P 3 x =
        if x = vpn first then some (pa ||| perm ||| pteP)
        else Radix.leaf pteChild 512 (entry s.ram) P 3 x) ∧
      ∀ n last, mapLoop (p2v P) last perm (n + 1) first pa s =
        (if first = last then pure 0
          else mapLoop (p2v P) last perm n (add64 first pgsize) (add64 pa pgsize) : VmM ℤ) s' := by
  obtain ⟨s₁, pt, hwalk, h₁, hext, htab⟩ := walkTables_stocked h hhi hlow hhigh
  have hptlow := h₁.tree.low pt ⟨3, le_rfl, _, Radix.div_lt (vpn_lt first),
    (tableOf_eq_descend s₁.ram P first) ▸ htab⟩
  have hleaf : Radix.leaf pteChild 512 (entry s₁.ram) P 3 (vpn first) = none :=
    (hext.leaves _ (vpn_lt first)).trans habsent
  obtain ⟨hpresent, hwlt, -⟩ := pageEntry hpa hpalt hperm
  obtain ⟨h₂, hleaves⟩ := h₁.write hhi htab hpresent hwlt
  refine ⟨_, h₂, fun x hx => ?_, fun n last =>
    mapLoop_of_walkTables n hwalk hptlow (absent_of_leaf htab hleaf)⟩
  rw [hleaves x hx, hext.leaves x hx]

/-- The loop maps `k + 1` pages from `first` on. -/
theorem mapLoop_maps (hhi : hi < 512 ^ 4) (hperm : perm < 4096) (n : ℕ) : ∀ {s : VmState}
    {first pa k : ℕ}, k < n → Stocked P lo hi s → pgsize ∣ first → first < 2 ^ 64 →
      (first + k * pgsize) / 2 ^ 48 = first / 2 ^ 48 → lo ≤ vpn first → vpn first + k ≤ hi →
      (∀ x, vpn first ≤ x → x ≤ vpn first + k →
        Radix.leaf pteChild 512 (entry s.ram) P 3 x = none) → pgsize ∣ pa → pa < 2 ^ 64 →
      ∃ s', mapLoop (p2v P) (first + k * pgsize) perm n first pa s = some (0, s') ∧
        PageTree s'.ram P ∧
        ∀ x < 512 ^ 4, Radix.leaf pteChild 512 (entry s'.ram) P 3 x =
          if vpn first ≤ x ∧ x ≤ vpn first + k then
            some (add64 pa ((x - vpn first) * pgsize) ||| perm ||| pteP)
          else Radix.leaf pteChild 512 (entry s.ram) P 3 x := by
  induction n with
  | zero => exact fun hk => absurd hk (Nat.not_lt_zero _)
  | succ n ih =>
    intro s first pa k hk h hdvd hlt hwrap hlow hhigh habsent hpa hpalt
    obtain ⟨s₁, h₁, hleaves, hloop₁⟩ := mapLoop_page h hhi hperm hlow (by omega)
      (habsent _ le_rfl (Nat.le_add_right _ _)) hpa hpalt
    -- the page of `first` is the first of the range
    have hfirst : add64 pa ((vpn first - vpn first) * pgsize) = pa := by
      rw [Nat.sub_self, Nat.zero_mul, add64_of_lt (by omega), Nat.add_zero]
    rw [hloop₁]
    cases k with
    | zero =>
      refine ⟨s₁, by rw [Nat.zero_mul, Nat.add_zero, if_pos rfl]; rfl, h₁.tree, fun x hx => ?_⟩
      rw [hleaves x hx]
      by_cases hxv : x = vpn first
      · rw [if_pos hxv, if_pos ⟨hxv.ge, hxv.le⟩, hxv, hfirst]
      · rw [if_neg hxv, if_neg fun hin => hxv (by omega)]
    | succ k =>
      obtain ⟨hadd, hvpn, hwrap'⟩ := vpn_next hdvd hwrap hlt
      have hlast : first + (k + 1) * pgsize = first + pgsize + k * pgsize := by
        rw [Nat.succ_mul]
        omega
      have hne : first ≠ first + (k + 1) * pgsize := by
        unfold pgsize
        omega
      have hdvd' : pgsize ∣ add64 pa pgsize := by
        unfold pgsize add64 at *
        omega
      rw [if_neg hne, hadd, hlast]
      have hlt' : first + pgsize < 2 ^ 64 := by
        unfold pgsize at *
        omega
      have habsent' : ∀ x, vpn (first + pgsize) ≤ x → x ≤ vpn (first + pgsize) + k →
          Radix.leaf pteChild 512 (entry s₁.ram) P 3 x = none := by
        intro x hx hx'
        rw [hleaves x (by omega), if_neg (by omega)]
        exact habsent x (by omega) (by omega)
      obtain ⟨s', hloop, htree, hrest⟩ := ih (by omega) h₁ ((Nat.dvd_add_self_right).2 hdvd) hlt'
        hwrap' (by omega) (by omega) habsent' hdvd' (add64_lt _ _)
      refine ⟨s', hloop, htree, fun x hx => ?_⟩
      rw [hrest x hx, hvpn]
      by_cases hin : vpn first + 1 ≤ x ∧ x ≤ vpn first + 1 + k
      · rw [if_pos hin, if_pos ⟨by omega, by omega⟩]
        have hvalue : add64 (add64 pa pgsize) ((x - (vpn first + 1)) * pgsize) =
            add64 pa ((x - vpn first) * pgsize) := by
          unfold add64 pgsize
          omega
        rw [hvalue]
      · rw [if_neg hin, hleaves x hx]
        by_cases hxv : x = vpn first
        · rw [if_pos hxv, if_pos ⟨hxv.ge, by omega⟩, hxv, hfirst]
        · rw [if_neg hxv, if_neg fun hin' => hin ⟨by omega, by omega⟩]

end Loop

/-! ### The call -/

/-- A call that is to map the `size` bytes at `va` to `pa`: nothing of the range is mapped, and it
does not wrap around. -/
structure MapRequest (s : VmState) (P va size pa perm : ℕ) : Prop where
  /-- The address is a `u64`. -/
  va_lt : va < 2 ^ 64
  /-- There is something to map. -/
  size_pos : 0 < size
  /-- The range does not leave its part of the address space. -/
  no_wrap : (va + size - 1) / 2 ^ 48 = va / 2 ^ 48
  /-- The physical address is a page. -/
  pa_dvd : pgsize ∣ pa
  /-- It is a `u64`. -/
  pa_lt : pa < 2 ^ 64
  /-- The flags are in the low 12 bits. -/
  perm_lt : perm < 4096
  /-- No page of the range is mapped. -/
  absent : ∀ v, vpn va ≤ vpn v → vpn v ≤ vpn (va + size - 1) → presentLeaf s.ram P v = none
  /-- The tables are distinct frames, and there are pages for those that are missing. -/
  stocked : Stocked P (vpn va) (vpn (va + size - 1)) s

section Call

variable {s : VmState} {P va size pa perm : ℕ}

theorem vpn_mul {x : ℕ} (hx : x < 512 ^ 4) : vpn (x * pgsize) = x := by
  unfold vpn pgsize
  omega

/-- `map_pages` ends with 0.  Afterwards a walk for an address of the range leads to the frame of
its page, and for all other addresses the entry is what it was. -/
theorem mapPages_maps (h : MapRequest s P va size pa perm) :
    ∃ s', mapPages (p2v P) va size pa perm s = some (0, s') ∧ PageTree s'.ram P ∧
      (∀ v, vpn va ≤ vpn v → vpn v ≤ vpn (va + size - 1) →
        pageWalk (p2v P) v false s' = some (add64 pa ((vpn v - vpn va) * pgsize) + offset v, s')) ∧
      ∀ v, ¬(vpn va ≤ vpn v ∧ vpn v ≤ vpn (va + size - 1)) →
        presentLeaf s'.ram P v = presentLeaf s.ram P v := by
  obtain ⟨hva, hsize, hwrap, hpa, hpalt, hperm, habsent, hstocked⟩ := h
  have hend : sub64 (add64 va size) 1 = va + size - 1 := by
    unfold sub64 add64
    omega
  have hlt : va + size - 1 < 2 ^ 64 := by omega
  -- the pages of the range
  obtain ⟨k, hk⟩ : ∃ k, (va + size - 1) / 4096 = va / 4096 + k :=
    Nat.exists_eq_add_of_le (by omega)
  have hfirst : pgrounddown va = va / 4096 * 4096 := pgrounddown_eq hva
  have hlast : pgrounddown (va + size - 1) = va / 4096 * 4096 + k * pgsize := by
    rw [pgrounddown_eq hlt, hk]
    unfold pgsize
    omega
  have hvpn : vpn (va / 4096 * 4096) = vpn va := by
    unfold vpn pgsize
    omega
  have hvpnlast : vpn (va + size - 1) = vpn va + k := by
    unfold vpn pgsize
    omega
  have hfuel : sub64 (va / 4096 * 4096 + k * pgsize) (va / 4096 * 4096) / pgsize + 1 = k + 1 := by
    unfold sub64 pgsize
    omega
  have hleaf : ∀ x, vpn (va / 4096 * 4096) ≤ x → x ≤ vpn (va / 4096 * 4096) + k →
      Radix.leaf pteChild 512 (entry s.ram) P 3 x = none := by
    intro x hx hx'
    have hxlt : x < 512 ^ 4 := by
      have := vpn_lt (va + size - 1)
      omega
    rw [← vpn_mul hxlt, ← presentLeaf_eq_leaf]
    exact habsent _ (by rw [vpn_mul hxlt]; omega) (by rw [vpn_mul hxlt]; omega)
  obtain ⟨s', hloop, htree, hleaves⟩ := mapLoop_maps (vpn_lt _) hperm (k + 1) (Nat.lt_succ_self k)
    hstocked (show pgsize ∣ va / 4096 * 4096 from Nat.dvd_mul_left _ _) (by omega)
    (by unfold pgsize; omega) hvpn.ge (by omega) hleaf hpa hpalt
  have hpresent : ∀ v, presentLeaf s'.ram P v = if vpn va ≤ vpn v ∧ vpn v ≤ vpn (va + size - 1) then
      some (add64 pa ((vpn v - vpn va) * pgsize) ||| perm ||| pteP) else presentLeaf s.ram P v := by
    intro v
    rw [presentLeaf_eq_leaf, hleaves _ (vpn_lt v), hvpn, hvpnlast, presentLeaf_eq_leaf]
  refine ⟨s', ?_, htree, fun v hv hv' => ?_, fun v hv => (hpresent v).trans (if_neg hv)⟩
  · unfold mapPages
    rw [hend, hfirst, hlast, hfuel]
    exact hloop
  · have hentry := hpresent v
    rw [if_pos ⟨hv, hv'⟩] at hentry
    obtain ⟨pt, htab, hpte⟩ := Option.bind_eq_some_iff.1 hentry
    have hdvd : pgsize ∣ add64 pa ((vpn v - vpn va) * pgsize) := by
      unfold add64 pgsize at *
      omega
    obtain ⟨-, -, haddr⟩ := pageEntry hdvd (add64_lt _ _) hperm
    have hoff : offset v < 4096 := offset_eq v ▸ Nat.mod_lt _ (by decide)
    have hvalue : entry s'.ram pt (ptx v) =
        add64 pa ((vpn v - vpn va) * pgsize) ||| perm ||| pteP := by
      dsimp only at hpte
      split_ifs at hpte
      exact Option.some.inj hpte
    rw [pageWalk_of_low, htab]
    · dsimp only [Option.elim]
      rw [hvalue, haddr, or_flags hdvd hoff]
    · intro b hb
      exact htree.low b (mem_treeTables hb)

end Call

/-! ### An empty tree -/

section Empty

/-- Memory without page tables. -/
abbrev zeroRam : Ram := fun _ => 0

theorem pteChild_zeroRam (b i : ℕ) : pteChild (entry zeroRam b i) = none := by
  have hzero : entry zeroRam b i = 0 :=
    Ram.readLe_of_bytes 8 (by decide) fun j _ => by rw [Nat.zero_div]; rfl
  rw [hzero]
  decide

theorem descend_zeroRam (P d x : ℕ) :
    Radix.descend pteChild 512 (entry zeroRam) P (d + 1) x = none := by
  rw [Radix.descend, Option.bind_eq_none_iff]
  exact fun a _ => pteChild_zeroRam a _

theorem treeTables_zeroRam (P : ℕ) : treeTables zeroRam P = {P} := by
  ext b
  constructor
  · rintro ⟨d, -, x, -, hb⟩
    cases d with
    | zero => exact (Option.some.inj hb).symm
    | succ d =>
      rw [descend_zeroRam] at hb
      cases hb
  · rintro rfl
    exact ⟨0, by decide, 0, by decide, by rw [Radix.descend]⟩

theorem pageTree_zeroRam {P : ℕ} (hdvd : pgsize ∣ P) (hlow : P + pgsize ≤ 2 ^ 31) :
    PageTree zeroRam P := by
  refine ⟨hdvd, fun d _ d' _ x hx x' hx' a ha ha' => ?_, fun b hb => ?_⟩
  · cases d with
    | succ d =>
      rw [descend_zeroRam] at ha
      cases ha
    | zero =>
      cases d' with
      | succ d' =>
        rw [descend_zeroRam] at ha'
        cases ha'
      | zero => exact ⟨rfl, by omega⟩
  · rw [treeTables_zeroRam] at hb
    exact hb ▸ hlow

theorem presentLeaf_zeroRam (P v : ℕ) : presentLeaf zeroRam P v = none := by
  unfold presentLeaf
  rw [tableOf_eq_descend, descend_zeroRam]
  rfl

/-- Two pages on a machine with 8 MB, where all three tables below the first are missing. -/
theorem mapRequest_zeroRam : MapRequest ⟨bootTables [⟨0, 0⟩] 0, zeroRam, 0, []⟩ 0x1000 0x12345 5000
    0x9000 6 := by
  have hmissing : (missingTables zeroRam 0x1000 (vpn 0x12345) (vpn (0x12345 + 5000 - 1))).card =
      3 := by decide +kernel
  have h₁ : memblockAlloc (bootTables [⟨0, 0⟩] 0) pgsize pgsize =
      .ok (bootTables [⟨0x7FF000, 0x1000⟩] 0x1000, 0x7FF000) := by decide +kernel
  have h₂ : memblockAlloc (bootTables [⟨0x7FF000, 0x1000⟩] 0x1000) pgsize pgsize =
      .ok (bootTables [⟨0x7FE000, 0x2000⟩] 0x2000, 0x7FE000) := by decide +kernel
  have h₃ : memblockAlloc (bootTables [⟨0x7FE000, 0x2000⟩] 0x2000) pgsize pgsize =
      .ok (bootTables [⟨0x7FD000, 0x3000⟩] 0x3000, 0x7FD000) := by decide +kernel
  refine ⟨by decide, by decide, by decide, by decide, by decide, by decide,
    fun v _ _ => presentLeaf_zeroRam _ _, ⟨pageTree_zeroRam (by decide) (by decide), ?_⟩⟩
  rw [hmissing, treeTables_zeroRam]
  refine ⟨_, _, h₁, by decide, by decide, ?_, _, _, h₂, by decide, by decide, ?_, _, _, h₃,
    by decide,
    by decide, ?_, trivial⟩
  · simp
  · simp
  · simp

end Empty

/-- Afterwards the second page leads to the second frame. -/
theorem mapPages_maps_zeroRam : ∃ s', mapPages (p2v 0x1000) 0x12345 5000 0x9000 6
    ⟨bootTables [⟨0, 0⟩] 0, zeroRam, 0, []⟩ = some (0, s') ∧
      pageWalk (p2v 0x1000) 0x13008 false s' = some (0xA008, s') := by
  obtain ⟨s', hcall, -, hwalk, -⟩ := mapPages_maps mapRequest_zeroRam
  exact ⟨s', hcall, hwalk 0x13008 (by decide) (by decide)⟩

end MicroKernel
