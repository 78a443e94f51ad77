import MicroKernel.Vm.Walk

/-!
# User memory

`alloc_uvm` takes one block and maps the pages from the rounded old size up to the new size to it,
so that the last page may reach beyond the block.  `setup_user_memory_pages` makes the tables of a
new process.

* `translate_page` : the addresses of a page are translated together;
* `allocUvm_spec` : growth keeps the invariant and maps every address up to the new size;
* `setupUserMemoryPages_spec` : a new process.
-/

namespace MicroKernel

open Extent

attribute [local irreducible] p2v v2p pteAddr

/-! ### Pages -/

section Pages

variable {U : Set ℕ} {kind : Kinds} {s s' : VmState} {P va va' : ℕ} {user : Bool} {ram : Ram}

theorem indices_page (hva : pgsize ∣ va) (hin : va' ∈ Set.Ico va (va + pgsize)) :
    pml4x va' = pml4x va ∧ pdptx va' = pdptx va ∧ pdx va' = pdx va ∧ ptx va' = ptx va := by
  obtain ⟨h₁, h₂⟩ := hin
  unfold pgsize at hva h₂
  simp only [pml4x_eq, pdptx_eq, pdx_eq, ptx_eq]
  omega

/-- The addresses of a page differ in their offset only. -/
theorem translate_page (hva : pgsize ∣ va) (hin : va' ∈ Set.Ico va (va + pgsize)) {a : ℕ}
    (h : translate user ram P va = some a) : translate user ram P va' = some (a + (va' - va)) := by
  obtain ⟨hpml4, hpdpt, hpd, hpt⟩ := indices_page hva hin
  obtain ⟨h₁, h₂⟩ := hin
  unfold pgsize at hva h₂
  obtain ⟨pt, page, htab, hpage, rfl⟩ := translate_eq_some.1 h
  have htab' : tableOf user ram P va' = some pt := by
    rw [← htab]
    unfold tableOf
    rw [hpml4, hpdpt, hpd]
  refine translate_eq_some.2 ⟨pt, page, htab', hpt ▸ hpage, ?_⟩
  rw [offset_eq, offset_eq]
  omega

end Pages

/-! ### Growth -/

/-- What `alloc_uvm` has left of its block `x`, when it is to map the page at `va` to `mem`. -/
structure Room (kind : Kinds) (s : VmState) (x : Owned) (newSize va mem : ℕ) : Prop where
  /-- Inside the block. -/
  base_le : x.base ≤ mem
  /-- There is enough for the addresses that are left. -/
  le_stop : mem + (newSize - va) ≤ x.stop
  /-- Pages. -/
  dvd : pgsize ∣ mem
  /-- Nothing is mapped to what is left. -/
  unused : ∀ b i a, Uses kind s.ram b i a → a ∈ x.toSet → a < mem

section Growth

variable {U : Set ℕ} {kind kind' : Kinds} {s s' : VmState} {P va mem newSize oldSize : ℕ}
  {x : Owned}

theorem Room.next (h : Room kind s x newSize va mem) (hinv : AllocInv U s.blocks) (hx : x ∈ s.log)
    (hgrows : Grows {mem} kind s kind' s') (hmore : va + pgsize < newSize) :
    Room kind' s' x newSize (va + pgsize) (add64 mem pgsize) := by
  obtain ⟨hbase, hstop, hmem, hunused⟩ := h
  have hend : mem + pgsize ∈ x.toSet := ⟨by omega, by omega⟩
  rw [add64_of_lt (hinv.lt_of_mem hx hend)]
  refine ⟨by omega, by omega, (Nat.dvd_add_self_right).2 hmem, fun b i a huse ha => ?_⟩
  unfold pgsize
  rcases hgrows.uses b i a huse with hold | rfl | hfresh
  · have := hunused b i a hold ha
    omega
  · omega
  · exact absurd ha (hfresh x hx)

/-- The first page that was not mapped yet gets the first page of the new block. -/
theorem Allocated.room (h : Allocated s (newSize - oldSize) (.userMemory P) mem s')
    (hinv : VmInv U kind s)
    (hentry : ∀ b k i, kind b = some k → i < 512 → entry s'.ram b i = entry s.ram b i)
    (hold : oldSize ≤ va) (hmore : va < newSize) :
    Room kind s' ⟨⟨mem, newSize - oldSize⟩, .userMemory P⟩ newSize va mem := by
  refine ⟨le_rfl, ?_, h.dvd (by omega), fun b i a huse ha => ?_⟩
  · show mem + (newSize - va) ≤ mem + (newSize - oldSize)
    omega
  · -- what was mapped before lies in the older blocks
    obtain ⟨y, hy, hay⟩ := hinv.mem_of_uses ((VmInv.uses_congr hentry).1 huse)
    exact absurd hay (h.fresh a ha y hy)

/-- The page at 0 is mapped, so that the loop does not return if it gets there. -/
theorem allocUvmLoop_zero (h : VmInv U kind s) (hP : kind P = some ⟨some P, 3⟩)
    (hzero : translate false s.ram P 0 ≠ none) (hpos : 0 < newSize) (n : ℕ) {u : Unit} :
    allocUvmLoop (p2v P) newSize n 0 mem s ≠ some (u, s') := by
  intro hcall
  cases n with
  | zero => cases hcall
  | succ n =>
    simp only [allocUvmLoop, hpos, if_true, vm_bind_eq_some] at hcall
    obtain ⟨r, s₁, hmap, -⟩ := hcall
    exact hzero (mapPages_absent h hP (Nat.dvd_zero _) (by decide) hmap)

theorem allocUvmLoop_spec (hnew : newSize < 2 ^ 64) (n : ℕ) : ∀ {kind : Kinds} {s : VmState}
    {va mem : ℕ} {u : Unit}, VmInv U kind s → kind P = some ⟨some P, 3⟩ →
      translate false s.ram P 0 ≠ none → x ∈ s.log → x.purpose = .userMemory P → pgsize ∣ va →
      (va < newSize → Room kind s x newSize va mem) →
      allocUvmLoop (p2v P) newSize n va mem s = some (u, s') →
      ∃ kind', VmInv U kind' s' ∧ Grows x.toSet kind s kind' s' ∧
        ∀ va', va ≤ va' → va' < newSize → follow true s.ram P (pml4x va') ≠ none →
          translate true s'.ram P va' ≠ none := by
  induction n with
  | zero => exact fun _ _ _ _ _ _ _ hcall => nomatch hcall
  | succ n ih =>
    intro kind s va mem u h hP hzero hx hpurpose hva hroom hcall
    simp only [allocUvmLoop] at hcall
    by_cases hlt : va < newSize
    · obtain ⟨hbase, hstop, hmem, hunused⟩ := hroom hlt
      have hin : mem ∈ x.toSet := ⟨hbase, by omega⟩
      simp only [hlt, if_true, vm_bind_eq_some] at hcall
      obtain ⟨r, s₁, hmap, hcall⟩ := hcall
      obtain ⟨kind₁, hinv, hgrows, hmapped⟩ := mapPages_spec h hP hva (hlt.trans hnew) hmem hx
        hpurpose hin (fun b i huse => lt_irrefl _ (hunused b i mem huse hin)) hmap
      have hP₁ := hgrows.tables P _ hP
      have hzero₁ : translate false s₁.ram P 0 ≠ none := by
        obtain ⟨a, ha⟩ := Option.ne_none_iff_exists'.1 hzero
        rw [hgrows.translate h hP ha]
        simp
      -- the next page, unless the address has wrapped around
      rcases Nat.lt_or_ge (va + pgsize) (2 ^ 64) with hnowrap | hwrap
      · rw [add64_of_lt hnowrap] at hcall
        obtain ⟨kind', hinv', hgrows', hrest⟩ := ih hinv hP₁ hzero₁ (hgrows.log x hx) hpurpose
          ((Nat.dvd_add_self_right).2 hva) ((hroom hlt).next h.blocks hx hgrows) hcall
        refine ⟨kind', hinv', (hgrows.mono (by simpa using hin)).trans hgrows', ?_⟩
        intro va' hle hlt' htop
        have htop₁ : follow true s₁.ram P (pml4x va') ≠ none := by
          obtain ⟨a, ha⟩ := Option.ne_none_iff_exists'.1 htop
          rw [hgrows.follow hP (pml4x_lt va') ha]
          simp
        rcases Nat.lt_or_ge va' (va + pgsize) with hpage | hpage
        · have hmapped' := hmapped ((indices_page hva ⟨hle, hpage⟩).1 ▸ htop₁)
          rw [hgrows'.translate hinv hP₁ (translate_page hva ⟨hle, hpage⟩ hmapped')]
          simp
        · exact hrest va' hpage hlt' htop₁
      · have hback : add64 va pgsize = 0 := by
          unfold pgsize at hva hwrap ⊢
          unfold add64
          omega
        rw [hback] at hcall
        exact absurd hcall (allocUvmLoop_zero hinv hP₁ hzero₁ (by omega) n)
    · simp only [hlt, if_false, vm_pure_eq_some] at hcall
      obtain ⟨-, rfl⟩ := hcall
      exact ⟨kind, h, .refl _ _ _, fun va' hle hlt' => absurd (hle.trans_lt hlt') hlt⟩

/-- Growth keeps the invariant; afterwards every address from the rounded old size up to the new
size is mapped. -/
theorem allocUvm_spec (h : VmInv U kind s) (hP : kind P = some ⟨some P, 3⟩)
    (hzero : translate false s.ram P 0 ≠ none) (hold : oldSize < 2 ^ 64)
    (hnew : newSize < 2 ^ 64) {r : ℤ} (hcall : allocUvm (p2v P) oldSize newSize s = some (r, s')) :
    ∃ kind', VmInv U kind' s' ∧ Grows ∅ kind s kind' s' ∧
      (r = if newSize < oldSize then toInt32 (oldSize % 2 ^ 32) else toInt32 (newSize % 2 ^ 32)) ∧
      ∀ va, pgroundup oldSize ≤ va → va < newSize → oldSize ≤ newSize →
        follow true s.ram P (pml4x va) ≠ none → translate true s'.ram P va ≠ none := by
  simp only [allocUvm] at hcall
  by_cases hlt : newSize < oldSize
  · simp only [hlt, if_true, vm_pure_eq_some] at hcall
    obtain ⟨rfl, rfl⟩ := hcall
    exact ⟨kind, h, .refl _ _ _, by rw [if_pos hlt], fun _ _ _ hle => absurd hlt (Nat.not_lt.2 hle)⟩
  · have hPlt := h.lt hP
    simp only [hlt, if_false, Vm.memblockAlloc, AllocInv.v2p_p2v hPlt, vm_bind_eq_some,
      vm_pure_eq_some] at hcall
    obtain ⟨mem, s₁, halloc, u, s₂, hloop, rfl, rfl⟩ := hcall
    obtain ⟨hinv, hblock, hentry⟩ := h.alloc halloc
    have hgrows := hblock.grows hentry
    have hzero₁ : translate false s₁.ram P 0 ≠ none := by
      obtain ⟨a, ha⟩ := Option.ne_none_iff_exists'.1 hzero
      rw [hgrows.translate h hP ha]
      simp
    rcases Nat.lt_or_ge (oldSize + 4095) (2 ^ 64) with hnowrap | hwrap
    · have hround := pgroundup_eq hnowrap
      have hdvd : pgsize ∣ pgroundup oldSize := hround ▸ Nat.dvd_mul_left _ _
      have hle : oldSize ≤ pgroundup oldSize := by
        rw [hround]
        omega
      obtain ⟨kind', hinv', hgrows', hmapped⟩ := allocUvmLoop_spec hnew _ hinv hP hzero₁
        (hblock.log ▸ List.mem_cons_self) rfl hdvd (hblock.room h hentry hle) hloop
      refine ⟨kind', hinv',
        ((hgrows.mono (Set.empty_subset _)).trans hgrows').of_fresh hblock.fresh,
        by rw [if_neg hlt], fun va hva hva' _ htop => hmapped va hva hva' ?_⟩
      obtain ⟨a, ha⟩ := Option.ne_none_iff_exists'.1 htop
      rw [hgrows.follow hP (pml4x_lt va) ha]
      simp
    · have hback : pgroundup oldSize = 0 := by
        have hadd : add64 oldSize (pgsize - 1) = oldSize + 4095 - 2 ^ 64 := by
          unfold add64 pgsize
          omega
        unfold pgroundup
        rw [hadd]
        exact (and_pageMask (by omega)).trans (by omega)
      rw [hback] at hloop
      exact absurd hloop (allocUvmLoop_zero hinv hP hzero₁ (by omega) _)

end Growth

/-! ### A new process -/

section Setup

variable {U : Set ℕ} {kind : Kinds} {s s' : VmState}

/-- The entry of the kernel's table that the processes share. -/
theorem VmInv.kern_link (h : VmInv U kind s) (hkern : s.kernPml4 ≠ 0) {e : ℕ}
    (hcall : readWord (add64 s.kernPml4 (8 * 511)) s = some (e, s')) :
    s = s' ∧ e < 2 ^ 64 ∧ (Present e → ¬User e) ∧
      ∀ P, Present e → Target kind s.log ⟨some P, 3⟩ e := by
  obtain ⟨K, hK, hkind, huser⟩ := h.kern hkern
  obtain ⟨-, he, hs⟩ := readWord_eq_some.1 hcall
  rw [hK, v2p_entry (h.low K _ hkind) (by decide)] at he
  change entry s.ram K 511 = e at he
  rw [← he]
  refine ⟨hs, entry_lt _ _ _, huser, fun P hp => ?_⟩
  rcases h.next hkind (by decide) hp with ⟨hnext, -⟩ | ⟨-, hnext, -⟩
  · exact .link (huser hp) hnext
  · exact .link (huser hp) hnext

/-- A table that holds zeros and that nothing leads to. -/
structure Blank (kind : Kinds) (s : VmState) (q : ℕ) (k : TableKind) : Prop where
  /-- The table. -/
  table : kind q = some k
  /-- Zeros. -/
  cleared : Cleared s.ram q
  /-- Nothing leads to it. -/
  unused : ∀ b i, ¬Uses kind s.ram b i q

theorem Blank.alloc {kind' : Kinds} {q p size : ℕ} {k : TableKind} {purpose : Purpose}
    (hq : Blank kind s q k) (h : VmInv U kind s) (halloc : Allocated s size purpose p s')
    (hgrows : Grows ∅ kind s kind' s') : Blank kind' s' q k := by
  have hmem := h.table q _ hq.table
  exact ⟨hgrows.tables q _ hq.table, hq.cleared.alloc hmem halloc,
    hgrows.unused hmem (start_mem_tableBlock q) (Set.notMem_empty q) hq.unused⟩

theorem blankTables (h : VmInv U kind s) {v₁ v₂ v₃ v₄ : ℕ} {s₁ s₂ s₃ s₄ : VmState}
    (h₁ : Vm.memblockAllocKernel pgsize pgsize .pageTable s = some (v₁, s₁))
    (h₂ : Vm.memblockAllocKernel pgsize pgsize .pageTable s₁ = some (v₂, s₂))
    (h₃ : Vm.memblockAllocKernel pgsize pgsize .pageTable s₂ = some (v₃, s₃))
    (h₄ : Vm.memblockAllocKernel pgsize pgsize .pageTable s₃ = some (v₄, s₄)) :
    ∃ kind' P pdpt pgdir pt, v₁ = p2v P ∧ v₂ = p2v pdpt ∧ v₃ = p2v pgdir ∧ v₄ = p2v pt ∧
      VmInv U kind' s₄ ∧ Grows ∅ kind s kind' s₄ ∧ Blank kind' s₄ P ⟨some P, 3⟩ ∧
      Blank kind' s₄ pdpt ⟨some P, 2⟩ ∧ Blank kind' s₄ pgdir ⟨some P, 1⟩ ∧
      Blank kind' s₄ pt ⟨some P, 0⟩ ∧
      ∀ x ∈ s.log, pdpt ∉ x.toSet ∧ pgdir ∉ x.toSet ∧ pt ∉ x.toSet := by
  obtain ⟨P, hv₁, halloc₁, htable₁⟩ := h.allocTable h₁
  obtain ⟨hinv₁, hgrows₁, hunused₁⟩ := htable₁ ⟨some P, 3⟩
  have hP : Blank _ s₁ P ⟨some P, 3⟩ := ⟨Function.update_self _ _ _, halloc₁.cleared, hunused₁⟩
  obtain ⟨pdpt, hv₂, halloc₂, htable₂⟩ := hinv₁.allocTable h₂
  obtain ⟨hinv₂, hgrows₂, hunused₂⟩ := htable₂ ⟨some P, 2⟩
  have hpdpt : Blank _ s₂ pdpt ⟨some P, 2⟩ := ⟨Function.update_self _ _ _, halloc₂.cleared,
    hunused₂⟩
  obtain ⟨pgdir, hv₃, halloc₃, htable₃⟩ := hinv₂.allocTable h₃
  obtain ⟨hinv₃, hgrows₃, hunused₃⟩ := htable₃ ⟨some P, 1⟩
  have hpgdir : Blank _ s₃ pgdir ⟨some P, 1⟩ := ⟨Function.update_self _ _ _, halloc₃.cleared,
    hunused₃⟩
  obtain ⟨pt, hv₄, halloc₄, htable₄⟩ := hinv₃.allocTable h₄
  obtain ⟨hinv₄, hgrows₄, hunused₄⟩ := htable₄ ⟨some P, 0⟩
  refine ⟨_, P, pdpt, pgdir, pt, hv₁, hv₂, hv₃, hv₄, hinv₄,
    ((hgrows₁.trans hgrows₂).trans hgrows₃).trans hgrows₄,
    ((hP.alloc hinv₁ halloc₂ hgrows₂).alloc hinv₂ halloc₃ hgrows₃).alloc hinv₃ halloc₄ hgrows₄,
    (hpdpt.alloc hinv₂ halloc₃ hgrows₃).alloc hinv₃ halloc₄ hgrows₄,
    hpgdir.alloc hinv₃ halloc₄ hgrows₄, ⟨Function.update_self _ _ _, halloc₄.cleared, hunused₄⟩,
    fun x hx => ?_⟩
  have hx₁ := hgrows₁.log x hx
  have hx₂ := hgrows₂.log x hx₁
  exact ⟨halloc₂.fresh _ (start_mem_tableBlock pdpt) x hx₁,
    halloc₃.fresh _ (start_mem_tableBlock pgdir) x hx₂,
    halloc₄.fresh _ (start_mem_tableBlock pt) x (hgrows₃.log x hx₂)⟩

theorem Cleared.of_memset {q : ℕ} (h : Cleared s.ram q) (hq : q < 2 ^ 64) {u : Unit}
    (hcall : memset (p2v q) 0 512 s = some (u, s')) : s' = s := by
  obtain ⟨-, rfl⟩ := memset_eq_some.1 hcall
  rw [AllocInv.v2p_p2v hq, h.memset_eq]

/-- A new table becomes the first one that another leads to; the other tables stay blank. -/
theorem VmInv.linkFirst (h : VmInv U kind s) {b p P l : ℕ} (hb : kind b = some ⟨some P, l + 1⟩)
    (hp : Blank kind s p ⟨some P, l⟩) (habsent : ¬Present (entry s.ram b 0)) {u : Unit}
    (hcall : writeWord (p2v b) (v2p (p2v p) ||| pteP ||| pteW ||| pteU) s = some (u, s')) :
    VmInv U kind s' ∧ Grows {p} kind s kind s' ∧ follow true s'.ram b 0 = some p ∧
      (∀ q k, q ≠ b → q ≠ p → Blank kind s q k → Blank kind s' q k) ∧
      ∀ c k i, kind c = some k → i < 512 → ¬(c = b ∧ i = 0) →
        entry s'.ram c i = entry s.ram c i := by
  have hlt : ∀ q k, kind q = some k → q < 2 ^ 64 := fun q k hq => h.lt hq
  obtain ⟨hvalue, -, hvlt, -⟩ := entry_value (h.dvd hp.table) (hlt p _ hp.table)
  obtain ⟨-, rfl⟩ := writeWord_eq_some.1 hcall
  have haddr : v2p (p2v b) = b + 8 * 0 := AllocInv.v2p_p2v (hlt b _ hb)
  rw [haddr, AllocInv.v2p_p2v (hlt p _ hp.table), hvalue]
  obtain ⟨hinv, hgrows, hfollow⟩ :=
    h.linkTable hb (by simp) (by decide) hp.table habsent hp.unused
  refine ⟨hinv, hgrows, hfollow, fun q k hqb hqp hq => ⟨hq.table, ?_, ?_⟩,
    fun c k i hc hi hne => ?_⟩
  · exact hq.cleared.write (h.dvd hq.table) (h.dvd hb) hqb (by decide)
  · exact hgrows.unused (h.table q _ hq.table) (start_mem_tableBlock q) hqp hq.unused
  · exact (entry_writeLe _ (h.dvd hb) (h.dvd hc) (by decide) hi hvlt).trans (if_neg hne)

/-- The entry that a process shares with the kernel; its other tables stay blank. -/
theorem VmInv.linkKernel (h : VmInv U kind s) (hkern : s.kernPml4 ≠ 0) {P e : ℕ} {s₁ : VmState}
    (hP : kind P = some ⟨some P, 3⟩) (habsent : ¬Present (entry s.ram P 511)) {u : Unit}
    (hread : readWord (add64 s.kernPml4 (8 * 511)) s = some (e, s₁))
    (hcall : writeWord (add64 (p2v P) (8 * 511)) e s₁ = some (u, s')) :
    VmInv U kind s' ∧ Grows ∅ kind s kind s' ∧
      (∀ q k, q ≠ P → Blank kind s q k → Blank kind s' q k) ∧
      ∀ c k i, kind c = some k → i < 512 → ¬(c = P ∧ i = 511) →
        entry s'.ram c i = entry s.ram c i := by
  obtain ⟨rfl, helt, huser, htarget⟩ := h.kern_link hkern hread
  obtain ⟨-, rfl⟩ := writeWord_eq_some.1 hcall
  rw [v2p_entry (h.low P _ hP) (by decide)]
  have hgrows : Grows ∅ kind s kind { s with ram := s.ram.writeLe (P + 8 * 511) 8 e } :=
    h.grows_write hP (by decide) helt habsent fun hp hu => absurd hu (huser hp)
  refine ⟨h.write hP (by decide) helt (htarget P) (fun hp hu => absurd hu (huser hp)) (by simp),
    hgrows, fun q k hqP hq => ⟨hq.table, ?_, ?_⟩, fun c k i hc hi hne => ?_⟩
  · exact hq.cleared.write (h.dvd hq.table) (h.dvd hP) hqP (by decide)
  · exact hgrows.unused (h.table q _ hq.table) (start_mem_tableBlock q)
      (Set.notMem_empty q) hq.unused
  · exact (entry_writeLe _ (h.dvd hP) (h.dvd hc) (by decide) hi helt).trans (if_neg hne)

theorem Blank.ne {q q' l l' : ℕ} {o o' : Option ℕ} (hq : Blank kind s q ⟨o, l⟩)
    (hq' : Blank kind s q' ⟨o', l'⟩) (hlevel : l ≠ l') : q ≠ q' := by
  rintro rfl
  exact hlevel (congrArg TableKind.level (Option.some.inj (hq.table.symm.trans hq'.table)))

/-- The four tables of a new process are linked, and the first one to the kernel. -/
theorem VmInv.linkTables (h : VmInv U kind s) (hkern : s.kernPml4 ≠ 0) {P pdpt pgdir pt e : ℕ}
    {s₁ s₂ s₃ s₄ s₅ : VmState} {u₁ u₂ u₃ u₄ : Unit} (hP : Blank kind s P ⟨some P, 3⟩)
    (hpdpt : Blank kind s pdpt ⟨some P, 2⟩) (hpgdir : Blank kind s pgdir ⟨some P, 1⟩)
    (hpt : Blank kind s pt ⟨some P, 0⟩)
    (hw₁ : writeWord (p2v P) (v2p (p2v pdpt) ||| pteP ||| pteW ||| pteU) s = some (u₁, s₁))
    (hread : readWord (add64 s₁.kernPml4 (8 * 511)) s₁ = some (e, s₂))
    (hw₂ : writeWord (add64 (p2v P) (8 * 511)) e s₂ = some (u₂, s₃))
    (hw₃ : writeWord (p2v pdpt) (v2p (p2v pgdir) ||| pteP ||| pteW ||| pteU) s₃ = some (u₃, s₄))
    (hw₄ : writeWord (p2v pgdir) (v2p (p2v pt) ||| pteP ||| pteW ||| pteU) s₄ = some (u₄, s₅)) :
    VmInv U kind s₅ ∧ Grows {pdpt, pgdir, pt} kind s kind s₅ ∧ tableOf true s₅.ram P 0 = some pt ∧
      ¬Present (entry s₅.ram pt 0) := by
  have hpdptP := hpdpt.ne hP (by decide)
  have hpgdirP := hpgdir.ne hP (by decide)
  have hptP := hpt.ne hP (by decide)
  have hpgdir' := hpgdir.ne hpdpt (by decide)
  have hpt' := hpt.ne hpdpt (by decide)
  have hpt'' := hpt.ne hpgdir (by decide)
  obtain ⟨hinv₁, hgrows₁, hf₁, hblank₁, hentry₁⟩ :=
    h.linkFirst hP.table hpdpt (hP.cleared.absent (by decide)) hw₁
  have hkern₁ : s₁.kernPml4 ≠ 0 := by rwa [hgrows₁.kern]
  have habsent₁ : ¬Present (entry s₁.ram P 511) := by
    rw [hentry₁ P _ 511 hP.table (by decide) (by simp)]
    exact hP.cleared.absent (by decide)
  obtain ⟨hinv₂, hgrows₂, hblank₂, hentry₂⟩ := hinv₁.linkKernel hkern₁ hP.table habsent₁ hread hw₂
  have hpgdir₂ : Blank kind s₃ pgdir ⟨some P, 1⟩ :=
    hblank₂ _ _ hpgdirP (hblank₁ _ _ hpgdirP hpgdir' hpgdir)
  have hpt₂ : Blank kind s₃ pt ⟨some P, 0⟩ := hblank₂ _ _ hptP (hblank₁ _ _ hptP hpt' hpt)
  have habsent₂ : ¬Present (entry s₃.ram pdpt 0) := by
    rw [hentry₂ _ _ 0 hpdpt.table (by decide) fun hi => hpdptP hi.1,
      hentry₁ _ _ 0 hpdpt.table (by decide) fun hi => hpdptP hi.1]
    exact hpdpt.cleared.absent (by decide)
  obtain ⟨hinv₃, hgrows₃, hf₃, hblank₃, hentry₃⟩ := hinv₂.linkFirst hpdpt.table hpgdir₂ habsent₂ hw₃
  have hpt₃ : Blank kind s₄ pt ⟨some P, 0⟩ := hblank₃ _ _ hpt' hpt'' hpt₂
  have habsent₃ : ¬Present (entry s₄.ram pgdir 0) := by
    rw [hentry₃ _ _ 0 hpgdir.table (by decide) fun hi => hpgdir' hi.1]
    exact hpgdir₂.cleared.absent (by decide)
  obtain ⟨hinv₄, hgrows₄, hf₄, -, hentry₄⟩ := hinv₃.linkFirst hpgdir.table hpt₃ habsent₃ hw₄
  have hafter₂ : Grows {pdpt, pgdir, pt} kind s₃ kind s₅ :=
    (hgrows₃.mono (by simp)).trans (hgrows₄.mono (by simp))
  have hafter₁ := (hgrows₂.mono (Set.empty_subset _)).trans hafter₂
  refine ⟨hinv₄, (hgrows₁.mono (by simp)).trans hafter₁, ?_, ?_⟩
  · exact tableOf_eq_some.2 ⟨pdpt, pgdir, hafter₁.follow hP.table (pml4x_lt 0) hf₁,
      hgrows₄.follow hpdpt.table (pdptx_lt 0) hf₃, hf₄⟩
  · rw [hentry₄ _ _ 0 hpt.table (by decide) fun hi => hpt'' hi.1]
    exact hpt₃.cleared.absent (by decide)

/-- The new process. -/
theorem setupUserMemoryPages_spec (h : VmInv U kind s) (hkern : s.kernPml4 ≠ 0) {v : ℕ}
    (hcall : setupUserMemoryPages s = some (v, s')) :
    ∃ kind' P, v = p2v P ∧ VmInv U kind' s' ∧ Grows ∅ kind s kind' s' ∧
      kind' P = some ⟨some P, 3⟩ ∧ translate true s'.ram P 0 ≠ none := by
  simp only [setupUserMemoryPages, vm_bind_eq_some] at hcall
  obtain ⟨v₁, s₁, ha₁, v₂, s₂, ha₂, v₃, s₃, ha₃, v₄, s₄, ha₄, hcall⟩ := hcall
  obtain ⟨kind₄, P, pdpt, pgdir, pt, hv₁, hv₂, hv₃, hv₄, hinv, hgrows, hP, hpdpt, hpgdir, hpt,
    hnew⟩ := blankTables h ha₁ ha₂ ha₃ ha₄
  have hlt : ∀ q k, Blank kind₄ s₄ q k → q < 2 ^ 64 := fun q k hq => hinv.lt hq.table
  rw [hv₁, hv₂, hv₃, hv₄] at hcall
  -- the tables hold zeros already
  obtain ⟨_, t, hm, hcall⟩ := hcall
  rw [hP.cleared.of_memset (hlt P _ hP) hm] at hcall
  obtain ⟨_, t, hm, hcall⟩ := hcall
  rw [hpdpt.cleared.of_memset (hlt pdpt _ hpdpt) hm] at hcall
  obtain ⟨_, t, hm, hcall⟩ := hcall
  rw [hpgdir.cleared.of_memset (hlt pgdir _ hpgdir) hm] at hcall
  obtain ⟨_, t, hm, hcall⟩ := hcall
  rw [hpt.cleared.of_memset (hlt pt _ hpt) hm] at hcall
  -- the tables are linked
  obtain ⟨_, t₁, hw₁, _, _, hget, e, t₂, hread, _, t₃, hw₂, _, t₄, hw₃, _, t₅, hw₄, page, t₆,
    halloc, _, t₇, hw₅, hret⟩ := hcall
  obtain ⟨rfl, rfl⟩ := vm_get_eq_some.1 hget
  obtain ⟨rfl, rfl⟩ := vm_pure_eq_some.1 hret
  have hkern₄ : s₄.kernPml4 ≠ 0 := by rwa [hgrows.kern]
  obtain ⟨hinv₄, hlinked, htab, habsent⟩ :=
    hinv.linkTables hkern₄ hP hpdpt hpgdir hpt hw₁ hread hw₂ hw₃ hw₄
  -- the page at 0
  rw [AllocInv.v2p_p2v (hlt P _ hP)] at halloc
  obtain ⟨hinv₅, hblock, hentry₅⟩ := hinv₄.alloc halloc
  have hstart : page ∈ Set.Ico page (page + pgsize) := start_mem_tableBlock page
  have habsent₅ : ¬Present (entry t₆.ram pt 0) := by
    rwa [hentry₅ _ _ 0 hpt.table (by decide)]
  have hunused₅ : ∀ b i, ¬Uses kind₄ t₆.ram b i page := by
    intro b i huse
    obtain ⟨x, hx, hpx⟩ := hinv₄.mem_of_uses ((VmInv.uses_congr hentry₅).1 huse)
    exact hblock.fresh page hstart x hx hpx
  have hmem : (⟨⟨page, pgsize⟩, .userMemory P⟩ : Owned) ∈ t₆.log := hblock.log ▸ List.mem_cons_self
  obtain ⟨hinv₆, hgrows₆, hf₆⟩ := hinv₅.linkPage hpt.table (i := 0) (by decide)
    (hblock.dvd (by decide)) hmem hstart (fun _ hR => Option.some.inj hR ▸ rfl) habsent₅ hunused₅
  obtain ⟨-, rfl⟩ := writeWord_eq_some.1 hw₅
  have haddr : v2p (p2v pt) = pt + 8 * 0 := AllocInv.v2p_p2v (hlt pt _ hpt)
  have hpage := hinv₅.blocks.lt_of_mem hmem hstart
  rw [haddr, (entry_value (hblock.dvd (by decide)) hpage).1]
  -- everything that was added is new
  have hfresh : ∀ a ∈ ({pdpt, pgdir, pt, page} : Set ℕ), ∀ x ∈ s.log, a ∉ x.toSet := by
    rintro a (rfl | rfl | rfl | rfl) x hx
    · exact (hnew x hx).1
    · exact (hnew x hx).2.1
    · exact (hnew x hx).2.2
    · exact hblock.fresh _ hstart x (hlinked.log x (hgrows.log x hx))
  have hlast := ((hblock.grows hentry₅).mono (Set.empty_subset {page})).trans hgrows₆
  have hall := (hgrows.mono (Set.empty_subset {pdpt, pgdir, pt, page})).trans
    ((hlinked.mono (by simp [Set.insert_subset_iff])).trans (hlast.mono (by simp)))
  refine ⟨kind₄, P, rfl, hinv₆, hall.of_fresh hfresh, hP.table, ?_⟩
  rw [translate_eq_some.2 ⟨pt, page, hlast.tableOf hinv₄ hP.table htab, hf₆, rfl⟩]
  simp

end Setup

end MicroKernel
