import MicroKernel.Vm.Isolation
import MicroKernel.Vm.Links
import MicroKernel.Vm.Load
import MicroKernel.Vm.Lookup

/-!
# The memory during a load

A load sets up a process, lets it grow, and copies to the pages that it finds by a walk.  As long as
the copies spare the page tables, the page tables are what they should be, and whatever the process
may use was handed out during the load.

* `VmInv.translate_inj` : no two addresses of a process lead to one place;
* `Loading` : the invariant, and what keeps it;
* `Reached` : the addresses up to the variable `size` are mapped.
-/

namespace MicroKernel

open Extent

attribute [local irreducible] p2v v2p pteAddr

/-! ### Where addresses lead -/

/-- The tables ignore the upper 16 bits of an address. -/
theorem translate_mod (user : Bool) (ram : Ram) (P va : ℕ) :
    translate user ram P (va % 2 ^ 48) = translate user ram P va := by
  have hpml4 : pml4x (va % 2 ^ 48) = pml4x va := by
    rw [pml4x_eq, pml4x_eq]
    omega
  have hpdpt : pdptx (va % 2 ^ 48) = pdptx va := by
    rw [pdptx_eq, pdptx_eq]
    omega
  have hpd : pdx (va % 2 ^ 48) = pdx va := by
    rw [pdx_eq, pdx_eq]
    omega
  have hpt : ptx (va % 2 ^ 48) = ptx va := by
    rw [ptx_eq, ptx_eq]
    omega
  have hoff : offset (va % 2 ^ 48) = offset va := by
    rw [offset_eq, offset_eq]
    omega
  unfold translate tableOf
  rw [hpml4, hpdpt, hpd, hpt, hoff]

section Addresses

variable {U : Set ℕ} {kind : Kinds} {s : VmState} {P va va' a b b' i i' : ℕ}

/-- No two addresses of a process lead to one place; the tables ignore the upper 16 bits. -/
theorem VmInv.translate_inj (h : VmInv U kind s) (hP : kind P = some ⟨some P, 3⟩)
    (hva : translate true s.ram P va = some a) (hva' : translate true s.ram P va' = some a) :
    va % 2 ^ 48 = va' % 2 ^ 48 := by
  obtain ⟨pt, page, htab, hpage, rfl⟩ := translate_eq_some.1 hva
  obtain ⟨pt', page', htab', hpage', hsame⟩ := translate_eq_some.1 hva'
  obtain ⟨pdpt, pd, h₁, h₂, h₃⟩ := tableOf_eq_some.1 htab
  obtain ⟨pdpt', pd', h₁', h₂', h₃'⟩ := tableOf_eq_some.1 htab'
  have hk₁ := h.kind_of_follow_true hP (pml4x_lt va) h₁
  have hk₁' := h.kind_of_follow_true hP (pml4x_lt va') h₁'
  have hk₂ := h.kind_of_follow_true hk₁ (pdptx_lt va) h₂
  have hk₂' := h.kind_of_follow_true hk₁' (pdptx_lt va') h₂'
  have hk₃ := h.kind_of_follow_true hk₂ (pdx_lt va) h₃
  have hk₃' := h.kind_of_follow_true hk₂' (pdx_lt va') h₃'
  -- the pages are the same, and so is each of the tables
  have hdvd : 4096 ∣ page := (follow_eq_some.1 hpage).2.2 ▸ pteAddr_dvd (entry_lt _ _ _)
  have hdvd' : 4096 ∣ page' := (follow_eq_some.1 hpage').2.2 ▸ pteAddr_dvd (entry_lt _ _ _)
  have hoff : page' = page ∧ offset va' = offset va := by
    rw [offset_eq, offset_eq] at hsame ⊢
    omega
  obtain ⟨rfl, hoff⟩ := hoff
  obtain ⟨rfl, hpt⟩ :=
    h.inj _ _ _ _ _ ⟨⟨_, _, hk₃⟩, ptx_lt va, hpage⟩ ⟨⟨_, _, hk₃'⟩, ptx_lt va', hpage'⟩
  obtain ⟨rfl, hpd⟩ := h.inj _ _ _ _ _ ⟨⟨_, _, hk₂⟩, pdx_lt va, h₃⟩ ⟨⟨_, _, hk₂'⟩, pdx_lt va', h₃'⟩
  obtain ⟨rfl, hpdpt⟩ :=
    h.inj _ _ _ _ _ ⟨⟨_, _, hk₁⟩, pdptx_lt va, h₂⟩ ⟨⟨_, _, hk₁'⟩, pdptx_lt va', h₂'⟩
  obtain ⟨-, hpml4⟩ := h.inj _ _ _ _ _ ⟨⟨_, _, hP⟩, pml4x_lt va, h₁⟩ ⟨⟨_, _, hP⟩, pml4x_lt va', h₁'⟩
  rw [offset_eq, offset_eq] at hoff
  rw [ptx_eq, ptx_eq] at hpt
  rw [pdx_eq, pdx_eq] at hpd
  rw [pdptx_eq, pdptx_eq] at hpdpt
  rw [pml4x_eq, pml4x_eq] at hpml4
  omega

/-- A mapped address leads to the page that a walk yields. -/
theorem walkedPage_of_translate {ram : Ram} (h : translate false ram P va = some a) :
    a = walkedPage ram P va + va % 4096 := by
  obtain ⟨pt, page, htab, hpage, rfl⟩ := translate_eq_some.1 h
  unfold walkedPage
  rw [htab, offset_eq, ← (follow_eq_some.1 hpage).2.2]
  rfl

theorem exists_page_of_translate {user : Bool} {ram : Ram} (h : translate user ram P va = some a) :
    ∃ page, pgsize ∣ page ∧ a = page + va % 4096 ∧
      ∀ va', va' / 4096 = va / 4096 → translate user ram P va' = some (page + va' % 4096) := by
  obtain ⟨pt, page, htab, hpage, rfl⟩ := translate_eq_some.1 h
  refine ⟨page, follow_dvd hpage, by rw [offset_eq], fun va' hva' => ?_⟩
  have hdvd : pgsize ∣ va / 4096 * 4096 := Nat.dvd_mul_left _ _
  have hin : va' ∈ Set.Ico (va / 4096 * 4096) (va / 4096 * 4096 + pgsize) := by
    unfold pgsize
    exact ⟨by omega, by omega⟩
  obtain ⟨htab₁, hptx₁⟩ := tableOf_page user ram P hdvd (mem_page va)
  obtain ⟨htab₂, hptx₂⟩ := tableOf_page user ram P hdvd hin
  refine translate_eq_some.2 ⟨pt, page, ?_, ?_, by rw [offset_eq]⟩
  · rw [htab₂, ← htab₁, htab]
  · rw [hptx₂, ← hptx₁, hpage]

theorem translate_add {user : Bool} {ram : Ram} {j : ℕ} (h : translate user ram P va = some a)
    (hj : va % 4096 + j < 4096) : translate user ram P (va + j) = some (a + j) := by
  obtain ⟨page, -, rfl, hall⟩ := exists_page_of_translate h
  rw [hall (va + j) (by omega)]
  congr 1
  omega

end Addresses

/-! ### Frames of the process -/

/-- The address `a` is in a page of the process `P` that was handed out since the blocks were
`log`. -/
def OwnFrame (log : List Owned) (s : VmState) (P a : ℕ) : Prop :=
  ∃ page x, pgsize ∣ page ∧ a ∈ Set.Ico page (page + pgsize) ∧ x ∈ s.log ∧ x ∉ log ∧
    x.purpose = .userMemory P ∧ page ∈ x.toSet

/-- No page table is at these addresses. -/
def SparesTables (s : VmState) (A : Set ℕ) : Prop :=
  ∀ b, tableBlock b ∈ s.log → Disjoint A (tableBlock b).toSet

section Frames

variable {U : Set ℕ} {kind : Kinds} {s s' : VmState} {log : List Owned} {P a dst n : ℕ}
  {f : ℕ → BitVec 8} {A : Set ℕ}

/-- A frame of a process meets blocks of the process only. -/
theorem OwnFrame.purpose_of_mem (h : OwnFrame log s P a) (hinv : AllocInv U s.blocks) {x : Owned}
    (hx : x ∈ s.log) (hax : a ∈ x.toSet) : x.purpose = .userMemory P ∧ x ∉ log := by
  obtain ⟨page, y, hdvd, hin, hy, hnew, hpurpose, hpage⟩ := h
  obtain rfl := hinv.eq_of_mem hx hy (hinv.page_mem hx hdvd hax hin) hpage
  exact ⟨hpurpose, hnew⟩

/-- Growth leaves the blocks that are no page tables as they were. -/
theorem Grows.ram_eq {kind' : Kinds} {x : Owned} (h : Grows ∅ kind s kind' s')
    (hinv : AllocInv U s'.blocks) (hx : x ∈ s.log) (hpurpose : x.purpose ≠ .pageTable)
    (hax : a ∈ x.toSet) : s'.ram a = s.ram a := by
  by_contra hne
  obtain ⟨y, hy, hay, hchanged⟩ := h.ram a hne
  obtain rfl := hinv.eq_of_mem hy (h.log x hx) hay hax
  rcases hchanged with hnew | htable
  · exact hnew hx
  · exact hpurpose htable

/-- Growth leaves the frames of a process as they were. -/
theorem OwnFrame.ram_eq {kind' : Kinds} (h : OwnFrame log s P a) (hgrows : Grows ∅ kind s kind' s')
    (hinv : AllocInv U s'.blocks) : s'.ram a = s.ram a := by
  obtain ⟨page, y, hdvd, hin, hy, -, hpurpose, hpage⟩ := h
  by_contra hne
  obtain ⟨x, hx, hax, -⟩ := hgrows.ram a hne
  obtain rfl := hinv.eq_of_mem hx (hgrows.log y hy) (hinv.page_mem hx hdvd hax hin) hpage
  exact hne (hgrows.ram_eq hinv hy (by rw [hpurpose]; exact Purpose.noConfusion) hax)

theorem sparesTables_of_own (hinv : AllocInv U s.blocks) (h : ∀ a ∈ A, OwnFrame log s P a) :
    SparesTables s A := by
  intro b hb
  refine Set.disjoint_left.2 fun a ha hab => ?_
  have hpurpose := ((h a ha).purpose_of_mem hinv hb hab).1
  cases hpurpose

theorem AllocInv.pgsize_le_of_mem (h : AllocInv U s.blocks) {x : Owned} (hx : x ∈ s.log)
    (ha : a ∈ x.toSet) : pgsize ≤ a :=
  (h.safe.pgsize_le _ (mem_blocks hx ha)).trans ha.1

theorem sparesTables_of_lt (hinv : AllocInv U s.blocks) (h : ∀ a ∈ A, a < pgsize) :
    SparesTables s A := by
  intro b hb
  refine Set.disjoint_left.2 fun a ha hab => ?_
  exact absurd (hinv.pgsize_le_of_mem hb hab) (Nat.not_le.2 (h a ha))

theorem SparesTables.entry_eq (h : SparesTables s (Set.Ico dst (dst + n))) {b i : ℕ}
    (hb : tableBlock b ∈ s.log) (hi : i < 512) :
    entry (s.ram.writeBytes dst n f) b i = entry s.ram b i :=
  entry_congr hi fun _ ha =>
    Ram.writeBytes_of_not_mem fun hin => Set.disjoint_left.1 (h b hb) hin ha

end Frames

/-! ### The invariant -/

/-- During a load to the process `P`, which began in the state `s₀`. -/
structure Loading (U : Set ℕ) (kind₀ : Kinds) (s₀ : VmState) (P : ℕ) (kind : Kinds) (s : VmState) :
    Prop where
  /-- The page tables are what they should be. -/
  inv : VmInv U kind s
  /-- The page table of the process. -/
  top : kind P = some ⟨some P, 3⟩
  /-- It is new. -/
  fresh : ∀ x ∈ s₀.log, P ∉ x.toSet
  /-- The process has a page at 0. -/
  zero : translate true s.ram P 0 ≠ none
  /-- The tables that were there are there. -/
  tables : ∀ b k, kind₀ b = some k → kind b = some k
  /-- Entries for user mode were there, or lead to blocks that are new. -/
  uses : ∀ b i a, Uses kind s.ram b i a → Uses kind₀ s₀.ram b i a ∨ ∀ x ∈ s₀.log, a ∉ x.toSet
  /-- Entries that were added are links for user mode, but for the one shared with the kernel. -/
  links : Links {(P, 511)} s₀ s

namespace Loading

variable {U : Set ℕ} {kind₀ kind : Kinds} {s₀ s s' : VmState} {P va a : ℕ}

/-- `setup_user_memory_pages` begins a load. -/
theorem start {v : ℕ} (h₀ : VmInv U kind₀ s₀) (hkern : s₀.kernPml4 ≠ 0)
    (hcall : setupUserMemoryPages s₀ = some (v, s)) :
    ∃ kind P, v = p2v P ∧ v2p v = P ∧ Loading U kind₀ s₀ P kind s ∧ Grows ∅ kind₀ s₀ kind s := by
  obtain ⟨kind, P, hv, hinv, hgrows, hP, hzero⟩ := setupUserMemoryPages_spec h₀ hkern hcall
  obtain ⟨P', hv', hlow, hfresh, hlinks⟩ := setupUserMemoryPages_links h₀.blocks hcall
  have hPlt := hinv.lt hP
  obtain rfl : P' = P := by
    rw [← AllocInv.v2p_p2v hPlt, ← hv, hv', AllocInv.v2p_p2v (by omega)]
  refine ⟨kind, P', hv, by rw [hv, AllocInv.v2p_p2v hPlt], ⟨hinv, hP, hfresh, hzero, hgrows.tables,
    fun b i a huse => ?_, hlinks.links⟩, hgrows⟩
  rcases hgrows.uses b i a huse with hold | hin | hnew
  · exact Or.inl hold
  · exact absurd hin (Set.notMem_empty a)
  · exact Or.inr hnew

/-- `alloc_uvm` keeps the invariant. -/
theorem grow {oldSize newSize : ℕ} {r : ℤ} (h : Loading U kind₀ s₀ P kind s)
    (hold : oldSize < 2 ^ 64) (hnew : newSize < 2 ^ 64)
    (hcall : allocUvm (p2v P) oldSize newSize s = some (r, s')) :
    ∃ kind', Loading U kind₀ s₀ P kind' s' ∧ Grows ∅ kind s kind' s' ∧
      (r = if newSize < oldSize then toInt32 (oldSize % 2 ^ 32) else toInt32 (newSize % 2 ^ 32)) ∧
      ∀ va, pgroundup oldSize ≤ va → va < newSize → oldSize ≤ newSize →
        follow true s.ram P (pml4x va) ≠ none → translate true s'.ram P va ≠ none := by
  have hzero : translate false s.ram P 0 ≠ none :=
    ne_none_of_imp (fun a ha => translate_false_of_translate ha) h.zero
  obtain ⟨kind', hinv', hgrows, hr, hmapped⟩ := allocUvm_spec h.inv h.top hzero hold hnew hcall
  have hP : 8 ∣ p2v P := dvd_p2v ((show 8 ∣ pgsize by decide).trans (h.inv.dvd h.top))
  obtain ⟨-, hlinks, -⟩ := linksOnly_allocUvm (E := {(P, 511)}) hP h.inv.blocks hcall
  refine ⟨kind', ⟨hinv', hgrows.tables P _ h.top, h.fresh, ?_, fun b k hb =>
    hgrows.tables b k (h.tables b k hb), fun b i a huse => ?_, h.links.trans hlinks.links⟩,
      hgrows, hr,
    hmapped⟩
  · exact ne_none_of_imp (fun a ha => hgrows.translate h.inv h.top ha) h.zero
  · rcases hgrows.uses b i a huse with hmid | hin | hnew'
    · exact h.uses b i a hmid
    · exact absurd hin (Set.notMem_empty a)
    · exact Or.inr fun x hx => hnew' x (h.links.log x hx)

theorem store {dst n : ℕ} {f : ℕ → BitVec 8} (h : Loading U kind₀ s₀ P kind s)
    (hout : SparesTables s (Set.Ico dst (dst + n))) :
    Loading U kind₀ s₀ P kind { s with ram := s.ram.writeBytes dst n f } ∧
      ∀ va user a, translate user s.ram P va = some a →
        translate user (s.ram.writeBytes dst n f) P va = some a := by
  have hentry : ∀ b k i, kind b = some k → i < 512 →
      entry (s.ram.writeBytes dst n f) b i = entry s.ram b i :=
    fun b k i hb hi => hout.entry_eq (h.inv.table b k hb) hi
  have hkeep : ∀ va user a, translate user s.ram P va = some a →
      translate user (s.ram.writeBytes dst n f) P va = some a := fun va user a ha =>
    h.inv.translate_of_entries h.top (fun b k i hb hi _ => hentry b k i hb hi) ha
  have hinv : VmInv U kind { s with ram := s.ram.writeBytes dst n f } := by
    refine h.inv.mono ?_ rfl (fun _ hx => hx) rfl hentry
    rw [blocks_ram]
    exact h.inv.blocks
  have hlinks : Links {(P, 511)} s { s with ram := s.ram.writeBytes dst n f } :=
    .of_entries rfl fun b i hb hi => hout.entry_eq hb hi
  have huses : ∀ b i a, Uses kind (s.ram.writeBytes dst n f) b i a →
      Uses kind₀ s₀.ram b i a ∨ ∀ x ∈ s₀.log, a ∉ x.toSet := by
    rintro b i a ⟨⟨Q, l, hb⟩, hi, hfollow⟩
    refine h.uses b i a ⟨⟨Q, l, hb⟩, hi, ?_⟩
    rw [← hfollow]
    unfold follow
    rw [hentry b _ i hb hi]
  have hzero : translate true (s.ram.writeBytes dst n f) P 0 ≠ none :=
    ne_none_of_imp (hkeep 0 true) h.zero
  exact ⟨⟨hinv, h.top, h.fresh, hzero, h.tables, huses, h.links.trans hlinks⟩, hkeep⟩

theorem translate_store {user : Bool} {dst n : ℕ} {f : ℕ → BitVec 8}
    (h : Loading U kind₀ s₀ P kind s) (hout : SparesTables s (Set.Ico dst (dst + n))) (va : ℕ) :
    translate user (s.ram.writeBytes dst n f) P va = translate user s.ram P va := by
  obtain ⟨hload, hkeep⟩ := h.store (f := f) hout
  cases hva : translate user s.ram P va with
  | some a => exact hkeep va user a hva
  | none =>
    refine Option.eq_none_iff_forall_ne_some.2 fun a ha => ?_
    rw [hload.inv.translate_of_entries h.top (fun b k i hb hi _ =>
      (hout.entry_eq (h.inv.table b k hb) hi).symm) ha] at hva
    cases hva

/-! ### What the process may use -/

/-- Entries of the process lead to what was handed out during the load. -/
theorem fresh_of_follow (h : Loading U kind₀ s₀ P kind s) (h₀ : VmInv U kind₀ s₀) {b i l : ℕ}
    (hb : kind b = some ⟨some P, l⟩) (hfresh : ∀ x ∈ s₀.log, b ∉ x.toSet) (hi : i < 512)
    (hfollow : follow true s.ram b i = some a) : ∀ x ∈ s₀.log, a ∉ x.toSet := by
  rcases h.uses b i a ⟨⟨P, l, hb⟩, hi, hfollow⟩ with ⟨⟨Q, l', hb₀⟩, -⟩ | hnew
  · exact absurd (start_mem_tableBlock b) (hfresh _ (h₀.table b _ hb₀))
  · exact hnew

theorem fresh_of_tableOf (h : Loading U kind₀ s₀ P kind s) (h₀ : VmInv U kind₀ s₀) {pt : ℕ}
    (htab : tableOf true s.ram P va = some pt) : ∀ x ∈ s₀.log, pt ∉ x.toSet := by
  obtain ⟨pdpt, pd, h₁, h₂, h₃⟩ := tableOf_eq_some.1 htab
  have hk₁ := h.inv.kind_of_follow_true h.top (pml4x_lt va) h₁
  have hk₂ := h.inv.kind_of_follow_true hk₁ (pdptx_lt va) h₂
  have hf₁ := h.fresh_of_follow h₀ h.top h.fresh (pml4x_lt va) h₁
  have hf₂ := h.fresh_of_follow h₀ hk₁ hf₁ (pdptx_lt va) h₂
  exact h.fresh_of_follow h₀ hk₂ hf₂ (pdx_lt va) h₃

/-- The process may use its own frames only. -/
theorem own_of_translate (h : Loading U kind₀ s₀ P kind s) (h₀ : VmInv U kind₀ s₀)
    (hmap : translate true s.ram P va = some a) : OwnFrame s₀.log s P a := by
  obtain ⟨page, x, hdvd, hin, hx, hpurpose, hpage⟩ := h.inv.user_page h.top hmap
  obtain ⟨pt, page', htab, hfollow, rfl⟩ := translate_eq_some.1 hmap
  have hk := h.inv.kind_of_tableOf_true h.top htab
  have hnew := h.fresh_of_follow h₀ hk (h.fresh_of_tableOf h₀ htab) (ptx_lt va) hfollow
  have hdvd' : 4096 ∣ page' := (follow_eq_some.1 hfollow).2.2 ▸ pteAddr_dvd (entry_lt _ _ _)
  have hoff : offset va < 4096 := offset_eq va ▸ Nat.mod_lt _ (by decide)
  obtain rfl : page' = page := by
    obtain ⟨h₁, h₂⟩ := hin
    unfold pgsize at hdvd h₂
    omega
  exact ⟨page', x, hdvd, hin, hx, fun hold => hnew x hold hpage, hpurpose, hpage⟩

theorem entry_cases (h : Loading U kind₀ s₀ P kind s) {b i : ℕ} {k : TableKind}
    (hb : kind b = some k) (hfresh : ∀ x ∈ s₀.log, b ∉ x.toSet) (hi : i < 512)
    (hne : ¬(b = P ∧ i = 511)) :
    entry s.ram b i = 0 ∨ Present (entry s.ram b i) ∧ User (entry s.ram b i) := by
  have hout : (b, i) ∉ ({(P, 511)} : Set (ℕ × ℕ)) := fun hin => by
    obtain ⟨hb', hi'⟩ := Prod.mk.inj hin
    exact hne ⟨hb', hi'⟩
  rcases h.links.entries b i (h.inv.table b k hb) hi hout with ⟨hold, -⟩ | hnew
  · exact absurd (start_mem_tableBlock b) (hfresh _ hold)
  · exact hnew

theorem entry_eq_zero (h : Loading U kind₀ s₀ P kind s) (h₀ : VmInv U kind₀ s₀) {pt : ℕ}
    (htab : tableOf true s.ram P va = some pt) (hmap : translate true s.ram P va = none) :
    entry s.ram pt (ptx va) = 0 := by
  have hk := h.inv.kind_of_tableOf_true h.top htab
  have hne : ¬(pt = P ∧ ptx va = 511) := by
    rintro ⟨rfl, -⟩
    rw [h.top] at hk
    cases hk
  refine (h.entry_cases hk (h.fresh_of_tableOf h₀ htab) (ptx_lt va) hne).resolve_right ?_
  rintro ⟨hp, hu⟩
  rw [translate_eq_some.2 ⟨pt, _, htab, follow_eq_some.2 ⟨hp, fun _ => hu, rfl⟩, rfl⟩] at hmap
  cases hmap

/-- A walk in the user half stays with the process. -/
theorem tableOf_true_of_false (h : Loading U kind₀ s₀ P kind s) (hva : pml4x va ≠ 511) {pt : ℕ}
    (htab : tableOf false s.ram P va = some pt) : tableOf true s.ram P va = some pt := by
  obtain ⟨pdpt, pd, h₁, h₂, h₃⟩ := tableOf_eq_some.1 htab
  obtain ⟨hp₁, -, ha₁⟩ := follow_eq_some.1 h₁
  have hu₁ : User (entry s.ram P (pml4x va)) := by
    rcases h.entry_cases h.top h.fresh (pml4x_lt va) fun hne => hva hne.2 with hzero | hlink
    · rw [hzero] at hp₁
      exact absurd hp₁ (by decide)
    · exact hlink.2
  have ht₁ : follow true s.ram P (pml4x va) = some pdpt :=
    follow_eq_some.2 ⟨hp₁, fun _ => hu₁, ha₁⟩
  have hk₁ := h.inv.kind_of_follow_true h.top (pml4x_lt va) ht₁
  have huser : ∀ {b i l a}, kind b = some ⟨some P, l + 1⟩ → l < 2 → i < 512 →
      follow false s.ram b i = some a → follow true s.ram b i = some a := by
    intro b i l a hb hl hi hfollow
    obtain ⟨hp, -, ha⟩ := follow_eq_some.1 hfollow
    rcases h.inv.next hb hi hp with ⟨-, hu⟩ | ⟨rfl, -, -⟩
    · exact follow_eq_some.2 ⟨hp, fun _ => hu (by simp), ha⟩
    · exact absurd hl (lt_irrefl 2)
  have ht₂ := huser hk₁ (by decide) (pdptx_lt va) h₂
  have hk₂ := h.inv.kind_of_follow_true hk₁ (pdptx_lt va) ht₂
  exact tableOf_eq_some.2 ⟨pdpt, pd, ht₁, ht₂, huser hk₂ (by decide) (pdx_lt va) h₃⟩

/-- Where a walk in the user half finds a page, the process may use it. -/
theorem translate_of_walkedPage (h : Loading U kind₀ s₀ P kind s) (h₀ : VmInv U kind₀ s₀)
    (hva : pml4x va ≠ 511) (hpage : walkedPage s.ram P va ≠ 0) :
    translate true s.ram P va ≠ none := by
  cases htab : tableOf false s.ram P va with
  | none =>
    unfold walkedPage at hpage
    rw [htab] at hpage
    exact absurd rfl hpage
  | some pt =>
    have haddr : walkedPage s.ram P va = pteAddr (entry s.ram pt (ptx va)) := by
      unfold walkedPage
      rw [htab]
      rfl
    rw [haddr] at hpage
    intro hnone
    rw [h.entry_eq_zero h₀ (h.tableOf_true_of_false hva htab) hnone] at hpage
    exact hpage (by unfold pteAddr; rfl)

end Loading

end MicroKernel
