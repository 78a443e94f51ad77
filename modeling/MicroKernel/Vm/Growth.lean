import Mathlib.Data.Finset.Card
import Mathlib.Order.Interval.Finset.Nat
import MicroKernel.Vm.Effects
import MicroKernel.Vm.KernelWindow
import MicroKernel.Vm.LoadReturns

/-!
# Processes that grow

A process starts with one page and grows by calls of `alloc_uvm`, each with the size that the last
one returned.  The pages up to the size are mapped and no others, so that the next page is never
mapped already.

* `MapLoopRemaps`, `AllocUvmRemaps` : the calls that get to the panic `remap`;
* `Loading.mapPage` : one page is mapped, and nothing else;
* `growSystem`, `Grown` : the calls of `alloc_uvm` and what they keep;
* `allocUvm_contiguous` : the pages of a process in every state.
-/

namespace MicroKernel

open Extent

attribute [local irreducible] p2v v2p pteAddr

/-! ### The panic -/

/-- The loop of `map_pages` gets to a page whose entry is present. -/
inductive MapLoopRemaps (pml4 last perm : ℕ) : ℕ → ℕ → VmState → Prop
  /-- This page. -/
  | here {first pa pte e : ℕ} {s s₁ s₂ : VmState}
      (walk : pageWalkReturnPte pml4 first true s = some (pte, s₁)) (found : pte ≠ 0)
      (read : readWord pte s₁ = some (e, s₂)) (present : Present e) :
      MapLoopRemaps pml4 last perm first pa s
  /-- A later one. -/
  | next {first pa pte e : ℕ} {u : Unit} {s s₁ s₂ s₃ : VmState}
      (walk : pageWalkReturnPte pml4 first true s = some (pte, s₁)) (found : pte ≠ 0)
      (read : readWord pte s₁ = some (e, s₂)) (absent : ¬Present e)
      (write : writeWord pte (pa ||| perm ||| pteP) s₂ = some (u, s₃)) (more : first ≠ last)
      (rest : MapLoopRemaps pml4 last perm (add64 first pgsize) (add64 pa pgsize) s₃) :
      MapLoopRemaps pml4 last perm first pa s

/-- A call of `map_pages` ends with the panic `remap`. -/
def MapPagesRemaps (pml4 va size pa perm : ℕ) (s : VmState) : Prop :=
  MapLoopRemaps pml4 (pgrounddown (sub64 (add64 va size) 1)) perm (pgrounddown va) pa s

/-- The loop of `alloc_uvm` gets to such a call. -/
inductive AllocUvmLoopRemaps (pml4 newSize : ℕ) : ℕ → ℕ → VmState → Prop
  /-- For this page. -/
  | here {va mem : ℕ} {s : VmState} (lt : va < newSize)
      (remaps : MapPagesRemaps pml4 va pgsize mem (pteW ||| pteU) s) :
      AllocUvmLoopRemaps pml4 newSize va mem s
  /-- For a later one. -/
  | next {va mem : ℕ} {r : ℤ} {s s' : VmState} (lt : va < newSize)
      (call : mapPages pml4 va pgsize mem (pteW ||| pteU) s = some (r, s'))
      (rest : AllocUvmLoopRemaps pml4 newSize (add64 va pgsize) (add64 mem pgsize) s') :
      AllocUvmLoopRemaps pml4 newSize va mem s

/-- A call of `alloc_uvm` ends with the panic `remap`. -/
def AllocUvmRemaps (pml4 oldSize newSize : ℕ) (s : VmState) : Prop :=
  ¬newSize < oldSize ∧ ∃ mem s₁,
    Vm.memblockAlloc (newSize - oldSize) pgsize (.userMemory (v2p pml4)) s = some (mem, s₁) ∧
      AllocUvmLoopRemaps pml4 newSize (pgroundup oldSize) mem s₁

section Panic

variable {pml4 last perm first pa va mem size oldSize newSize : ℕ} {s : VmState}

theorem MapLoopRemaps.eq_none (h : MapLoopRemaps pml4 last perm first pa s) (n : ℕ) :
    mapLoop pml4 last perm n first pa s = none := by
  refine Option.eq_none_iff_forall_ne_some.2 fun ⟨r, s'⟩ hcall => ?_
  induction h generalizing n with
  | here walk found read present =>
    cases n with
    | zero => cases hcall
    | succ n =>
      simp only [mapLoop, vm_bind_eq_some, walk, Option.some.injEq, Prod.mk.injEq] at hcall
      obtain ⟨_, _, ⟨rfl, rfl⟩, hcall⟩ := hcall
      simp only [if_neg found, vm_bind_eq_some, read, Option.some.injEq, Prod.mk.injEq] at hcall
      obtain ⟨_, _, ⟨rfl, rfl⟩, hcall⟩ := hcall
      rw [if_pos present] at hcall
      cases hcall
  | next walk found read absent write more rest ih =>
    cases n with
    | zero => cases hcall
    | succ n =>
      simp only [mapLoop, vm_bind_eq_some, walk, Option.some.injEq, Prod.mk.injEq] at hcall
      obtain ⟨_, _, ⟨rfl, rfl⟩, hcall⟩ := hcall
      simp only [if_neg found, vm_bind_eq_some, read, Option.some.injEq, Prod.mk.injEq] at hcall
      obtain ⟨_, _, ⟨rfl, rfl⟩, hcall⟩ := hcall
      simp only [if_neg absent, vm_bind_eq_some, write, Option.some.injEq, Prod.mk.injEq] at hcall
      obtain ⟨_, _, ⟨-, rfl⟩, hcall⟩ := hcall
      rw [if_neg more] at hcall
      exact ih n hcall

/-- A call that gets to the panic does not return. -/
theorem MapPagesRemaps.eq_none (h : MapPagesRemaps pml4 va size pa perm s) :
    mapPages pml4 va size pa perm s = none := MapLoopRemaps.eq_none h _

theorem AllocUvmLoopRemaps.eq_none (h : AllocUvmLoopRemaps pml4 newSize va mem s) (n : ℕ) :
    allocUvmLoop pml4 newSize n va mem s = none := by
  refine Option.eq_none_iff_forall_ne_some.2 fun ⟨u, s'⟩ hcall => ?_
  induction h generalizing n with
  | here lt remaps =>
    cases n with
    | zero => cases hcall
    | succ n =>
      simp only [allocUvmLoop, if_pos lt, vm_bind_eq_some, remaps.eq_none, reduceCtorEq,
        false_and, exists_false] at hcall
  | next lt call rest ih =>
    cases n with
    | zero => cases hcall
    | succ n =>
      simp only [allocUvmLoop, if_pos lt, vm_bind_eq_some, call, Option.some.injEq,
        Prod.mk.injEq] at hcall
      obtain ⟨_, _, ⟨-, rfl⟩, hcall⟩ := hcall
      exact ih n hcall

theorem AllocUvmRemaps.eq_none (h : AllocUvmRemaps pml4 oldSize newSize s) :
    allocUvm pml4 oldSize newSize s = none := by
  obtain ⟨hle, mem, s₁, halloc, hloop⟩ := h
  refine Option.eq_none_iff_forall_ne_some.2 fun ⟨r, s'⟩ hcall => ?_
  simp only [allocUvm, if_neg hle, vm_bind_eq_some, halloc, Option.some.injEq,
    Prod.mk.injEq] at hcall
  obtain ⟨_, _, ⟨rfl, rfl⟩, u, s₂, hrun, -⟩ := hcall
  rw [hloop.eq_none] at hrun
  cases hrun

end Panic

/-! ### What a walk adds -/

/-- From `s` to `s'`, blocks were handed out for page tables only. -/
def AddsTables (s s' : VmState) : Prop := ∀ x ∈ s'.log, x ∈ s.log ∨ x.purpose = .pageTable

instance : IsPreorder VmState AddsTables where
  refl _ _ hx := Or.inl hx
  trans _ _ _ h h' x hx := (h' x hx).elim (h x) Or.inr

/-- The program takes memory for page tables only. -/
def TablesOnly {α : Type} (x : VmM α) : Prop := Frames (fun _ => True) AddsTables x fun _ => True

section Walks

variable {pml4 va last perm : ℕ} {alloc : Bool}

theorem effects_addsTables : Effects (fun _ => True) AddsTables {.pageTable} where
  ram s _ _ := ⟨trivial, refl (r := AddsTables) s⟩
  reserve size maxAddr purpose hpurpose := by
    intro s p s' _ h
    obtain ⟨m, -, rfl⟩ := reserveBlock_eq_some.1 h
    refine ⟨trivial, fun x hx => ?_, trivial⟩
    rcases List.mem_cons.1 hx with rfl | hold
    · exact Or.inr hpurpose
    · exact Or.inl hold

theorem tablesOnly_walkTables : TablesOnly (walkTables pml4 va alloc) :=
  effects_addsTables.walkTables rfl

/-- `map_pages` takes memory for page tables only. -/
theorem tablesOnly_mapLoop (n first pa : ℕ) : TablesOnly (mapLoop pml4 last perm n first pa) :=
  effects_addsTables.mapLoop rfl n first pa

end Walks

section Added

variable {U A : Set ℕ} {kind kind' : Kinds} {s s' : VmState} {b i l P va a : ℕ}

/-- Where memory was taken for tables only, an entry that leads to an old block was there. -/
theorem VmInv.follow_back (h : VmInv U kind s) (hgrows : Grows A kind s kind' s')
    (hb : kind' b = some ⟨some P, l⟩) (hi : i < 512) (hfollow : follow true s'.ram b i = some a)
    {x : Owned} (hx : x ∈ s.log) (hax : a ∈ x.toSet) (hA : a ∉ A) :
    follow true s.ram b i = some a ∧ tableBlock b ∈ s.log := by
  rcases hgrows.uses b i a ⟨⟨P, l, hb⟩, hi, hfollow⟩ with
    ⟨⟨Q, l', hold⟩, -, hfollow'⟩ | hin | hnew
  · exact ⟨hfollow', h.table b _ hold⟩
  · exact absurd hin hA
  · exact absurd hax (hnew x hx)

/-- Where memory was taken for tables only, the pages of a process were there, or are those in
`A`. -/
theorem VmInv.translate_back (h : VmInv U kind s) (hgrows : Grows A kind s kind' s')
    (h' : VmInv U kind' s') (hadds : AddsTables s s')
    (hA : ∀ q ∈ A, ∃ x ∈ s.log, q ∈ x.toSet ∧ x.purpose ≠ .pageTable)
    (hP : kind' P = some ⟨some P, 3⟩) (hmap : translate true s'.ram P va = some a) :
    translate true s.ram P va = some a ∨ ∃ page ∈ A, a ∈ Set.Ico page (page + pgsize) := by
  obtain ⟨pt, page, htab, hpage, rfl⟩ := translate_eq_some.1 hmap
  obtain ⟨pdpt, pd, h₁, h₂, h₃⟩ := tableOf_eq_some.1 htab
  have hk₁ := h'.kind_of_follow_true hP (pml4x_lt va) h₁
  have hk₂ := h'.kind_of_follow_true hk₁ (pdptx_lt va) h₂
  have hk₃ := h'.kind_of_follow_true hk₂ (pdx_lt va) h₃
  by_cases hin : page ∈ A
  · refine Or.inr ⟨page, hin, Nat.le_add_right _ _, Nat.add_lt_add_left ?_ _⟩
    rw [offset_eq]
    exact Nat.mod_lt _ (by decide)
  -- the page is in an old block, and so is each of the tables on the way
  obtain ⟨x, hx, hpurpose, hmem⟩ := h'.page_of_follow_true hk₃ (ptx_lt va) hpage
  have hold : x ∈ s.log := (hadds x hx).resolve_right fun htable => by
    rw [hpurpose] at htable
    cases htable
  have hout : ∀ {b}, tableBlock b ∈ s.log → b ∉ A := by
    intro b hb hbA
    obtain ⟨y, hy, hby, hne⟩ := hA b hbA
    obtain rfl := h.blocks.eq_of_mem hb hy (start_mem_tableBlock b) hby
    exact hne rfl
  obtain ⟨hf₄, hb₄⟩ := h.follow_back hgrows hk₃ (ptx_lt va) hpage hold hmem hin
  obtain ⟨hf₃, hb₃⟩ :=
    h.follow_back hgrows hk₂ (pdx_lt va) h₃ hb₄ (start_mem_tableBlock pt) (hout hb₄)
  obtain ⟨hf₂, hb₂⟩ :=
    h.follow_back hgrows hk₁ (pdptx_lt va) h₂ hb₃ (start_mem_tableBlock pd) (hout hb₃)
  obtain ⟨hf₁, -⟩ :=
    h.follow_back hgrows hP (pml4x_lt va) h₁ hb₂ (start_mem_tableBlock pdpt) (hout hb₂)
  exact Or.inl (translate_eq_some.2
    ⟨pt, page, tableOf_eq_some.2 ⟨pdpt, pd, hf₁, hf₂, hf₃⟩, hf₄, rfl⟩)

end Added

/-! ### One page -/

namespace Loading

variable {U : Set ℕ} {kind₀ kind : Kinds} {s₀ s s' : VmState} {P va pa mem : ℕ} {x : Owned}

theorem follow_top (h : Loading U kind₀ s₀ P kind s) (hlow : va < 2 ^ 39) :
    ∃ pdpt, follow true s.ram P (pml4x va) = some pdpt := by
  obtain ⟨a, ha⟩ := Option.ne_none_iff_exists'.1 h.zero
  obtain ⟨pt, page, htab, -, -⟩ := translate_eq_some.1 ha
  obtain ⟨pdpt, pd, htop, -, -⟩ := tableOf_eq_some.1 htab
  have hsame : pml4x va = pml4x 0 := by
    rw [pml4x_eq, pml4x_eq]
    omega
  exact ⟨pdpt, hsame ▸ htop⟩

/-- Where a page is not mapped, `map_pages` does not panic. -/
theorem not_mapPagesRemaps (h : Loading U kind₀ s₀ P kind s) {perm : ℕ} (hva : pgsize ∣ va)
    (hlow : va < 2 ^ 39) (hmap : translate true s.ram P va = none) :
    ¬MapPagesRemaps (p2v P) va pgsize pa perm s := by
  intro hremaps
  obtain ⟨hfirst, hlast⟩ := lastPage_eq hva (by omega)
  unfold MapPagesRemaps at hremaps
  rw [hfirst, hlast] at hremaps
  cases hremaps with
  | next walk found read absent write more rest => exact more rfl
  | @here _ _ pte e _ s₁ s₂ walk found read present =>
    simp only [pageWalkReturnPte, vm_bind_eq_some] at walk
    obtain ⟨r, s₃, hwalk, hpte⟩ := walk
    obtain ⟨kind₁, pt, o, hinv, hgrows, rfl, hpt, htab, ho⟩ := walkTables_spec h.inv h.top hwalk
    obtain ⟨rfl, rfl⟩ := vm_pure_eq_some.1 hpte
    rw [readWord_entry (hinv.low pt _ hpt) (ptx_lt va)] at read
    obtain ⟨rfl, rfl⟩ := Prod.mk.inj (Option.some.inj read)
    -- the table is one of the process, so that the page would be mapped
    obtain ⟨pdpt, htop⟩ := h.follow_top hlow
    rcases ho with ⟨rfl, huser⟩ | ⟨-, hnone⟩
    · have hfollow :
          follow true s₃.ram pt (ptx va) = some (pteAddr (entry s₃.ram pt (ptx va))) := by
        refine follow_true present ?_
        have htarget := hinv.target pt _ (ptx va) hpt (ptx_lt va) present
        generalize entry s₃.ram pt (ptx va) = pte at htarget
        cases htarget with
        | page user _ _ _ => exact user
      have hadds : AddsTables s s₃ := (tablesOnly_walkTables trivial hwalk).2.1
      have hback := h.inv.translate_back hgrows hinv hadds (by simp) (hgrows.tables P _ h.top)
        (translate_eq_some.2 ⟨pt, _, huser, hfollow, rfl⟩)
      rw [hmap] at hback
      rcases hback with hsome | ⟨_, hin, -⟩
      · cases hsome
      · exact hin
    · rw [hgrows.follow h.top (pml4x_lt va) htop] at hnone
      cases hnone

/-- `map_pages` maps one page of a block that is new, and nothing else. -/
theorem mapPage (h : Loading U kind₀ s₀ P kind s) (hva : pgsize ∣ va) (hlow : va < 2 ^ 39)
    (hx : x ∈ s.log) (hnew : x ∉ s₀.log) (hpurpose : x.purpose = .userMemory P)
    (hpa : pgsize ∣ pa) (hin : pa ∈ x.toSet) (hunused : ∀ b i, ¬Uses kind s.ram b i pa) {r : ℤ}
    (hcall : mapPages (p2v P) va pgsize pa (pteW ||| pteU) s = some (r, s')) :
    ∃ kind', Loading U kind₀ s₀ P kind' s' ∧ Grows {pa} kind s kind' s' ∧
      ∀ va', translate true s'.ram P va' ≠ none ↔
        translate true s.ram P va' ≠ none ∨ va' % 2 ^ 48 ∈ Set.Ico va (va + pgsize) := by
  obtain ⟨kind', hinv, hgrows, hmapped⟩ :=
    mapPages_spec h.inv h.top hva (by omega) hpa hx hpurpose hin hunused hcall
  have hP' := hgrows.tables P _ h.top
  obtain ⟨pdpt, htop⟩ := h.follow_top hlow
  have hpage : translate true s'.ram P va = some pa := by
    refine hmapped ?_
    rw [hgrows.follow h.top (pml4x_lt va) htop]
    exact Option.some_ne_none _
  have hP : 8 ∣ p2v P := dvd_p2v ((show 8 ∣ pgsize by decide).trans (h.inv.dvd h.top))
  obtain ⟨-, hlinks, -⟩ := linksOnly_mapLoop (E := {(P, 511)}) hP _ _ _ h.inv.blocks hcall
  have hadds : AddsTables s s' := (tablesOnly_mapLoop _ _ _ trivial hcall).2.1
  refine ⟨kind', ⟨hinv, hP', h.fresh, ne_none_of_imp (fun a ha => hgrows.translate h.inv h.top ha)
    h.zero, fun b k hb => hgrows.tables b k (h.tables b k hb), fun b i a huse => ?_,
    h.links.trans hlinks.links⟩, hgrows, fun va' => ⟨fun hva' => ?_, fun hva' => ?_⟩⟩
  · rcases hgrows.uses b i a huse with hmid | rfl | hfresh
    · exact h.uses b i a hmid
    · refine Or.inr fun y hy hay => hnew ?_
      rwa [h.inv.blocks.eq_of_mem hx (h.links.log y hy) hin hay]
    · exact Or.inr fun y hy => hfresh y (h.links.log y hy)
  · obtain ⟨a, ha⟩ := Option.ne_none_iff_exists'.1 hva'
    have hne : x.purpose ≠ .pageTable := hpurpose ▸ Purpose.noConfusion
    rcases h.inv.translate_back hgrows hinv hadds
      (fun q hq => ⟨x, hx, (Set.mem_singleton_iff.1 hq) ▸ hin, hne⟩) hP' ha with
      hold | ⟨_, rfl, hina⟩
    · exact Or.inl (by rw [hold]; exact Option.some_ne_none a)
    · -- no other address leads to the page
      obtain ⟨j, rfl⟩ := Nat.exists_eq_add_of_le hina.1
      have hj : j < pgsize := Nat.lt_of_add_lt_add_left hina.2
      unfold pgsize at hva hj ⊢
      have hsame := hinv.translate_inj hP' ha (translate_add (j := j) hpage (by omega))
      exact Or.inr ⟨by omega, by omega⟩
  · rcases hva' with hold | hin'
    · exact ne_none_of_imp (fun a ha => hgrows.translate h.inv h.top ha) hold
    · rw [← translate_mod, translate_page hva hin' hpage]
      exact Option.some_ne_none _

theorem alloc (h : Loading U kind₀ s₀ P kind s) {size maxAddr p : ℕ} {purpose : Purpose}
    (hcall : Vm.memblockAllocBase size pgsize maxAddr purpose s = some (p, s')) :
    Loading U kind₀ s₀ P kind s' ∧
      ∀ va, translate true s'.ram P va = translate true s.ram P va := by
  obtain ⟨hinv, hblock, hentry⟩ := h.inv.alloc hcall
  have hgrows := hblock.grows hentry
  obtain ⟨-, hlinks, -⟩ := linksOnly_memblockAllocBase (E := {(P, 511)}) h.inv.blocks hcall
  refine ⟨⟨hinv, h.top, h.fresh, ne_none_of_imp (fun a ha => hgrows.translate h.inv h.top ha)
    h.zero, h.tables, fun b i a huse => h.uses b i a ((VmInv.uses_congr hentry).1 huse),
    h.links.trans hlinks.links⟩, fun va => Option.ext fun a => ⟨fun ha => ?_, fun ha => ?_⟩⟩
  · exact hinv.translate_of_entries h.top (fun b k i hb hi _ => (hentry b k i hb hi).symm) ha
  · exact hgrows.translate h.inv h.top ha

end Loading

/-! ### One call -/

/-- During a call of `alloc_uvm` that got the block `x`, when it is to map the page at `va` to
`mem`: the pages below are mapped and no others. -/
structure Growing (U : Set ℕ) (kind₀ : Kinds) (s₀ : VmState) (P newSize : ℕ) (x : Owned)
    (kind : Kinds) (s : VmState) (va mem : ℕ) : Prop where
  /-- The page tables are what they should be. -/
  loading : Loading U kind₀ s₀ P kind s
  /-- The block. -/
  block : x ∈ s.log
  /-- It is new, unless it is empty. -/
  new : va < newSize → x ∉ s₀.log
  /-- It is memory of the process. -/
  purpose : x.purpose = .userMemory P
  /-- A page. -/
  dvd : pgsize ∣ va
  /-- What is left of the block. -/
  room : va < newSize → Room kind s x newSize va mem
  /-- What is mapped. -/
  mapped : ∀ va', translate true s.ram P va' ≠ none ↔ va' % 2 ^ 48 < va

namespace Growing

variable {U : Set ℕ} {kind₀ kind : Kinds} {s₀ s s' : VmState} {P va mem newSize : ℕ} {x : Owned}

theorem translate_eq_none (h : Growing U kind₀ s₀ P newSize x kind s va mem) (hva : va < 2 ^ 48) :
    translate true s.ram P va = none := by
  by_contra hmap
  have hlt := (h.mapped va).1 hmap
  rw [Nat.mod_eq_of_lt hva] at hlt
  exact lt_irrefl _ hlt

theorem step (h : Growing U kind₀ s₀ P newSize x kind s va mem) (hlt : va < newSize)
    (hnew : newSize < 2 ^ 32) {r : ℤ}
    (hcall : mapPages (p2v P) va pgsize mem (pteW ||| pteU) s = some (r, s')) :
    ∃ kind', Growing U kind₀ s₀ P newSize x kind' s' (va + pgsize) (add64 mem pgsize) := by
  have hroom := h.room hlt
  have hin : mem ∈ x.toSet := ⟨hroom.base_le, by have := hroom.le_stop; omega⟩
  obtain ⟨kind', hload, hgrows, hmapped⟩ := h.loading.mapPage h.dvd (by omega) h.block (h.new hlt)
    h.purpose hroom.dvd hin (fun b i huse => lt_irrefl _ (hroom.unused b i mem huse hin)) hcall
  refine ⟨kind', hload, hgrows.log x h.block, fun _ => h.new hlt, h.purpose,
    (Nat.dvd_add_self_right).2 h.dvd, hroom.next h.loading.inv.blocks h.block hgrows, fun va' => ?_⟩
  rw [hmapped va', h.mapped va', Set.mem_Ico]
  omega

theorem loop (hnew : newSize < 2 ^ 32) (n : ℕ) : ∀ {kind : Kinds} {s : VmState} {va mem : ℕ}
    {u : Unit}, Growing U kind₀ s₀ P newSize x kind s va mem → va ≤ pgroundup newSize →
      allocUvmLoop (p2v P) newSize n va mem s = some (u, s') →
      ∃ kind', Loading U kind₀ s₀ P kind' s' ∧
        ∀ va', translate true s'.ram P va' ≠ none ↔ va' % 2 ^ 48 < pgroundup newSize := by
  have hround := pgroundup_eq (show newSize + 4095 < 2 ^ 64 by omega)
  induction n with
  | zero => exact fun _ _ hcall => nomatch hcall
  | succ n ih =>
    intro kind s va mem u h hle hcall
    have hdvd := h.dvd
    unfold pgsize at hdvd
    simp only [allocUvmLoop] at hcall
    by_cases hlt : va < newSize
    · simp only [hlt, if_true, vm_bind_eq_some] at hcall
      obtain ⟨r, s₁, hmap, hcall⟩ := hcall
      obtain ⟨kind₁, h₁⟩ := h.step hlt hnew hmap
      rw [add64_of_lt (show va + pgsize < 2 ^ 64 by unfold pgsize; omega)] at hcall
      exact ih h₁ (by unfold pgsize; omega) hcall
    · simp only [hlt, if_false, vm_pure_eq_some] at hcall
      obtain ⟨-, rfl⟩ := hcall
      have hend : va = pgroundup newSize := by omega
      exact ⟨kind, h.loading, hend ▸ h.mapped⟩

theorem not_remaps (hnew : newSize < 2 ^ 32)
    (hremaps : AllocUvmLoopRemaps (p2v P) newSize va mem s) :
    ∀ kind, ¬Growing U kind₀ s₀ P newSize x kind s va mem := by
  induction hremaps with
  | here lt remaps =>
    exact fun kind h => h.loading.not_mapPagesRemaps h.dvd (by omega)
      (h.translate_eq_none (by omega)) remaps
  | next lt call rest ih =>
    intro kind h
    obtain ⟨kind', h'⟩ := h.step lt hnew call
    rw [add64_of_lt (by unfold pgsize; omega)] at ih
    exact ih kind' h'

end Growing

/-! ### All calls -/

/-- The memory, and the variable `size` of the caller. -/
structure Growth where
  /-- The memory. -/
  vm : VmState
  /-- The size of the process. -/
  size : ℕ

/-- Calls `size = alloc_uvm(pml4, size, newSize)`. -/
def growSystem (pml4 : ℕ) : System Growth ℕ where
  step g newSize g' := newSize < 2 ^ 64 ∧
    ∃ r vm, allocUvm pml4 g.size newSize g.vm = some (r, vm) ∧ g' = ⟨vm, ofInt r⟩

/-- The process `P` of `size` bytes has the pages up to its size and no others. -/
structure Contiguous (ram : Ram) (P size : ℕ) : Prop where
  /-- What is mapped; the tables ignore the upper 16 bits. -/
  mapped : ∀ va, translate true ram P va ≠ none ↔ va % 2 ^ 48 < pgroundup size
  /-- Below the entry that is shared with the kernel, nothing else is mapped. -/
  user : ∀ va, pml4x va ≠ 511 → translate false ram P va ≠ none → translate true ram P va ≠ none
  /-- Each page has a frame of its own. -/
  frames : ∀ va va' a a', translate true ram P va = some a → translate true ram P va' = some a' →
    pageOf a = pageOf a' → va % 2 ^ 48 / pgsize = va' % 2 ^ 48 / pgsize
  /-- The process may write to them. -/
  writable : ∀ va, translate true ram P va ≠ none → WritableAt ram P va

/-- What holds between the calls for a process `P` that was set up in the state `s₀`. -/
structure Grown (U : Set ℕ) (kind₀ : Kinds) (s₀ : VmState) (P : ℕ) (g : Growth) : Prop where
  /-- The page tables are what they should be. -/
  loading : ∃ kind, Loading U kind₀ s₀ P kind g.vm
  /-- Entries that were added have all flags, but for the one shared with the kernel. -/
  links : FullLinks {(P, 511)} s₀ g.vm
  /-- There is a page. -/
  pgsize_le : pgsize ≤ g.size
  /-- The size fits an `int`. -/
  size_lt : g.size < 2 ^ 31
  /-- What is mapped. -/
  mapped : ∀ va, translate true g.vm.ram P va ≠ none ↔ va % 2 ^ 48 < pgroundup g.size

section Calls

variable {U : Set ℕ} {kind₀ kind : Kinds} {s₀ s s' : VmState} {P va n newSize : ℕ} {g : Growth}

theorem Loading.pages_lt (h : Loading U kind₀ s₀ P kind s) (hU : ∀ a ∈ U, a < 2 ^ 31)
    (hn : n ≤ 2 ^ 36) (hmap : ∀ va < n * 4096, translate true s.ram P va ≠ none) : n < 2 ^ 19 := by
  have hframe : ∀ i < n, translate true s.ram P (i * 4096) =
      some (walkedPage s.ram P (i * 4096)) ∧
      walkedPage s.ram P (i * 4096) / 4096 ∈ Finset.Ico 1 (2 ^ 19) := by
    intro i hi
    obtain ⟨a, ha⟩ := Option.ne_none_iff_exists'.1 (hmap (i * 4096) (by omega))
    have hwalk := walkedPage_of_translate (translate_false_of_translate ha)
    rw [Nat.mul_mod_left, Nat.add_zero] at hwalk
    rw [← hwalk]
    obtain ⟨page, x, hdvd, ⟨h₁, h₂⟩, hx, -, hpage⟩ := h.inv.user_page h.top ha
    have hlt := hU _ (h.inv.blocks.usable_of_mem hx hpage)
    have hle := h.inv.blocks.pgsize_le_of_mem hx hpage
    have hadvd := walkedPage_dvd s.ram P (i * 4096)
    rw [← hwalk] at hadvd
    unfold pgsize at hdvd hadvd hle h₂
    exact ⟨ha, Finset.mem_Ico.2 ⟨by omega, by omega⟩⟩
  have hcard := Finset.card_le_card_of_injOn (s := Finset.range n) (t := Finset.Ico 1 (2 ^ 19))
    (fun i => walkedPage s.ram P (i * 4096) / 4096)
    (fun i hi => (hframe i (Finset.mem_range.1 hi)).2) fun i hi j hj hij => ?_
  · rw [Finset.card_range, Nat.card_Ico] at hcard
    omega
  · -- two pages with one frame are one page
    have hi := Finset.mem_range.1 hi
    have hj := Finset.mem_range.1 hj
    have hdi := walkedPage_dvd s.ram P (i * 4096)
    have hdj := walkedPage_dvd s.ram P (j * 4096)
    unfold pgsize at hdi hdj
    have hsame : walkedPage s.ram P (i * 4096) = walkedPage s.ram P (j * 4096) := by
      dsimp only at hij
      omega
    have hmapj := (hframe j hj).1
    rw [← hsame] at hmapj
    have hinj := h.inv.translate_inj h.top (hframe i hi).1 hmapj
    omega

theorem Loading.writableAt (h : Loading U kind₀ s₀ P kind s) (h₀ : VmInv U kind₀ s₀)
    (hlinks : FullLinks {(P, 511)} s₀ s) (hva : pml4x va ≠ 511)
    (hmap : translate true s.ram P va ≠ none) : WritableAt s.ram P va := by
  obtain ⟨a, ha⟩ := Option.ne_none_iff_exists'.1 hmap
  obtain ⟨pt, page, htab, hpage, -⟩ := translate_eq_some.1 ha
  obtain ⟨pdpt, pd, h₁, h₂, h₃⟩ := tableOf_eq_some.1 htab
  have hk₁ := h.inv.kind_of_follow_true h.top (pml4x_lt va) h₁
  have hk₂ := h.inv.kind_of_follow_true hk₁ (pdptx_lt va) h₂
  have hk₃ := h.inv.kind_of_follow_true hk₂ (pdx_lt va) h₃
  have hf₁ := h.fresh_of_follow h₀ h.top h.fresh (pml4x_lt va) h₁
  have hf₂ := h.fresh_of_follow h₀ hk₁ hf₁ (pdptx_lt va) h₂
  have hf₃ := h.fresh_of_follow h₀ hk₂ hf₂ (pdx_lt va) h₃
  -- a present entry of a new table has all flags
  have hwrite : ∀ {b i a k}, kind b = some k → (∀ x ∈ s₀.log, b ∉ x.toSet) → i < 512 →
      (b, i) ∉ ({(P, 511)} : Set (ℕ × ℕ)) → follow true s.ram b i = some a →
        Writable (entry s.ram b i) := by
    intro b i a k hb hfresh hi hout hfollow
    rcases hlinks.entries b i (h.inv.table b _ hb) hi hout with ⟨hold, -⟩ | hzero | hfull
    · exact absurd (start_mem_tableBlock b) (hfresh _ hold)
    · obtain ⟨hp, -⟩ := follow_eq_some.1 hfollow
      rw [hzero] at hp
      exact absurd hp (by decide)
    · exact hfull.writable
  have hout : ∀ {b i l}, kind b = some ⟨some P, l⟩ → l < 3 →
      (b, i) ∉ ({(P, 511)} : Set (ℕ × ℕ)) := by
    intro b i l hb hl hin
    obtain ⟨rfl, -⟩ := Prod.mk.inj hin
    have hkind := h.top.symm.trans hb
    simp only [Option.some.injEq, TableKind.mk.injEq] at hkind
    exact absurd hl (Nat.not_lt.2 hkind.2.le)
  have htop : (P, pml4x va) ∉ ({(P, 511)} : Set (ℕ × ℕ)) := fun hin => hva (Prod.mk.inj hin).2
  exact ⟨pdpt, pd, pt, follow_false_of_follow h₁, follow_false_of_follow h₂,
    follow_false_of_follow h₃, (follow_eq_some.1 hpage).1,
    hwrite h.top h.fresh (pml4x_lt va) htop h₁,
    hwrite hk₁ hf₁ (pdptx_lt va) (hout hk₁ (by decide)) h₂,
    hwrite hk₂ hf₂ (pdx_lt va) (hout hk₂ (by decide)) h₃,
    hwrite hk₃ hf₃ (ptx_lt va) (hout hk₃ (by decide)) hpage⟩

/-- In the user half, whatever is mapped is for user mode. -/
theorem Loading.translate_true_of_false (h : Loading U kind₀ s₀ P kind s) (hva : pml4x va ≠ 511)
    (hmap : translate false s.ram P va ≠ none) : translate true s.ram P va ≠ none := by
  obtain ⟨a, ha⟩ := Option.ne_none_iff_exists'.1 hmap
  obtain ⟨pt, page, htab, hpage, -⟩ := translate_eq_some.1 ha
  have htab' := h.tableOf_true_of_false hva htab
  have hk := h.inv.kind_of_tableOf_true h.top htab'
  obtain ⟨hp, -, -⟩ := follow_eq_some.1 hpage
  have huser : User (entry s.ram pt (ptx va)) := by
    have htarget := h.inv.target pt _ (ptx va) hk (ptx_lt va) hp
    generalize entry s.ram pt (ptx va) = pte at htarget
    cases htarget with
    | page user _ _ _ => exact user
  rw [translate_eq_some.2 ⟨pt, _, htab', follow_true hp huser, rfl⟩]
  exact Option.some_ne_none _

namespace Grown

theorem start (h : Loading U kind₀ s₀ P kind s) (h₀ : VmInv U kind₀ s₀) (hP : v2p (p2v P) = P)
    (hsetup : setupUserMemoryPages s₀ = some (p2v P, s)) : Grown U kind₀ s₀ P ⟨s, pgsize⟩ := by
  obtain ⟨P', hv, hlow, -, hlinks⟩ := setupUserMemoryPages_links h₀.blocks hsetup
  obtain rfl : P' = P := by
    rw [← hP, hv, AllocInv.v2p_p2v (by omega)]
  have hround : pgroundup pgsize = 4096 := pgroundup_eq (by decide)
  refine ⟨⟨kind, h⟩, hlinks, le_rfl, show pgsize < 2 ^ 31 by decide,
    fun va => ⟨fun hmap => ?_, fun hlt => ?_⟩⟩
  · by_contra hge
    exact hmap (h.vacant h₀ hP hsetup va (by dsimp only at hge; omega))
  · rw [← translate_mod]
    exact h.translate_first (by dsimp only at hlt; omega)

theorem pgroundup_size (h : Grown U kind₀ s₀ P g) :
    pgroundup g.size = (g.size + 4095) / 4096 * 4096 := by
  have hlt := h.size_lt
  exact pgroundup_eq (by omega)

theorem contiguous (h : Grown U kind₀ s₀ P g) (h₀ : VmInv U kind₀ s₀) :
    Contiguous g.vm.ram P g.size := by
  obtain ⟨kind, hload⟩ := h.loading
  have hround := h.pgroundup_size
  have hlt := h.size_lt
  refine ⟨h.mapped, fun va => hload.translate_true_of_false, fun va va' a a' ha ha' hpage => ?_,
    fun va hmap => ?_⟩
  · obtain ⟨page, hdvd, rfl, hall⟩ := exists_page_of_translate ha
    obtain ⟨page', hdvd', rfl, -⟩ := exists_page_of_translate ha'
    have hin : page' + va' % 4096 ∈ pageOf (page + va % 4096) := by
      rw [hpage]
      exact mem_page _
    obtain ⟨hlow, hhigh⟩ := hin
    unfold pgsize at hdvd hdvd' hlow hhigh ⊢
    obtain rfl : page' = page := by omega
    -- the address at the same place in the first page
    have hsame := hall (va / 4096 * 4096 + va' % 4096) (by omega)
    rw [show (va / 4096 * 4096 + va' % 4096) % 4096 = va' % 4096 by omega] at hsame
    have hinj := hload.inv.translate_inj hload.top hsame ha'
    omega
  · refine hload.writableAt h₀ h.links ?_ hmap
    have hin := (h.mapped va).1 hmap
    rw [pml4x_eq]
    omega

/-- The call got its block: the size is bounded, and the loop begins behind the last page. -/
theorem growing (h : Grown U kind₀ s₀ P g) (hU : ∀ a ∈ U, a < 2 ^ 31) (hle : g.size ≤ newSize)
    {mem : ℕ} (halloc : Vm.memblockAlloc (newSize - g.size) pgsize (.userMemory P) g.vm =
      some (mem, s)) : newSize < 2 ^ 32 ∧ pgroundup g.size ≤ pgroundup newSize ∧ ∃ kind,
        Growing U kind₀ s₀ P newSize ⟨⟨mem, newSize - g.size⟩, .userMemory P⟩ kind s
          (pgroundup g.size) mem := by
  obtain ⟨kind, hload⟩ := h.loading
  have hsize := h.size_lt
  have hround := h.pgroundup_size
  obtain ⟨hinv, hblock, hentry⟩ := hload.inv.alloc halloc
  obtain ⟨hload', hsame⟩ := hload.alloc halloc
  have hmem : (⟨⟨mem, newSize - g.size⟩, .userMemory P⟩ : Owned) ∈ s.log :=
    hblock.log ▸ List.mem_cons_self
  have hlt : newSize < 2 ^ 32 := by
    rcases hle.eq_or_lt with heq | hmore
    · omega
    · -- the last byte of the block
      have hlast := hU _ (hinv.blocks.usable_of_mem hmem
        (a := mem + (newSize - g.size - 1)) ⟨Nat.le_add_right _ _, by
          show mem + (newSize - g.size - 1) < mem + (newSize - g.size)
          omega⟩)
      omega
  have hround' := pgroundup_eq (show newSize + 4095 < 2 ^ 64 by omega)
  refine ⟨hlt, by omega, kind, hload', hmem, fun hmore hold => ?_, rfl, dvd_pgroundup _,
    hblock.room hload.inv hentry (by omega), fun va => by rw [hsame va, h.mapped va]⟩
  have hin : mem ∈ (⟨mem, newSize - g.size⟩ : Extent).toSet :=
    ⟨le_rfl, Nat.lt_add_of_pos_right (show 0 < newSize - g.size by omega)⟩
  exact hblock.fresh mem hin _ (h.links.log _ hold) hin

/-- A call keeps the invariant, and the size does not get smaller. -/
theorem step (h : Grown U kind₀ s₀ P g) (hU : ∀ a ∈ U, a < 2 ^ 31) (hP : v2p (p2v P) = P) {r : ℤ}
    (hcall : allocUvm (p2v P) g.size newSize g.vm = some (r, s)) :
    Grown U kind₀ s₀ P ⟨s, ofInt r⟩ ∧ (g.size : ℤ) ≤ r := by
  obtain ⟨kind, hload⟩ := h.loading
  have hsize := h.size_lt
  have halign : 8 ∣ p2v P := dvd_p2v ((show 8 ∣ pgsize by decide).trans (hload.inv.dvd hload.top))
  obtain ⟨-, hlinks, -⟩ := linksOnly_allocUvm (E := {(P, 511)}) halign hload.inv.blocks hcall
  have hint : ∀ {n : ℕ}, n < 2 ^ 31 → toInt32 (n % 2 ^ 32) = n := fun {n} hn => by
    unfold toInt32
    rw [Nat.mod_eq_of_lt (by omega), if_pos hn]
  simp only [allocUvm] at hcall
  by_cases hlt : newSize < g.size
  · simp only [hlt, if_true, vm_pure_eq_some] at hcall
    obtain ⟨rfl, rfl⟩ := hcall
    rw [ofInt_toInt32 hsize, hint hsize]
    exact ⟨h, le_rfl⟩
  · have hle := Nat.not_lt.1 hlt
    simp only [hlt, if_false, hP, vm_bind_eq_some, vm_pure_eq_some] at hcall
    obtain ⟨mem, s₁, halloc, u, s₂, hloop, rfl, rfl⟩ := hcall
    obtain ⟨hnew, hround, kind₁, hgrowing⟩ := h.growing hU hle halloc
    obtain ⟨kind', hload', hmapped⟩ := Growing.loop hnew _ hgrowing hround hloop
    -- the pages are in memory below 2 GiB
    have hpages := pgroundup_eq (show newSize + 4095 < 2 ^ 64 by omega)
    have hcount := hload'.pages_lt hU (n := pgroundup newSize / 4096) (by omega) fun va hva =>
      (hmapped va).2 (by omega)
    have hlow : newSize < 2 ^ 31 := by omega
    rw [ofInt_toInt32 hlow, hint hlow]
    exact ⟨⟨⟨kind', hload'⟩, h.links.trans hlinks, h.pgsize_le.trans hle, hlow, hmapped⟩,
      Int.ofNat_le.2 hle⟩

/-- No call gets to the panic, whether it returns or not. -/
theorem not_remaps (h : Grown U kind₀ s₀ P g) (hU : ∀ a ∈ U, a < 2 ^ 31) (hP : v2p (p2v P) = P)
    (newSize : ℕ) : ¬AllocUvmRemaps (p2v P) g.size newSize g.vm := by
  rintro ⟨hle, mem, s₁, halloc, hremaps⟩
  rw [hP] at halloc
  obtain ⟨hnew, -, kind, hgrowing⟩ := h.growing hU (Nat.not_lt.1 hle) halloc
  exact Growing.not_remaps hnew hremaps kind hgrowing

end Grown

end Calls

/-- Where all usable memory is below 2 GiB, a process that was set up and then grows by any calls of
`alloc_uvm`, each with the size that the last one returned, has exactly the pages up to its size,
each with a frame of its own and for writing in user mode.  The next call, to any size, does not get
to the panic `remap`, and if it returns, the size is not smaller than before. -/
theorem allocUvm_contiguous {map : List E820Entry} {m : Memblock} {ram : Ram} {s : UserSpaces}
    {tr : List (System.Step UserSpaces VmCall)} {pml4 : ℕ} {s₁ : VmState}
    {calls : List (System.Step Growth ℕ)} {g : Growth}
    (hmap : ∀ x ∈ usableEntries map, x.addr + x.len ≤ 2 ^ 31) (hinit : memblockInit map = .ok m)
    (hboot : vmSystem.Run (.boot m ram) tr s) (hkern : s.vm.kernPml4 ≠ 0)
    (hsetup : setupUserMemoryPages s.vm = some (pml4, s₁))
    (hrun : (growSystem pml4).Run ⟨s₁, pgsize⟩ calls g) :
    Contiguous g.vm.ram (v2p pml4) g.size ∧
      ∀ newSize < 2 ^ 64, ¬AllocUvmRemaps pml4 g.size newSize g.vm ∧
        ∀ r vm, allocUvm pml4 g.size newSize g.vm = some (r, vm) → (g.size : ℤ) ≤ r := by
  have hU : ∀ a ∈ usableMemory map, a < 2 ^ 31 := by
    rintro a ⟨e, he, ha⟩
    obtain ⟨x, hx, rfl⟩ := List.mem_map.1 he
    exact ha.2.trans_le (hmap x hx)
  obtain ⟨kind₀, kind, P, rfl, hP, h₀, hload, -⟩ := exists_loading
    (fun x hx => (hmap x hx).trans_lt (by decide)) hinit hboot hkern hsetup
  obtain ⟨hgrown, -⟩ := hrun.invariant (I := Grown (usableMemory map) kind₀ s.vm P)
    (C := fun _ => True) (Grown.start hload h₀ hP hsetup) (fun _ ⟨_, _, _, hcall, hpost⟩ _ h =>
      hpost ▸ (h.step hU hP hcall).1) fun _ _ => trivial
  rw [hP]
  exact ⟨hgrown.contiguous h₀, fun newSize _ => ⟨hgrown.not_remaps hU hP newSize,
    fun r vm hcall => (hgrown.step hU hP hcall).2⟩⟩

/-- A process grows to 5000 bytes and is then asked for fewer: it has two pages. -/
theorem allocUvm_contiguous_twoPages : ∃ s P s₁ calls g, Prepared (fun _ => 0) s P s₁ ∧
    (growSystem (p2v P)).Run ⟨s₁, pgsize⟩ calls g ∧ g.size = 5000 ∧
      Contiguous g.vm.ram (v2p (p2v P)) g.size ∧
      ∀ newSize < 2 ^ 64, ¬AllocUvmRemaps (p2v P) g.size newSize g.vm ∧
        ∀ r vm, allocUvm (p2v P) g.size newSize g.vm = some (r, vm) → (g.size : ℤ) ≤ r := by
  obtain ⟨s, P, s₁, hp⟩ := exists_prepared fun _ => 0
  obtain ⟨kind₀, kind, h₀, hload, -⟩ := hp.loading
  have halloc : memblockAllocBase (bootTables [⟨0x6E8000, 0x118000⟩] 0x118000) 904 pgsize
      memblockAllocAccessible = .ok (bootTables [⟨0x6E7000, 904⟩, ⟨0x6E8000, 0x118000⟩] 0x118388,
        0x6E7000) := by decide +kernel
  have hround : pgroundup pgsize = 4096 := pgroundup_eq (by decide)
  have hvacant : Vacant s₁.ram P (pgroundup pgsize) := fun va hva hlt =>
    hload.vacant h₀ hp.home hp.setup va (by omega)
  rw [← hp.memblock] at halloc
  obtain ⟨vm, hcall, -⟩ := hload.grow_returns h₀ hvacant (show pgsize ≤ 5000 by decide) (by decide)
    halloc (by decide)
  have hsmaller : allocUvm (p2v P) 5000 4500 vm = some (5000, vm) := by
    unfold allocUvm
    rw [if_pos (by decide)]
    rfl
  have hgrow : (growSystem (p2v P)).step ⟨s₁, pgsize⟩ 5000 ⟨vm, 5000⟩ :=
    ⟨by decide, _, vm, hcall, rfl⟩
  have hkeep : (growSystem (p2v P)).step ⟨vm, 5000⟩ 4500 ⟨vm, 5000⟩ :=
    ⟨by decide, _, vm, hsmaller, rfl⟩
  have hrun := (System.Run.single hgrow).snoc hkeep
  obtain ⟨tr, hboot⟩ := hp.boot
  exact ⟨s, P, s₁, _, _, hp, hrun, rfl, allocUvm_contiguous
    (by decide : ∀ x ∈ usableEntries bootMap, x.addr + x.len ≤ 2 ^ 31) memblockInit_bootMap hboot
    hp.kern hp.setup hrun⟩

/-! ### Two processes -/

/-- In a run in which a process is set up and grows to 5000 bytes, and then another one is set up,
both are isolated all the time. -/
theorem vmSystem_isolated_twoProcesses : ∃ tr s P Q, s.procs = [Q, P] ∧
    (∃ x ∈ tr, x.ev = .grow P pgsize 5000) ∧ Isolated s ∧
      ∀ x ∈ (tr : List (System.Step UserSpaces VmCall)), Isolated x.pre ∧ Isolated x.post := by
  obtain ⟨tr, s, _, s₁, hboot, hprocs, hkern, -, -, hsetup, hm⟩ :=
    exists_setup (fun _ => 0) fun _ => 0
  obtain ⟨kind₀, kind, P, rfl, hP, h₀, hload, hgrows⟩ :=
    exists_loading bootMap_lt memblockInit_bootMap hboot hkern hsetup
  have halloc : memblockAllocBase (bootTables [⟨0x6E8000, 0x118000⟩] 0x118000) 904 pgsize
      memblockAllocAccessible = .ok (bootTables [⟨0x6E7000, 904⟩, ⟨0x6E8000, 0x118000⟩] 0x118388,
        0x6E7000) := by decide +kernel
  have hround : pgroundup pgsize = 4096 := pgroundup_eq (by decide)
  have hvacant : Vacant s₁.ram P (pgroundup pgsize) := fun va hva hlt =>
    hload.vacant h₀ hP hsetup va (by omega)
  rw [← hm] at halloc
  obtain ⟨vm, hcall, hm', -⟩ := hload.grow_returns h₀ hvacant (show pgsize ≤ 5000 by decide)
    (by decide) halloc (by decide)
  obtain ⟨kind', hload', hgrows', -⟩ := hload.grow (by decide) (by decide) hcall
  -- the kernel has its page table, and there is memory for another process
  have hkern' : vm.kernPml4 ≠ 0 := by rwa [hgrows'.kern, hgrows.kern]
  obtain ⟨K, hK, hkind, -⟩ := hload'.inv.kern hkern'
  have hpages : (reservePages 5 vm.memblock).isSome := by
    rw [hm']
    decide +kernel
  obtain ⟨m, hm''⟩ := Option.isSome_iff_exists.1 hpages
  obtain ⟨Q, s₂, hsetup', -⟩ := setupUserMemoryPages_returns hK (hload'.inv.low K _ hkind) hm''
  have hstep₁ : vmSystem.step s .setup ⟨s₁, [p2v P]⟩ := ⟨hkern, p2v P, by rw [hprocs], hsetup⟩
  have hstep₂ : vmSystem.step ⟨s₁, [p2v P]⟩ (.grow (p2v P) pgsize 5000) ⟨vm, [p2v P]⟩ :=
    ⟨rfl, List.mem_singleton_self _, by decide, by decide, _, hcall⟩
  have hstep₃ : vmSystem.step ⟨vm, [p2v P]⟩ .setup ⟨s₂, [Q, p2v P]⟩ := ⟨hkern', Q, rfl, hsetup'⟩
  have hrun := ((hboot.snoc hstep₁).snoc hstep₂).snoc hstep₃
  refine ⟨_, ⟨s₂, [Q, p2v P]⟩, p2v P, Q, rfl,
    ⟨⟨⟨s₁, [p2v P]⟩, .grow (p2v P) pgsize 5000, ⟨vm, [p2v P]⟩⟩, ?_, rfl⟩,
    vmSystem_isolated bootMap_lt memblockInit_bootMap hrun⟩
  exact List.mem_append_left _ (List.mem_append_right _ (List.mem_singleton_self _))

end MicroKernel
