import MicroKernel.Vm.Invariant

/-!
# Page walks

A walk adds the tables that are missing on the way.  What was there stays: entries that are present
are not changed, and memory changes only in page tables and in blocks that were just handed out.

* `Grows` : what a step leaves as it was;
* `walkLevel_spec`, `walkTables_spec` : one level, and the three levels above the pages;
* `mapPages_spec` : a page is mapped, where none was mapped before.
-/

namespace MicroKernel

open Extent

attribute [local irreducible] p2v v2p pteAddr

/-- From `s` to `s'`, tables and blocks were added.  Entries of processes were added that lead to
addresses in `A`, or to blocks that are new. -/
structure Grows (A : Set ℕ) (kind : Kinds) (s : VmState) (kind' : Kinds) (s' : VmState) : Prop where
  /-- Tables stay what they are. -/
  tables : ∀ b k, kind b = some k → kind' b = some k
  /-- Blocks stay handed out. -/
  log : ∀ x ∈ s.log, x ∈ s'.log
  /-- The variable of the kernel is as it was. -/
  kern : s'.kernPml4 = s.kernPml4
  /-- Present entries are as they were. -/
  entries : ∀ b k i, kind b = some k → i < 512 → Present (entry s.ram b i) →
    entry s'.ram b i = entry s.ram b i
  /-- Memory changes in tables and new blocks only. -/
  ram : ∀ a, s'.ram a ≠ s.ram a →
    ∃ x ∈ s'.log, a ∈ x.toSet ∧ (x ∉ s.log ∨ x.purpose = .pageTable)
  /-- Where entries lead that were added. -/
  uses : ∀ b i a, Uses kind' s'.ram b i a →
    Uses kind s.ram b i a ∨ a ∈ A ∨ ∀ x ∈ s.log, a ∉ x.toSet

/-- Present entries that are kept lead to where they led. -/
theorem follow_of_entries {kind : Kinds} {ram ram' : Ram} {user : Bool} {k : TableKind} {b i a : ℕ}
    (hentries : ∀ b k i, kind b = some k → i < 512 → Present (entry ram b i) →
      entry ram' b i = entry ram b i)
    (hb : kind b = some k) (hi : i < 512) (hfollow : follow user ram b i = some a) :
    follow user ram' b i = some a := by
  obtain ⟨hp, hrest⟩ := follow_eq_some.1 hfollow
  rw [follow_eq_some, hentries b k i hb hi hp]
  exact ⟨hp, hrest⟩

namespace Grows

variable {A B : Set ℕ} {kind kind₁ kind₂ : Kinds} {s s₁ s₂ : VmState} {b i a : ℕ}

theorem refl (A : Set ℕ) (kind : Kinds) (s : VmState) : Grows A kind s kind s :=
  ⟨fun _ _ h => h, fun _ h => h, rfl, fun _ _ _ _ _ _ => rfl, fun _ h => absurd rfl h,
    fun _ _ _ h => Or.inl h⟩

theorem trans (h₁ : Grows A kind s kind₁ s₁) (h₂ : Grows A kind₁ s₁ kind₂ s₂) :
    Grows A kind s kind₂ s₂ := by
  refine ⟨fun b k hb => h₂.tables b k (h₁.tables b k hb), fun x hx => h₂.log x (h₁.log x hx),
    h₂.kern.trans h₁.kern, fun b k i hb hi hp => ?_, fun a ha => ?_, fun b i a huse => ?_⟩
  · have hfirst := h₁.entries b k i hb hi hp
    have hpresent : Present (entry s₁.ram b i) := by
      rw [hfirst]
      exact hp
    exact (h₂.entries b k i (h₁.tables b k hb) hi hpresent).trans hfirst
  · by_cases hsame : s₂.ram a = s₁.ram a
    · obtain ⟨x, hx, hax, hnew⟩ := h₁.ram a (hsame ▸ ha)
      exact ⟨x, h₂.log x hx, hax, hnew⟩
    · obtain ⟨x, hx, hax, hnew⟩ := h₂.ram a hsame
      exact ⟨x, hx, hax, hnew.imp_left fun hn hold => hn (h₁.log x hold)⟩
  · rcases h₂.uses b i a huse with hmid | hA | hnew
    · exact h₁.uses b i a hmid
    · exact Or.inr (Or.inl hA)
    · exact Or.inr (Or.inr fun x hx => hnew x (h₁.log x hx))

theorem mono (h : Grows A kind s kind₁ s₁) (hAB : A ⊆ B) : Grows B kind s kind₁ s₁ :=
  ⟨h.tables, h.log, h.kern, h.entries, h.ram, fun b i a huse =>
    (h.uses b i a huse).imp_right fun hr => hr.imp_left fun ha => hAB ha⟩

theorem of_fresh (h : Grows A kind s kind₁ s₁) (hA : ∀ a ∈ A, ∀ x ∈ s.log, a ∉ x.toSet) :
    Grows ∅ kind s kind₁ s₁ :=
  ⟨h.tables, h.log, h.kern, h.entries, h.ram, fun b i a huse =>
    (h.uses b i a huse).imp_right fun hr => Or.inr (hr.elim (hA a) id)⟩

/-- An address of a block that was there is not mapped, unless it is in `A`. -/
theorem unused (h : Grows A kind s kind₁ s₁) {x : Owned} (hx : x ∈ s.log) (ha : a ∈ x.toSet)
    (hA : a ∉ A) (hun : ∀ b i, ¬Uses kind s.ram b i a) (b i : ℕ) : ¬Uses kind₁ s₁.ram b i a := by
  intro huse
  rcases h.uses b i a huse with hold | hin | hnew
  · exact hun b i hold
  · exact hA hin
  · exact hnew x hx ha

theorem follow {user : Bool} {k : TableKind} (h : Grows A kind s kind₁ s₁) (hb : kind b = some k)
    (hi : i < 512) (hfollow : follow user s.ram b i = some a) :
    MicroKernel.follow user s₁.ram b i = some a := follow_of_entries h.entries hb hi hfollow

end Grows

/-! ### Where a walk leads -/

namespace VmInv

variable {U : Set ℕ} {kind : Kinds} {s : VmState} {b i l a : ℕ} {o : Option ℕ} {user : Bool}

/-- An entry leads to a table of the next level, of the same owner, or from the top table of a
process to one of the kernel. -/
theorem next (h : VmInv U kind s) (hb : kind b = some ⟨o, l + 1⟩) (hi : i < 512)
    (hp : Present (entry s.ram b i)) :
    (kind (pteAddr (entry s.ram b i)) = some ⟨o, l⟩ ∧ (o ≠ none → User (entry s.ram b i))) ∨
      l = 2 ∧ kind (pteAddr (entry s.ram b i)) = some ⟨none, l⟩ ∧ ¬User (entry s.ram b i) := by
  have htarget := h.target b _ i hb hi hp
  generalize entry s.ram b i = pte at htarget
  cases htarget with
  | kernelTable next => exact Or.inl ⟨next, fun hne => absurd rfl hne⟩
  | link user next => exact Or.inr ⟨rfl, next, user⟩
  | table user next => exact Or.inl ⟨next, fun _ => user⟩

theorem kind_of_follow (h : VmInv U kind s) (hb : kind b = some ⟨o, l + 1⟩) (hi : i < 512)
    (hfollow : follow user s.ram b i = some a) : ∃ o', kind a = some ⟨o', l⟩ := by
  obtain ⟨hp, -, rfl⟩ := follow_eq_some.1 hfollow
  rcases h.next hb hi hp with ⟨hnext, -⟩ | ⟨-, hnext, -⟩
  · exact ⟨_, hnext⟩
  · exact ⟨_, hnext⟩

theorem kind_of_tableOf {P va pt : ℕ} (h : VmInv U kind s) (hP : kind P = some ⟨o, 3⟩)
    (htab : tableOf user s.ram P va = some pt) : ∃ o', kind pt = some ⟨o', 0⟩ := by
  obtain ⟨pdpt, pd, h₁, h₂, h₃⟩ := tableOf_eq_some.1 htab
  obtain ⟨o₁, hk₁⟩ := h.kind_of_follow hP (pml4x_lt va) h₁
  obtain ⟨o₂, hk₂⟩ := h.kind_of_follow hk₁ (pdptx_lt va) h₂
  exact h.kind_of_follow hk₂ (pdx_lt va) h₃

/-- A table that is reached stays reached where present entries are kept. -/
theorem tableOf_of_entries {P va pt : ℕ} {ram : Ram} (h : VmInv U kind s)
    (hP : kind P = some ⟨o, 3⟩)
    (hentries : ∀ b k i, kind b = some k → i < 512 → Present (entry s.ram b i) →
      entry ram b i = entry s.ram b i)
    (htab : tableOf user s.ram P va = some pt) : tableOf user ram P va = some pt := by
  obtain ⟨pdpt, pd, h₁, h₂, h₃⟩ := tableOf_eq_some.1 htab
  obtain ⟨o₁, hk₁⟩ := h.kind_of_follow hP (pml4x_lt va) h₁
  obtain ⟨o₂, hk₂⟩ := h.kind_of_follow hk₁ (pdptx_lt va) h₂
  exact tableOf_eq_some.2 ⟨pdpt, pd, follow_of_entries hentries hP (pml4x_lt va) h₁,
    follow_of_entries hentries hk₁ (pdptx_lt va) h₂, follow_of_entries hentries hk₂ (pdx_lt va) h₃⟩

/-- An address that is mapped stays mapped where present entries are kept. -/
theorem translate_of_entries {P va : ℕ} {ram : Ram} (h : VmInv U kind s)
    (hP : kind P = some ⟨o, 3⟩)
    (hentries : ∀ b k i, kind b = some k → i < 512 → Present (entry s.ram b i) →
      entry ram b i = entry s.ram b i)
    (hmap : translate user s.ram P va = some a) : translate user ram P va = some a := by
  obtain ⟨pt, page, htab, hpage, rfl⟩ := translate_eq_some.1 hmap
  obtain ⟨o', hk⟩ := h.kind_of_tableOf hP htab
  exact translate_eq_some.2 ⟨pt, page, h.tableOf_of_entries hP hentries htab,
    follow_of_entries hentries hk (ptx_lt va) hpage, rfl⟩

end VmInv

namespace Grows

variable {U A : Set ℕ} {kind kind' : Kinds} {s s' : VmState} {P va a : ℕ} {o : Option ℕ}
  {user : Bool}

theorem tableOf (h : Grows A kind s kind' s') (hinv : VmInv U kind s) (hP : kind P = some ⟨o, 3⟩)
    {pt : ℕ} (htab : tableOf user s.ram P va = some pt) :
    MicroKernel.tableOf user s'.ram P va = some pt := hinv.tableOf_of_entries hP h.entries htab

theorem translate (h : Grows A kind s kind' s') (hinv : VmInv U kind s)
    (hP : kind P = some ⟨o, 3⟩) (hmap : translate user s.ram P va = some a) :
    MicroKernel.translate user s'.ram P va = some a := hinv.translate_of_entries hP h.entries hmap

end Grows

/-! ### Pages of zeros -/

/-- The page at `q` holds zeros. -/
def Cleared (ram : Ram) (q : ℕ) : Prop := ∀ a ∈ Set.Ico q (q + pgsize), ram a = 0

section Zeros

variable {s s' : VmState} {ram : Ram} {b i q v : ℕ}

namespace Cleared

theorem entry_eq (h : Cleared ram q) (hi : i < 512) : entry ram q i = 0 := by
  refine Ram.readLe_of_bytes 8 (by decide) fun j hj => ?_
  rw [h _ ⟨by omega, by unfold pgsize; omega⟩, Nat.zero_div]
  rfl

theorem absent (h : Cleared ram q) (hi : i < 512) : ¬Present (entry ram q i) := by
  rw [h.entry_eq hi]
  decide

theorem memset_eq (h : Cleared ram q) : ram.memset q 0 512 = ram := by
  refine Ram.memset_of_zero fun a ha => h a ⟨ha.1, ha.2.trans_le ?_⟩
  unfold pgsize
  omega

/-- An allocation clears no page that was handed out before. -/
theorem alloc (h : Cleared s.ram q) (hq : tableBlock q ∈ s.log) {size p : ℕ} {purpose : Purpose}
    (halloc : Allocated s size purpose p s') : Cleared s'.ram q := fun a ha => by
  rw [halloc.ram_eq a fun hin => halloc.fresh a hin _ hq ha, h a ha]

theorem write (h : Cleared ram q) (hq : pgsize ∣ q) (hb : pgsize ∣ b) (hne : q ≠ b) (hi : i < 512) :
    Cleared (ram.writeLe (b + 8 * i) 8 v) q := by
  intro a ha
  rw [Ram.writeLe_of_not_mem, h a ha]
  intro hin
  obtain ⟨h₁, h₂⟩ := ha
  obtain ⟨h₃, h₄⟩ := hin
  unfold pgsize at hq hb h₂
  omega

end Cleared

theorem Allocated.cleared {p : ℕ} {purpose : Purpose} (h : Allocated s pgsize purpose p s') :
    Cleared s'.ram p := fun a ha => h.zero (by decide) a ha

end Zeros

/-! ### Steps -/

section Steps

variable {U : Set ℕ} {kind : Kinds} {s s' : VmState} {b i v p size maxAddr : ℕ} {k : TableKind}
  {purpose : Purpose}

theorem VmInv.kind_of_allocated (h : VmInv U kind s) (halloc : Allocated s pgsize purpose p s') :
    kind p = none := by
  have hstart : p ∈ Set.Ico p (p + pgsize) := start_mem_tableBlock p
  cases hk : kind p with
  | none => rfl
  | some k => exact absurd hstart (halloc.fresh p hstart _ (h.table p k hk))

theorem VmInv.alloc (h : VmInv U kind s)
    (hcall : Vm.memblockAllocBase size pgsize maxAddr purpose s = some (p, s')) :
    VmInv U kind s' ∧ Allocated s size purpose p s' ∧
      ∀ b k i, kind b = some k → i < 512 → entry s'.ram b i = entry s.ram b i := by
  obtain ⟨hblocks, halloc⟩ := memblockAllocBase_allocated h.blocks hcall
  have hlog : ∀ x ∈ s.log, x ∈ s'.log := fun x hx => halloc.log ▸ List.mem_cons_of_mem _ hx
  have hentry : ∀ b k i, kind b = some k → i < 512 → entry s'.ram b i = entry s.ram b i := by
    intro b k i hb hi
    exact entry_congr hi fun a ha => halloc.ram_eq a fun hin =>
      halloc.fresh a hin _ (h.table b k hb) ha
  exact ⟨h.mono hblocks halloc.limit hlog halloc.kern hentry, halloc, hentry⟩

theorem Allocated.grows (h : Allocated s size purpose p s')
    (hentry : ∀ b k i, kind b = some k → i < 512 → entry s'.ram b i = entry s.ram b i) :
    Grows ∅ kind s kind s' := by
  refine ⟨fun _ _ hb => hb, fun x hx => h.log ▸ List.mem_cons_of_mem _ hx, h.kern,
    fun b k i hb hi _ => hentry b k i hb hi, fun a ha => ?_, fun b i a huse =>
      Or.inl ((VmInv.uses_congr hentry).1 huse)⟩
  have hin : a ∈ Set.Ico p (p + size) := by
    by_contra hout
    exact ha (h.ram_eq a hout)
  exact ⟨⟨⟨p, size⟩, purpose⟩, h.log ▸ List.mem_cons_self, hin,
    Or.inl fun hold => h.fresh a hin _ hold hin⟩

/-- A page for a table is handed out: a table without entries. -/
theorem VmInv.allocTable (h : VmInv U kind s)
    (hcall : Vm.memblockAllocKernel pgsize pgsize .pageTable s = some (v, s')) :
    ∃ p, v = p2v p ∧ Allocated s pgsize .pageTable p s' ∧
      ∀ k, VmInv U (Function.update kind p (some k)) s' ∧
        Grows ∅ kind s (Function.update kind p (some k)) s' ∧
        ∀ b i, ¬Uses (Function.update kind p (some k)) s'.ram b i p := by
  simp only [Vm.memblockAllocKernel, vm_bind_eq_some, vm_pure_eq_some] at hcall
  obtain ⟨p, s₁, hbase, rfl, rfl⟩ := hcall
  obtain ⟨hinv, halloc, hentry⟩ := h.alloc hbase
  have hstart : p ∈ Set.Ico p (p + pgsize) := start_mem_tableBlock p
  have hnew := h.kind_of_allocated halloc
  have habsent : ∀ i < 512, ¬Present (entry s₁.ram p i) := fun i hi => halloc.cleared.absent hi
  have hmem : tableBlock p ∈ s₁.log := halloc.log ▸ List.mem_cons_self
  have hlow := halloc.low (by decide) (by decide)
  have huses : ∀ k b i a, Uses (Function.update kind p (some k)) s₁.ram b i a →
      Uses kind s.ram b i a := by
    rintro k b i a ⟨⟨P, l, hb⟩, hi, hfollow⟩
    rcases eq_or_ne b p with rfl | hne
    · exact absurd (follow_eq_some.1 hfollow).1 (habsent i hi)
    · rw [Function.update_of_ne hne] at hb
      exact (VmInv.uses_congr hentry).1 ⟨⟨P, l, hb⟩, hi, hfollow⟩
  have hgrows := halloc.grows hentry
  refine ⟨p, rfl, halloc, fun k => ⟨hinv.addTable hmem hnew hlow habsent k, ?_, fun b i huse => ?_⟩⟩
  · exact ⟨fun b k' hb => Kinds.update_of_some hb hnew k, hgrows.log, hgrows.kern, hgrows.entries,
      hgrows.ram, fun b i a huse => Or.inl (huses k b i a huse)⟩
  · obtain ⟨x, hx, hpx⟩ := h.mem_of_uses (huses k b i p huse)
    exact halloc.fresh p hstart x hx hpx

theorem v2p_entry (hb : b + pgsize ≤ 2 ^ 31) (hi : i < 512) :
    v2p (add64 (p2v b) (8 * i)) = b + 8 * i := by
  unfold pgsize at hb
  rw [p2v_eq (by omega)]
  unfold v2p sub64 add64 kernbase
  omega

theorem VmInv.grows_write (h : VmInv U kind s) (hb : kind b = some k) (hi : i < 512)
    (hv : v < 2 ^ 64) (habsent : ¬Present (entry s.ram b i)) {A : Set ℕ}
    (hA : Present v → User v → pteAddr v ∈ A) :
    Grows A kind s kind { s with ram := s.ram.writeLe (b + 8 * i) 8 v } := by
  refine ⟨fun _ _ hc => hc, fun _ hx => hx, rfl, fun b' k' i' hb' hi' hp => ?_, fun a ha => ?_,
    fun b' i' a huse => ?_⟩
  · have hentry := entry_writeLe s.ram (h.dvd hb) (h.dvd hb') hi hi' hv
    rw [if_neg] at hentry
    · exact hentry
    · rintro ⟨rfl, rfl⟩
      exact habsent hp
  · have hin : a ∈ Set.Ico (b + 8 * i) (b + 8 * i + 8) := by
      by_contra hout
      exact ha (Ram.writeLe_of_not_mem hout)
    refine ⟨_, h.table b k hb, ⟨(Nat.le_add_right _ _).trans hin.1, hin.2.trans_le ?_⟩, Or.inr rfl⟩
    show b + 8 * i + 8 ≤ b + pgsize
    unfold pgsize
    omega
  · rcases h.uses_write hb hi hv huse with ⟨-, -, hp, huser, rfl⟩ | hold
    · exact Or.inr (Or.inl (hA hp huser))
    · exact Or.inl hold

theorem entry_value (hdvd : pgsize ∣ p) (hp : p < 2 ^ 64) :
    p ||| pteP ||| pteW ||| pteU = p + 7 ∧ p ||| (pteW ||| pteU) ||| pteP = p + 7 ∧
      p + 7 < 2 ^ 64 ∧ Present (p + 7) ∧ User (p + 7) ∧ pteAddr (p + 7) = p := by
  unfold pgsize at hdvd
  rw [Nat.or_assoc, Nat.or_assoc, Nat.or_assoc, present_iff, user_iff,
    pteAddr_add hdvd (by decide) hp]
  exact ⟨or_flags hdvd (by decide), or_flags hdvd (by decide), by omega, by omega, by omega, rfl⟩

/-- A table is linked to one of the level above. -/
theorem VmInv.linkTable (h : VmInv U kind s) {o : Option ℕ} {l : ℕ}
    (hb : kind b = some ⟨o, l + 1⟩) (hkern : l + 1 = 3 → o ≠ none) (hi : i < 512)
    (hp : kind p = some ⟨o, l⟩) (habsent : ¬Present (entry s.ram b i))
    (hunused : ∀ b i, ¬Uses kind s.ram b i p) :
    VmInv U kind { s with ram := s.ram.writeLe (b + 8 * i) 8 (p + 7) } ∧
      Grows {p} kind s kind { s with ram := s.ram.writeLe (b + 8 * i) 8 (p + 7) } ∧
      follow true (s.ram.writeLe (b + 8 * i) 8 (p + 7)) b i = some p := by
  have hplt := h.lt hp
  obtain ⟨-, -, hvlt, hvp, hvu, hvaddr⟩ := entry_value (h.dvd hp) hplt
  refine ⟨h.write hb hi hvlt (fun _ => ?_) (fun _ _ _ _ => hvaddr.symm ▸ hunused)
    fun hl hn => absurd hn (hkern hl), h.grows_write hb hi hvlt habsent fun _ _ => hvaddr, ?_⟩
  · have hnext : kind (pteAddr (p + 7)) = some ⟨o, l⟩ := by rw [hvaddr, hp]
    cases o with
    | none => exact .kernelTable hnext
    | some P => exact .table hvu hnext
  · have hwritten : entry (s.ram.writeLe (b + 8 * i) 8 (p + 7)) b i = p + 7 :=
      Ram.readLe_writeLe hvlt
    rw [follow_eq_some, hwritten]
    exact ⟨hvp, fun _ => hvu, hvaddr⟩

/-- A page of a process is linked to a table. -/
theorem VmInv.linkPage (h : VmInv U kind s) {o : Option ℕ} (hb : kind b = some ⟨o, 0⟩)
    (hi : i < 512) (hdvd : pgsize ∣ p) {x : Owned} (hx : x ∈ s.log) (hin : p ∈ x.toSet)
    (hpurpose : ∀ P, o = some P → x.purpose = .userMemory P)
    (habsent : ¬Present (entry s.ram b i)) (hunused : ∀ b i, ¬Uses kind s.ram b i p) :
    VmInv U kind { s with ram := s.ram.writeLe (b + 8 * i) 8 (p + 7) } ∧
      Grows {p} kind s kind { s with ram := s.ram.writeLe (b + 8 * i) 8 (p + 7) } ∧
      follow true (s.ram.writeLe (b + 8 * i) 8 (p + 7)) b i = some p := by
  obtain ⟨-, -, hvlt, hvp, hvu, hvaddr⟩ := entry_value hdvd (h.blocks.lt_of_mem hx hin)
  refine ⟨h.write hb hi hvlt (fun _ => ?_) (fun _ _ _ _ => hvaddr.symm ▸ hunused) (by simp),
    h.grows_write hb hi hvlt habsent fun _ _ => hvaddr, ?_⟩
  · cases o with
    | none => exact .kernelPage
    | some P => exact .page hvu hx (hpurpose P rfl) (hvaddr.symm ▸ hin)
  · have hwritten : entry (s.ram.writeLe (b + 8 * i) 8 (p + 7)) b i = p + 7 :=
      Ram.readLe_writeLe hvlt
    rw [follow_eq_some, hwritten]
    exact ⟨hvp, fun _ => hvu, hvaddr⟩

end Steps

/-! ### One level -/

section Levels

variable {U : Set ℕ} {kind : Kinds} {s s' : VmState} {b i l va P : ℕ} {o : Option ℕ}

/-- Afterwards the entry is present, and the walk goes on with the table it leads to. -/
theorem walkLevel_spec (h : VmInv U kind s) (hb : kind b = some ⟨o, l + 1⟩)
    (hkern : l + 1 = 3 → o ≠ none) (hi : i < 512) {r : Option ℕ}
    (hcall : walkLevel (p2v b) i true s = some (r, s')) :
    ∃ kind', VmInv U kind' s' ∧ Grows ∅ kind s kind' s' ∧ Present (entry s'.ram b i) ∧
      r = some (p2v (pteAddr (entry s'.ram b i))) := by
  simp only [walkLevel, vm_bind_eq_some, readWord_eq_some] at hcall
  obtain ⟨e, s₀, ⟨-, he, rfl⟩, hcall⟩ := hcall
  rw [v2p_entry (h.low b _ hb) hi] at he
  have hlt := entry_lt s.ram b i
  change entry s.ram b i = e at he
  subst he
  by_cases hp : Present (entry s.ram b i)
  · rw [if_pos (present_p2v.2 hp), vm_pure_eq_some] at hcall
    obtain ⟨rfl, rfl⟩ := hcall
    exact ⟨kind, h, .refl _ _ _, hp, by rw [pteAddr_p2v hlt]⟩
  · simp only [present_p2v, hp, if_false, Bool.true_eq_false, vm_bind_eq_some] at hcall
    obtain ⟨v, s₁, halloc, hcall⟩ := hcall
    obtain ⟨p, hv, hblock, htable⟩ := h.allocTable halloc
    obtain ⟨hinv, hgrows, hunused⟩ := htable ⟨o, l⟩
    rw [hv] at hcall
    have hpk : Function.update kind p (some ⟨o, l⟩) p = some ⟨o, l⟩ := Function.update_self _ _ _
    have hlow := hinv.low p _ hpk
    have hplt : p < 2 ^ 64 := by
      unfold pgsize at hlow
      omega
    have hne : p2v p ≠ 0 := by
      unfold pgsize at hlow
      rw [p2v_eq (by omega)]
      unfold kernbase
      omega
    simp only [if_neg hne, vm_bind_eq_some, memset_eq_some, writeWord_eq_some, vm_pure_eq_some]
      at hcall
    obtain ⟨-, s₂, ⟨-, rfl⟩, -, s₃, ⟨-, rfl⟩, rfl, rfl⟩ := hcall
    have habsent : ¬Present (entry s₁.ram b i) := by
      have hsame : entry s₁.ram b i = entry s.ram b i :=
        entry_congr hi fun a ha => hblock.ram_eq a fun hin =>
          hblock.fresh a hin _ (h.table b _ hb) ha
      rwa [hsame]
    obtain ⟨hinv', hwrite, hfollow⟩ :=
      hinv.linkTable (hgrows.tables b _ hb) hkern hi hpk habsent hunused
    have hfresh : ∀ a ∈ ({p} : Set ℕ), ∀ x ∈ s.log, a ∉ x.toSet := by
      rintro a rfl
      exact hblock.fresh a (start_mem_tableBlock a)
    have hself : pteAddr (p2v p) = p2v p := by
      rw [pteAddr_p2v hplt, pteAddr_of_dvd (hinv.dvd hpk) hplt]
    obtain ⟨hpresent, -, haddr⟩ := follow_eq_some.1 hfollow
    dsimp only
    rw [AllocInv.v2p_p2v hplt, hblock.cleared.memset_eq, v2p_entry (h.low b _ hb) hi,
      (entry_value (hinv.dvd hpk) hplt).1, hself]
    exact ⟨_, hinv', ((hgrows.mono (Set.empty_subset _)).trans hwrite).of_fresh hfresh, hpresent,
      by rw [haddr]⟩

/-- A level that was entered is entered again later on. -/
theorem follow_false {ram : Ram} (hp : Present (entry ram b i)) :
    follow false ram b i = some (pteAddr (entry ram b i)) :=
  follow_eq_some.2 ⟨hp, by simp, rfl⟩

theorem follow_true {ram : Ram} (hp : Present (entry ram b i)) (hu : User (entry ram b i)) :
    follow true ram b i = some (pteAddr (entry ram b i)) :=
  follow_eq_some.2 ⟨hp, fun _ => hu, rfl⟩

/-- From a table of level 2 on, a walk stays with the owner of the table. -/
theorem walkLevel_owner (h : VmInv U kind s) (hb : kind b = some ⟨o, l + 1⟩) (hl : l < 2)
    (hi : i < 512) {r : Option ℕ} (hcall : walkLevel (p2v b) i true s = some (r, s')) :
    ∃ kind' c, VmInv U kind' s' ∧ Grows ∅ kind s kind' s' ∧ kind' c = some ⟨o, l⟩ ∧
      r = some (p2v c) ∧ follow false s'.ram b i = some c ∧
      (o ≠ none → follow true s'.ram b i = some c) := by
  obtain ⟨kind', hinv, hgrows, hp, hr⟩ := walkLevel_spec h hb (by omega) hi hcall
  rcases hinv.next (hgrows.tables b _ hb) hi hp with ⟨hnext, huser⟩ | ⟨rfl, -, -⟩
  · exact ⟨kind', _, hinv, hgrows, hnext, hr, follow_false hp, fun ho => follow_true hp (huser ho)⟩
  · exact absurd hl (lt_irrefl 2)

/-- The walk from the top table of a process: it ends at a table of the process, or, where the top
entry is not for user mode, at one of the kernel. -/
theorem walkTables_spec (h : VmInv U kind s) {Q : ℕ} (hP : kind P = some ⟨some Q, 3⟩)
    {r : Option ℕ} (hcall : walkTables (p2v P) va true s = some (r, s')) :
    ∃ kind' pt o, VmInv U kind' s' ∧ Grows ∅ kind s kind' s' ∧ r = some (p2v pt) ∧
      kind' pt = some ⟨o, 0⟩ ∧ tableOf false s'.ram P va = some pt ∧
      (o = some Q ∧ tableOf true s'.ram P va = some pt ∨
        o = none ∧ follow true s'.ram P (pml4x va) = none) := by
  simp only [walkTables, vm_bind_eq_some] at hcall
  obtain ⟨r₁, s₁, h₁, hcall⟩ := hcall
  obtain ⟨kind₁, hinv₁, hgrows₁, hp₁, hr₁⟩ := walkLevel_spec h hP (by simp) (pml4x_lt va) h₁
  have hP₁ := hgrows₁.tables P _ hP
  -- the second table, and whether it belongs to the process
  obtain ⟨o, hpdpt, ho⟩ : ∃ o, kind₁ (pteAddr (entry s₁.ram P (pml4x va))) = some ⟨o, 2⟩ ∧
      (o = some Q ∧ User (entry s₁.ram P (pml4x va)) ∨
        o = none ∧ ¬User (entry s₁.ram P (pml4x va))) := by
    rcases hinv₁.next hP₁ (pml4x_lt va) hp₁ with ⟨hnext, huser⟩ | ⟨-, hnext, huser⟩
    · exact ⟨_, hnext, Or.inl ⟨rfl, huser (by simp)⟩⟩
    · exact ⟨_, hnext, Or.inr ⟨rfl, huser⟩⟩
  simp only [hr₁, vm_bind_eq_some] at hcall
  obtain ⟨r₂, s₂, h₂, hcall⟩ := hcall
  obtain ⟨kind₂, pd, hinv₂, hgrows₂, hpd, hr₂, hf₂, hu₂⟩ :=
    walkLevel_owner hinv₁ hpdpt (by decide) (pdptx_lt va) h₂
  simp only [hr₂] at hcall
  obtain ⟨kind₃, pt, hinv₃, hgrows₃, hpt, hr₃, hf₃, hu₃⟩ :=
    walkLevel_owner hinv₂ hpd (by decide) (pdx_lt va) hcall
  have hgrows := hgrows₂.trans hgrows₃
  have hentry := hgrows.entries P _ (pml4x va) hP₁ (pml4x_lt va) hp₁
  refine ⟨kind₃, pt, o, hinv₃, hgrows₁.trans hgrows, hr₃, hpt, ?_, ?_⟩
  · exact tableOf_eq_some.2 ⟨_, _, hgrows.follow hP₁ (pml4x_lt va) (follow_false hp₁),
      hgrows₃.follow (hgrows₂.tables _ _ hpdpt) (pdptx_lt va) hf₂, hf₃⟩
  · rcases ho with ⟨rfl, huser⟩ | ⟨rfl, huser⟩
    · refine Or.inl ⟨rfl, tableOf_eq_some.2 ⟨_, _, hgrows.follow hP₁ (pml4x_lt va)
        (follow_true hp₁ huser), hgrows₃.follow (hgrows₂.tables _ _ hpdpt) (pdptx_lt va)
        (hu₂ (by simp)), hu₃ (by simp)⟩⟩
    · refine Or.inr ⟨rfl, ?_⟩
      unfold follow
      dsimp only
      rw [hentry, if_neg fun hboth => huser (hboth.2 rfl)]

/-! ### Mapping a page -/

theorem lastPage_eq (hva : pgsize ∣ va) (hlt : va < 2 ^ 64) :
    pgrounddown va = va ∧ pgrounddown (sub64 (add64 va pgsize) 1) = va := by
  unfold pgsize at hva
  have hadd : sub64 (add64 va pgsize) 1 = va + 4095 := by
    unfold sub64 add64 pgsize
    omega
  rw [hadd, pgrounddown_eq hlt, pgrounddown_eq (by omega)]
  omega

/-- For a single page the loop of `map_pages` runs once. -/
theorem mapPages_page (hva : pgsize ∣ va) (hlt : va < 2 ^ 64) (pml4 pa perm : ℕ) :
    mapPages pml4 va pgsize pa perm = mapLoop pml4 va perm 1 va pa := by
  obtain ⟨hfirst, hlast⟩ := lastPage_eq hva hlt
  have hfuel : sub64 va va / pgsize + 1 = 1 := by
    rw [sub64_of_le hlt le_rfl, Nat.sub_self, Nat.zero_div]
  unfold mapPages
  rw [hlast, hfirst]
  dsimp only
  rw [hfuel]

/-- The entry for a page of a process is written, in the table that the walk led to. -/
theorem mapEntry_spec (h : VmInv U kind s) {Q pa pt : ℕ} (hP : kind P = some ⟨some Q, 3⟩)
    (hva : pgsize ∣ va) (hpa : pgsize ∣ pa) {x : Owned} (hx : x ∈ s.log)
    (hpurpose : x.purpose = .userMemory Q) (hin : pa ∈ x.toSet)
    (hunused : ∀ b i, ¬Uses kind s.ram b i pa) (hpt : kind pt = some ⟨o, 0⟩)
    (htab : tableOf false s.ram P va = some pt)
    (ho : o = some Q ∧ tableOf true s.ram P va = some pt ∨
      o = none ∧ follow true s.ram P (pml4x va) = none)
    (habsent : ¬Present (entry s.ram pt (ptx va))) :
    VmInv U kind { s with ram := s.ram.writeLe (pt + 8 * ptx va) 8 (pa + 7) } ∧
      Grows {pa} kind s kind { s with ram := s.ram.writeLe (pt + 8 * ptx va) 8 (pa + 7) } ∧
      (follow true (s.ram.writeLe (pt + 8 * ptx va) 8 (pa + 7)) P (pml4x va) ≠ none →
        translate true (s.ram.writeLe (pt + 8 * ptx va) 8 (pa + 7)) P va = some pa) := by
  have hown : ∀ R, o = some R → x.purpose = .userMemory R := by
    rintro R rfl
    rcases ho with ⟨hR, -⟩ | ⟨hR, -⟩
    · exact Option.some.inj hR ▸ hpurpose
    · cases hR
  obtain ⟨hinv, hwrite, hpage⟩ := h.linkPage hpt (ptx_lt va) hpa hx hin hown habsent hunused
  refine ⟨hinv, hwrite, fun htop => ?_⟩
  rcases ho with ⟨rfl, htrue⟩ | ⟨rfl, hnone⟩
  · refine translate_eq_some.2 ⟨pt, pa, hwrite.tableOf h hP htrue, hpage, ?_⟩
    unfold pgsize at hva
    rw [offset_eq, Nat.mod_eq_zero_of_dvd hva, Nat.add_zero]
  · -- the top entry was there before
    obtain ⟨pdpt, -, htop₀, -⟩ := tableOf_eq_some.1 htab
    have hp := (follow_eq_some.1 htop₀).1
    have hsame := hwrite.entries P _ (pml4x va) hP (pml4x_lt va) hp
    refine absurd ?_ htop
    rw [← hnone]
    unfold follow
    exact congrArg (fun e => if Present e ∧ (true = true → User e) then some (pteAddr e) else none)
      hsame

/-- What a call of `map_pages` for one page does: it walks to the entry, which is not present, and
writes it. -/
theorem mapPages_cases (h : VmInv U kind s) {Q pa perm : ℕ} (hP : kind P = some ⟨some Q, 3⟩)
    (hva : pgsize ∣ va) (hvalt : va < 2 ^ 64) {r : ℤ}
    (hcall : mapPages (p2v P) va pgsize pa perm s = some (r, s')) :
    ∃ kind₁ s₁ pt o, VmInv U kind₁ s₁ ∧ Grows ∅ kind s kind₁ s₁ ∧ kind₁ pt = some ⟨o, 0⟩ ∧
      tableOf false s₁.ram P va = some pt ∧
      (o = some Q ∧ tableOf true s₁.ram P va = some pt ∨
        o = none ∧ follow true s₁.ram P (pml4x va) = none) ∧
      ¬Present (entry s₁.ram pt (ptx va)) ∧
      s' = { s₁ with ram := s₁.ram.writeLe (pt + 8 * ptx va) 8 (pa ||| perm ||| pteP) } := by
  rw [mapPages_page hva hvalt] at hcall
  simp only [mapLoop, pageWalkReturnPte, vm_bind_eq_some] at hcall
  obtain ⟨v, s₁, ⟨r₁, s₀, hwalk, hpte⟩, hcall⟩ := hcall
  obtain ⟨kind₁, pt, o, hinv, hgrows, hr, hpt, htab, ho⟩ := walkTables_spec h hP hwalk
  simp only [hr, vm_pure_eq_some] at hpte
  obtain ⟨rfl, rfl⟩ := hpte
  have hlow := hinv.low pt _ hpt
  have haddr := v2p_entry hlow (ptx_lt va)
  have hne : add64 (p2v pt) (8 * ptx va) ≠ 0 := by
    have hi := ptx_lt va
    unfold pgsize at hlow
    rw [p2v_eq (by omega)]
    unfold add64 kernbase
    omega
  simp only [if_neg hne, vm_bind_eq_some, readWord_eq_some, haddr] at hcall
  obtain ⟨e, s₂, ⟨-, he, rfl⟩, hcall⟩ := hcall
  change entry s₀.ram pt (ptx va) = e at he
  rw [← he] at hcall
  by_cases habsent : Present (entry s₀.ram pt (ptx va))
  · rw [if_pos habsent] at hcall
    cases hcall
  simp only [habsent, if_false, vm_bind_eq_some, writeWord_eq_some, haddr, if_true,
    vm_pure_eq_some] at hcall
  obtain ⟨-, s₃, ⟨-, rfl⟩, -, rfl⟩ := hcall
  exact ⟨kind₁, s₀, pt, o, hinv, hgrows, hpt, htab, ho, habsent, rfl⟩

/-- Where a page is mapped, none was mapped before. -/
theorem mapPages_absent (h : VmInv U kind s) {Q pa perm : ℕ} (hP : kind P = some ⟨some Q, 3⟩)
    (hva : pgsize ∣ va) (hvalt : va < 2 ^ 64) {r : ℤ}
    (hcall : mapPages (p2v P) va pgsize pa perm s = some (r, s')) :
    translate false s.ram P va = none := by
  obtain ⟨kind₁, s₁, pt, o, -, hgrows, -, htab, -, habsent, -⟩ :=
    mapPages_cases h hP hva hvalt hcall
  -- an entry that was there would have stayed
  by_contra hold
  obtain ⟨a, ha⟩ := Option.ne_none_iff_exists'.1 hold
  obtain ⟨pt', page, htab', hpage, -⟩ := translate_eq_some.1 ha
  obtain rfl : pt' = pt := Option.some.inj ((hgrows.tableOf h hP htab').symm.trans htab)
  obtain ⟨o', hk⟩ := h.kind_of_tableOf hP htab'
  exact habsent (follow_eq_some.1 (hgrows.follow hk (ptx_lt va) hpage)).1

/-- A page of a process is mapped: in user mode the address leads to the page, unless the top entry
is not for user mode. -/
theorem mapPages_spec (h : VmInv U kind s) {Q pa : ℕ} (hP : kind P = some ⟨some Q, 3⟩)
    (hva : pgsize ∣ va) (hvalt : va < 2 ^ 64) (hpa : pgsize ∣ pa) {x : Owned} (hx : x ∈ s.log)
    (hpurpose : x.purpose = .userMemory Q) (hin : pa ∈ x.toSet)
    (hunused : ∀ b i, ¬Uses kind s.ram b i pa) {r : ℤ}
    (hcall : mapPages (p2v P) va pgsize pa (pteW ||| pteU) s = some (r, s')) :
    ∃ kind', VmInv U kind' s' ∧ Grows {pa} kind s kind' s' ∧
      (follow true s'.ram P (pml4x va) ≠ none → translate true s'.ram P va = some pa) := by
  obtain ⟨kind₁, s₁, pt, o, hinv, hgrows, hpt, htab, ho, habsent, rfl⟩ :=
    mapPages_cases h hP hva hvalt hcall
  have hunused₁ : ∀ b i, ¬Uses kind₁ s₁.ram b i pa :=
    hgrows.unused hx hin (Set.notMem_empty pa) hunused
  rw [(entry_value hpa (h.blocks.lt_of_mem hx hin)).2.1]
  obtain ⟨hinv', hwrite, hmapped⟩ := mapEntry_spec hinv (hgrows.tables P _ hP) hva hpa
    (hgrows.log x hx) hpurpose hin hunused₁ hpt htab ho habsent
  exact ⟨kind₁, hinv', (hgrows.mono (Set.empty_subset _)).trans hwrite, hmapped⟩

end Levels

end MicroKernel
