import MicroKernel.System.Frame
import MicroKernel.Vm.UserMemory

/-!
# The entries of the tables of a process

Pages for tables are cleared, and an entry is written only to link a table or a page with the flags
`PTE_P`, `PTE_W` and `PTE_U`.  So an entry of a new table is zero or leads somewhere in user mode;
the one exception is the entry that a process shares with the kernel.

* `FullLinks`, `Links` : what calls do to the entries of all tables;
* `linksOnly_allocUvm` : `alloc_uvm` links only;
* `setupUserMemoryPages_links` : so does `setup_user_memory_pages`, apart from the shared entry.
-/

namespace MicroKernel

open Extent

attribute [local irreducible] p2v v2p pteAddr

/-- An entry with all flags: it is present, and user mode may write through it. -/
structure FullEntry (pte : ℕ) : Prop where
  /-- `PTE_P`. -/
  present : Present pte
  /-- `PTE_W`. -/
  writable : Writable pte
  /-- `PTE_U`. -/
  user : User pte

/-- From `s` to `s'`, blocks stay handed out, and the entries of the tables outside `E` are kept,
or are zero or have all flags. -/
structure FullLinks (E : Set (ℕ × ℕ)) (s s' : VmState) : Prop where
  /-- Blocks stay handed out. -/
  log : ∀ x ∈ s.log, x ∈ s'.log
  /-- The entries of the tables. -/
  entries : ∀ b i, tableBlock b ∈ s'.log → i < 512 → (b, i) ∉ E →
    tableBlock b ∈ s.log ∧ entry s'.ram b i = entry s.ram b i ∨
      entry s'.ram b i = 0 ∨ FullEntry (entry s'.ram b i)

/-- From `s` to `s'`, blocks stay handed out, and the entries of the tables outside `E` are kept,
or are zero or links for user mode. -/
structure Links (E : Set (ℕ × ℕ)) (s s' : VmState) : Prop where
  /-- Blocks stay handed out. -/
  log : ∀ x ∈ s.log, x ∈ s'.log
  /-- The entries of the tables. -/
  entries : ∀ b i, tableBlock b ∈ s'.log → i < 512 → (b, i) ∉ E →
    tableBlock b ∈ s.log ∧ entry s'.ram b i = entry s.ram b i ∨
      entry s'.ram b i = 0 ∨ Present (entry s'.ram b i) ∧ User (entry s'.ram b i)

namespace FullLinks

variable {E : Set (ℕ × ℕ)} {s s' s'' : VmState}

theorem refl (E : Set (ℕ × ℕ)) (s : VmState) : FullLinks E s s :=
  ⟨fun _ h => h, fun _ _ hb _ _ => Or.inl ⟨hb, rfl⟩⟩

theorem trans (h : FullLinks E s s') (h' : FullLinks E s' s'') : FullLinks E s s'' := by
  refine ⟨fun x hx => h'.log x (h.log x hx), fun b i hb hi hE => ?_⟩
  rcases h'.entries b i hb hi hE with ⟨hb', hsame⟩ | hnew
  · rw [hsame]
    exact h.entries b i hb' hi hE
  · exact Or.inr hnew

instance : IsPreorder VmState (FullLinks E) where
  refl := refl E
  trans _ _ _ := trans

theorem links (h : FullLinks E s s') : Links E s s' := by
  refine ⟨h.log, fun b i hb hi hE => ?_⟩
  rcases h.entries b i hb hi hE with hsame | hzero | hfull
  · exact Or.inl hsame
  · exact Or.inr (Or.inl hzero)
  · exact Or.inr (Or.inr ⟨hfull.present, hfull.user⟩)

end FullLinks

namespace Links

variable {E : Set (ℕ × ℕ)} {s s' s'' : VmState}

theorem trans (h : Links E s s') (h' : Links E s' s'') : Links E s s'' := by
  refine ⟨fun x hx => h'.log x (h.log x hx), fun b i hb hi hE => ?_⟩
  rcases h'.entries b i hb hi hE with ⟨hb', hsame⟩ | hnew
  · rw [hsame]
    exact h.entries b i hb' hi hE
  · exact Or.inr hnew

theorem of_entries (hlog : s'.log = s.log)
    (hentry : ∀ b i, tableBlock b ∈ s.log → i < 512 → entry s'.ram b i = entry s.ram b i) :
    Links E s s' :=
  ⟨fun _ hx => hlog ▸ hx, fun b i hb hi _ => Or.inl ⟨hlog ▸ hb, hentry b i (hlog ▸ hb) hi⟩⟩

end Links

/-! ### Writes -/

section Writes

variable {ram : Ram} {a b i v x y : ℕ}

theorem present_or : Present (x ||| y) ↔ Present x ∨ Present y := by
  unfold Present
  rw [Nat.and_or_distrib_right, Ne, Nat.or_eq_zero_iff]
  tauto

theorem writable_or : Writable (x ||| y) ↔ Writable x ∨ Writable y := by
  unfold Writable
  rw [Nat.and_or_distrib_right, Ne, Nat.or_eq_zero_iff]
  tauto

theorem user_or : User (x ||| y) ↔ User x ∨ User y := by
  unfold User
  rw [Nat.and_or_distrib_right, Ne, Nat.or_eq_zero_iff]
  tauto

theorem fullEntry_link (v : ℕ) : FullEntry (v ||| pteP ||| pteW ||| pteU) := by
  refine ⟨?_, ?_, ?_⟩
  · exact present_or.2 (Or.inl (present_or.2 (Or.inl (present_or.2 (Or.inr (by decide))))))
  · exact writable_or.2 (Or.inl (writable_or.2 (Or.inr (by decide))))
  · exact user_or.2 (Or.inr (by decide))

theorem fullEntry_map (pa : ℕ) : FullEntry (pa ||| (pteW ||| pteU) ||| pteP) := by
  refine ⟨present_or.2 (Or.inr (by decide)), ?_, ?_⟩
  · exact writable_or.2 (Or.inl (writable_or.2 (Or.inr (by decide))))
  · exact user_or.2 (Or.inl (user_or.2 (Or.inr (by decide))))

theorem FullEntry.writeLe (h : FullEntry v) : FullEntry ((ram.writeLe a 8 v).readLe a 8) := by
  have hfirst : ram.writeLe a 8 v a = BitVec.ofNat 8 v := by
    have h : ram.writeLe a 8 v (a + 0) = BitVec.ofNat 8 (v / 256 ^ 0) :=
      Ram.writeBytes_add (show 0 < 8 by decide)
    rwa [Nat.add_zero, Nat.pow_zero, Nat.div_one] at h
  obtain ⟨hp, hw, hu⟩ := h
  rw [present_iff] at hp
  rw [writable_iff] at hw
  rw [user_iff] at hu
  refine ⟨?_, ?_, ?_⟩
  · rw [present_iff, Ram.readLe, hfirst, BitVec.toNat_ofNat]
    omega
  · rw [writable_iff, Ram.readLe, hfirst, BitVec.toNat_ofNat]
    omega
  · rw [user_iff, Ram.readLe, hfirst, BitVec.toNat_ofNat]
    omega

theorem entry_writeBytes_of_disjoint {f : ℕ → BitVec 8} {n : ℕ}
    (h : b + 8 * i + 8 ≤ a ∨ a + n ≤ b + 8 * i) :
    entry (ram.writeBytes a n f) b i = entry ram b i := Ram.readLe_writeBytes_of_disjoint h

/-- A word is written to one entry or to none. -/
theorem entry_writeLe_cases (ram : Ram) (i : ℕ) (hb : 8 ∣ b) (ha : 8 ∣ a) (hv : FullEntry v) :
    entry (ram.writeLe a 8 v) b i = entry ram b i ∨ FullEntry (entry (ram.writeLe a 8 v) b i) := by
  have hcases : b + 8 * i = a ∨ b + 8 * i + 8 ≤ a ∨ a + 8 ≤ b + 8 * i := by omega
  rcases hcases with heq | hout
  · rw [entry, heq]
    exact Or.inr hv.writeLe
  · exact Or.inl (entry_writeBytes_of_disjoint hout)

theorem entry_memset_cases (ram : Ram) (i : ℕ) {n : ℕ} (hb : 8 ∣ b) (ha : 8 ∣ a) (hn : 8 ∣ n) :
    entry (ram.memset a 0 n) b i = entry ram b i ∨ entry (ram.memset a 0 n) b i = 0 := by
  by_cases hin : a ≤ b + 8 * i ∧ b + 8 * i + 8 ≤ a + n
  · exact Or.inr (Ram.readLe_memset hin.1 hin.2)
  · exact Or.inl (entry_writeBytes_of_disjoint (by omega))

end Writes

/-! ### Calls -/

section Calls

variable {U : Set ℕ} {E : Set (ℕ × ℕ)} {s s' : VmState} {va a v n size align maxAddr : ℕ}
  {purpose : Purpose}

/-- The program links with all flags, and its result is in `Q`. -/
def LinksOnly {α : Type} (U : Set ℕ) (E : Set (ℕ × ℕ)) (x : VmM α) (Q : α → Prop) : Prop :=
  Frames (fun s => AllocInv U s.blocks) (FullLinks E) x Q

theorem tableBlock_dvd (h : AllocInv U s.blocks) {b : ℕ} (hb : tableBlock b ∈ s.log) :
    pgsize ∣ b := h.dvd_of_mem hb (start_mem_tableBlock b)

theorem linksOnly_readWord : LinksOnly U E (readWord va) (fun v => v < 2 ^ 64) := by
  intro s v s' hs h
  obtain ⟨-, rfl, rfl⟩ := readWord_eq_some.1 h
  exact ⟨hs, .refl E s, Ram.readLe_lt _ _ _⟩

theorem linksOnly_writeWord (ha : 8 ∣ v2p a) (hv : FullEntry v) :
    LinksOnly U E (writeWord a v) (fun _ => True) := by
  intro s u s' hs h
  obtain ⟨-, rfl⟩ := writeWord_eq_some.1 h
  dsimp only
  rw [blocks_ram]
  refine ⟨hs, ⟨fun _ hx => hx, fun b i hb hi _ => ?_⟩, trivial⟩
  have hdvd : 8 ∣ b := (show 8 ∣ pgsize by decide).trans (tableBlock_dvd hs hb)
  rcases entry_writeLe_cases s.ram i hdvd ha hv with hsame | hnew
  · exact Or.inl ⟨hb, hsame⟩
  · exact Or.inr (Or.inr hnew)

theorem linksOnly_link (ha : 8 ∣ v2p a) :
    LinksOnly U E (writeWord a (v ||| pteP ||| pteW ||| pteU)) (fun _ => True) :=
  linksOnly_writeWord ha (fullEntry_link v)

theorem linksOnly_memset (ha : 8 ∣ v2p a) (hn : 8 ∣ n) :
    LinksOnly U E (memset a 0 n) (fun _ => True) := by
  intro s u s' hs h
  obtain ⟨-, rfl⟩ := memset_eq_some.1 h
  dsimp only
  rw [blocks_ram]
  refine ⟨hs, ⟨fun _ hx => hx, fun b i hb hi _ => ?_⟩, trivial⟩
  have hdvd : 8 ∣ b := (show 8 ∣ pgsize by decide).trans (tableBlock_dvd hs hb)
  rcases entry_memset_cases s.ram i hdvd ha hn with hsame | hzero
  · exact Or.inl ⟨hb, hsame⟩
  · exact Or.inr (Or.inl hzero)

/-- A block is handed out: if it is for a table, the table is cleared. -/
theorem linksOnly_memblockAllocBase :
    LinksOnly U E (Vm.memblockAllocBase size pgsize maxAddr purpose)
      (fun p => 0 < size → pgsize ∣ p) := by
  intro s p s' hs h
  obtain ⟨hinv, halloc⟩ := memblockAllocBase_allocated hs h
  refine ⟨hinv, ⟨fun x hx => halloc.log ▸ List.mem_cons_of_mem _ hx, fun b i hb hi _ => ?_⟩,
    halloc.dvd⟩
  rw [halloc.log] at hb
  rcases List.mem_cons.1 hb with hnew | hold
  · -- the block is the table
    right
    left
    simp only [tableBlock, Owned.mk.injEq, Extent.mk.injEq] at hnew
    obtain ⟨⟨rfl, rfl⟩, rfl⟩ := hnew
    exact halloc.cleared.entry_eq hi
  · left
    exact ⟨hold, entry_congr hi fun a ha => halloc.ram_eq a fun hin => halloc.fresh a hin _ hold ha⟩

theorem dvd_p2v (ha : 8 ∣ a) : 8 ∣ p2v a := by
  unfold p2v add64 kernbase
  omega

theorem dvd_v2p (ha : 8 ∣ a) : 8 ∣ v2p a := by
  unfold v2p sub64 kernbase
  omega

theorem dvd_add64 (ha : 8 ∣ a) (n : ℕ) : 8 ∣ add64 a (8 * n) := by
  unfold add64
  omega

theorem linksOnly_memblockAllocKernel : LinksOnly U E
    (Vm.memblockAllocKernel pgsize pgsize purpose) (fun v => 8 ∣ v ∧ v < 2 ^ 64) :=
  Frames.bind linksOnly_memblockAllocBase fun p hp =>
    Frames.pure ⟨dvd_p2v ((show 8 ∣ pgsize by decide).trans (hp (by decide))), p2v_lt p⟩

end Calls

/-! ### Walks -/

section Walks

variable {U : Set ℕ} {E : Set (ℕ × ℕ)} {tab idx pml4 va last first mem oldSize newSize : ℕ}
  {alloc : Bool}

/-- A table is at a multiple of 8. -/
def AlignedTable (r : Option ℕ) : Prop := ∀ t, r = some t → 8 ∣ t

theorem linksOnly_walkLevel (htab : 8 ∣ tab) :
    LinksOnly U E (walkLevel tab idx alloc) AlignedTable := by
  refine Frames.bind linksOnly_readWord fun next _ => Frames.ite (fun _ => ?_) fun _ => ?_
  · refine Frames.pure fun t ht => ?_
    obtain rfl := Option.some.inj ht
    exact (show 8 ∣ 4096 by decide).trans (pteAddr_dvd (p2v_lt next))
  · refine Frames.ite (fun _ => Frames.pure fun t ht => nomatch ht) fun _ => ?_
    refine Frames.bind linksOnly_memblockAllocKernel fun v hv => ?_
    refine Frames.ite (fun _ => Frames.pure fun t ht => nomatch ht) fun _ => ?_
    refine Frames.bind (linksOnly_memset (dvd_v2p hv.1) (by decide)) fun _ _ => ?_
    refine Frames.bind (linksOnly_link (dvd_v2p (dvd_add64 htab idx))) fun _ _ => ?_
    refine Frames.pure fun t ht => ?_
    obtain rfl := Option.some.inj ht
    exact (show 8 ∣ 4096 by decide).trans (pteAddr_dvd hv.2)

theorem linksOnly_walkTables (hpml4 : 8 ∣ pml4) :
    LinksOnly U E (walkTables pml4 va alloc) AlignedTable := by
  refine Frames.bind (linksOnly_walkLevel hpml4) fun r hr => ?_
  cases r with
  | none => exact Frames.pure hr
  | some pdpte =>
    refine Frames.bind (linksOnly_walkLevel (hr _ rfl)) fun r hr => ?_
    cases r with
    | none => exact Frames.pure hr
    | some pde => exact linksOnly_walkLevel (hr _ rfl)

theorem linksOnly_pageWalkReturnPte (hpml4 : 8 ∣ pml4) :
    LinksOnly U E (pageWalkReturnPte pml4 va alloc) (fun pte => 8 ∣ pte) := by
  refine Frames.bind (linksOnly_walkTables hpml4) fun r hr => ?_
  cases r with
  | none => exact Frames.pure (Nat.dvd_zero 8)
  | some pte => exact Frames.pure (dvd_add64 (hr _ rfl) _)

theorem linksOnly_mapLoop (hpml4 : 8 ∣ pml4) (n : ℕ) : ∀ first pa,
    LinksOnly U E (mapLoop pml4 last (pteW ||| pteU) n first pa) (fun _ => True) := by
  induction n with
  | zero => exact fun _ _ => Frames.fail fun _ => rfl
  | succ n ih =>
    intro first pa
    refine Frames.bind (linksOnly_pageWalkReturnPte hpml4) fun pte hpte => ?_
    refine Frames.ite (fun _ => Frames.pure trivial) fun _ => ?_
    refine Frames.bind linksOnly_readWord fun e _ => ?_
    refine Frames.ite (fun _ => Frames.fail fun _ => rfl) fun _ => ?_
    refine Frames.bind (linksOnly_writeWord (dvd_v2p hpte) (fullEntry_map pa)) fun _ _ => ?_
    exact Frames.ite (fun _ => Frames.pure trivial) fun _ => ih _ _

theorem linksOnly_allocUvmLoop (hpml4 : 8 ∣ pml4) (n : ℕ) : ∀ va mem,
    LinksOnly U E (allocUvmLoop pml4 newSize n va mem) (fun _ => True) := by
  induction n with
  | zero => exact fun _ _ => Frames.fail fun _ => rfl
  | succ n ih =>
    intro va mem
    refine Frames.ite (fun _ => ?_) fun _ => Frames.pure trivial
    exact Frames.bind (linksOnly_mapLoop hpml4 _ _ _) fun _ _ => ih _ _

/-- `alloc_uvm` links only. -/
theorem linksOnly_allocUvm (hpml4 : 8 ∣ pml4) :
    LinksOnly U E (allocUvm pml4 oldSize newSize) (fun _ => True) := by
  refine Frames.ite (fun _ => Frames.pure trivial) fun _ => ?_
  refine Frames.bind linksOnly_memblockAllocBase fun mem _ => ?_
  exact Frames.bind (linksOnly_allocUvmLoop hpml4 _ _ _) fun _ _ => Frames.pure trivial

end Walks

/-! ### A new process -/

section Setup

variable {U : Set ℕ} {E : Set (ℕ × ℕ)} {s s' : VmState} {b i v : ℕ}

theorem linksOnly_writeWord_mem (hb : pgsize ∣ b) (hlow : b + pgsize ≤ 2 ^ 31) (hi : i < 512)
    (hE : (b, i) ∈ E) : LinksOnly U E (writeWord (add64 (p2v b) (8 * i)) v) (fun _ => True) := by
  intro s u s' hs h
  obtain ⟨-, rfl⟩ := writeWord_eq_some.1 h
  dsimp only
  rw [blocks_ram, v2p_entry hlow hi]
  refine ⟨hs, ⟨fun _ hx => hx, fun b' i' hb' hi' hout => Or.inl ⟨hb', ?_⟩⟩, trivial⟩
  have hdvd := tableBlock_dvd hs hb'
  unfold pgsize at hb hdvd
  refine entry_writeBytes_of_disjoint ?_
  by_contra hmeet
  have hsame : b' = b ∧ i' = i := by omega
  rw [hsame.1, hsame.2] at hout
  exact hout hE

theorem linksOnly_get : LinksOnly U E (get : VmM VmState) (fun _ => True) := by
  intro s t s' hs h
  obtain ⟨-, rfl⟩ := vm_get_eq_some.1 h
  exact ⟨hs, .refl E s, trivial⟩

/-- The page table of a new process is new, and the entry that it shares with the kernel is the only
one that need not be a link. -/
theorem setupUserMemoryPages_links (h : AllocInv U s.blocks)
    (hcall : setupUserMemoryPages s = some (v, s')) :
    ∃ P, v = p2v P ∧ P + pgsize ≤ 2 ^ 31 ∧ (∀ x ∈ s.log, P ∉ x.toSet) ∧
      FullLinks {(P, 511)} s s' := by
  simp only [setupUserMemoryPages] at hcall
  obtain ⟨v₁, s₁, hfirst, hrest⟩ := vm_bind_eq_some.1 hcall
  simp only [Vm.memblockAllocKernel, vm_bind_eq_some, vm_pure_eq_some] at hfirst
  obtain ⟨P, s₀, halloc, rfl, rfl⟩ := hfirst
  obtain ⟨h₁, hlinks₁, -⟩ := linksOnly_memblockAllocBase (E := {(P, 511)}) h halloc
  obtain ⟨-, hblock⟩ := memblockAllocBase_allocated h halloc
  have hfresh : ∀ x ∈ s.log, P ∉ x.toSet := hblock.fresh P ⟨le_rfl, by unfold pgsize; omega⟩
  have hdvd : pgsize ∣ P := hblock.dvd (by decide)
  have hlow : P + pgsize ≤ 2 ^ 31 := hblock.low (by decide) (by decide)
  have hP : 8 ∣ p2v P := dvd_p2v ((show 8 ∣ pgsize by decide).trans hdvd)
  suffices hlinksOnly : LinksOnly U {(P, 511)} _ (fun r => r = p2v P) by
    obtain ⟨-, hlinks, rfl⟩ := hlinksOnly h₁ hrest
    exact ⟨P, rfl, hlow, hfresh, hlinks₁.trans hlinks⟩
  refine Frames.bind linksOnly_memblockAllocKernel fun pdpt hpdpt => ?_
  refine Frames.bind linksOnly_memblockAllocKernel fun pgdir hpgdir => ?_
  refine Frames.bind linksOnly_memblockAllocKernel fun pte hpte => ?_
  refine Frames.bind (linksOnly_memset (dvd_v2p hP) (by decide)) fun _ _ => ?_
  refine Frames.bind (linksOnly_memset (dvd_v2p hpdpt.1) (by decide)) fun _ _ => ?_
  refine Frames.bind (linksOnly_memset (dvd_v2p hpgdir.1) (by decide)) fun _ _ => ?_
  refine Frames.bind (linksOnly_memset (dvd_v2p hpte.1) (by decide)) fun _ _ => ?_
  refine Frames.bind (linksOnly_link (dvd_v2p hP)) fun _ _ => ?_
  refine Frames.bind linksOnly_get fun _ _ => ?_
  refine Frames.bind linksOnly_readWord fun _ _ => ?_
  refine Frames.bind (linksOnly_writeWord_mem hdvd hlow (by decide) rfl) fun _ _ => ?_
  refine Frames.bind (linksOnly_link (dvd_v2p hpdpt.1)) fun _ _ => ?_
  refine Frames.bind (linksOnly_link (dvd_v2p hpgdir.1)) fun _ _ => ?_
  refine Frames.bind linksOnly_memblockAllocBase fun _ _ => ?_
  refine Frames.bind (linksOnly_link (dvd_v2p hpte.1)) fun _ _ => ?_
  exact Frames.pure rfl

end Setup

end MicroKernel
