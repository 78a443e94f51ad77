import Mathlib.Logic.Function.Basic
import MicroKernel.Vm.Blocks

/-!
# What every page table keeps

A page table belongs to the kernel or to a process, and has a level: 3 for the table that `cr3`
points to, 0 for the tables whose entries lead to pages.  The present entries of a process lead to
its own tables of the next level and to its own memory, all with the flag `PTE_U`; only the top
table has entries without the flag, which lead to tables of the kernel.  No two entries of processes
with the flag lead to the same address.

* `VmInv` : the invariant;
* `VmInv.mono` : it is kept where no entry changes;
* `VmInv.addTable`, `VmInv.write` : a new table, a new entry.
-/

namespace MicroKernel

open Extent

/-- Whose table it is and of which level. -/
structure TableKind where
  /-- The process, none for the kernel. -/
  owner : Option ℕ
  /-- The level. -/
  level : ℕ

/-- The tables at physical addresses. -/
abbrev Kinds := ℕ → Option TableKind

/-- Where a present entry may lead in a table of this kind. -/
inductive Target (kind : Kinds) (log : List Owned) : TableKind → ℕ → Prop
  /-- From a table of the kernel to the next level. -/
  | kernelTable {l pte : ℕ} (next : kind (pteAddr pte) = some ⟨none, l⟩) :
      Target kind log ⟨none, l + 1⟩ pte
  /-- From a table of the kernel anywhere. -/
  | kernelPage {pte : ℕ} : Target kind log ⟨none, 0⟩ pte
  /-- From the top table of a process into the tables of the kernel. -/
  | link {P pte : ℕ} (user : ¬User pte) (next : kind (pteAddr pte) = some ⟨none, 2⟩) :
      Target kind log ⟨some P, 3⟩ pte
  /-- From a table of a process to the next level. -/
  | table {P l pte : ℕ} (user : User pte) (next : kind (pteAddr pte) = some ⟨some P, l⟩) :
      Target kind log ⟨some P, l + 1⟩ pte
  /-- From a table of a process to a page of it. -/
  | page {P pte : ℕ} {x : Owned} (user : User pte) (mem : x ∈ log)
      (purpose : x.purpose = .userMemory P) (inside : pteAddr pte ∈ x.toSet) :
      Target kind log ⟨some P, 0⟩ pte

/-- The entry `i` of the table `b`, which belongs to a process, leads to `a` in user mode. -/
def Uses (kind : Kinds) (ram : Ram) (b i a : ℕ) : Prop :=
  (∃ P l, kind b = some ⟨some P, l⟩) ∧ i < 512 ∧ follow true ram b i = some a

/-- The block of a page table. -/
def tableBlock (b : ℕ) : Owned := ⟨⟨b, pgsize⟩, .pageTable⟩

theorem start_mem_tableBlock (b : ℕ) : b ∈ (tableBlock b).toSet :=
  ⟨le_rfl, Nat.lt_add_of_pos_right (show 0 < pgsize by decide)⟩

/-- The invariant. -/
structure VmInv (U : Set ℕ) (kind : Kinds) (s : VmState) : Prop where
  /-- The allocator. -/
  blocks : AllocInv U s.blocks
  /-- It reaches all usable memory. -/
  limit : ∀ a ∈ U, a < s.memblock.currentLimit
  /-- A table is a block of its own. -/
  table : ∀ b k, kind b = some k → tableBlock b ∈ s.log
  /-- The kernel reaches the tables. -/
  low : ∀ b k, kind b = some k → b + pgsize ≤ 2 ^ 31
  /-- Present entries lead where they should. -/
  target : ∀ b k i, kind b = some k → i < 512 → Present (entry s.ram b i) →
    Target kind s.log k (entry s.ram b i)
  /-- Two entries of processes lead to two addresses. -/
  inj : ∀ b i b' i' a, Uses kind s.ram b i a → Uses kind s.ram b' i' a → b = b' ∧ i = i'
  /-- The page table of the kernel, and the entry of it that the processes share. -/
  kern : s.kernPml4 ≠ 0 → ∃ K, s.kernPml4 = p2v K ∧ kind K = some ⟨none, 3⟩ ∧
    (Present (entry s.ram K 511) → ¬User (entry s.ram K 511))

theorem Kinds.ne_of_new {kind : Kinds} {b b' : ℕ} {k : TableKind} (hb : kind b = some k)
    (hnew : kind b' = none) : b ≠ b' := by
  rintro rfl
  rw [hnew] at hb
  cases hb

theorem Kinds.update_of_some {kind : Kinds} {b b' : ℕ} {k : TableKind} (hb : kind b = some k)
    (hnew : kind b' = none) (k' : TableKind) : Function.update kind b' (some k') b = some k := by
  rw [Function.update_of_ne (Kinds.ne_of_new hb hnew), hb]

theorem Target.mono {kind kind' : Kinds} {log log' : List Owned} {k : TableKind} {pte : ℕ}
    (h : Target kind log k pte) (hkind : ∀ b k, kind b = some k → kind' b = some k)
    (hlog : ∀ x ∈ log, x ∈ log') : Target kind' log' k pte := by
  cases h with
  | kernelTable next => exact .kernelTable (hkind _ _ next)
  | kernelPage => exact .kernelPage
  | link user next => exact .link user (hkind _ _ next)
  | table user next => exact .table user (hkind _ _ next)
  | page user mem purpose inside => exact .page user (hlog _ mem) purpose inside

/-! ### Entries after a write -/

section Entries

variable {ram ram' : Ram} {b b' i i' v : ℕ}

theorem entry_congr (hi : i < 512) (h : ∀ a ∈ Set.Ico b (b + pgsize), ram a = ram' a) :
    entry ram b i = entry ram' b i :=
  Ram.readLe_congr 8 fun a ha => h a ⟨by have := ha.1; omega, by
    have := ha.2
    unfold pgsize
    omega⟩

theorem entry_writeLe (ram : Ram) (hb : pgsize ∣ b) (hb' : pgsize ∣ b') (hi : i < 512)
    (hi' : i' < 512)
    (hv : v < 2 ^ 64) :
    entry (ram.writeLe (b + 8 * i) 8 v) b' i' = if b' = b ∧ i' = i then v else entry ram b' i' := by
  unfold pgsize at hb hb'
  split_ifs with h
  · obtain ⟨rfl, rfl⟩ := h
    exact Ram.readLe_writeLe hv
  · refine Ram.readLe_writeBytes_of_disjoint ?_
    rcases Nat.lt_trichotomy b b' with hlt | rfl | hlt
    · omega
    · have hne : i' ≠ i := fun heq => h ⟨rfl, heq⟩
      omega
    · omega

end Entries

/-! ### Tables and blocks -/

namespace VmInv

variable {U : Set ℕ} {kind : Kinds} {s s' : VmState} {b b' i i' a v : ℕ} {k : TableKind}

theorem dvd (h : VmInv U kind s) (hb : kind b = some k) : pgsize ∣ b :=
  h.blocks.dvd_of_mem (h.table b k hb) (start_mem_tableBlock b)

theorem lt (h : VmInv U kind s) (hb : kind b = some k) : b < 2 ^ 64 :=
  h.blocks.lt_of_mem (h.table b k hb) (start_mem_tableBlock b)

theorem mem_of_uses (h : VmInv U kind s) (huse : Uses kind s.ram b i a) :
    ∃ x ∈ s.log, a ∈ x.toSet := by
  obtain ⟨⟨P, l, hb⟩, hi, hfollow⟩ := huse
  obtain ⟨hpresent, huser, rfl⟩ := follow_eq_some.1 hfollow
  have htarget := h.target b _ i hb hi hpresent
  generalize entry s.ram b i = pte at htarget huser
  cases htarget with
  | link user next => exact absurd (huser rfl) user
  | table user next => exact ⟨_, h.table _ _ next, start_mem_tableBlock _⟩
  | page user mem purpose inside => exact ⟨_, mem, inside⟩

theorem uses_congr (hentry : ∀ b k i, kind b = some k → i < 512 →
    entry s'.ram b i = entry s.ram b i) :
    Uses kind s'.ram b i a ↔ Uses kind s.ram b i a := by
  unfold Uses follow
  constructor
  · rintro ⟨⟨P, l, hb⟩, hi, hfollow⟩
    exact ⟨⟨P, l, hb⟩, hi, hentry b _ i hb hi ▸ hfollow⟩
  · rintro ⟨⟨P, l, hb⟩, hi, hfollow⟩
    exact ⟨⟨P, l, hb⟩, hi, (hentry b _ i hb hi).symm ▸ hfollow⟩

/-- A step that changes no entry. -/
theorem mono (h : VmInv U kind s) (hblocks : AllocInv U s'.blocks)
    (hlimit : s'.memblock.currentLimit = s.memblock.currentLimit)
    (hlog : ∀ x ∈ s.log, x ∈ s'.log) (hkern : s'.kernPml4 = s.kernPml4)
    (hentry : ∀ b k i, kind b = some k → i < 512 → entry s'.ram b i = entry s.ram b i) :
    VmInv U kind s' := by
  refine ⟨hblocks, hlimit ▸ h.limit, fun b k hb => hlog _ (h.table b k hb), h.low,
    fun b k i hb hi hp => ?_, ?_, ?_⟩
  · rw [hentry b k i hb hi] at hp ⊢
    exact (h.target b k i hb hi hp).mono (fun _ _ hk => hk) hlog
  · intro b i b' i' a huse huse'
    exact h.inj b i b' i' a ((uses_congr hentry).1 huse) ((uses_congr hentry).1 huse')
  · rw [hkern]
    intro hne
    obtain ⟨K, hK, hkind, huser⟩ := h.kern hne
    exact ⟨K, hK, hkind, by rwa [hentry K _ 511 hkind (by decide)]⟩

/-- A page that holds zeros becomes a table. -/
theorem addTable (h : VmInv U kind s) (hmem : tableBlock b ∈ s.log) (hnew : kind b = none)
    (hlow : b + pgsize ≤ 2 ^ 31) (hzero : ∀ i < 512, ¬Present (entry s.ram b i))
    (k : TableKind) : VmInv U (Function.update kind b (some k)) s := by
  have hold : ∀ c k', kind c = some k' → Function.update kind b (some k) c = some k' :=
    fun c k' hc => Kinds.update_of_some hc hnew k
  have huses : ∀ c i a, Uses (Function.update kind b (some k)) s.ram c i a →
      Uses kind s.ram c i a := by
    rintro c i a ⟨⟨P, l, hc⟩, hi, hfollow⟩
    rcases eq_or_ne c b with rfl | hne
    · exact absurd (follow_eq_some.1 hfollow).1 (hzero i hi)
    · rw [Function.update_of_ne hne] at hc
      exact ⟨⟨P, l, hc⟩, hi, hfollow⟩
  refine ⟨h.blocks, h.limit, fun c k' hc => ?_, fun c k' hc => ?_, fun c k' i hc hi hp => ?_,
    ?_, ?_⟩
  · rcases eq_or_ne c b with rfl | hne
    · exact hmem
    · rw [Function.update_of_ne hne] at hc
      exact h.table c k' hc
  · rcases eq_or_ne c b with rfl | hne
    · exact hlow
    · rw [Function.update_of_ne hne] at hc
      exact h.low c k' hc
  · rcases eq_or_ne c b with rfl | hne
    · exact absurd hp (hzero i hi)
    · rw [Function.update_of_ne hne] at hc
      exact (h.target c k' i hc hi hp).mono hold fun _ hx => hx
  · intro b i b' i' a huse huse'
    exact h.inj b i b' i' a (huses _ _ _ huse) (huses _ _ _ huse')
  · intro hne
    obtain ⟨K, hK, hkind, huser⟩ := h.kern hne
    exact ⟨K, hK, hold K _ hkind, huser⟩

/-- What an entry that is written leads to, and what the others do. -/
theorem uses_write (h : VmInv U kind s) (hb : kind b = some k) (hi : i < 512) (hv : v < 2 ^ 64)
    (huse : Uses kind (s.ram.writeLe (b + 8 * i) 8 v) b' i' a) :
    (b' = b ∧ i' = i ∧ Present v ∧ User v ∧ pteAddr v = a) ∨ Uses kind s.ram b' i' a := by
  obtain ⟨⟨P, l, hb'⟩, hi', hfollow⟩ := huse
  have hentry := entry_writeLe s.ram (h.dvd hb) (h.dvd hb') hi hi' hv
  rw [follow_eq_some, hentry] at hfollow
  split_ifs at hfollow with heq
  · exact Or.inl ⟨heq.1, heq.2, hfollow.1, hfollow.2.1 rfl, hfollow.2.2⟩
  · exact Or.inr ⟨⟨P, l, hb'⟩, hi', follow_eq_some.2 hfollow⟩

/-- A new entry. -/
theorem write (h : VmInv U kind s) (hb : kind b = some k) (hi : i < 512) (hv : v < 2 ^ 64)
    (htarget : Present v → Target kind s.log k v)
    (hfresh : Present v → User v → ∀ P, k.owner = some P → ∀ b' i',
      ¬Uses kind s.ram b' i' (pteAddr v))
    (hkern : k.level = 3 → k.owner = none → ¬User v) :
    VmInv U kind { s with ram := s.ram.writeLe (b + 8 * i) 8 v } := by
  have hentry : ∀ b' k' i', kind b' = some k' → i' < 512 →
      entry (s.ram.writeLe (b + 8 * i) 8 v) b' i' =
        if b' = b ∧ i' = i then v else entry s.ram b' i' :=
    fun b' k' i' hb' hi' => entry_writeLe _ (h.dvd hb) (h.dvd hb') hi hi' hv
  refine ⟨h.blocks, h.limit, h.table, h.low, fun b' k' i' hb' hi' hp => ?_, ?_, ?_⟩
  · dsimp only at hp ⊢
    rw [hentry b' k' i' hb' hi'] at hp ⊢
    split_ifs at hp ⊢ with heq
    · obtain ⟨rfl, rfl⟩ := heq
      obtain rfl : k = k' := Option.some.inj (hb.symm.trans hb')
      exact htarget hp
    · exact h.target b' k' i' hb' hi' hp
  · intro b₁ i₁ b₂ i₂ a h₁ h₂
    have howner : b₁ = b ∨ b₂ = b → ∃ P, k.owner = some P := by
      obtain ⟨P₁, l₁, hb₁⟩ := h₁.1
      obtain ⟨P₂, l₂, hb₂⟩ := h₂.1
      rintro (rfl | rfl)
      · exact ⟨P₁, by rw [Option.some.inj (hb.symm.trans hb₁)]⟩
      · exact ⟨P₂, by rw [Option.some.inj (hb.symm.trans hb₂)]⟩
    rcases h.uses_write hb hi hv h₁ with ⟨rfl, rfl, hp, hu, rfl⟩ | hold₁ <;>
      rcases h.uses_write hb hi hv h₂ with ⟨rfl, rfl, hp', hu', ha⟩ | hold₂
    · exact ⟨rfl, rfl⟩
    · obtain ⟨P, hP⟩ := howner (Or.inl rfl)
      exact absurd hold₂ (hfresh hp hu P hP _ _)
    · obtain ⟨P, hP⟩ := howner (Or.inr rfl)
      exact absurd (ha ▸ hold₁) (hfresh hp' hu' P hP _ _)
    · exact h.inj _ _ _ _ _ hold₁ hold₂
  · intro hne
    obtain ⟨K, hK, hkind, huser⟩ := h.kern hne
    refine ⟨K, hK, hkind, ?_⟩
    dsimp only
    rw [hentry K _ 511 hkind (by decide)]
    split_ifs with heq
    · obtain ⟨rfl, -⟩ := heq
      obtain rfl : k = ⟨none, 3⟩ := Option.some.inj (hb.symm.trans hkind)
      exact fun _ => hkern rfl rfl
    · exact huser

end VmInv

end MicroKernel
