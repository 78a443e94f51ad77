import MicroKernel.Vm.Boot
import MicroKernel.Vm.UserMemory

/-!
# Walks that allocate nothing

A walk reads an entry in each of the tables on its way.  Where the kernel reaches all of them, it
returns what they hold, and a walk that returns has reached them.

* `OnPath` : the tables that a walk reads;
* `pageWalk_of_low`, `low_of_pageWalk` : when it returns, and what;
* `pageWalk_of_translate` : for a mapped address, the address it leads to;
* `translate_congr` : a walk depends on the tables on its way only.
-/

namespace MicroKernel

open Extent

attribute [local irreducible] p2v v2p pteAddr

/-! ### The tables on the way -/

/-- The walk for `va` reads the table `b`. -/
inductive OnPath (ram : Ram) (P va : ℕ) : ℕ → Prop
  /-- The top table. -/
  | top : OnPath ram P va P
  /-- The second table. -/
  | second {pdpt : ℕ} (top : follow false ram P (pml4x va) = some pdpt) : OnPath ram P va pdpt
  /-- The third table. -/
  | third {pdpt pd : ℕ} (top : follow false ram P (pml4x va) = some pdpt)
      (second : follow false ram pdpt (pdptx va) = some pd) : OnPath ram P va pd
  /-- The page table. -/
  | last {pt : ℕ} (table : tableOf false ram P va = some pt) : OnPath ram P va pt

/-- The page that `page_walk` yields for the page of `va`: what the entry of the last table holds,
0 if there is no such table. -/
def walkedPage (ram : Ram) (P va : ℕ) : ℕ :=
  (tableOf false ram P va).elim 0 fun pt => pteAddr (entry ram pt (ptx va))

section Walks

variable {U : Set ℕ} {kind : Kinds} {s s' : VmState} {ram ram' : Ram} {P a b i va : ℕ}
  {k : TableKind} {o : Option ℕ} {user : Bool}

theorem follow_dvd (h : follow user ram b i = some a) : pgsize ∣ a :=
  (follow_eq_some.1 h).2.2 ▸ pteAddr_dvd (entry_lt _ _ _)

theorem follow_lt (h : follow user ram b i = some a) : a < 2 ^ 64 := by
  obtain ⟨-, -, rfl⟩ := follow_eq_some.1 h
  rw [pteAddr_eq (entry_lt _ _ _)]
  have := entry_lt ram b i
  omega

theorem OnPath.dvd (h : OnPath ram P va b) (hP : pgsize ∣ P) : pgsize ∣ b := by
  cases h with
  | top => exact hP
  | second top => exact follow_dvd top
  | third _ second => exact follow_dvd second
  | last table =>
    obtain ⟨_, _, -, -, h₃⟩ := tableOf_eq_some.1 table
    exact follow_dvd h₃

theorem VmInv.onPath_low (h : VmInv U kind s) (hP : kind P = some ⟨o, 3⟩)
    (hb : OnPath s.ram P va b) : b + pgsize ≤ 2 ^ 31 := by
  cases hb with
  | top => exact h.low P _ hP
  | second top =>
    obtain ⟨_, hk⟩ := h.kind_of_follow hP (pml4x_lt va) top
    exact h.low _ _ hk
  | third top second =>
    obtain ⟨_, hk⟩ := h.kind_of_follow hP (pml4x_lt va) top
    obtain ⟨_, hk'⟩ := h.kind_of_follow hk (pdptx_lt va) second
    exact h.low _ _ hk'
  | last table =>
    obtain ⟨_, hk⟩ := h.kind_of_tableOf hP table
    exact h.low _ _ hk

/-! ### One level -/

theorem kernelRange_entry_iff (hdvd : pgsize ∣ b) (hb : b < 2 ^ 64) (hi : i < 512) :
    KernelRange (add64 (p2v b) (8 * i)) 8 ↔ b + pgsize ≤ 2 ^ 31 := by
  unfold pgsize at hdvd
  rw [add64_p2v, kernelRange_p2v (by omega) (by decide)]
  unfold pgsize
  omega

theorem readWord_entry (hb : b + pgsize ≤ 2 ^ 31) (hi : i < 512) :
    readWord (add64 (p2v b) (8 * i)) s = some (entry s.ram b i, s) := by
  refine readWord_eq_some.2 ⟨kernelRange_entry hb hi, ?_, rfl⟩
  rw [v2p_entry hb hi]
  rfl

theorem writeWord_entry (hb : b + pgsize ≤ 2 ^ 31) (hi : i < 512) (w : ℕ) :
    writeWord (add64 (p2v b) (8 * i)) w s =
      some ((), { s with ram := s.ram.writeLe (b + 8 * i) 8 w }) := by
  refine writeWord_eq_some.2 ⟨kernelRange_entry hb hi, ?_⟩
  rw [v2p_entry hb hi]

theorem entry_addr_ne_zero (hb : b + pgsize ≤ 2 ^ 31) (hi : i < 512) :
    add64 (p2v b) (8 * i) ≠ 0 := by
  unfold pgsize at hb
  rw [p2v_eq (by omega)]
  unfold add64 kernbase
  omega

/-- A page is mapped where a walk finds an entry that is not present. -/
theorem mapLoop_of_walkTables {first last pa perm pt : ℕ} (n : ℕ)
    (hwalk : walkTables (p2v P) first true s = some (some (p2v pt), s'))
    (hpt : pt + pgsize ≤ 2 ^ 31) (habsent : ¬Present (entry s'.ram pt (ptx first))) :
    mapLoop (p2v P) last perm (n + 1) first pa s =
      (if first = last then pure 0
        else mapLoop (p2v P) last perm n (add64 first pgsize) (add64 pa pgsize) : VmM ℤ)
        { s' with ram := s'.ram.writeLe (pt + 8 * ptx first) 8 (pa ||| perm ||| pteP) } := by
  have hi := ptx_lt first
  have hpte : pageWalkReturnPte (p2v P) first true s =
      some (add64 (p2v pt) (8 * ptx first), s') := by
    unfold pageWalkReturnPte
    rw [vm_bind_of_eq hwalk]
    rfl
  rw [mapLoop, vm_bind_of_eq hpte, if_neg (entry_addr_ne_zero hpt hi),
    vm_bind_of_eq (readWord_entry hpt hi), if_neg habsent, vm_bind_of_eq (writeWord_entry hpt hi _)]

theorem walkLevel_of_low (hb : b + pgsize ≤ 2 ^ 31) (hi : i < 512) :
    walkLevel (p2v b) i false s = some ((follow false s.ram b i).map p2v, s) := by
  unfold walkLevel follow
  rw [vm_bind_of_eq (readWord_entry hb hi)]
  dsimp only
  by_cases hp : Present (entry s.ram b i)
  · rw [if_pos (present_p2v.2 hp), if_pos ⟨hp, by simp⟩, pteAddr_p2v (entry_lt _ _ _)]
    rfl
  · rw [if_neg fun hp' => hp (present_p2v.1 hp'), if_pos rfl, if_neg fun hp' => hp hp'.1]
    rfl

theorem low_of_walkLevel {r : Option ℕ} (hdvd : pgsize ∣ b) (hb : b < 2 ^ 64) (hi : i < 512)
    (h : walkLevel (p2v b) i false s = some (r, s')) : b + pgsize ≤ 2 ^ 31 := by
  obtain ⟨_, _, hread, -⟩ := vm_bind_eq_some.1 h
  exact (kernelRange_entry_iff hdvd hb hi).1 (readWord_eq_some.1 hread).1

/-! ### The walk -/

theorem walkTables_of_low (h : ∀ b, OnPath s.ram P va b → b + pgsize ≤ 2 ^ 31) :
    walkTables (p2v P) va false s = some ((tableOf false s.ram P va).map p2v, s) := by
  unfold walkTables tableOf
  rw [vm_bind_of_eq (walkLevel_of_low (h P .top) (pml4x_lt va))]
  cases h₁ : follow false s.ram P (pml4x va) with
  | none => rfl
  | some pdpt =>
    simp only [Option.map_some, Option.bind_eq_bind, Option.bind_some]
    rw [vm_bind_of_eq (walkLevel_of_low (h pdpt (.second h₁)) (pdptx_lt va))]
    cases h₂ : follow false s.ram pdpt (pdptx va) with
    | none => rfl
    | some pd => exact walkLevel_of_low (h pd (.third h₁ h₂)) (pdx_lt va)

theorem pteAddr_mask (e : ℕ) : pteAddr e = e &&& 0xFFFFFFFFFFFFF000 := by
  unfold pteAddr
  rfl

/-- Where the kernel reaches the tables, `page_walk` returns what they hold. -/
theorem pageWalk_of_low (h : ∀ b, OnPath s.ram P va b → b + pgsize ≤ 2 ^ 31) :
    pageWalk (p2v P) va false s = some ((tableOf false s.ram P va).elim 0 fun pt =>
      pteAddr (entry s.ram pt (ptx va)) ||| offset va, s) := by
  unfold pageWalk
  rw [vm_bind_of_eq (walkTables_of_low h)]
  cases hpt : tableOf false s.ram P va with
  | none => rfl
  | some pt =>
    simp only [Option.map_some, Option.elim]
    rw [vm_bind_of_eq (readWord_entry (h pt (.last hpt)) (ptx_lt va)), pteAddr_mask]
    rfl

/-- A walk that returns has reached its tables. -/
theorem low_of_pageWalk {r : ℕ} (hdvd : pgsize ∣ P) (hP : P < 2 ^ 64)
    (hcall : pageWalk (p2v P) va false s = some (r, s')) (hb : OnPath s.ram P va b) :
    b + pgsize ≤ 2 ^ 31 := by
  simp only [pageWalk, walkTables, vm_bind_eq_some] at hcall
  obtain ⟨r₄, s₄, ⟨r₁, s₁, hw₁, hcall⟩, hlast⟩ := hcall
  have hlow₁ := low_of_walkLevel hdvd hP (pml4x_lt va) hw₁
  rw [walkLevel_of_low hlow₁ (pml4x_lt va)] at hw₁
  obtain ⟨rfl, rfl⟩ := Prod.mk.inj (Option.some.inj hw₁)
  -- below a table that is not there nothing is on the way
  cases h₁ : follow false s.ram P (pml4x va) with
  | none =>
    cases hb with
    | top => exact hlow₁
    | second top => cases h₁.symm.trans top
    | third top second => cases h₁.symm.trans top
    | last table =>
      obtain ⟨_, _, top, -⟩ := tableOf_eq_some.1 table
      cases h₁.symm.trans top
  | some pdpt =>
    rw [h₁] at hcall
    simp only [Option.map_some, vm_bind_eq_some] at hcall
    obtain ⟨r₂, s₂, hw₂, hcall⟩ := hcall
    have hlow₂ := low_of_walkLevel (follow_dvd h₁) (follow_lt h₁) (pdptx_lt va) hw₂
    rw [walkLevel_of_low hlow₂ (pdptx_lt va)] at hw₂
    obtain ⟨rfl, rfl⟩ := Prod.mk.inj (Option.some.inj hw₂)
    cases h₂ : follow false s.ram pdpt (pdptx va) with
    | none =>
      cases hb with
      | top => exact hlow₁
      | second top => exact Option.some.inj (h₁.symm.trans top) ▸ hlow₂
      | third top second =>
        obtain rfl := Option.some.inj (h₁.symm.trans top)
        cases h₂.symm.trans second
      | last table =>
        obtain ⟨_, _, top, second, -⟩ := tableOf_eq_some.1 table
        obtain rfl := Option.some.inj (h₁.symm.trans top)
        cases h₂.symm.trans second
    | some pd =>
      rw [h₂] at hcall
      simp only [Option.map_some] at hcall
      have hlow₃ := low_of_walkLevel (follow_dvd h₂) (follow_lt h₂) (pdx_lt va) hcall
      rw [walkLevel_of_low hlow₃ (pdx_lt va)] at hcall
      obtain ⟨rfl, rfl⟩ := Prod.mk.inj (Option.some.inj hcall)
      cases hb with
      | top => exact hlow₁
      | second top => exact Option.some.inj (h₁.symm.trans top) ▸ hlow₂
      | third top second =>
        obtain rfl := Option.some.inj (h₁.symm.trans top)
        exact Option.some.inj (h₂.symm.trans second) ▸ hlow₃
      | last table =>
        obtain ⟨_, _, top, second, third⟩ := tableOf_eq_some.1 table
        obtain rfl := Option.some.inj (h₁.symm.trans top)
        obtain rfl := Option.some.inj (h₂.symm.trans second)
        rw [third] at hlast
        simp only [Option.map_some, vm_bind_eq_some] at hlast
        obtain ⟨_, _, hread, -⟩ := hlast
        exact (kernelRange_entry_iff (follow_dvd third) (follow_lt third) (ptx_lt va)).1
          (readWord_eq_some.1 hread).1

/-- For a mapped address, `page_walk` returns where it leads. -/
theorem pageWalk_of_translate (h : ∀ b, OnPath s.ram P va b → b + pgsize ≤ 2 ^ 31)
    (hmap : translate false s.ram P va = some a) :
    pageWalk (p2v P) va false s = some (a, s) := by
  obtain ⟨pt, page, htab, hpage, rfl⟩ := translate_eq_some.1 hmap
  have hoff : offset va < 4096 := offset_eq va ▸ Nat.mod_lt _ (by decide)
  rw [pageWalk_of_low h, htab, ← or_flags (follow_dvd hpage) hoff, ← (follow_eq_some.1 hpage).2.2]
  rfl

/-! ### What a walk depends on -/

/-- A walk is the same for addresses with the same indices. -/
theorem onPath_congr {va' : ℕ} (h₁ : pml4x va' = pml4x va) (h₂ : pdptx va' = pdptx va)
    (h₃ : pdx va' = pdx va) : OnPath ram P va' b ↔ OnPath ram P va b := by
  have hsame : ∀ {v w : ℕ}, pml4x v = pml4x w → pdptx v = pdptx w → pdx v = pdx w →
      OnPath ram P v b → OnPath ram P w b := by
    intro v w h₁ h₂ h₃ h
    have htab : tableOf false ram P v = tableOf false ram P w := by
      unfold tableOf
      rw [h₁, h₂, h₃]
    cases h with
    | top => exact .top
    | second top => exact .second (h₁ ▸ top)
    | third top second => exact .third (h₁ ▸ top) (h₂ ▸ second)
    | last table => exact .last (htab ▸ table)
  exact ⟨hsame h₁ h₂ h₃, hsame h₁.symm h₂.symm h₃.symm⟩

theorem onPath_mod (ram : Ram) (P va b : ℕ) :
    OnPath ram P (va % 2 ^ 48) b ↔ OnPath ram P va b := by
  refine onPath_congr ?_ ?_ ?_ <;> simp only [pml4x_eq, pdptx_eq, pdx_eq] <;> omega

theorem follow_congr (h : ∀ a ∈ Set.Ico b (b + pgsize), ram' a = ram a) (hi : i < 512) :
    follow user ram' b i = follow user ram b i := by
  unfold follow
  rw [entry_congr hi h]

theorem tableOf_congr (h : ∀ b, OnPath ram P va b → ∀ a ∈ Set.Ico b (b + pgsize), ram' a = ram a) :
    tableOf user ram' P va = tableOf user ram P va := by
  unfold tableOf
  rw [follow_congr (h P .top) (pml4x_lt va)]
  cases h₁ : follow user ram P (pml4x va) with
  | none => simp only [Option.bind_eq_bind, Option.bind_none]
  | some pdpt =>
    have ht₁ := follow_false_of_follow h₁
    simp only [Option.bind_eq_bind, Option.bind_some]
    rw [follow_congr (h pdpt (.second ht₁)) (pdptx_lt va)]
    cases h₂ : follow user ram pdpt (pdptx va) with
    | none => simp only [Option.bind_none]
    | some pd =>
      exact follow_congr (h pd (.third ht₁ (follow_false_of_follow h₂))) (pdx_lt va)

/-- An address leads where it led while the tables on the way are as they were. -/
theorem translate_congr
    (h : ∀ b, OnPath ram P va b → ∀ a ∈ Set.Ico b (b + pgsize), ram' a = ram a) :
    translate user ram' P va = translate user ram P va := by
  unfold translate
  rw [tableOf_congr h]
  cases htab : tableOf user ram P va with
  | none => simp only [Option.bind_eq_bind, Option.bind_none]
  | some pt =>
    simp only [Option.bind_eq_bind, Option.bind_some]
    rw [follow_congr (h pt (.last (tableOf_false_of_tableOf htab))) (ptx_lt va)]

theorem OnPath.of_congr
    (h : ∀ b, OnPath ram P va b → ∀ a ∈ Set.Ico b (b + pgsize), ram' a = ram a)
    (hb : OnPath ram' P va b) : OnPath ram P va b := by
  cases hb with
  | top => exact .top
  | second top => exact .second (follow_congr (h P .top) (pml4x_lt va) ▸ top)
  | third top second =>
    have htop := follow_congr (h P .top) (pml4x_lt va) ▸ top
    exact .third htop (follow_congr (h _ (.second htop)) (pdptx_lt va) ▸ second)
  | last table => exact .last (tableOf_congr h ▸ table)

/-! ### The addresses of a page -/

theorem tableOf_page (user : Bool) (ram : Ram) (P : ℕ) {va' : ℕ} (hva : pgsize ∣ va)
    (hin : va' ∈ Set.Ico va (va + pgsize)) :
    tableOf user ram P va' = tableOf user ram P va ∧ ptx va' = ptx va := by
  obtain ⟨hpml4, hpdpt, hpd, hpt⟩ := indices_page hva hin
  refine ⟨?_, hpt⟩
  unfold tableOf
  rw [hpml4, hpdpt, hpd]

theorem mem_page (va : ℕ) : va ∈ Set.Ico (va / 4096 * 4096) (va / 4096 * 4096 + pgsize) := by
  unfold pgsize
  constructor
  · omega
  · omega

theorem walkedPage_dvd (ram : Ram) (P va : ℕ) : pgsize ∣ walkedPage ram P va := by
  unfold walkedPage
  cases tableOf false ram P va with
  | none => exact Nat.dvd_zero _
  | some pt => exact pteAddr_dvd (entry_lt _ _ _)

theorem walkedPage_lt (ram : Ram) (P va : ℕ) : walkedPage ram P va < 2 ^ 64 := by
  unfold walkedPage
  cases tableOf false ram P va with
  | none => exact Nat.two_pow_pos 64
  | some pt =>
    dsimp only [Option.elim]
    rw [pteAddr_eq (entry_lt _ _ _)]
    have := entry_lt ram pt (ptx va)
    omega

/-- The walk that `copy_uvm` makes, for the first address of the page. -/
theorem pageWalk_pgrounddown (hva : va < 2 ^ 64)
    (h : ∀ b, OnPath s.ram P (pgrounddown va) b → b + pgsize ≤ 2 ^ 31) :
    pageWalk (p2v P) (pgrounddown va) false s = some (walkedPage s.ram P va, s) := by
  have hdvd : pgsize ∣ va / 4096 * 4096 := Nat.dvd_mul_left _ _
  obtain ⟨htab, hptx⟩ := tableOf_page false s.ram P hdvd (mem_page va)
  have hoff : offset (va / 4096 * 4096) = 0 := by
    rw [offset_eq]
    omega
  rw [pageWalk_of_low h, pgrounddown_eq hva, hoff, walkedPage, htab, hptx]
  simp only [Nat.or_zero]

/-- The walk that `copy_uvm` makes in the tables of an invariant. -/
theorem pageWalk_eq (h : VmInv U kind s) (hP : kind P = some ⟨o, 3⟩) (hva : va < 2 ^ 64) :
    pageWalk (p2v P) (pgrounddown va) false s = some (walkedPage s.ram P va, s) :=
  pageWalk_pgrounddown hva fun _ hb => h.onPath_low hP hb

end Walks

end MicroKernel
