import MicroKernel.Vm.Walk

/-!
# The page table of the kernel

`vm_init` builds a page table with one entry in each of the two upper tables, 256 entries in the
third and full tables below it.  It maps the first 512 MB of physical memory to the addresses from
`KERNBASE` on, and nothing else.

* `vmInit_entries`, `vmInit_spec` : the invariant of the page tables is kept, and the tables are
  these;
* `KernelMap.translate_eq` : what they translate;
* `KernelMap.translate_p2v_iff` : `p2v a` is translated to `a` exactly for `a` below 512 MB.
-/

namespace MicroKernel

open Extent

attribute [local irreducible] p2v v2p pteAddr

/-! ### The map -/

/-- The number of bytes that `vm_init` maps. -/
def kernelMapped : ℕ := 0x20000000

/-- The tables of the kernel: where their entries lead. -/
structure KernelMap (ram : Ram) (K pdpt pd : ℕ) (pt : ℕ → ℕ) : Prop where
  /-- The top table. -/
  top : ∀ i < 512, follow false ram K i = if i = 511 then some pdpt else none
  /-- The second table. -/
  second : ∀ i < 512, follow false ram pdpt i = if i = 510 then some pd else none
  /-- The third table. -/
  third : ∀ i < 512, follow false ram pd i = if i < 256 then some (pt i) else none
  /-- The page tables. -/
  last : ∀ d < 256, ∀ i < 512, follow false ram (pt d) i = some (0x200000 * d + 0x1000 * i)

namespace KernelMap

variable {ram ram' : Ram} {K pdpt pd a va r : ℕ} {pt : ℕ → ℕ}

theorem translate_eq (h : KernelMap ram K pdpt pd pt) (va : ℕ) :
    translate false ram K va = if pml4x va = 511 ∧ pdptx va = 510 ∧ pdx va < 256 then
      some (0x200000 * pdx va + 0x1000 * ptx va + offset va) else none := by
  have h₁ := h.top _ (pml4x_lt va)
  have h₂ := h.second _ (pdptx_lt va)
  have h₃ := h.third _ (pdx_lt va)
  split_ifs with hva
  · obtain ⟨hpml4, hpdpt, hpd⟩ := hva
    rw [if_pos hpml4] at h₁
    rw [if_pos hpdpt] at h₂
    rw [if_pos hpd] at h₃
    exact translate_eq_some.2 ⟨_, _, tableOf_eq_some.2 ⟨_, _, h₁, h₂, h₃⟩,
      h.last _ hpd _ (ptx_lt va), rfl⟩
  · -- an address that is translated has these indices
    by_contra hsome
    obtain ⟨r, hr⟩ := Option.ne_none_iff_exists'.1 hsome
    obtain ⟨_, _, htab, -, -⟩ := translate_eq_some.1 hr
    obtain ⟨_, _, hf₁, hf₂, hf₃⟩ := tableOf_eq_some.1 htab
    have hpml4 : pml4x va = 511 := by
      by_contra hne
      rw [if_neg hne, hf₁] at h₁
      cases h₁
    rw [if_pos hpml4, hf₁] at h₁
    obtain rfl := Option.some.inj h₁
    have hpdpt : pdptx va = 510 := by
      by_contra hne
      rw [if_neg hne, hf₂] at h₂
      cases h₂
    rw [if_pos hpdpt, hf₂] at h₂
    obtain rfl := Option.some.inj h₂
    have hpd : pdx va < 256 := by
      by_contra hne
      rw [if_neg hne, hf₃] at h₃
      cases h₃
    exact hva ⟨hpml4, hpdpt, hpd⟩

theorem lt_of_translate (h : KernelMap ram K pdpt pd pt) (hr : translate false ram K va = some r) :
    r < kernelMapped := by
  rw [h.translate_eq] at hr
  split_ifs at hr with hva
  obtain rfl := Option.some.inj hr
  have hpt := ptx_lt va
  have hoff : offset va < 4096 := offset_eq va ▸ Nat.mod_lt _ (by decide)
  have hpd := hva.2.2
  unfold kernelMapped
  omega

/-- The direct map. -/
theorem translate_p2v_iff (h : KernelMap ram K pdpt pd pt) :
    translate false ram K (p2v a) = some a ↔ a < kernelMapped := by
  refine ⟨h.lt_of_translate, fun ha => ?_⟩
  unfold kernelMapped at ha
  have hva : p2v a = a + 0xFFFFFFFF80000000 := p2v_eq (by omega)
  have hpml4 : pml4x (p2v a) = 511 := by
    rw [pml4x_eq, hva]
    omega
  have hpdpt : pdptx (p2v a) = 510 := by
    rw [pdptx_eq, hva]
    omega
  have hpd : pdx (p2v a) = a / 2 ^ 21 := by
    rw [pdx_eq, hva]
    omega
  have hpt : ptx (p2v a) = a / 2 ^ 12 % 512 := by
    rw [ptx_eq, hva]
    omega
  have hoff : offset (p2v a) = a % 4096 := by
    rw [offset_eq, hva]
    omega
  rw [h.translate_eq, hpd, hpt, hoff, if_pos ⟨hpml4, hpdpt, by omega⟩]
  congr 1
  omega

end KernelMap

/-! ### Steps of `vm_init` -/

section Steps

variable {U : Set ℕ} {kind : Kinds} {s s' : VmState} {b i l p v : ℕ} {u : Unit}

theorem follow_of_entry {ram : Ram} (h : entry ram b i = p + 3) (hdvd : pgsize ∣ p)
    (hp : p < 2 ^ 64) : follow false ram b i = some p := by
  unfold pgsize at hdvd
  rw [follow_eq_some, h, present_iff, pteAddr_add hdvd (by decide) hp]
  exact ⟨by omega, by simp, rfl⟩

theorem follow_of_zero {ram : Ram} (h : entry ram b i = 0) : follow false ram b i = none := by
  unfold follow
  rw [h]
  decide

theorem kernEntry_value (hdvd : pgsize ∣ p) : p ||| pteW ||| pteP = p + 3 := by
  rw [Nat.or_assoc]
  exact or_flags hdvd (by decide)

theorem VmInv.writeKern (h : VmInv U kind s) (hb : kind b = some ⟨none, l⟩) (hi : i < 512)
    (hdvd : pgsize ∣ p) (hp : p < 2 ^ 63) (htarget : Target kind s.log ⟨none, l⟩ (p + 3))
    (hcall : writeWord (add64 (p2v b) (8 * i)) (p ||| pteW ||| pteP) s = some (u, s')) :
    VmInv U kind s' ∧ s'.kernPml4 = s.kernPml4 ∧ ∀ c k j, kind c = some k → j < 512 →
      entry s'.ram c j = if c = b ∧ j = i then p + 3 else entry s.ram c j := by
  obtain ⟨-, rfl⟩ := writeWord_eq_some.1 hcall
  rw [kernEntry_value hdvd, v2p_entry (h.low b _ hb) hi]
  have hv : p + 3 < 2 ^ 64 := by omega
  have huser : ¬User (p + 3) := by
    unfold pgsize at hdvd
    rw [user_iff]
    omega
  exact ⟨h.write hb hi hv (fun _ => htarget) (fun _ _ _ howner => nomatch howner) fun _ _ => huser,
    rfl, fun c k j hc hj => entry_writeLe _ (h.dvd hb) (h.dvd hc) hi hj hv⟩

theorem VmInv.linkKern (h : VmInv U kind s) (hb : kind b = some ⟨none, l + 1⟩) (hi : i < 512)
    (hp : kind p = some ⟨none, l⟩)
    (hcall : writeWord (add64 (p2v b) (8 * i)) (v2p (p2v p) ||| pteW ||| pteP) s = some (u, s')) :
    VmInv U kind s' ∧ s'.kernPml4 = s.kernPml4 ∧ ∀ c k j, kind c = some k → j < 512 →
      entry s'.ram c j = if c = b ∧ j = i then p + 3 else entry s.ram c j := by
  have hlow := h.low p _ hp
  have hdvd := h.dvd hp
  rw [AllocInv.v2p_p2v (by omega)] at hcall
  have haddr : pteAddr (p + 3) = p := pteAddr_add hdvd (by decide) (by omega)
  exact h.writeKern hb hi hdvd (by omega) (.kernelTable (haddr.symm ▸ hp)) hcall

/-- A new table of the kernel; the entries of the others stay. -/
theorem VmInv.allocKern (h : VmInv U kind s)
    (hcall : Vm.memblockAllocKernel pgsize pgsize .pageTable s = some (v, s')) (l : ℕ) :
    ∃ p, v = p2v p ∧ kind p = none ∧ VmInv U (Function.update kind p (some ⟨none, l⟩)) s' ∧
      s'.kernPml4 = s.kernPml4 ∧ (∀ i < 512, entry s'.ram p i = 0) ∧
      (∀ b k, kind b = some k → Function.update kind p (some ⟨none, l⟩) b = some k) ∧
      ∀ b k i, kind b = some k → i < 512 → entry s'.ram b i = entry s.ram b i := by
  obtain ⟨p, hv, halloc, htable⟩ := h.allocTable hcall
  obtain ⟨hinv, hgrows, -⟩ := htable ⟨none, l⟩
  refine ⟨p, hv, h.kind_of_allocated halloc, hinv, halloc.kern,
    fun i hi => halloc.cleared.entry_eq hi, hgrows.tables,
    fun b k i hb hi => ?_⟩
  exact entry_congr hi fun a ha => halloc.ram_eq a fun hin =>
    halloc.fresh a hin _ (h.table b k hb) ha

end Steps

/-! ### The loops -/

section Loops

variable {U : Set ℕ} {pt pd d : ℕ}

/-- The inner loop fills a page table. -/
theorem fillPt_spec (hd : d < 256) (n : ℕ) : ∀ {kind : Kinds} {s s' : VmState} {u : Unit},
    VmInv U kind s → kind pt = some ⟨none, 0⟩ → n ≤ 512 →
      fillPt (p2v pt) d n s = some (u, s') →
        VmInv U kind s' ∧ s'.kernPml4 = s.kernPml4 ∧ ∀ c k i, kind c = some k → i < 512 →
          entry s'.ram c i =
            if c = pt ∧ i < n then 0x200000 * d + 0x1000 * i + 3 else entry s.ram c i := by
  induction n with
  | zero =>
    intro kind s s' u h _ _ hcall
    obtain ⟨-, rfl⟩ := vm_pure_eq_some.1 hcall
    exact ⟨h, rfl, fun c k i _ _ => (if_neg fun hi => Nat.not_lt_zero i hi.2).symm⟩
  | succ n ih =>
    intro kind s s' u h hpt hn hcall
    simp only [fillPt, vm_bind_eq_some] at hcall
    obtain ⟨_, s₁, hrest, hwrite⟩ := hcall
    obtain ⟨hinv, hkern, hentry⟩ := ih h hpt (by omega) hrest
    have hdvd : pgsize ∣ 0x200000 * d + 0x1000 * n := by
      unfold pgsize
      omega
    obtain ⟨hinv', hkern', hentry'⟩ :=
      hinv.writeKern hpt (by omega) hdvd (by omega) .kernelPage hwrite
    refine ⟨hinv', hkern'.trans hkern, fun c k i hc hi => ?_⟩
    rw [hentry' c k i hc hi, hentry c k i hc hi]
    by_cases hci : c = pt ∧ i = n
    · obtain ⟨rfl, rfl⟩ := hci
      rw [if_pos ⟨rfl, rfl⟩, if_pos ⟨rfl, Nat.lt_succ_self i⟩]
    · rw [if_neg hci]
      have hsame : (c = pt ∧ i < n) ↔ (c = pt ∧ i < n + 1) :=
        and_congr_right fun hc => ⟨fun hlt => hlt.trans (Nat.lt_succ_self n), fun hlt =>
          lt_of_le_of_ne (Nat.le_of_lt_succ hlt) fun hi => hci ⟨hc, hi⟩⟩
      simp only [hsame]

/-- What the outer loop has built: `n` page tables. -/
structure Filled (kind : Kinds) (ram : Ram) (pd n : ℕ) (pt : ℕ → ℕ) : Prop where
  /-- They are tables. -/
  table : ∀ d < n, kind (pt d) = some ⟨none, 0⟩
  /-- The entries of the third table. -/
  third : ∀ d < n, entry ram pd d = pt d + 3
  /-- The entries of the page tables. -/
  last : ∀ d < n, ∀ i < 512, entry ram (pt d) i = 0x200000 * d + 0x1000 * i + 3

/-- The outer loop links new page tables and fills them. -/
theorem fillPd_spec (n : ℕ) : ∀ {kind : Kinds} {s s' : VmState} {u : Unit}, VmInv U kind s →
    kind pd = some ⟨none, 1⟩ → n ≤ 256 → fillPd (p2v pd) n s = some (u, s') →
      ∃ kind' pt, VmInv U kind' s' ∧ s'.kernPml4 = s.kernPml4 ∧ Filled kind' s'.ram pd n pt ∧
        (∀ b k, kind b = some k → kind' b = some k) ∧
        ∀ c k i, kind c = some k → i < 512 → ¬(c = pd ∧ i < n) →
          entry s'.ram c i = entry s.ram c i := by
  induction n with
  | zero =>
    intro kind s s' u h _ _ hcall
    obtain ⟨-, rfl⟩ := vm_pure_eq_some.1 hcall
    exact ⟨kind, fun _ => 0, h, rfl, ⟨fun _ hd => absurd hd (Nat.not_lt_zero _), fun _ hd =>
      absurd hd (Nat.not_lt_zero _), fun _ hd => absurd hd (Nat.not_lt_zero _)⟩, fun _ _ hb => hb,
      fun _ _ _ _ _ _ => rfl⟩
  | succ n ih =>
    intro kind s s' u h hpd hn hcall
    simp only [fillPd, vm_bind_eq_some] at hcall
    obtain ⟨_, s₁, hrest, v, s₂, halloc, _, s₃, hlink, hfill⟩ := hcall
    obtain ⟨kind₁, pt, h₁, hkern₁, hfilled, htables₁, hentry₁⟩ := ih h hpd (by omega) hrest
    obtain ⟨q, hv, hnew, h₂, hkern₂, -, htables₂, hentry₂⟩ := h₁.allocKern halloc 0
    rw [hv] at hlink hfill
    have hq : Function.update kind₁ q (some ⟨none, 0⟩) q = some ⟨none, 0⟩ :=
      Function.update_self _ _ _
    have hpd₁ := htables₁ pd _ hpd
    obtain ⟨h₃, hkern₃, hentry₃⟩ := h₂.linkKern (htables₂ pd _ hpd₁) (by omega) hq hlink
    obtain ⟨h₄, hkern₄, hentry₄⟩ := fillPt_spec (by omega) 512 h₃ hq le_rfl hfill
    have hne : ∀ c k, kind₁ c = some k → c ≠ q := fun c k hc => Kinds.ne_of_new hc hnew
    -- an entry of a table that was there changes only where the new page table is linked
    have hold : ∀ c k i, kind₁ c = some k → i < 512 → ¬(c = pd ∧ i = n) →
        entry s'.ram c i = entry s₁.ram c i := by
      intro c k i hc hi hci
      have hc₂ := htables₂ c k hc
      rw [hentry₄ c k i hc₂ hi, if_neg fun hcq => hne c k hc hcq.1, hentry₃ c k i hc₂ hi,
        if_neg hci, hentry₂ c k i hc hi]
    refine ⟨_, Function.update pt n q, h₄, by rw [hkern₄, hkern₃, hkern₂, hkern₁],
      ⟨fun d hd => ?_, fun d hd => ?_, fun d hd i hi => ?_⟩,
      fun b k hb => htables₂ b k (htables₁ b k hb), fun c k i hc hi hci => ?_⟩
    · rcases eq_or_ne d n with rfl | hdn
      · rw [Function.update_self]
        exact hq
      · rw [Function.update_of_ne hdn]
        exact htables₂ _ _ (hfilled.table d (by omega))
    · rcases eq_or_ne d n with rfl | hdn
      · rw [Function.update_self, hentry₄ pd _ d (htables₂ pd _ hpd₁) (by omega),
          if_neg fun hpq => hne pd _ hpd₁ hpq.1, hentry₃ pd _ d (htables₂ pd _ hpd₁) (by omega),
          if_pos ⟨rfl, rfl⟩]
      · rw [Function.update_of_ne hdn, hold pd _ d hpd₁ (by omega) fun hd' => hdn hd'.2]
        exact hfilled.third d (by omega)
    · rcases eq_or_ne d n with rfl | hdn
      · rw [Function.update_self, hentry₄ q _ i hq hi, if_pos ⟨rfl, hi⟩]
      · have htable := hfilled.table d (by omega)
        have hpt : pt d ≠ pd := by
          intro heq
          rw [heq, hpd₁] at htable
          cases htable
        rw [Function.update_of_ne hdn, hold _ _ i htable hi fun hd' => hpt hd'.1]
        exact hfilled.last d (by omega) i hi
    · rw [hold c k i (htables₁ c k hc) hi fun hd => hci ⟨hd.1, by omega⟩]
      exact hentry₁ c k i hc hi fun hd => hci ⟨hd.1, by omega⟩

end Loops

/-! ### The whole function -/

section VmInit

variable {U : Set ℕ} {kind : Kinds} {s s' : VmState} {K pdpt pd : ℕ} {pt : ℕ → ℕ}

/-- The tables of the kernel are tables. -/
structure KernelTables (kind : Kinds) (K pdpt pd : ℕ) (pt : ℕ → ℕ) : Prop where
  /-- The top table. -/
  top : kind K = some ⟨none, 3⟩
  /-- The second table. -/
  second : kind pdpt = some ⟨none, 2⟩
  /-- The third table. -/
  third : kind pd = some ⟨none, 1⟩
  /-- The page tables. -/
  last : ∀ d < 256, kind (pt d) = some ⟨none, 0⟩

theorem VmInv.setKern (h : VmInv U kind s) {v : ℕ} (hv : v = p2v K)
    (hK : kind K = some ⟨none, 3⟩) (hzero : ∀ i < 512, entry s.ram K i = 0) :
    VmInv U kind { s with kernPml4 := v } := by
  refine ⟨h.blocks, h.limit, h.table, h.low, h.target, h.inj, fun _ => ⟨K, hv, hK, fun hp => ?_⟩⟩
  dsimp only at hp
  rw [hzero 511 (by decide)] at hp
  exact absurd hp (by decide)

/-- The entries of the tables of the kernel. -/
structure KernelEntries (ram : Ram) (K pdpt pd : ℕ) (pt : ℕ → ℕ) : Prop where
  /-- The top table. -/
  top : ∀ i < 512, entry ram K i = if i = 511 then pdpt + 3 else 0
  /-- The second table. -/
  second : ∀ i < 512, entry ram pdpt i = if i = 510 then pd + 3 else 0
  /-- The third table. -/
  third : ∀ i < 512, entry ram pd i = if i < 256 then pt i + 3 else 0
  /-- The page tables. -/
  last : ∀ d < 256, ∀ i < 512, entry ram (pt d) i = 0x200000 * d + 0x1000 * i + 3

theorem KernelEntries.kernelMap (hentries : KernelEntries s.ram K pdpt pd pt) (h : VmInv U kind s)
    (htables : KernelTables kind K pdpt pd pt) : KernelMap s.ram K pdpt pd pt := by
  refine ⟨fun i hi => ?_, fun i hi => ?_, fun i hi => ?_, fun d hd i hi => ?_⟩
  · have hentry := hentries.top i hi
    split_ifs at hentry ⊢
    · exact follow_of_entry hentry (h.dvd htables.second) (h.lt htables.second)
    · exact follow_of_zero hentry
  · have hentry := hentries.second i hi
    split_ifs at hentry ⊢
    · exact follow_of_entry hentry (h.dvd htables.third) (h.lt htables.third)
    · exact follow_of_zero hentry
  · have hentry := hentries.third i hi
    split_ifs at hentry ⊢ with hlow
    · exact follow_of_entry hentry (h.dvd (htables.last i hlow)) (h.lt (htables.last i hlow))
    · exact follow_of_zero hentry
  · refine follow_of_entry (hentries.last d hd i hi) ?_ (by omega)
    unfold pgsize
    omega

/-- The page table of the kernel is built, and no other table changes. -/
theorem vmInit_entries (h : VmInv U kind s) {u : Unit} (hcall : vmInit s = some (u, s')) :
    ∃ kind' K pdpt pd pt, VmInv U kind' s' ∧ s'.kernPml4 = p2v K ∧
      KernelTables kind' K pdpt pd pt ∧ KernelEntries s'.ram K pdpt pd pt ∧
      (∀ b k, kind b = some k → kind' b = some k) ∧
      ∀ b k i, kind b = some k → i < 512 → entry s'.ram b i = entry s.ram b i := by
  simp only [vmInit, vm_bind_eq_some] at hcall
  obtain ⟨v₁, s₁, ha₁, _, s₂, hset, v₂, s₃, ha₂, _, s₄, hw₁, v₃, s₅, ha₃, _, s₆, hw₂, hloop⟩ :=
    hcall
  obtain ⟨K, hv₁, hnew₁, h₁, -, hzero₁, htables₁, hentry₁⟩ := h.allocKern ha₁ 3
  have hK := Function.update_self K (some (⟨none, 3⟩ : TableKind)) kind
  have hs₂ : s₂ = { s₁ with kernPml4 := v₁ } := by
    have hmod : some (PUnit.unit, { s₁ with kernPml4 := v₁ }) = some (_, s₂) := hset
    exact (Prod.mk.inj (Option.some.inj hmod)).2.symm
  have h₂ := h₁.setKern hv₁ hK hzero₁
  rw [← hs₂] at h₂
  have hram₂ : s₂.ram = s₁.ram := by rw [hs₂]
  have hkern₂ : s₂.kernPml4 = p2v K := hs₂ ▸ hv₁
  obtain ⟨pdpt, hv₂, hnew₂, h₃, hkern₃, hzero₃, htables₃, hentry₃⟩ := h₂.allocKern ha₂ 2
  have hpdpt := Function.update_self pdpt (some (⟨none, 2⟩ : TableKind))
    (Function.update kind K (some ⟨none, 3⟩))
  have hK₃ := htables₃ K _ hK
  rw [hv₁, hv₂] at hw₁
  obtain ⟨h₄, hkern₄, hentry₄⟩ := h₃.linkKern hK₃ (by decide) hpdpt hw₁
  obtain ⟨pd, hv₃, hnew₃, h₅, hkern₅, hzero₅, htables₅, hentry₅⟩ := h₄.allocKern ha₃ 1
  have hpd := Function.update_self pd (some (⟨none, 1⟩ : TableKind))
    (Function.update (Function.update kind K (some ⟨none, 3⟩)) pdpt (some ⟨none, 2⟩))
  have hK₅ := htables₅ K _ hK₃
  have hpdpt₅ := htables₅ pdpt _ hpdpt
  rw [hv₂, hv₃] at hw₂
  obtain ⟨h₆, hkern₆, hentry₆⟩ := h₅.linkKern hpdpt₅ (by decide) hpd hw₂
  rw [hv₃] at hloop
  obtain ⟨kind', pt, hinv, hkern, hfilled, htables, hentry⟩ := fillPd_spec 256 h₆ hpd le_rfl hloop
  have hKpdpt : K ≠ pdpt := Kinds.ne_of_new hK hnew₂
  -- a table that was there before the three upper ones were linked
  have hlast : ∀ b k i, Function.update (Function.update kind K (some ⟨none, 3⟩)) pdpt
      (some ⟨none, 2⟩) b = some k → i < 512 → entry s'.ram b i =
        if b = pdpt ∧ i = 510 then pd + 3 else
          if b = K ∧ i = 511 then pdpt + 3 else entry s₃.ram b i := by
    intro b k i hb hi
    have hb₅ := htables₅ b k hb
    rw [hentry b k i hb₅ hi fun hbi => Kinds.ne_of_new hb hnew₃ hbi.1,
      hentry₆ b k i hb₅ hi, hentry₅ b k i hb hi, hentry₄ b k i hb hi]
  have htop : ∀ i < 512, entry s'.ram K i = if i = 511 then pdpt + 3 else 0 := by
    intro i hi
    rw [hlast K _ i hK₃ hi, if_neg fun hb => hKpdpt hb.1, hentry₃ K _ i hK hi, hram₂, hzero₁ i hi]
    simp only [true_and]
  have hsecond : ∀ i < 512, entry s'.ram pdpt i = if i = 510 then pd + 3 else 0 := by
    intro i hi
    have hout : ¬(pdpt = K ∧ i = 511) := fun hb => hKpdpt hb.1.symm
    rw [hlast pdpt _ i hpdpt hi, if_neg hout, hzero₃ i hi]
    simp only [true_and]
  have hthird : ∀ i < 512, entry s'.ram pd i = if i < 256 then pt i + 3 else 0 := by
    intro i hi
    split_ifs with hlow
    · exact hfilled.third i hlow
    · rw [hentry pd _ i hpd hi fun hb => hlow hb.2, hentry₆ pd _ i hpd hi,
        if_neg fun hb => Kinds.ne_of_new hpdpt hnew₃ hb.1.symm, hzero₅ i hi]
  have htabs : KernelTables kind' K pdpt pd pt := ⟨htables K _ hK₅, htables pdpt _ hpdpt₅,
    htables pd _ hpd, hfilled.table⟩
  refine ⟨kind', K, pdpt, pd, pt, hinv, ?_, htabs, ⟨htop, hsecond, hthird, hfilled.last⟩, ?_, ?_⟩
  · rw [hkern, hkern₆, hkern₅, hkern₄, hkern₃, hkern₂]
  · intro b k hb
    exact htables b k (htables₅ b k (htables₃ b k (htables₁ b k hb)))
  · intro b k i hb hi
    have hb₁ := htables₁ b k hb
    rw [hlast b k i (htables₃ b k hb₁) hi, if_neg fun hbi => Kinds.ne_of_new hb₁ hnew₂ hbi.1,
      if_neg fun hbi => Kinds.ne_of_new hb hnew₁ hbi.1, hentry₃ b k i hb₁ hi, hram₂,
        hentry₁ b k i hb hi]

/-- The page table of the kernel is built, with what it maps. -/
theorem vmInit_spec (h : VmInv U kind s) {u : Unit} (hcall : vmInit s = some (u, s')) :
    ∃ kind' K pdpt pd pt, VmInv U kind' s' ∧ s'.kernPml4 = p2v K ∧
      KernelTables kind' K pdpt pd pt ∧ KernelMap s'.ram K pdpt pd pt ∧
      (∀ b k, kind b = some k → kind' b = some k) ∧
      ∀ b k i, kind b = some k → i < 512 → entry s'.ram b i = entry s.ram b i := by
  obtain ⟨kind', K, pdpt, pd, pt, hinv, hkern, htables, hentries, hold⟩ := vmInit_entries h hcall
  exact ⟨kind', K, pdpt, pd, pt, hinv, hkern, htables, hentries.kernelMap hinv htables, hold⟩

end VmInit

end MicroKernel
