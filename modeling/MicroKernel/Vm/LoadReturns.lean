import MicroKernel.Vm.Loader

/-!
# Loads that return

A process that was set up has the tables for the first 2 MiB and one page in it.  As long as it
stays there, it grows where the allocator has the memory.

* `FirstTables` : the tables for the first 2 MiB;
* `allocUvmLoop_returns` : the loop of `alloc_uvm` returns;
* `Loading.grow_returns` : `alloc_uvm` returns, and what was not asked for stays unmapped;
* `Loading.vacant` : a new process has one page.
-/

namespace MicroKernel

open Extent

attribute [local irreducible] p2v v2p pteAddr

/-! ### The tables for the first 2 MiB -/

/-- The walks for the first 2 MiB go from `P` by two tables to `pt`, and the kernel reaches these
tables. -/
structure FirstTables (ram : Ram) (P pdpt pd pt : ℕ) : Prop where
  /-- From the top table. -/
  top : follow false ram P 0 = some pdpt
  /-- From the next one. -/
  middle : follow false ram pdpt 0 = some pd
  /-- To the last one. -/
  last : follow false ram pd 0 = some pt
  /-- The kernel reaches them. -/
  low : ∀ b ∈ [P, pdpt, pd, pt], b + pgsize ≤ 2 ^ 31
  /-- They are pages. -/
  dvd : ∀ b ∈ [P, pdpt, pd, pt], pgsize ∣ b
  /-- The last one is not among the others. -/
  ne : ∀ b ∈ [P, pdpt, pd], b ≠ pt

section Walks

variable {s : VmState} {ram : Ram} {P pdpt pd pt b a i v va pa newSize mem perm : ℕ} {alloc : Bool}

theorem walkLevel_of_follow (alloc : Bool) (hb : b + pgsize ≤ 2 ^ 31) (hi : i < 512)
    (hfollow : follow false s.ram b i = some a) :
    walkLevel (p2v b) i alloc s = some (some (p2v a), s) := by
  obtain ⟨hp, -, rfl⟩ := follow_eq_some.1 hfollow
  unfold walkLevel
  rw [vm_bind_of_eq (readWord_entry hb hi), if_pos (present_p2v.2 hp), pteAddr_p2v (entry_lt _ _ _)]
  rfl

namespace FirstTables

theorem walkTables (h : FirstTables s.ram P pdpt pd pt) (hva : va < 2 ^ 21) :
    walkTables (p2v P) va alloc s = some (some (p2v pt), s) := by
  have h₁ : pml4x va = 0 := by
    rw [pml4x_eq]
    omega
  have h₂ : pdptx va = 0 := by
    rw [pdptx_eq]
    omega
  have h₃ : pdx va = 0 := by
    rw [pdx_eq]
    omega
  have hP := walkLevel_of_follow alloc (h.low P (by simp)) (by decide) h.top
  have hpdpt := walkLevel_of_follow alloc (h.low pdpt (by simp)) (by decide) h.middle
  have hpd := walkLevel_of_follow alloc (h.low pd (by simp)) (by decide) h.last
  unfold MicroKernel.walkTables
  rw [h₁, h₂, h₃, vm_bind_of_eq hP]
  dsimp only
  rw [vm_bind_of_eq hpdpt]
  exact hpd

/-- Only the first entries of the three upper tables matter. -/
theorem congr {ram' : Ram} (h : FirstTables ram P pdpt pd pt)
    (hentry : ∀ b ∈ [P, pdpt, pd], entry ram' b 0 = entry ram b 0) :
    FirstTables ram' P pdpt pd pt := by
  have hkeep : ∀ {b a}, b ∈ [P, pdpt, pd] → follow false ram b 0 = some a →
      follow false ram' b 0 = some a := by
    intro b a hb hfollow
    rw [← hfollow]
    unfold follow
    rw [hentry b hb]
  exact ⟨hkeep (by simp) h.top, hkeep (by simp) h.middle, hkeep (by simp) h.last, h.low, h.dvd,
    h.ne⟩

theorem write (h : FirstTables ram P pdpt pd pt) (hi : i < 512) (hv : v < 2 ^ 64) :
    FirstTables (ram.writeLe (pt + 8 * i) 8 v) P pdpt pd pt := by
  refine h.congr fun b hb => ?_
  have hmem : b ∈ [P, pdpt, pd, pt] := List.mem_of_mem_dropLast (l := [P, pdpt, pd, pt]) hb
  rw [entry_writeLe ram (h.dvd pt (by simp)) (h.dvd b hmem) hi (by decide) hv]
  exact if_neg fun heq => h.ne b hb heq.1

theorem mapPages (h : FirstTables s.ram P pdpt pd pt) (pa perm : ℕ) (hva : va < 2 ^ 21)
    (hdvd : pgsize ∣ va) (hvacant : ¬Present (entry s.ram pt (ptx va))) :
    mapPages (p2v P) va pgsize pa perm s = some (0,
      { s with ram := s.ram.writeLe (pt + 8 * ptx va) 8 (pa ||| perm ||| pteP) }) := by
  rw [mapPages_page hdvd (by omega),
    mapLoop_of_walkTables 0 (h.walkTables hva) (h.low pt (by simp)) hvacant, if_pos rfl]
  rfl

end FirstTables

/-- The loop of `alloc_uvm`, below 2 MiB and behind everything that is mapped. -/
theorem allocUvmLoop_returns (hnew : newSize ≤ 2 ^ 21) (n : ℕ) : ∀ {s : VmState} {va mem : ℕ},
    FirstTables s.ram P pdpt pd pt → pgsize ∣ va → mem < 2 ^ 64 → newSize ≤ va + n * pgsize →
      (∀ i < 512, va ≤ 4096 * i → ¬Present (entry s.ram pt i)) →
      ∃ ram, allocUvmLoop (p2v P) newSize (n + 1) va mem s = some ((), { s with ram }) ∧
        ∀ i < 512, newSize ≤ 4096 * i → entry ram pt i = entry s.ram pt i := by
  induction n with
  | zero =>
    intro s va mem h hva hmem hend hvacant
    have hdone : ¬va < newSize := by omega
    refine ⟨s.ram, ?_, fun _ _ _ => rfl⟩
    rw [allocUvmLoop, if_neg hdone]
    rfl
  | succ n ih =>
    intro s va mem h hva hmem hend hvacant
    by_cases hmore : va < newSize
    · have hptx : ptx va = va / 4096 := by
        rw [ptx_eq]
        omega
      have hi : va / 4096 < 512 := by omega
      have hstart : 4096 * (va / 4096) = va := Nat.mul_div_cancel' hva
      have hentry : mem ||| (pteW ||| pteU) ||| pteP < 2 ^ 64 :=
        Nat.or_lt_two_pow (Nat.or_lt_two_pow hmem (by decide)) (by decide)
      have hmap := h.mapPages mem (pteW ||| pteU) (by omega) hva
        (hptx ▸ hvacant _ hi hstart.ge)
      rw [hptx] at hmap
      have hnext : add64 va pgsize = va + pgsize := add64_of_lt (by unfold pgsize; omega)
      have hother : ∀ i < 512, i ≠ va / 4096 →
          entry (s.ram.writeLe (pt + 8 * (va / 4096)) 8 (mem ||| (pteW ||| pteU) ||| pteP)) pt i =
            entry s.ram pt i := by
        intro i hi' hne
        rw [entry_writeLe s.ram (h.dvd pt (by simp)) (h.dvd pt (by simp)) hi hi' hentry]
        exact if_neg fun heq => hne heq.2
      have htables := h.write hi hentry
      generalize s.ram.writeLe (pt + 8 * (va / 4096)) 8 (mem ||| (pteW ||| pteU) ||| pteP) = ram₁
        at hmap hother htables
      have hend' : newSize ≤ va + pgsize + n * pgsize := by
        rw [Nat.add_assoc, Nat.add_comm pgsize, ← Nat.succ_mul]
        exact hend
      have hvacant' : ∀ i < 512, va + pgsize ≤ 4096 * i → ¬Present (entry ram₁ pt i) := by
        intro i hi' hle
        unfold pgsize at hle
        rw [hother i hi' (by omega)]
        exact hvacant i hi' (by omega)
      obtain ⟨ram, hrest, hkeep⟩ := ih (s := { s with ram := ram₁ }) htables
        (Nat.dvd_add hva (dvd_refl pgsize)) (add64_lt mem pgsize) hend' hvacant'
      refine ⟨ram, ?_, fun i hi' hle => ?_⟩
      · rw [allocUvmLoop, if_pos hmore, vm_bind_of_eq hmap, hnext]
        exact hrest
      · rw [hkeep i hi' hle]
        exact hother i hi' (by omega)
    · refine ⟨s.ram, ?_, fun _ _ _ => rfl⟩
      rw [allocUvmLoop, if_neg hmore]
      rfl

end Walks

/-! ### A process grows -/

/-- From `n` on, the process has no pages in the first 2 MiB. -/
def Vacant (ram : Ram) (P n : ℕ) : Prop :=
  ∀ va, n ≤ va → va < 2 ^ 21 → translate true ram P va = none

section Growth

variable {U : Set ℕ} {kind₀ kind : Kinds} {s₀ s s' : VmState} {P va n p : ℕ} {m : Memblock}

theorem tableOf_first {user : Bool} {ram : Ram} (hva : va < 2 ^ 21) :
    tableOf user ram P va = tableOf user ram P 0 := by
  have h₁ : pml4x va = pml4x 0 := by
    rw [pml4x_eq, pml4x_eq]
    omega
  have h₂ : pdptx va = pdptx 0 := by
    rw [pdptx_eq, pdptx_eq]
    omega
  have h₃ : pdx va = pdx 0 := by
    rw [pdx_eq, pdx_eq]
    omega
  unfold tableOf
  rw [h₁, h₂, h₃]

namespace Loading

theorem firstTables (h : Loading U kind₀ s₀ P kind s) : ∃ pdpt pd pt,
    FirstTables s.ram P pdpt pd pt ∧ tableOf true s.ram P 0 = some pt ∧
      ∀ b ∈ [P, pdpt, pd, pt], tableBlock b ∈ s.log := by
  obtain ⟨a, ha⟩ := Option.ne_none_iff_exists'.1 h.zero
  obtain ⟨pt, page, htab, -⟩ := translate_eq_some.1 ha
  obtain ⟨pdpt, pd, h₁, h₂, h₃⟩ := tableOf_eq_some.1 htab
  have hk₁ := h.inv.kind_of_follow_true h.top (pml4x_lt 0) h₁
  have hk₂ := h.inv.kind_of_follow_true hk₁ (pdptx_lt 0) h₂
  have hk₃ := h.inv.kind_of_follow_true hk₂ (pdx_lt 0) h₃
  have hkind : ∀ b ∈ [P, pdpt, pd, pt], ∃ k, kind b = some k := by
    simp only [List.mem_cons, List.not_mem_nil, or_false]
    rintro b (rfl | rfl | rfl | rfl)
    · exact ⟨_, h.top⟩
    · exact ⟨_, hk₁⟩
    · exact ⟨_, hk₂⟩
    · exact ⟨_, hk₃⟩
  refine ⟨pdpt, pd, pt, ⟨follow_false_of_follow h₁, follow_false_of_follow h₂,
    follow_false_of_follow h₃, fun b hb => ?_, fun b hb => ?_, ?_⟩, htab, fun b hb => ?_⟩
  · obtain ⟨k, hk⟩ := hkind b hb
    exact h.inv.low b k hk
  · obtain ⟨k, hk⟩ := hkind b hb
    exact h.inv.dvd hk
  · -- they are of other levels
    have hlevel : ∀ {b l}, kind b = some ⟨some P, l + 1⟩ → b ≠ pt := by
      rintro b l hb rfl
      rw [hk₃] at hb
      cases hb
    simp only [List.mem_cons, List.not_mem_nil, or_false]
    rintro b (rfl | rfl | rfl)
    · exact hlevel h.top
    · exact hlevel hk₁
    · exact hlevel hk₂
  · obtain ⟨k, hk⟩ := hkind b hb
    exact h.inv.table b k hk

/-- `alloc_uvm` returns when the allocator has the block and nothing is mapped there. -/
theorem grow_returns (h : Loading U kind₀ s₀ P kind s) (h₀ : VmInv U kind₀ s₀) {oldSize newSize : ℕ}
    (hvacant : Vacant s.ram P (pgroundup oldSize)) (hold : oldSize ≤ newSize)
    (hnew : newSize ≤ 2 ^ 21)
    (halloc : memblockAllocBase s.memblock (newSize - oldSize) pgsize memblockAllocAccessible =
      .ok (m, p)) (hlow : p + (newSize - oldSize) ≤ 2 ^ 31) :
    ∃ s', allocUvm (p2v P) oldSize newSize s = some ((newSize : ℤ), s') ∧ s'.memblock = m ∧
      Vacant s'.ram P (pgroundup newSize) := by
  obtain ⟨ram₁, hcall⟩ := memblockAllocBase_returns (.userMemory (v2p (p2v P))) halloc hlow
  obtain ⟨-, hallocated⟩ := memblockAllocBase_allocated h.inv.blocks hcall
  obtain ⟨pdpt, pd, pt, htables, htab, hblock⟩ := h.firstTables
  -- the block is apart from the tables
  have hentry : ∀ b ∈ [P, pdpt, pd, pt], ∀ i < 512, entry ram₁ b i = entry s.ram b i :=
    fun b hb i hi => entry_congr hi fun a ha =>
      hallocated.ram_eq a fun hin => hallocated.fresh a hin _ (hblock b hb) ha
  have htables₁ : FirstTables ram₁ P pdpt pd pt := htables.congr fun b hb =>
    hentry b (List.mem_of_mem_dropLast (l := [P, pdpt, pd, pt]) hb) 0 (by decide)
  have hptx : ∀ i < 512, ptx (4096 * i) = i := fun i hi => by
    rw [ptx_eq]
    omega
  have hround : pgroundup oldSize = (oldSize + 4095) / 4096 * 4096 := pgroundup_eq (by omega)
  have hround' : pgroundup newSize = (newSize + 4095) / 4096 * 4096 := pgroundup_eq (by omega)
  have habsent : ∀ i < 512, pgroundup oldSize ≤ 4096 * i → ¬Present (entry ram₁ pt i) := by
    intro i hi hle
    have hlt : 4096 * i < 2 ^ 21 := by omega
    have hzero := h.entry_eq_zero h₀ ((tableOf_first hlt).trans htab) (hvacant _ hle hlt)
    rw [hptx i hi] at hzero
    rw [hentry pt (by simp) i hi, hzero]
    decide
  have hp : p < 2 ^ 64 := by omega
  have hend : newSize ≤ pgroundup oldSize + (newSize / pgsize + 1) * pgsize := by
    unfold pgsize
    omega
  obtain ⟨ram₂, hloop, hkeep⟩ := allocUvmLoop_returns hnew (newSize / pgsize + 1)
    (s := ⟨m, ram₁, s.kernPml4, ⟨⟨p, newSize - oldSize⟩,
      .userMemory (v2p (p2v P))⟩ :: s.log⟩) htables₁
    (dvd_pgroundup oldSize) hp hend habsent
  have hreturn : allocUvm (p2v P) oldSize newSize s = some ((newSize : ℤ),
      ⟨m, ram₂, s.kernPml4, ⟨⟨p, newSize - oldSize⟩, .userMemory (v2p (p2v P))⟩ :: s.log⟩) := by
    have hint : toInt32 (newSize % 2 ^ 32) = newSize := by
      unfold toInt32
      rw [Nat.mod_eq_of_lt (by omega), if_pos (by omega)]
    unfold allocUvm Vm.memblockAlloc
    rw [if_neg (Nat.not_lt.2 hold), vm_bind_of_eq hcall, vm_bind_of_eq hloop, hint]
    rfl
  refine ⟨_, hreturn, rfl, fun va hva hlt => ?_⟩
  obtain ⟨kind', hload', hgrows, -⟩ := h.grow (by omega) (by omega) hreturn
  -- the entry of `va` is the one that was there
  have htab' := hgrows.tableOf h.inv h.top ((tableOf_first hlt).trans htab)
  have hlast : entry ram₂ pt (ptx va) = entry s.ram pt (ptx va) := by
    have hi : ptx va = va / 4096 := by
      rw [ptx_eq]
      omega
    rw [hi, hkeep _ (by omega) (by omega)]
    exact hentry pt (by simp) _ (by omega)
  have hnone : translate true s.ram P va = none := hvacant va (by omega) hlt
  rw [Option.eq_none_iff_forall_ne_some]
  intro a ha
  obtain ⟨pt', page, htab'', hpage, rfl⟩ := translate_eq_some.1 ha
  obtain rfl : pt' = pt := Option.some.inj (htab''.symm.trans htab')
  have hzero := h.entry_eq_zero h₀ ((tableOf_first hlt).trans htab) hnone
  have hp := (follow_eq_some.1 hpage).1
  dsimp only at hp
  rw [hlast, hzero] at hp
  exact absurd hp (by decide)

end Loading

end Growth

/-! ### Copies -/

section Copies

variable {U : Set ℕ} {kind₀ kind : Kinds} {s₀ s : VmState} {P : ℕ} {c : CopyCall}

/-- Where the kernel reaches all usable memory, it copies to the pages of the process. -/
theorem Loading.copy_returns (h : Loading U kind₀ s₀ P kind s) (h₀ : VmInv U kind₀ s₀)
    (hU : ∀ a ∈ U, a < 2 ^ 31) (hva : c.va < 2 ^ 64) (hlen : 0 < c.len)
    (hmap : translate true s.ram P c.va ≠ none) (hread : c.buf.Readable c.size) :
    c.copyPage (p2v P) s = some ((),
      { s with ram := s.ram.writeBytes (c.dst s.ram P) c.size (c.buf.bytes s.ram) }) := by
  refine (CopyCall.copyPage_eq_some h.inv h.top hva hlen).2 ⟨?_, hread, rfl⟩
  have hown := (own_target_iff hva hlen s.ram).1 (h.copy_mapped h₀ hva hmap).2
  obtain ⟨page, x, hdvd, hin, hx, -, -, hmem⟩ := hown
  have hlow := hU page (h.inv.blocks.usable_of_mem hx hmem)
  have hpage := walkedPage_dvd s.ram P c.va
  obtain ⟨h₁, h₂⟩ := hin
  unfold pgsize at hdvd hpage h₂
  unfold CopyCall.dst
  rw [CopyCall.size_eq hva]
  omega

theorem Loading.copy_step {l : Loader} (h : Loading U kind₀ s₀ P kind l.vm) (h₀ : VmInv U kind₀ s₀)
    (hU : ∀ a ∈ U, a < 2 ^ 31) (hva : l.call.va < 2 ^ 64) (hlen : 0 < l.call.len)
    (hmap : translate true l.vm.ram P l.call.va ≠ none) (hread : l.call.buf.Readable l.call.size)
    (pluginElf : ℕ) : ∃ vm,
    (loadSystem (p2v P) pluginElf).step l .copy { l with vm, call := l.call.next } ∧
      Loading U kind₀ s₀ P kind vm ∧ vm.memblock = l.vm.memblock ∧
      ∀ va, translate true vm.ram P va = translate true l.vm.ram P va := by
  have hcopy := h.copy_returns h₀ hU hva hlen hmap hread
  have hspare := sparesTables_of_own h.inv.blocks (h.copy_mapped h₀ hva hmap).2
  exact ⟨_, ⟨hlen, _, hcopy, rfl⟩, (h.store hspare).1, rfl, h.translate_store hspare⟩

end Copies

/-! ### The stack -/

/-- Below 2 MiB the stack is laid out and copied. -/
theorem Loading.stack_run {U : Set ℕ} {kind₀ kind : Kinds} {s₀ : VmState} {P p : ℕ} {m : Memblock}
    {l : Loader} (h : Loading U kind₀ s₀ P kind l.vm) (h₀ : VmInv U kind₀ s₀)
    (hU : ∀ a ∈ U, a < 2 ^ 31) (hleft : l.left = 0) (hlen : l.call.len = 0)
    (hstacked : l.stacked = false) (hreach : Reached l.vm.ram P l.size)
    (hend : l.size + 12288 ≤ 2 ^ 21)
    (hvacant : Vacant l.vm.ram P (pgroundup l.size))
    (halloc : memblockAllocBase l.vm.memblock 8192 pgsize memblockAllocAccessible = .ok (m, p))
    (hlow : p + 8192 ≤ 2 ^ 31) (pluginElf : ℕ) : ∃ l₁ l₂,
      (loadSystem (p2v P) pluginElf).step l .stack l₁ ∧
      (loadSystem (p2v P) pluginElf).step l₁ .copy l₂ ∧
      l₁.call.va = pgroundup l.size + 8160 ∧ l₂.left = 0 ∧ l₂.call.len = 0 ∧ l₂.stacked = true := by
  have hround : pgroundup l.size = (l.size + 4095) / 4096 * 4096 := pgroundup_eq (by omega)
  have hround' : pgroundup (pgroundup l.size) = pgroundup l.size := by
    rw [pgroundup_eq (by omega)]
    omega
  have hnew : add64 (pgroundup l.size) (2 * pgsize) = pgroundup l.size + 8192 :=
    add64_of_lt (by unfold pgsize; omega)
  rw [← hround'] at hvacant
  obtain ⟨vm, hcall, -⟩ := h.grow_returns h₀ hvacant (Nat.le_add_right _ 8192) (by omega)
    (by rw [Nat.add_sub_cancel_left]; exact halloc) (by rw [Nat.add_sub_cancel_left]; exact hlow)
  obtain ⟨-, hmapped⟩ := hreach.round.grow h (by omega) (by omega) hcall
  obtain ⟨kind', hload, -⟩ := h.grow (by omega) (by omega) hcall
  have hstep₁ : (loadSystem (p2v P) pluginElf).step l .stack
      (l.stack ((pgroundup l.size + 8192 : ℕ) : ℤ) vm) := by
    refine ⟨hlen, hleft, hstacked, _, vm, ?_, rfl⟩
    rw [hnew]
    exact hcall
  have hva : (l.stack ((pgroundup l.size + 8192 : ℕ) : ℤ) vm).call.va =
      pgroundup l.size + 8160 := by
    show sub64 (ofInt ((pgroundup l.size + 8192 : ℕ) : ℤ)) 32 = _
    rw [ofInt_natCast (by omega), sub64_of_le (by omega) (by omega)]
    omega
  generalize hl : l.stack ((pgroundup l.size + 8192 : ℕ) : ℤ) vm = l₁ at hstep₁ hva
  have hvm : l₁.vm = vm := by rw [← hl]; rfl
  have hlen₁ : l₁.call.len = 32 := by rw [← hl]; rfl
  have hlt : l₁.call.va < 2 ^ 31 := by omega
  have hoffset : l₁.call.va % 4096 = 4064 := by omega
  have hsize : l₁.call.size = 32 := by
    rw [CopyCall.size_eq (hlt.trans (by decide)), hoffset, hlen₁]
    rfl
  have hpos : 0 < l₁.call.len := by
    rw [hlen₁]
    decide
  rw [← hvm] at hload hmapped
  obtain ⟨vm', hstep₂, -⟩ := hload.copy_step h₀ hU (hlt.trans (by decide)) hpos
    (hmapped _ (by omega) hlt) (by rw [← hl]; trivial) pluginElf
  refine ⟨l₁, _, hstep₁, hstep₂, hva, ?_, ?_, ?_⟩
  · rw [← hl]
    exact hleft
  · show l₁.call.len - l₁.call.size = 0
    rw [hsize, hlen₁]
  · rw [← hl]
    rfl

/-! ### A new process -/

section Setup

variable {U : Set ℕ} {kind₀ kind : Kinds} {s₀ s s' : VmState} {P va v size align maxAddr p : ℕ}
  {purpose : Purpose}

theorem memblockAllocBase_log
    (hcall : Vm.memblockAllocBase size align maxAddr purpose s = some (p, s')) :
    s'.log = ⟨⟨p, size⟩, purpose⟩ :: s.log := by
  simp only [Vm.memblockAllocBase, vm_bind_eq_some, vm_pure_eq_some, memset_eq_some,
    reserveBlock_eq_some] at hcall
  obtain ⟨p, s₁, ⟨m, -, rfl⟩, -, s₂, ⟨-, rfl⟩, rfl, rfl⟩ := hcall
  rfl

theorem memblockAllocKernel_log
    (hcall : Vm.memblockAllocKernel size align purpose s = some (v, s')) :
    ∃ p, s'.log = ⟨⟨p, size⟩, purpose⟩ :: s.log := by
  simp only [Vm.memblockAllocKernel, vm_bind_eq_some, vm_pure_eq_some] at hcall
  obtain ⟨p, s₁, halloc, -, rfl⟩ := hcall
  exact ⟨p, memblockAllocBase_log halloc⟩

theorem memset_log {va n : ℕ} {c : BitVec 8} {u : Unit} (hcall : memset va c n s = some (u, s')) :
    s'.log = s.log := by
  obtain ⟨-, rfl⟩ := memset_eq_some.1 hcall
  rfl

theorem writeWord_log {va v : ℕ} {u : Unit} (hcall : writeWord va v s = some (u, s')) :
    s'.log = s.log := by
  obtain ⟨-, rfl⟩ := writeWord_eq_some.1 hcall
  rfl

/-- Four tables and one page are handed out for a new process. -/
theorem setupUserMemoryPages_log (hcall : setupUserMemoryPages s = some (v, s')) :
    ∃ page, ∀ x ∈ s'.log, x ∉ s.log →
      x.purpose = .pageTable ∨ x = ⟨⟨page, pgsize⟩, .userMemory (v2p v)⟩ := by
  simp only [setupUserMemoryPages, vm_bind_eq_some, vm_pure_eq_some] at hcall
  obtain ⟨v₁, s₁, ha₁, v₂, s₂, ha₂, v₃, s₃, ha₃, v₄, s₄, ha₄, u₁, s₅, hm₁, u₂, s₆, hm₂, u₃, s₇, hm₃,
    u₄, s₈, hm₄, u₅, s₉, hw₁, t, s₁₀, hget, e, s₁₁, hread, u₆, s₁₂, hw₂, u₇, s₁₃, hw₃, u₈, s₁₄, hw₄,
    page, s₁₅, ha₅, u₉, s₁₆, hw₅, rfl, rfl⟩ := hcall
  obtain ⟨-, rfl⟩ := Prod.mk.inj (Option.some.inj hget)
  obtain ⟨-, -, rfl⟩ := readWord_eq_some.1 hread
  obtain ⟨p₁, hl₁⟩ := memblockAllocKernel_log ha₁
  obtain ⟨p₂, hl₂⟩ := memblockAllocKernel_log ha₂
  obtain ⟨p₃, hl₃⟩ := memblockAllocKernel_log ha₃
  obtain ⟨p₄, hl₄⟩ := memblockAllocKernel_log ha₄
  refine ⟨page, fun x hx hold => ?_⟩
  rw [writeWord_log hw₅, memblockAllocBase_log ha₅, writeWord_log hw₄, writeWord_log hw₃,
    writeWord_log hw₂, writeWord_log hw₁, memset_log hm₄, memset_log hm₃, memset_log hm₂,
    memset_log hm₁, hl₄, hl₃, hl₂, hl₁] at hx
  simp only [List.mem_cons] at hx
  rcases hx with rfl | rfl | rfl | rfl | rfl | hx
  · exact Or.inr rfl
  · exact Or.inl rfl
  · exact Or.inl rfl
  · exact Or.inl rfl
  · exact Or.inl rfl
  · exact absurd hx hold

/-- A process with one block of one page has this page at 0 and no others. -/
theorem Loading.mapped_lt (h : Loading U kind₀ s₀ P kind s) (h₀ : VmInv U kind₀ s₀) {page : ℕ}
    (hlog : ∀ x ∈ s.log, x ∉ s₀.log →
      x.purpose = .pageTable ∨ x = ⟨⟨page, pgsize⟩, .userMemory P⟩)
    (hmap : translate true s.ram P va ≠ none) : va % 2 ^ 48 < 4096 := by
  have hpage : ∀ {va a}, translate true s.ram P va = some a →
      pgsize ∣ page ∧ a ∈ Set.Ico page (page + pgsize) := by
    intro va a ha
    obtain ⟨page', x, hdvd, hin, hx, hnew, hpurpose, hmem⟩ := h.own_of_translate h₀ ha
    rcases hlog x hx hnew with htable | rfl
    · rw [hpurpose] at htable
      cases htable
    · have hdvd' := h.inv.blocks.dvd_of_mem hx hmem
      have h₁ : page ≤ page' := hmem.1
      have h₂ : page' < page + pgsize := hmem.2
      have hsame : page = page' := by
        unfold pgsize at hdvd hdvd' h₂
        dsimp only at hdvd'
        omega
      rw [hsame]
      exact ⟨hdvd, hin⟩
  obtain ⟨a, ha⟩ := Option.ne_none_iff_exists'.1 hmap
  obtain ⟨a₀, ha₀⟩ := Option.ne_none_iff_exists'.1 h.zero
  obtain ⟨hdvd, hin⟩ := hpage ha
  obtain ⟨-, hin₀⟩ := hpage ha₀
  -- the page is the one at 0, and no other address leads there
  have hstart := walkedPage_of_translate (translate_false_of_translate ha₀)
  have hdvd₀ := walkedPage_dvd s.ram P 0
  obtain ⟨h₁, h₂⟩ := hin
  obtain ⟨h₃, h₄⟩ := hin₀
  unfold pgsize at hdvd hdvd₀ h₂ h₄
  obtain ⟨j, rfl⟩ := Nat.exists_eq_add_of_le h₁
  have hfirst : a₀ = page := by omega
  rw [hfirst] at ha₀
  have hsame := h.inv.translate_inj h.top ha (translate_add (j := j) ha₀ (by omega))
  omega

/-- A new process has nothing behind its page. -/
theorem Loading.vacant (h : Loading U kind₀ s₀ P kind s) (h₀ : VmInv U kind₀ s₀)
    (hP : v2p (p2v P) = P) (hcall : setupUserMemoryPages s₀ = some (p2v P, s)) :
    ∀ va, 4096 ≤ va % 2 ^ 48 → translate true s.ram P va = none := by
  intro va hva
  obtain ⟨page, hlog⟩ := setupUserMemoryPages_log hcall
  rw [hP] at hlog
  by_contra hmap
  exact absurd (h.mapped_lt h₀ hlog hmap) (Nat.not_lt.2 hva)

end Setup

/-! ### A file in the buffer -/

/-- Where the buffer is in these runs. -/
def pluginBuf : ℕ := 0x6ED000

/-- An ELF file with one program header, behind the ELF header. -/
def oneHeaderFile (h : ProgHdr) : Ram :=
  let zeros : Ram := fun _ => 0
  let elf := ((zeros.writeLe pluginBuf 4 elfMagic).writeLe (pluginBuf + 32) 8 sizeofElfHdr).writeLe
    (pluginBuf + 56) 2 1
  ((((elf.writeLe (pluginBuf + 64) 4 h.type).writeLe (pluginBuf + 64 + 8) 8 h.off).writeLe
    (pluginBuf + 64 + 16) 8 h.vaddr).writeLe (pluginBuf + 64 + 32) 8 h.filesz).writeLe
    (pluginBuf + 64 + 40) 8 h.memsz

/-- The fields have the sizes of the fields of `struct ProgHdr`. -/
structure ProgHdr.Fits (h : ProgHdr) : Prop where
  type : h.type < 2 ^ 32
  off : h.off < 2 ^ 64
  vaddr : h.vaddr < 2 ^ 64
  filesz : h.filesz < 2 ^ 64
  memsz : h.memsz < 2 ^ 64

theorem elfHdrAt_oneHeaderFile (h : ProgHdr) :
    elfHdrAt (oneHeaderFile h) pluginBuf = ⟨sizeofElfHdr, 1⟩ := by
  unfold elfHdrAt oneHeaderFile
  simp (disch := omega) only [Ram.readLe_writeLe_of_disjoint]
  rw [Ram.readLe_writeLe (show 1 < 256 ^ 2 by decide),
    Ram.readLe_writeLe (show sizeofElfHdr < 256 ^ 8 by decide)]

theorem progHdrAt_oneHeaderFile {h : ProgHdr} (hfits : h.Fits) :
    progHdrAt (oneHeaderFile h) (pluginBuf + 64) = h := by
  unfold progHdrAt oneHeaderFile
  simp (disch := omega) only [Ram.readLe_writeLe_of_disjoint]
  rw [Ram.readLe_writeLe hfits.type, Ram.readLe_writeLe hfits.off, Ram.readLe_writeLe hfits.vaddr,
    Ram.readLe_writeLe hfits.filesz, Ram.readLe_writeLe hfits.memsz]

theorem readProgHdr_oneHeaderFile {h : ProgHdr} {vm : VmState} (hfits : h.Fits)
    (hram : ∀ a ∈ Set.Ico pluginBuf (pluginBuf + bufferSize), vm.ram a = oneHeaderFile h a) :
    readProgHdr (hdrAddr (p2v pluginBuf) sizeofElfHdr) vm = some (h, vm) := by
  have haddr : hdrAddr (p2v pluginBuf) sizeofElfHdr = p2v (pluginBuf + 64) := by
    rw [hdrAddr_eq (by decide)]
    rfl
  rw [haddr]
  refine readProgHdr_eq_some.2 ⟨?_, ?_, rfl⟩
  · rw [kernelRange_p2v (by decide) (by decide)]
    decide
  · rw [AllocInv.v2p_p2v (by decide), ← progHdrAt_oneHeaderFile hfits]
    refine progHdrAt_congr fun b hb => hram b ⟨?_, ?_⟩
    · exact (Nat.le_add_right _ _).trans hb.1
    · exact hb.2.trans_le (by decide)

/-- The machine was started, the bytes of `file` are in the buffer, and a process is set up. -/
structure Prepared (file : Ram) (s : UserSpaces) (P : ℕ) (s₁ : VmState) : Prop where
  /-- The start. -/
  boot : ∃ tr, vmSystem.Run (.boot (bootTables [⟨0, 0⟩] 0) fun _ => 0) tr s
  /-- The page table of the kernel. -/
  kern : s.vm.kernPml4 ≠ 0
  /-- The buffer. -/
  block : ⟨⟨pluginBuf, bufferSize⟩, .other⟩ ∈ s.vm.log
  /-- The file. -/
  ram_eq : ∀ a ∈ Set.Ico pluginBuf (pluginBuf + bufferSize), s.vm.ram a = file a
  /-- The process. -/
  setup : setupUserMemoryPages s.vm = some (p2v P, s₁)
  /-- A physical address. -/
  home : v2p (p2v P) = P
  /-- What the allocator has. -/
  memblock : s₁.memblock = bootTables [⟨0x6E8000, 0x118000⟩] 0x118000

theorem bootMap_lt : ∀ x ∈ usableEntries bootMap, x.addr + x.len < 2 ^ 64 - 1 := by decide

theorem bootMap_low : ∀ a ∈ usableMemory bootMap, a < 2 ^ 31 := by
  rintro a ⟨e, he, ha⟩
  obtain ⟨x, hx, rfl⟩ := List.mem_map.1 he
  have hend : ∀ x ∈ usableEntries bootMap, x.addr + x.len ≤ 2 ^ 31 := by decide
  exact ha.2.trans_le (hend x hx)

theorem memblockInit_bootMap : memblockInit bootMap = .ok (bootTables [⟨0, 0⟩] 0) := by decide

theorem exists_prepared (file : Ram) : ∃ s P s₁, Prepared file s P s₁ := by
  obtain ⟨tr, s, pml4, s₁, hrun, -, hkern, hblock, hram, hsetup, hm⟩ :=
    exists_setup (fun _ => 0) fun i => file (pluginBuf + i)
  obtain ⟨_, _, P, rfl, hP, -⟩ := exists_loading bootMap_lt memblockInit_bootMap hrun hkern hsetup
  refine ⟨s, P, s₁, ⟨tr, hrun⟩, hkern, hblock, fun a ha => ?_, hsetup, hP, hm⟩
  obtain ⟨i, rfl⟩ := Nat.exists_eq_add_of_le ha.1
  exact hram i (Nat.lt_of_add_lt_add_left ha.2)

namespace Prepared

variable {file : Ram} {s : UserSpaces} {P : ℕ} {s₁ : VmState} {h : ProgHdr}

theorem loading (hp : Prepared file s P s₁) : ∃ kind₀ kind,
    VmInv (usableMemory bootMap) kind₀ s.vm ∧
    Loading (usableMemory bootMap) kind₀ s.vm P kind s₁ ∧ Grows ∅ kind₀ s.vm kind s₁ := by
  obtain ⟨tr, hrun⟩ := hp.boot
  obtain ⟨kind₀, kind, P', hv, hP', h₀, hload, hgrows⟩ :=
    exists_loading bootMap_lt memblockInit_bootMap hrun hp.kern hp.setup
  obtain rfl : P' = P := by rw [← hP', ← hv, hp.home]
  exact ⟨kind₀, kind, h₀, hload, hgrows⟩

theorem ram_eq_start (hp : Prepared file s P s₁) :
    ∀ a ∈ Set.Ico pluginBuf (pluginBuf + bufferSize), s₁.ram a = file a := by
  intro a ha
  obtain ⟨kind₀, kind, -, hload, hgrows⟩ := hp.loading
  rw [← hp.ram_eq a ha]
  exact hgrows.ram_eq hload.inv.blocks hp.block Purpose.noConfusion ha

theorem elfHdrAt_eq (hp : Prepared (oneHeaderFile h) s P s₁) :
    elfHdrAt s.vm.ram pluginBuf = ⟨sizeofElfHdr, 1⟩ := by
  rw [← elfHdrAt_oneHeaderFile h]
  have hfield : ∀ off n, off + n ≤ bufferSize →
      s.vm.ram.readLe (pluginBuf + off) n = (oneHeaderFile h).readLe (pluginBuf + off) n :=
    fun off n hn => Ram.readLe_congr n fun b hb => hp.ram_eq b ⟨by have := hb.1; omega, by
      have := hb.2
      omega⟩
  unfold elfHdrAt
  rw [hfield 32 8 (by decide), hfield 56 2 (by decide)]

theorem step_header (hp : Prepared (oneHeaderFile h) s P s₁) (hfits : h.Fits)
    (htype : h.type = elfProgLoad) {r : ℤ} {vm : VmState}
    (hcall : allocUvm (p2v P) 4096 (add64 h.vaddr h.memsz) s₁ = some (r, vm)) :
    (loadSystem (p2v P) (p2v pluginBuf)).step (.start s₁ (elfHdrAt s.vm.ram pluginBuf)) (.header h)
      (Loader.segment (.start s₁ ⟨sizeofElfHdr, 1⟩) (p2v pluginBuf) h r vm) := by
  have hoff : ElfHdr.off ⟨sizeofElfHdr, 1⟩ = ((sizeofElfHdr : ℕ) : ℤ) := off_eq (by decide)
  rw [hp.elfHdrAt_eq]
  refine ⟨rfl, Nat.one_pos, ?_, ?_⟩
  · unfold Loader.start
    dsimp only
    rw [hoff]
    exact readProgHdr_oneHeaderFile hfits hp.ram_eq_start
  · rw [if_neg (not_not.2 htype)]
    exact ⟨r, vm, hcall, rfl⟩

/-- Where a segment ends in the page that is there, `alloc_uvm` does nothing. -/
theorem step_header_first (hp : Prepared (oneHeaderFile h) s P s₁) (hfits : h.Fits)
    (htype : h.type = elfProgLoad) (hend : add64 h.vaddr h.memsz < 4096) :
    (loadSystem (p2v P) (p2v pluginBuf)).step (.start s₁ (elfHdrAt s.vm.ram pluginBuf)) (.header h)
      (Loader.segment (.start s₁ ⟨sizeofElfHdr, 1⟩) (p2v pluginBuf) h 4096 s₁) := by
  refine hp.step_header hfits htype ?_
  unfold allocUvm
  rw [if_pos hend]
  rfl

/-- A segment in this page is copied by one `memmove`. -/
theorem run_first (hp : Prepared (oneHeaderFile h) s P s₁) (hfits : h.Fits)
    (htype : h.type = elfProgLoad) (hend : h.vaddr + h.memsz < 4096) (hpos : 0 < h.memsz)
    (hoff : h.off + h.memsz ≤ bufferSize) : ∃ tr l,
    (loadSystem (p2v P) (p2v pluginBuf)).Run (.start s₁ (elfHdrAt s.vm.ram pluginBuf)) tr l ∧
      l.left = 0 ∧ l.call.len = 0 ∧ l.stacked = false ∧
      ∃ x ∈ tr, x.ev = .copy ∧ x.pre.vm = s₁ ∧ x.pre.call.size = h.memsz ∧
        x.pre.call = ⟨h.vaddr, .memory (p2v (pluginBuf + h.off)), h.memsz⟩ := by
  obtain ⟨kind₀, kind, h₀, hload, -⟩ := hp.loading
  have hstep₁ := hp.step_header_first hfits htype (by rw [add64_of_lt (by omega)]; exact hend)
  generalize hl : Loader.segment (.start s₁ ⟨sizeofElfHdr, 1⟩) (p2v pluginBuf) h 4096 s₁ = l₁
    at hstep₁
  have hvm : l₁.vm = s₁ := by rw [← hl]; rfl
  have hcall : l₁.call = ⟨h.vaddr, .memory (p2v (pluginBuf + h.off)), h.memsz⟩ := by
    rw [← hl, ← add64_p2v]
    rfl
  have hva : l₁.call.va < 2 ^ 64 := by
    rw [hcall]
    exact hfits.vaddr
  have hsize : l₁.call.size = h.memsz := by
    rw [CopyCall.size_eq hva, hcall]
    dsimp only
    omega
  have hread : l₁.call.buf.Readable l₁.call.size := by
    have hbuf : pluginBuf + bufferSize ≤ 2 ^ 31 := by decide
    rw [hsize, hcall]
    exact (kernelRange_p2v (by omega) hpos).2 (by omega)
  have hmap : translate true s₁.ram P l₁.call.va ≠ none := by
    rw [hcall]
    exact hload.translate_first (by dsimp only; omega)
  rw [← hvm] at hload hmap
  obtain ⟨vm, hstep₂, -⟩ := hload.copy_step h₀ bootMap_low hva
    (by rw [hcall]; exact hpos) hmap hread
    (p2v pluginBuf)
  refine ⟨_, _, (System.Run.single hstep₁).snoc hstep₂, ?_, ?_, ?_, _,
    List.mem_append_right _ (List.mem_singleton_self _), rfl, hvm, hsize, hcall⟩
  · rw [← hl]
    rfl
  · show l₁.call.len - l₁.call.size = 0
    rw [hsize, hcall]
    exact Nat.sub_self _
  · rw [← hl]
    rfl

theorem step_header_grow (hp : Prepared (oneHeaderFile h) s P s₁) (hfits : h.Fits)
    (htype : h.type = elfProgLoad) (hstart : 4096 ≤ h.vaddr + h.memsz)
    (hend : h.vaddr + h.memsz ≤ 2 ^ 21) {m : Memblock} {p : ℕ}
    (halloc : memblockAllocBase (bootTables [⟨0x6E8000, 0x118000⟩] 0x118000)
      (h.vaddr + h.memsz - 4096) pgsize memblockAllocAccessible = .ok (m, p))
    (hlow : p + (h.vaddr + h.memsz - 4096) ≤ 2 ^ 31) : ∃ kind₀ kind vm,
    (loadSystem (p2v P) (p2v pluginBuf)).step (.start s₁ (elfHdrAt s.vm.ram pluginBuf)) (.header h)
      (Loader.segment (.start s₁ ⟨sizeofElfHdr, 1⟩) (p2v pluginBuf) h (h.vaddr + h.memsz : ℕ) vm) ∧
      VmInv (usableMemory bootMap) kind₀ s.vm ∧
      Loading (usableMemory bootMap) kind₀ s.vm P kind vm ∧ vm.memblock = m ∧
      Reached vm.ram P (h.vaddr + h.memsz) ∧ Vacant vm.ram P (pgroundup (h.vaddr + h.memsz)) := by
  obtain ⟨kind₀, kind, h₀, hload, -⟩ := hp.loading
  have hround : pgroundup 4096 = 4096 := pgroundup_eq (by decide)
  have hvacant : Vacant s₁.ram P (pgroundup 4096) := by
    rw [hround]
    intro va hva hlt
    exact hload.vacant h₀ hp.home hp.setup va (by omega)
  rw [← hp.memblock] at halloc
  obtain ⟨vm, hcall, hm, hvacant'⟩ := hload.grow_returns h₀ hvacant hstart hend halloc hlow
  obtain ⟨kind', hload', -⟩ := hload.grow (by decide) (by omega) hcall
  obtain ⟨hreached, -⟩ := hload.reached.grow hload (by decide) (by omega) hcall
  rw [ofInt_natCast (by omega)] at hreached
  refine ⟨kind₀, kind', vm, hp.step_header hfits htype ?_, h₀, hload', hm, hreached, hvacant'⟩
  rw [add64_of_lt (by omega)]
  exact hcall

/-- A segment that ends behind this page is copied by one `memmove`, and the stack is laid out. -/
theorem run_stack (hp : Prepared (oneHeaderFile h) s P s₁) (hfits : h.Fits)
    (htype : h.type = elfProgLoad) (hstart : 4096 ≤ h.vaddr + h.memsz) (hpos : 0 < h.memsz)
    (hpage : h.vaddr % 4096 + h.memsz ≤ 4096) (hend : h.vaddr + h.memsz + 12288 ≤ 2 ^ 21)
    (hoff : h.off + h.memsz ≤ bufferSize) {m₁ m₂ : Memblock} {p₁ p₂ : ℕ}
    (halloc₁ : memblockAllocBase (bootTables [⟨0x6E8000, 0x118000⟩] 0x118000)
      (h.vaddr + h.memsz - 4096) pgsize memblockAllocAccessible = .ok (m₁, p₁))
    (hlow₁ : p₁ + (h.vaddr + h.memsz - 4096) ≤ 2 ^ 31)
    (halloc₂ : memblockAllocBase m₁ 8192 pgsize memblockAllocAccessible = .ok (m₂, p₂))
    (hlow₂ : p₂ + 8192 ≤ 2 ^ 31) : ∃ l₁ l₂ l₃ l₄,
      (loadSystem (p2v P) (p2v pluginBuf)).Run (.start s₁ (elfHdrAt s.vm.ram pluginBuf))
        [⟨.start s₁ (elfHdrAt s.vm.ram pluginBuf), .header h, l₁⟩, ⟨l₁, .copy, l₂⟩,
          ⟨l₂, .stack, l₃⟩, ⟨l₃, .copy, l₄⟩] l₄ ∧
      l₃.call.va = pgroundup (h.vaddr + h.memsz) + 8160 ∧ l₄.left = 0 ∧ l₄.call.len = 0 ∧
      l₄.stacked = true := by
  obtain ⟨kind₀, kind, vm, hstep₁, h₀, hload, hm, hreached, hvacant⟩ :=
    hp.step_header_grow hfits htype hstart (by omega) halloc₁ hlow₁
  generalize hl : Loader.segment (.start s₁ ⟨sizeofElfHdr, 1⟩) (p2v pluginBuf) h
    (h.vaddr + h.memsz : ℕ) vm = l₁ at hstep₁
  have hvm : l₁.vm = vm := by rw [← hl]; rfl
  have hcall : l₁.call = ⟨h.vaddr, .memory (p2v (pluginBuf + h.off)), h.memsz⟩ := by
    rw [← hl, ← add64_p2v]
    rfl
  have hsizeVar : l₁.size = h.vaddr + h.memsz := by
    rw [← hl]
    exact ofInt_natCast (by omega)
  have hva : l₁.call.va < 2 ^ 64 := by
    rw [hcall]
    exact hfits.vaddr
  have hlen : 0 < l₁.call.len := by
    rw [hcall]
    exact hpos
  have hsize : l₁.call.size = h.memsz := by
    rw [CopyCall.size_eq hva, hcall]
    dsimp only
    omega
  have hread : l₁.call.buf.Readable l₁.call.size := by
    have hbuf : pluginBuf + bufferSize ≤ 2 ^ 31 := by decide
    rw [hsize, hcall]
    exact (kernelRange_p2v (by omega) hpos).2 (by omega)
  -- the segment is mapped
  have hmap : translate true l₁.vm.ram P l₁.call.va ≠ none := by
    rw [hvm, hcall]
    rcases hreached with hall | ⟨-, -, hall⟩
    · exact hall _ (by dsimp only; omega)
    · exact hall _ (by dsimp only; omega)
  rw [← hvm] at hload hm hreached hvacant
  obtain ⟨vm', hstep₂, hload', hm', hsame⟩ :=
    hload.copy_step h₀ bootMap_low hva hlen hmap hread (p2v pluginBuf)
  have hreached' : Reached vm'.ram P l₁.size := by
    rw [hsizeVar]
    exact hreached.mono fun va hva => by rwa [hsame]
  have hvacant' : Vacant vm'.ram P (pgroundup l₁.size) := by
    intro va hle hlt
    rw [hsame]
    rw [hsizeVar] at hle
    exact hvacant va hle hlt
  rw [← hm, ← hm'] at halloc₂
  have hleft : l₁.left = 0 := by rw [← hl]; rfl
  have hdone : l₁.call.next.len = 0 := by
    show l₁.call.len - l₁.call.size = 0
    rw [hsize, hcall]
    exact Nat.sub_self _
  have hstacked : l₁.stacked = false := by rw [← hl]; rfl
  obtain ⟨l₃, l₄, hstep₃, hstep₄, hstack, hend₄⟩ :=
    Loading.stack_run (l := { l₁ with vm := vm', call := l₁.call.next }) hload' h₀ bootMap_low hleft
      hdone hstacked hreached' (by dsimp only; omega) hvacant' halloc₂ hlow₂ (p2v pluginBuf)
  dsimp only at hstack
  rw [hsizeVar] at hstack
  exact ⟨l₁, _, l₃, l₄, (((System.Run.nil _).cons hstep₄).cons hstep₃ |>.cons hstep₂).cons hstep₁,
    hstack, hend₄⟩

end Prepared

/-- A segment of one byte. -/
def oneByteSegment : ProgHdr := ⟨elfProgLoad, 0, 0, 1, 1⟩

theorem oneByteSegment_fits : oneByteSegment.Fits :=
  ⟨by decide, by decide, by decide, by decide, by decide⟩

end MicroKernel
