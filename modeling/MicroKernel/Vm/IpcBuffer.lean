import MicroKernel.Vm.LoadReturns

/-!
# The buffer for messages

The loader makes the page at the address `0x2000` the buffer for messages of the thread, and it does
so for every program, whatever the program has there.

* `segments`, `stackFrame` : the addresses of a program;
* `LayoutInv` : the invariant of a load that keeps to the user half;
* `loadSystem_buffer_iff` : the buffer is apart from the program exactly when no segment has an
  address in it.
-/

namespace MicroKernel

attribute [local irreducible] p2v v2p pteAddr

/-! ### The addresses of a program -/

/-- The addresses of the segments whose headers were read. -/
def segments (tr : List (System.Step Loader LoadEvent)) : Set ℕ :=
  {va | ∃ x ∈ tr, ∃ h : ProgHdr, x.ev = .header h ∧ h.type = elfProgLoad ∧
    ∃ i < h.memsz, va = add64 h.vaddr i}

/-- The addresses of the stack that was laid out. -/
def stackFrame (tr : List (System.Step Loader LoadEvent)) : Set ℕ :=
  {va | ∃ x ∈ tr, x.ev = .stack ∧ ∃ i < 32, va = add64 x.post.call.va i}

/-- The addresses that a call of `copy_uvm` is left with. -/
def CopyCall.left (c : CopyCall) : Set ℕ := {va | ∃ i < c.len, va = add64 c.va i}

section Addresses

variable {pml4 pluginElf va : ℕ} {l l' l₀ : Loader} {e : LoadEvent} {c : CopyCall}
  {tr tr' : List (System.Step Loader LoadEvent)}

theorem segments_mono (h : tr ⊆ tr') : segments tr ⊆ segments tr' := by
  rintro va ⟨x, hx, hrest⟩
  exact ⟨x, h hx, hrest⟩

theorem stackFrame_mono (h : tr ⊆ tr') : stackFrame tr ⊆ stackFrame tr' := by
  rintro va ⟨x, hx, hrest⟩
  exact ⟨x, h hx, hrest⟩

theorem CopyCall.left_next (hva : c.va < 2 ^ 64) : c.next.left ⊆ c.left := by
  rintro va ⟨i, hi, rfl⟩
  have hsize := size_eq hva
  have hround := pgrounddown_eq hva
  have hlen : i < c.len - c.size := hi
  refine ⟨c.size + i, by omega, ?_⟩
  show add64 (add64 (pgrounddown c.va) pgsize) i = add64 c.va (c.size + i)
  rw [hround]
  unfold add64 pgsize
  omega

theorem CopyCall.va_mem_left (hva : c.va < 2 ^ 64) (hlen : 0 < c.len) : c.va ∈ c.left :=
  ⟨0, hlen, (Nat.mod_eq_of_lt hva).symm⟩

theorem left_subset_step {x : System.Step Loader LoadEvent}
    (hstep : (loadSystem pml4 pluginElf).step x.pre x.ev x.post) (hva : x.pre.call.va < 2 ^ 64) :
    x.post.call.va < 2 ^ 64 ∧
      x.post.call.left ⊆ x.pre.call.left ∪ segments [x] ∪ stackFrame [x] := by
  obtain ⟨l, e, l'⟩ := x
  dsimp only at hstep hva ⊢
  cases e with
  | copy =>
    obtain ⟨-, vm, -, rfl⟩ := hstep
    exact ⟨add64_lt _ _, fun va h => Or.inl (Or.inl (CopyCall.left_next hva h))⟩
  | header progHdr =>
    have hhdr := LoaderInv.header_eq hstep
    obtain ⟨-, -, -, hstep⟩ := hstep
    split_ifs at hstep with htype
    · subst hstep
      exact ⟨hva, fun va h => Or.inl (Or.inl h)⟩
    · obtain ⟨r, vm, -, rfl⟩ := hstep
      refine ⟨?_, fun va h => Or.inl (Or.inr ?_)⟩
      · rw [hhdr]
        exact LoaderInv.vaddr_lt _ _
      · obtain ⟨i, hi, rfl⟩ := h
        exact ⟨_, List.mem_singleton_self _, progHdr, rfl, not_not.1 htype, i, hi, rfl⟩
  | stack =>
    obtain ⟨-, -, -, r, vm, -, rfl⟩ := hstep
    refine ⟨sub64_lt _ _, fun va h => Or.inr ?_⟩
    obtain ⟨i, hi, rfl⟩ := h
    exact ⟨_, List.mem_singleton_self _, rfl, i, hi, rfl⟩

/-- Every copy goes to an address of the program. -/
theorem copy_mem_run (hrun : (loadSystem pml4 pluginElf).Run l₀ tr l) (hlen : l₀.call.len = 0)
    (hva : l₀.call.va < 2 ^ 64) :
    l.call.va < 2 ^ 64 ∧ l.call.left ⊆ segments tr ∪ stackFrame tr ∧
      ∀ x ∈ tr, x.ev = .copy → x.pre.call.va ∈ segments tr ∪ stackFrame tr := by
  induction hrun with
  | nil =>
    refine ⟨hva, fun va h => ?_, fun x hx => absurd hx List.not_mem_nil⟩
    obtain ⟨i, hi, -⟩ := h
    exact absurd hi (hlen ▸ Nat.not_lt_zero i)
  | @snoc l₁ l₂ tr e hrun hstep ih =>
    obtain ⟨hva₁, hleft, hall⟩ := ih
    obtain ⟨hva₂, hsub⟩ := left_subset_step (x := ⟨l₁, e, l₂⟩) hstep hva₁
    have hold : segments tr ∪ stackFrame tr ⊆
        segments (tr ++ [⟨l₁, e, l₂⟩]) ∪ stackFrame (tr ++ [⟨l₁, e, l₂⟩]) :=
      Set.union_subset_union (segments_mono (List.subset_append_left _ _))
        (stackFrame_mono (List.subset_append_left _ _))
    refine ⟨hva₂, fun va h => ?_, fun x hx hcopy => ?_⟩
    · rcases hsub h with (hpre | hseg) | hstack
      · exact hold (hleft hpre)
      · exact Or.inl (segments_mono (List.subset_append_right _ _) hseg)
      · exact Or.inr (stackFrame_mono (List.subset_append_right _ _) hstack)
    · rcases List.mem_append.1 hx with hx | hx
      · exact hold (hall x hx hcopy)
      · obtain rfl := List.mem_singleton.1 hx
        dsimp only at hcopy
        subst hcopy
        exact hold (hleft (CopyCall.va_mem_left hva₁ hstep.1))

theorem allocUvm_result {oldSize newSize : ℕ} {r : ℤ} {s s' : VmState}
    (hcall : allocUvm pml4 oldSize newSize s = some (r, s')) :
    r = if newSize < oldSize then toInt32 (oldSize % 2 ^ 32) else toInt32 (newSize % 2 ^ 32) := by
  unfold allocUvm at hcall
  split_ifs at hcall ⊢ with hlt
  · exact (vm_pure_eq_some.1 hcall).1.symm
  · simp only [vm_bind_eq_some, vm_pure_eq_some] at hcall
    obtain ⟨mem, s₁, -, u, s₂, -, hr, -⟩ := hcall
    exact hr.symm

theorem dvd_ofInt_toInt32 {n : ℕ} (h : 4096 ∣ n) : 4096 ∣ ofInt (toInt32 (n % 2 ^ 32)) := by
  unfold ofInt toInt32
  split_ifs <;> omega

theorem stackFrame_offset (hrun : (loadSystem pml4 pluginElf).Run l₀ tr l)
    (h : va ∈ stackFrame tr) : 4064 ≤ va % 4096 := by
  obtain ⟨x, hx, hev, i, hi, rfl⟩ := h
  have hstep := hrun.step_of_mem x hx
  rw [hev] at hstep
  obtain ⟨-, -, -, r, vm, hcall, hpost⟩ := hstep
  have hr : 4096 ∣ ofInt r := by
    rw [allocUvm_result hcall]
    have hold : 4096 ∣ pgroundup x.pre.size := dvd_pgroundup _
    split_ifs
    · exact dvd_ofInt_toInt32 hold
    · refine dvd_ofInt_toInt32 ?_
      unfold add64 pgsize
      omega
  have hlt := ofInt_lt r
  rw [hpost]
  show 4064 ≤ add64 (sub64 (ofInt r) 32) i % 4096
  unfold add64 sub64
  omega

end Addresses

/-! ### A load in the user half -/

section Layout

variable {U : Set ℕ} {kind₀ kind : Kinds} {s₀ s vm : VmState} {P pluginElf va : ℕ} {l l' : Loader}
  {c : CopyCall} {r : ℤ}

/-- In the user half, a copy goes to a page of the process or to the first page of memory. -/
theorem Loading.sparesTables_copy (h : Loading U kind₀ s₀ P kind s) (h₀ : VmInv U kind₀ s₀)
    (hva : c.va < 2 ^ 64) (huser : pml4x c.va ≠ 511) : SparesTables s (c.target s.ram P) := by
  by_cases hmap : translate true s.ram P c.va = none
  · have hzero : walkedPage s.ram P c.va = 0 := by
      by_contra hne
      exact h.translate_of_walkedPage h₀ huser hne hmap
    refine sparesTables_of_lt h.inv.blocks fun a ha => ?_
    have hpage := (CopyCall.target_subset hva s.ram P ha).2
    rwa [hzero, Nat.zero_add] at hpage
  · exact sparesTables_of_own h.inv.blocks (h.copy_mapped h₀ hva hmap).2

/-- The invariant of a load that keeps to the user half. -/
structure LayoutInv (U : Set ℕ) (kind₀ : Kinds) (s₀ : VmState) (P : ℕ) (l : Loader) : Prop where
  /-- The page tables are what they should be. -/
  inv : LoaderInv U kind₀ s₀ P l
  /-- Before the stack, the addresses up to `size` are mapped. -/
  reached : l.stacked = false → Reached l.vm.ram P l.size
  /-- With the stack, the page of the buffer is mapped. -/
  buffer : l.stacked = true → translate true l.vm.ram P 0x2000 ≠ none

namespace LayoutInv

theorem mono (h : LayoutInv U kind₀ s₀ P l) (hinv : LoaderInv U kind₀ s₀ P l')
    (hsize : l'.size = l.size) (hstacked : l'.stacked = l.stacked)
    (hkeep : ∀ va, translate true l.vm.ram P va ≠ none → translate true l'.vm.ram P va ≠ none) :
    LayoutInv U kind₀ s₀ P l' := by
  refine ⟨hinv, fun hs => ?_, fun hs => ?_⟩
  · rw [hstacked] at hs
    rw [hsize]
    exact (h.reached hs).mono hkeep
  · rw [hstacked] at hs
    exact hkeep _ (h.buffer hs)

theorem copy (h : LayoutInv U kind₀ s₀ P l) (h₀ : VmInv U kind₀ s₀)
    (hstep : (loadSystem (p2v P) pluginElf).step l .copy l') (huser : pml4x l.call.va ≠ 511) :
    LayoutInv U kind₀ s₀ P l' := by
  obtain ⟨kind, hload⟩ := h.inv.loading
  have hspare := hload.sparesTables_copy h₀ h.inv.va_lt huser
  have hinv := h.inv.copy hstep hspare
  obtain ⟨hlen, vm, hcall, rfl⟩ := hstep
  obtain ⟨-, -, rfl⟩ := (CopyCall.copyPage_eq_some hload.inv hload.top h.inv.va_lt hlen).1 hcall
  obtain ⟨-, hkeep⟩ := hload.store (f := l.call.buf.bytes l.vm.ram) hspare
  exact h.mono hinv rfl rfl fun va => ne_none_of_imp (hkeep va true)

/-- The stack is laid out above the page of the buffer, or this page was mapped before. -/
theorem stack (h : LayoutInv U kind₀ s₀ P l)
    (hstep : (loadSystem (p2v P) pluginElf).step l .stack l') : LayoutInv U kind₀ s₀ P l' := by
  have hinv := h.inv.step hstep LoadEvent.noConfusion
  obtain ⟨kind, hload⟩ := h.inv.loading
  obtain ⟨-, -, hstacked, r, vm, hcall, rfl⟩ := hstep
  have hround : pgroundup l.size < 2 ^ 64 := Nat.and_lt_two_pow _ (by decide)
  have hreached := (h.reached hstacked).round
  obtain ⟨-, hmapped⟩ := hreached.grow hload hround (add64_lt _ _) hcall
  refine ⟨hinv, fun hs => Bool.noConfusion hs, fun _ => ?_⟩
  rcases hreached with hall | ⟨hlow, hlt, -⟩
  · obtain ⟨kind', -, hgrows, -⟩ := hload.grow hround (add64_lt _ _) hcall
    exact ne_none_of_imp (fun a ha => hgrows.translate hload.inv hload.top ha)
      (hall 0x2000 (by decide))
  · have hpages : 2 * pgsize = 8192 := rfl
    rw [add64_of_lt (by omega)] at hmapped
    exact hmapped 0x2000 (by omega) (by decide)

theorem header (h : LayoutInv U kind₀ s₀ P l) {progHdr : ProgHdr}
    (hstep : (loadSystem (p2v P) pluginElf).step l (.header progHdr) l') :
    LayoutInv U kind₀ s₀ P l' := by
  have hinv := h.inv.step hstep LoadEvent.noConfusion
  obtain ⟨kind, hload⟩ := h.inv.loading
  obtain ⟨-, -, -, hstep⟩ := hstep
  split_ifs at hstep with htype
  · subst hstep
    exact h.mono hinv rfl rfl fun _ hva => hva
  · obtain ⟨r, vm, hcall, rfl⟩ := hstep
    refine ⟨hinv, fun hs => ?_, fun hs => ?_⟩
    · exact ((h.reached hs).grow hload h.inv.size_lt (add64_lt _ _) hcall).1
    · obtain ⟨kind', -, hgrows, -⟩ := hload.grow h.inv.size_lt (add64_lt _ _) hcall
      exact ne_none_of_imp (fun a ha => hgrows.translate hload.inv hload.top ha) (h.buffer hs)

theorem step (h : LayoutInv U kind₀ s₀ P l) (h₀ : VmInv U kind₀ s₀) {e : LoadEvent}
    (hstep : (loadSystem (p2v P) pluginElf).step l e l')
    (huser : e = .copy → pml4x l.call.va ≠ 511) : LayoutInv U kind₀ s₀ P l' := by
  cases e with
  | copy => exact h.copy h₀ hstep (huser rfl)
  | stack => exact h.stack hstep
  | header progHdr => exact h.header hstep

end LayoutInv

theorem Loading.pageWalkForOthers_returns (h : Loading U kind₀ s₀ P kind s) :
    ∃ page s', pageWalkForOthers (p2v P) 0x2000 false s = some (page, s') := by
  have heq := pageWalk_eq h.inv h.top (show 0x2000 < 2 ^ 64 by decide)
  have hround : pgrounddown 0x2000 = 0x2000 := pgrounddown_eq (by decide)
  rw [hround] at heq
  exact ⟨_, _, heq⟩

theorem LayoutInv.buffer_eq (h : LayoutInv U kind₀ s₀ P l) (hstacked : l.stacked = true)
    {page : ℕ} (hwalk : pageWalkForOthers (p2v P) 0x2000 false l.vm = some (page, vm)) :
    page < 2 ^ 64 ∧ ∀ j < 4096, translate true l.vm.ram P (0x2000 + j) = some (page + j) := by
  obtain ⟨kind, hload⟩ := h.inv.loading
  have heq := pageWalk_eq hload.inv hload.top (show 0x2000 < 2 ^ 64 by decide)
  have hround : pgrounddown 0x2000 = 0x2000 := pgrounddown_eq (by decide)
  rw [hround] at heq
  obtain ⟨rfl, -⟩ := Prod.mk.inj (Option.some.inj (heq.symm.trans hwalk))
  obtain ⟨a, ha⟩ := Option.ne_none_iff_exists'.1 (h.buffer hstacked)
  have hpage := walkedPage_of_translate (translate_false_of_translate ha)
  rw [hpage] at ha
  exact ⟨walkedPage_lt _ _ _, fun j hj => translate_add ha (by omega)⟩

/-- A load of a program in the user half. -/
theorem LayoutInv.run {s₁ : VmState} {elf : ElfHdr} {tr : List (System.Step Loader LoadEvent)}
    (h₀ : VmInv U kind₀ s₀) (hload : Loading U kind₀ s₀ P kind s₁)
    (hrun : (loadSystem (p2v P) pluginElf).Run (.start s₁ elf) tr l)
    (huser : ∀ va ∈ segments tr ∪ stackFrame tr, pml4x va ≠ 511) : LayoutInv U kind₀ s₀ P l := by
  obtain ⟨-, -, hcopies⟩ := copy_mem_run hrun rfl (show 0 < 2 ^ 64 by decide)
  have hstart : LayoutInv U kind₀ s₀ P (.start s₁ elf) :=
    ⟨hload.loaderInv_start elf, fun _ => hload.reached, fun hs => Bool.noConfusion hs⟩
  exact (hrun.invariant (I := LayoutInv U kind₀ s₀ P)
    (C := fun x => x.ev = .copy → pml4x x.pre.call.va ≠ 511) hstart
    (fun _ hstep hC h => h.step h₀ hstep hC) fun x hx hcopy => huser _ (hcopies x hx hcopy)).1

end Layout

/-! ### Programs with one segment -/

section OneSegment

variable {h : ProgHdr} {l₀ l₁ l₂ l₃ l₄ : Loader} {va : ℕ}

theorem mem_segments_four : va ∈ segments [⟨l₀, .header h, l₁⟩, ⟨l₁, .copy, l₂⟩, ⟨l₂, .stack, l₃⟩,
    ⟨l₃, .copy, l₄⟩] ↔ h.type = elfProgLoad ∧ ∃ i < h.memsz, va = add64 h.vaddr i := by
  constructor
  · rintro ⟨x, hx, g, hev, htype, hva⟩
    simp only [List.mem_cons, List.not_mem_nil, or_false] at hx
    rcases hx with rfl | rfl | rfl | rfl
    · obtain rfl := LoadEvent.header.inj hev
      exact ⟨htype, hva⟩
    all_goals cases hev
  · rintro ⟨htype, hva⟩
    exact ⟨_, List.mem_cons_self, h, rfl, htype, hva⟩

theorem mem_stackFrame_four : va ∈ stackFrame [⟨l₀, .header h, l₁⟩, ⟨l₁, .copy, l₂⟩,
    ⟨l₂, .stack, l₃⟩, ⟨l₃, .copy, l₄⟩] → ∃ i < 32, va = add64 l₃.call.va i := by
  rintro ⟨x, hx, hev, hva⟩
  simp only [List.mem_cons, List.not_mem_nil, or_false] at hx
  rcases hx with rfl | rfl | rfl | rfl
  · cases hev
  · cases hev
  · exact hva
  · cases hev

theorem user_four (l₀ l₁ l₂ l₄ : Loader) (hseg : h.vaddr + h.memsz ≤ 2 ^ 39)
    (hstack : l₃.call.va + 32 ≤ 2 ^ 39) :
    ∀ va ∈ segments [⟨l₀, .header h, l₁⟩, ⟨l₁, .copy, l₂⟩, ⟨l₂, .stack, l₃⟩, ⟨l₃, .copy, l₄⟩] ∪
      stackFrame [⟨l₀, .header h, l₁⟩, ⟨l₁, .copy, l₂⟩, ⟨l₂, .stack, l₃⟩, ⟨l₃, .copy, l₄⟩],
        pml4x va ≠ 511 := by
  have hlow : ∀ va < 2 ^ 39, pml4x va ≠ 511 := by
    intro va hva
    rw [pml4x_eq]
    omega
  rintro va (hmem | hmem)
  · obtain ⟨-, i, hi, rfl⟩ := mem_segments_four.1 hmem
    rw [add64_of_lt (by omega)]
    exact hlow _ (by omega)
  · obtain ⟨i, hi, rfl⟩ := mem_stackFrame_four hmem
    rw [add64_of_lt (by omega)]
    exact hlow _ (by omega)

end OneSegment

/-! ### The buffer -/

/-- `sizeof(OsIPCBuffer)`. -/
def ipcBufferSize : ℕ := 1024

/-- The buffer for messages of a loaded thread is apart from the segments and the stack of its
program exactly when no segment has an address in it; the tables ignore the upper 16 bits of an
address. -/
theorem loadSystem_buffer_iff {map : List E820Entry} {m : Memblock} {ram : Ram} {s : UserSpaces}
    {tr₀ : List (System.Step UserSpaces VmCall)} {pml4 pluginElf buffer : ℕ} {elf : ElfHdr}
    {s₁ s' : VmState} {l : Loader} {tr : List (System.Step Loader LoadEvent)}
    (hmap : ∀ x ∈ usableEntries map, x.addr + x.len < 2 ^ 64 - 1) (hinit : memblockInit map = .ok m)
    (hboot : vmSystem.Run (.boot m ram) tr₀ s) (hkern : s.vm.kernPml4 ≠ 0)
    (hsetup : setupUserMemoryPages s.vm = some (pml4, s₁))
    (hrun : (loadSystem pml4 pluginElf).Run (.start s₁ elf) tr l) (hstacked : l.stacked = true)
    (hwalk : pageWalkForOthers pml4 0x2000 false l.vm = some (buffer, s'))
    (huser : ∀ va ∈ segments tr ∪ stackFrame tr, pml4x va ≠ 511) :
    (∀ va ∈ segments tr ∪ stackFrame tr, ∀ a, translate true l.vm.ram (v2p pml4) va = some a →
      a ∉ Set.Ico (v2p (p2v buffer)) (v2p (p2v buffer) + ipcBufferSize)) ↔
        ∀ va ∈ segments tr, va % 2 ^ 48 ∉ Set.Ico 0x2000 (0x2000 + ipcBufferSize) := by
  obtain ⟨kind₀, kind, P, rfl, hP, h₀, hload, -⟩ := exists_loading hmap hinit hboot hkern hsetup
  have hinv := LayoutInv.run h₀ hload hrun huser
  obtain ⟨hlt, hbuffer⟩ := hinv.buffer_eq hstacked hwalk
  obtain ⟨kind', hload'⟩ := hinv.inv.loading
  rw [hP, AllocInv.v2p_p2v hlt]
  constructor
  · rintro hall va hva ⟨h₁, h₂⟩
    obtain ⟨j, hj⟩ := Nat.exists_eq_add_of_le h₁
    have hjlt : j < 1024 := by
      rw [hj] at h₂
      exact Nat.lt_of_add_lt_add_left h₂
    have hmap := hbuffer j (by omega)
    rw [← hj, translate_mod] at hmap
    exact hall va (Or.inl hva) _ hmap ⟨Nat.le_add_right _ _, Nat.add_lt_add_left hjlt _⟩
  · rintro hall va hva a ha ⟨h₁, h₂⟩
    obtain ⟨j, rfl⟩ := Nat.exists_eq_add_of_le h₁
    have hjlt : j < 1024 := Nat.lt_of_add_lt_add_left h₂
    have hsame := hload'.inv.translate_inj hload'.top ha (hbuffer j (by omega))
    rcases hva with hseg | hstack
    · refine hall va hseg ?_
      rw [hsame]
      unfold ipcBufferSize
      exact ⟨by omega, by omega⟩
    · -- the stack is at the end of a page, the buffer at the beginning
      have hoffset := stackFrame_offset hrun hstack
      omega

/-- A segment of one byte, in the page before the one of the buffer. -/
def lowSegment : ProgHdr := ⟨elfProgLoad, 0, 0x1000, 1, 1⟩

theorem lowSegment_fits : lowSegment.Fits := ⟨by decide, by decide, by decide, by decide, by decide⟩

/-- The buffer of a program with this segment. -/
theorem loadSystem_buffer_iff_lowSegment : ∃ s P s₁ tr l buffer s',
    Prepared (oneHeaderFile lowSegment) s P s₁ ∧
    (loadSystem (p2v P) (p2v pluginBuf)).Run (.start s₁ (elfHdrAt s.vm.ram pluginBuf)) tr l ∧
      l.left = 0 ∧ l.call.len = 0 ∧
      pageWalkForOthers (p2v P) 0x2000 false l.vm = some (buffer, s') ∧
      ((∀ va ∈ segments tr ∪ stackFrame tr, ∀ a, translate true l.vm.ram (v2p (p2v P)) va = some a →
        a ∉ Set.Ico (v2p (p2v buffer)) (v2p (p2v buffer) + ipcBufferSize)) ↔
          ∀ va ∈ segments tr, va % 2 ^ 48 ∉ Set.Ico 0x2000 (0x2000 + ipcBufferSize)) := by
  obtain ⟨s, P, s₁, hp⟩ := exists_prepared (oneHeaderFile lowSegment)
  have halloc₁ : memblockAllocBase (bootTables [⟨0x6E8000, 0x118000⟩] 0x118000) 1 pgsize
      memblockAllocAccessible = .ok (bootTables [⟨0x6E7000, 1⟩, ⟨0x6E8000, 0x118000⟩] 0x118001,
        0x6E7000) := by decide +kernel
  have halloc₂ : memblockAllocBase (bootTables [⟨0x6E7000, 1⟩, ⟨0x6E8000, 0x118000⟩] 0x118001) 8192
      pgsize memblockAllocAccessible = .ok (bootTables [⟨0x6E5000, 0x2001⟩, ⟨0x6E8000, 0x118000⟩]
        0x11A001, 0x6E5000) := by decide +kernel
  obtain ⟨l₁, l₂, l₃, l₄, hrun, hva, hleft, hlen, hstacked⟩ :=
    hp.run_stack lowSegment_fits rfl (by decide) (by decide) (by decide) (by decide) (by decide)
      halloc₁ (by decide) halloc₂ (by decide)
  have hround : pgroundup (lowSegment.vaddr + lowSegment.memsz) = 0x2000 := pgroundup_eq (by decide)
  have huser := user_four (.start s₁ (elfHdrAt s.vm.ram pluginBuf)) l₁ l₂ l₄
    (show lowSegment.vaddr + lowSegment.memsz ≤ 2 ^ 39 by decide)
    (show l₃.call.va + 32 ≤ 2 ^ 39 by rw [hva, hround]; decide)
  obtain ⟨kind₀, kind, h₀, hload, -⟩ := hp.loading
  obtain ⟨kind', hload'⟩ := (LayoutInv.run h₀ hload hrun huser).inv.loading
  obtain ⟨buffer, s', hwalk⟩ := hload'.pageWalkForOthers_returns
  obtain ⟨tr₀, hboot⟩ := hp.boot
  exact ⟨s, P, s₁, _, l₄, buffer, s', hp, hrun, hleft, hlen, hwalk,
    loadSystem_buffer_iff bootMap_lt memblockInit_bootMap hboot hp.kern hp.setup hrun hstacked hwalk
      huser⟩

/-- A segment of one byte, where the buffer is. -/
def bufferSegment : ProgHdr := ⟨elfProgLoad, 0, 0x2000, 1, 1⟩

theorem bufferSegment_fits : bufferSegment.Fits :=
  ⟨by decide, by decide, by decide, by decide, by decide⟩

/-- The byte of this program is the first one of the buffer. -/
theorem not_loadSystem_buffer : ∃ s P s₁ tr l buffer s',
    Prepared (oneHeaderFile bufferSegment) s P s₁ ∧
    (loadSystem (p2v P) (p2v pluginBuf)).Run (.start s₁ (elfHdrAt s.vm.ram pluginBuf)) tr l ∧
      l.left = 0 ∧ l.call.len = 0 ∧ l.stacked = true ∧
      pageWalkForOthers (p2v P) 0x2000 false l.vm = some (buffer, s') ∧
      (∀ va ∈ segments tr ∪ stackFrame tr, pml4x va ≠ 511) ∧
      ¬∀ va ∈ segments tr ∪ stackFrame tr, ∀ a, translate true l.vm.ram (v2p (p2v P)) va = some a →
        a ∉ Set.Ico (v2p (p2v buffer)) (v2p (p2v buffer) + ipcBufferSize) := by
  obtain ⟨s, P, s₁, hp⟩ := exists_prepared (oneHeaderFile bufferSegment)
  have halloc₁ : memblockAllocBase (bootTables [⟨0x6E8000, 0x118000⟩] 0x118000) 0x1001 pgsize
      memblockAllocAccessible = .ok (bootTables [⟨0x6E6000, 0x1001⟩, ⟨0x6E8000, 0x118000⟩] 0x119001,
        0x6E6000) := by decide +kernel
  have halloc₂ : memblockAllocBase (bootTables [⟨0x6E6000, 0x1001⟩, ⟨0x6E8000, 0x118000⟩] 0x119001)
      8192 pgsize memblockAllocAccessible = .ok (bootTables [⟨0x6E4000, 0x3001⟩,
        ⟨0x6E8000, 0x118000⟩] 0x11B001, 0x6E4000) := by decide +kernel
  obtain ⟨l₁, l₂, l₃, l₄, hrun, hva, hleft, hlen, hstacked⟩ :=
    hp.run_stack bufferSegment_fits rfl (by decide) (by decide) (by decide) (by decide) (by decide)
      halloc₁ (by decide) halloc₂ (by decide)
  have hround : pgroundup (bufferSegment.vaddr + bufferSegment.memsz) = 0x3000 :=
    pgroundup_eq (by decide)
  have huser := user_four (.start s₁ (elfHdrAt s.vm.ram pluginBuf)) l₁ l₂ l₄
    (show bufferSegment.vaddr + bufferSegment.memsz ≤ 2 ^ 39 by decide)
    (show l₃.call.va + 32 ≤ 2 ^ 39 by rw [hva, hround]; decide)
  obtain ⟨kind₀, kind, h₀, hload, -⟩ := hp.loading
  have hinv := LayoutInv.run h₀ hload hrun huser
  obtain ⟨kind', hload'⟩ := hinv.inv.loading
  obtain ⟨buffer, s', hwalk⟩ := hload'.pageWalkForOthers_returns
  refine ⟨s, P, s₁, _, l₄, buffer, s', hp, hrun, hleft, hlen, hstacked, hwalk, huser,
    fun hall => ?_⟩
  obtain ⟨hlt, hbuffer⟩ := hinv.buffer_eq hstacked hwalk
  rw [hp.home, AllocInv.v2p_p2v hlt] at hall
  have hone : 0 < bufferSegment.memsz := by decide
  exact hall _ (Or.inl (mem_segments_four.2 ⟨rfl, 0, hone, rfl⟩)) _ (hbuffer 0 (by decide))
    ⟨le_rfl, Nat.lt_add_of_pos_right (by decide)⟩

end MicroKernel
