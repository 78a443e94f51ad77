import MicroKernel.Vm.Loading

/-!
# The steps of a load

* `CopyCall.copyPage_eq_some` : what a `memmove` of `copy_uvm` does;
* `LoaderInv` : the invariant of the steps, kept by every copy that spares the page tables;
* `Reached` : the addresses up to the variable `size` are mapped.
-/

namespace MicroKernel

open Extent

attribute [local irreducible] p2v v2p pteAddr

/-! ### Copies -/

section Copies

variable {U : Set ℕ} {kind : Kinds} {s s' : VmState} {P va n : ℕ} {o : Option ℕ}
  {c : CopyCall} {u : Unit}

/-- The kernel reaches the bytes. -/
def Source.Readable (n : ℕ) : Source → Prop
  | .memory buf => KernelRange buf n
  | .array _ => True

theorem Source.move_eq_some {src : Source} {dst : ℕ} : src.move dst n s = some (u, s') ↔
    KernelRange dst n ∧ src.Readable n ∧
      s' = { s with ram := s.ram.writeBytes (v2p dst) n (src.bytes s.ram) } := by
  cases src with
  | memory buf =>
    simp only [Source.move, Source.Readable, memmove_eq_some, eq_comm]
    rfl
  | array f =>
    unfold Source.move Source.Readable
    dsimp only
    split_ifs with hrange
    · simp [hrange, eq_comm, Source.bytes]
    · simp [hrange]

namespace CopyCall

/-- Where the bytes go. -/
def dst (c : CopyCall) (ram : Ram) (P : ℕ) : ℕ := walkedPage ram P c.va + c.va % 4096

/-- The addresses that are written. -/
def target (c : CopyCall) (ram : Ram) (P : ℕ) : Set ℕ :=
  Set.Ico (c.dst ram P) (c.dst ram P + c.size)

theorem size_eq (hva : c.va < 2 ^ 64) : c.size = min (4096 - c.va % 4096) c.len := by
  unfold size pgsize
  rw [pgrounddown_eq hva]
  have := Nat.div_add_mod c.va 4096
  have hoff : c.va - c.va / 4096 * 4096 = c.va % 4096 := by omega
  rw [hoff]

theorem size_pos (hva : c.va < 2 ^ 64) (hlen : 0 < c.len) : 0 < c.size := by
  rw [size_eq hva]
  omega

theorem target_subset (hva : c.va < 2 ^ 64) (ram : Ram) (P : ℕ) :
    c.target ram P ⊆ Set.Ico (walkedPage ram P c.va) (walkedPage ram P c.va + pgsize) := by
  rintro a ⟨h₁, h₂⟩
  unfold dst at h₁ h₂
  rw [size_eq hva] at h₂
  unfold pgsize
  constructor
  · omega
  · omega

/-- The physical addresses that the `memmove` of an iteration writes. -/
def written (c : CopyCall) (pml4 : ℕ) (s : VmState) : Set ℕ :=
  {a | ∃ pg s', pageWalk pml4 (pgrounddown c.va) false s = some (pg, s') ∧
    a ∈ Set.Ico (v2p (add64 (p2v pg) (c.va - pgrounddown c.va)))
      (v2p (add64 (p2v pg) (c.va - pgrounddown c.va)) + c.size)}

theorem dst_lt (c : CopyCall) (ram : Ram) (P : ℕ) : c.dst ram P < 2 ^ 64 := by
  have hpage := walkedPage_lt ram P c.va
  obtain ⟨k, hk⟩ := walkedPage_dvd ram P c.va
  unfold dst
  unfold pgsize at hk
  omega

theorem sub_pgrounddown (hva : c.va < 2 ^ 64) : c.va - pgrounddown c.va = c.va % 4096 := by
  rw [pgrounddown_eq hva]
  omega

/-- What is written, where the kernel reaches the tables. -/
theorem written_eq_of_low (hva : c.va < 2 ^ 64)
    (h : ∀ b, OnPath s.ram P (pgrounddown c.va) b → b + pgsize ≤ 2 ^ 31) :
    c.written (p2v P) s = c.target s.ram P := by
  have haddr : v2p (add64 (p2v (walkedPage s.ram P c.va)) (c.va - pgrounddown c.va)) =
      c.dst s.ram P := by
    rw [sub_pgrounddown hva, add64_p2v]
    exact AllocInv.v2p_p2v (c.dst_lt s.ram P)
  ext a
  constructor
  · rintro ⟨pg, s', hwalk, ha⟩
    rw [pageWalk_pgrounddown hva h] at hwalk
    obtain ⟨rfl, -⟩ := Prod.mk.inj (Option.some.inj hwalk)
    rwa [haddr] at ha
  · intro ha
    refine ⟨_, _, pageWalk_pgrounddown hva h, ?_⟩
    rwa [haddr]

theorem written_eq (h : VmInv U kind s) (hP : kind P = some ⟨o, 3⟩) (hva : c.va < 2 ^ 64) :
    c.written (p2v P) s = c.target s.ram P :=
  written_eq_of_low hva fun _ hb => h.onPath_low hP hb

/-- An iteration of `copy_uvm` that returns, where the kernel reaches the tables. -/
theorem copyPage_eq_some_of_low (hva : c.va < 2 ^ 64) (hlen : 0 < c.len)
    (h : ∀ b, OnPath s.ram P (pgrounddown c.va) b → b + pgsize ≤ 2 ^ 31) :
    c.copyPage (p2v P) s = some (u, s') ↔
      c.dst s.ram P + c.size ≤ 2 ^ 31 ∧ c.buf.Readable c.size ∧
        s' = { s with ram := s.ram.writeBytes (c.dst s.ram P) c.size (c.buf.bytes s.ram) } := by
  unfold copyPage
  rw [vm_bind_of_eq (pageWalk_pgrounddown hva h), sub_pgrounddown hva, add64_p2v,
    Source.move_eq_some]
  change KernelRange (p2v (c.dst s.ram P)) c.size ∧ _ ↔ _
  rw [kernelRange_p2v (c.dst_lt s.ram P) (size_pos hva hlen)]
  have hback : v2p (p2v (walkedPage s.ram P c.va + c.va % 4096)) = c.dst s.ram P :=
    AllocInv.v2p_p2v (c.dst_lt s.ram P)
  rw [hback]

/-- An iteration of `copy_uvm` that returns. -/
theorem copyPage_eq_some (h : VmInv U kind s) (hP : kind P = some ⟨o, 3⟩) (hva : c.va < 2 ^ 64)
    (hlen : 0 < c.len) : c.copyPage (p2v P) s = some (u, s') ↔
      c.dst s.ram P + c.size ≤ 2 ^ 31 ∧ c.buf.Readable c.size ∧
        s' = { s with ram := s.ram.writeBytes (c.dst s.ram P) c.size (c.buf.bytes s.ram) } :=
  copyPage_eq_some_of_low hva hlen fun _ hb => h.onPath_low hP hb

end CopyCall

end Copies

/-! ### Headers -/

section Headers

variable {ram ram' : Ram} {buf a : ℕ}

theorem progHdrAt_congr (h : ∀ b ∈ Set.Ico a (a + sizeofProgHdr), ram b = ram' b) :
    progHdrAt ram a = progHdrAt ram' a := by
  have hfield : ∀ off n, off + n ≤ sizeofProgHdr →
      ram.readLe (a + off) n = ram'.readLe (a + off) n :=
    fun off n hn => Ram.readLe_congr n fun b hb => h b ⟨by have := hb.1; omega, by
      have := hb.2
      omega⟩
  unfold progHdrAt
  rw [hfield 8 8 (by decide), hfield 16 8 (by decide), hfield 32 8 (by decide),
    hfield 40 8 (by decide)]
  have htype : ram.readLe a 4 = ram'.readLe a 4 := hfield 0 4 (by decide)
  rw [htype]

theorem ofInt_natCast {n : ℕ} (hn : n < 2 ^ 64) : ofInt n = n := by
  unfold ofInt
  omega

theorem off_eq {elf : ElfHdr} (h : elf.phoff < 2 ^ 31) : elf.off = (elf.phoff : ℤ) := by
  unfold ElfHdr.off toInt32
  rw [Nat.mod_eq_of_lt (by omega), if_pos h]

theorem nextOff_eq {n : ℕ} (h : n + sizeofProgHdr < 2 ^ 31) :
    nextOff n = (n + sizeofProgHdr : ℕ) := by
  unfold nextOff toInt32
  rw [ofInt_natCast (by omega), add64_of_lt (by omega), Nat.mod_eq_of_lt (by omega), if_pos h]

theorem hdrAddr_eq {n : ℕ} (hn : n < 2 ^ 63) :
    hdrAddr (p2v buf) n = p2v (buf + n / 4 * 4) := by
  have hdiv : 4 * (n : ℤ).tdiv 4 = (n / 4 * 4 : ℕ) := by
    rw [Int.tdiv_eq_ediv_of_nonneg (Int.natCast_nonneg n)]
    omega
  unfold hdrAddr
  rw [hdiv, ofInt_natCast (by omega), add64_p2v]

end Headers

/-! ### The invariant -/

theorem ofInt_lt (r : ℤ) : ofInt r < 2 ^ 64 := by
  unfold ofInt
  omega

theorem ofInt_toInt32 {n : ℕ} (hn : n < 2 ^ 31) : ofInt (toInt32 (n % 2 ^ 32)) = n := by
  unfold ofInt toInt32
  rw [Nat.mod_eq_of_lt (by omega), if_pos hn]
  omega

/-- A load to the process `P`, which began in the state `s₀`. -/
structure LoaderInv (U : Set ℕ) (kind₀ : Kinds) (s₀ : VmState) (P : ℕ) (l : Loader) : Prop where
  /-- The memory. -/
  loading : ∃ kind, Loading U kind₀ s₀ P kind l.vm
  /-- A `u64`. -/
  size_lt : l.size < 2 ^ 64
  /-- A `u64`. -/
  va_lt : l.call.va < 2 ^ 64

namespace LoaderInv

variable {U : Set ℕ} {kind₀ : Kinds} {s₀ : VmState} {P pluginElf : ℕ} {l l' : Loader}

theorem header_eq {progHdr : ProgHdr} {pml4 : ℕ}
    (hstep : (loadSystem pml4 pluginElf).step l (.header progHdr) l') :
    progHdr = progHdrAt l.vm.ram (v2p (hdrAddr pluginElf l.off)) :=
  (readProgHdr_eq_some.1 hstep.2.2.1).2.1.symm

theorem vaddr_lt (ram : Ram) (a : ℕ) : (progHdrAt ram a).vaddr < 2 ^ 64 := ram.readLe_lt 8 _

theorem copy (h : LoaderInv U kind₀ s₀ P l) (hstep : (loadSystem (p2v P) pluginElf).step l .copy l')
    (hspare : SparesTables l.vm (l.call.target l.vm.ram P)) : LoaderInv U kind₀ s₀ P l' := by
  obtain ⟨hlen, vm, hcopy, rfl⟩ := hstep
  obtain ⟨kind, hload⟩ := h.loading
  obtain ⟨-, -, rfl⟩ := (CopyCall.copyPage_eq_some hload.inv hload.top h.va_lt hlen).1 hcopy
  exact ⟨⟨kind, (hload.store hspare).1⟩, h.size_lt, add64_lt _ _⟩

/-- Every step keeps the invariant, if the copies spare the page tables. -/
theorem step {e : LoadEvent} (h : LoaderInv U kind₀ s₀ P l)
    (hstep : (loadSystem (p2v P) pluginElf).step l e l')
    (hspare : e = .copy → SparesTables l.vm (l.call.target l.vm.ram P)) :
    LoaderInv U kind₀ s₀ P l' := by
  obtain ⟨kind, hload⟩ := h.loading
  cases e with
  | copy => exact h.copy hstep (hspare rfl)
  | header progHdr =>
    have hhdr := header_eq hstep
    obtain ⟨-, -, -, hstep⟩ := hstep
    split_ifs at hstep with htype
    · subst hstep
      exact ⟨⟨kind, hload⟩, h.size_lt, h.va_lt⟩
    · obtain ⟨r, vm, hcall, rfl⟩ := hstep
      obtain ⟨kind', hload', -⟩ := hload.grow h.size_lt (add64_lt _ _) hcall
      exact ⟨⟨kind', hload'⟩, ofInt_lt r, hhdr ▸ vaddr_lt _ _⟩
  | stack =>
    obtain ⟨-, -, -, r, vm, hcall, rfl⟩ := hstep
    have hround : pgroundup l.size < 2 ^ 64 := Nat.and_lt_two_pow _ (by decide)
    obtain ⟨kind', hload', -⟩ := hload.grow hround (add64_lt _ _) hcall
    exact ⟨⟨kind', hload'⟩, ofInt_lt r, sub64_lt _ _⟩

end LoaderInv

/-! ### Where a copy goes -/

section Frames

variable {U : Set ℕ} {kind₀ kind : Kinds} {s₀ s : VmState} {log : List Owned} {P page a : ℕ}
  {c : CopyCall}

theorem ownFrame_page (hpage : pgsize ∣ page) (ha : a ∈ Set.Ico page (page + pgsize)) :
    OwnFrame log s P a ↔ OwnFrame log s P page := by
  unfold pgsize at hpage ha
  have hstart : ∀ {b p}, pgsize ∣ p → b ∈ Set.Ico page (page + pgsize) →
      b ∈ Set.Ico p (p + pgsize) → p = page := by
    intro b p hp hb hbp
    have h₁ := hb.1
    have h₂ := hb.2
    have h₃ := hbp.1
    have h₄ := hbp.2
    unfold pgsize at hp h₂ h₄
    omega
  have hself : page ∈ Set.Ico page (page + pgsize) := ⟨le_rfl, by unfold pgsize; omega⟩
  constructor
  · rintro ⟨p, x, hp, hin, hrest⟩
    obtain rfl := hstart hp ha hin
    exact ⟨p, x, hp, hself, hrest⟩
  · rintro ⟨p, x, hp, hin, hrest⟩
    obtain rfl := hstart hp hself hin
    exact ⟨p, x, hp, ha, hrest⟩

/-- A copy goes to one page. -/
theorem own_target_iff (hva : c.va < 2 ^ 64) (hlen : 0 < c.len) (ram : Ram) :
    (∀ a ∈ c.target ram P, OwnFrame log s P a) ↔ OwnFrame log s P (walkedPage ram P c.va) := by
  have hpage := CopyCall.target_subset hva ram P
  constructor
  · intro hall
    have hfirst : c.dst ram P ∈ c.target ram P :=
      ⟨le_rfl, Nat.lt_add_of_pos_right (CopyCall.size_pos hva hlen)⟩
    exact (ownFrame_page (walkedPage_dvd ram P c.va) (hpage hfirst)).1 (hall _ hfirst)
  · intro hown a ha
    exact (ownFrame_page (walkedPage_dvd ram P c.va) (hpage ha)).2 hown

theorem OwnFrame.ne_zero (h : OwnFrame log s P page) (hinv : AllocInv U s.blocks) : page ≠ 0 := by
  rintro rfl
  obtain ⟨p, x, -, hin, hx, -, -, hp⟩ := h
  have hle := hinv.pgsize_le_of_mem hx hp
  have hzero := hin.1
  unfold pgsize at hle
  omega

/-- Where the page of `va` is mapped, the copy goes where the process finds its addresses. -/
theorem Loading.copy_mapped (h : Loading U kind₀ s₀ P kind s) (h₀ : VmInv U kind₀ s₀)
    (hva : c.va < 2 ^ 64) (hmap : translate true s.ram P c.va ≠ none) :
    (∀ j < c.size, translate true s.ram P (c.va + j) = some (c.dst s.ram P + j)) ∧
      ∀ a ∈ c.target s.ram P, OwnFrame s₀.log s P a := by
  obtain ⟨a, ha⟩ := Option.ne_none_iff_exists'.1 hmap
  have hdst : a = c.dst s.ram P :=
    walkedPage_of_translate (translate_false_of_translate ha)
  rw [hdst] at ha
  have hall : ∀ j < c.size, translate true s.ram P (c.va + j) = some (c.dst s.ram P + j) := by
    intro j hj
    rw [CopyCall.size_eq hva] at hj
    exact translate_add ha (by omega)
  refine ⟨hall, fun b hb => ?_⟩
  have hj := hall (b - c.dst s.ram P) (by have := hb.1; have := hb.2; omega)
  rw [Nat.add_sub_cancel' hb.1] at hj
  exact h.own_of_translate h₀ hj

end Frames

/-! ### What is mapped -/

/-- The addresses up to `size` are mapped, or, where `size` does not fit an `int`, those below
2 GiB. -/
def Reached (ram : Ram) (P size : ℕ) : Prop :=
  (∀ va < 2 ^ 31, translate true ram P va ≠ none) ∨
    4096 ≤ size ∧ size < 2 ^ 31 ∧ ∀ va < size, translate true ram P va ≠ none

section Reached

variable {U : Set ℕ} {kind₀ kind : Kinds} {s₀ s s' : VmState} {ram ram' : Ram} {P size va : ℕ}

theorem Reached.mono (h : Reached ram P size)
    (hkeep : ∀ va, translate true ram P va ≠ none → translate true ram' P va ≠ none) :
    Reached ram' P size :=
  h.imp (fun hall va hva => hkeep va (hall va hva))
    fun hall => ⟨hall.1, hall.2.1, fun va hva => hkeep va (hall.2.2 va hva)⟩

theorem translate_of_pgroundup
    (h : ∀ va < size, translate true ram P va ≠ none) (hva : va < (size + 4095) / 4096 * 4096) :
    translate true ram P va ≠ none := by
  have hstart : va / 4096 * 4096 < size := by omega
  obtain ⟨a, ha⟩ := Option.ne_none_iff_exists'.1 (h _ hstart)
  rw [translate_page (Nat.dvd_mul_left _ _) (mem_page va) ha]
  exact Option.some_ne_none _

theorem Loading.translate_first (h : Loading U kind₀ s₀ P kind s) (hva : va < 4096) :
    translate true s.ram P va ≠ none := by
  have hzero : ∀ va < 1, translate true s.ram P va ≠ none := by
    intro va hva
    rw [Nat.lt_one_iff.1 hva]
    exact h.zero
  exact translate_of_pgroundup hzero hva

theorem Loading.reached (h : Loading U kind₀ s₀ P kind s) : Reached s.ram P 4096 :=
  Or.inr ⟨le_rfl, by decide, fun _ hva => h.translate_first hva⟩

theorem Reached.round (h : Reached ram P size) : Reached ram P (pgroundup size) := by
  rcases h with hall | ⟨hlow, hlt, hall⟩
  · exact Or.inl hall
  · have hround : pgroundup size = (size + 4095) / 4096 * 4096 := pgroundup_eq (by omega)
    have hmapped : ∀ va < pgroundup size, translate true ram P va ≠ none :=
      fun va hva => translate_of_pgroundup hall (hround ▸ hva)
    by_cases hmore : pgroundup size < 2 ^ 31
    · exact Or.inr ⟨by omega, hmore, hmapped⟩
    · exact Or.inl fun va hva => hmapped va (by omega)

/-- After `alloc_uvm` the addresses up to the new size are mapped. -/
theorem Reached.grow {newSize : ℕ} {r : ℤ} (hreach : Reached s.ram P size)
    (h : Loading U kind₀ s₀ P kind s) (hsize : size < 2 ^ 64) (hnew : newSize < 2 ^ 64)
    (hcall : allocUvm (p2v P) size newSize s = some (r, s')) :
    Reached s'.ram P (ofInt r) ∧
      ∀ va < newSize, va < 2 ^ 31 → translate true s'.ram P va ≠ none := by
  obtain ⟨kind', -, hgrows, hr, hmapped⟩ := h.grow hsize hnew hcall
  have hkeep : ∀ va, translate true s.ram P va ≠ none → translate true s'.ram P va ≠ none :=
    fun va => ne_none_of_imp fun a ha => hgrows.translate h.inv h.top ha
  rcases hreach with hall | ⟨hlow, hlt, hall⟩
  · exact ⟨Or.inl fun va hva => hkeep va (hall va hva), fun va _ hva => hkeep va (hall va hva)⟩
  have hfirst : ∀ va < pgroundup size, translate true s'.ram P va ≠ none := by
    intro va hva
    rw [pgroundup_eq (by omega)] at hva
    exact hkeep va (translate_of_pgroundup hall hva)
  by_cases hgrow : newSize < size
  · rw [if_pos hgrow] at hr
    rw [hr, ofInt_toInt32 hlt]
    exact ⟨Or.inr ⟨hlow, hlt, fun va hva => hkeep va (hall va hva)⟩, fun va hva _ =>
      hkeep va (hall va (hva.trans hgrow))⟩
  · -- the first 2 GiB have the first entry of the top table in common
    have htop : ∀ va < 2 ^ 31, follow true s.ram P (pml4x va) ≠ none := by
      intro va hva
      obtain ⟨a, ha⟩ := Option.ne_none_iff_exists'.1 h.zero
      obtain ⟨pt, page, htab, -⟩ := translate_eq_some.1 ha
      obtain ⟨pdpt, pd, hf, -⟩ := tableOf_eq_some.1 htab
      have hindex : pml4x va = pml4x 0 := by
        rw [pml4x_eq, pml4x_eq]
        omega
      rw [hindex, hf]
      exact Option.some_ne_none _
    have hnewMapped : ∀ va < newSize, va < 2 ^ 31 → translate true s'.ram P va ≠ none := by
      intro va hva hlow'
      rcases Nat.lt_or_ge va (pgroundup size) with hbefore | hafter
      · exact hfirst va hbefore
      · exact hmapped va hafter hva (Nat.not_lt.1 hgrow) (htop va hlow')
    refine ⟨?_, hnewMapped⟩
    by_cases hfit : newSize < 2 ^ 31
    · rw [if_neg hgrow] at hr
      rw [hr, ofInt_toInt32 hfit]
      exact Or.inr ⟨by omega, hfit, fun va hva => hnewMapped va hva (by omega)⟩
    · exact Or.inl fun va hva => hnewMapped va (by omega) hva

end Reached

/-! ### The beginning -/

section Start

variable {U : Set ℕ} {kind₀ : Kinds} {s₀ s₁ : VmState} {P : ℕ}

theorem exists_loading {map : List E820Entry} {m : Memblock} {ram : Ram} {s : UserSpaces}
    {tr : List (System.Step UserSpaces VmCall)} {pml4 : ℕ}
    (hmap : ∀ x ∈ usableEntries map, x.addr + x.len < 2 ^ 64 - 1) (hinit : memblockInit map = .ok m)
    (hboot : vmSystem.Run (.boot m ram) tr s) (hkern : s.vm.kernPml4 ≠ 0)
    (hsetup : setupUserMemoryPages s.vm = some (pml4, s₁)) :
    ∃ kind₀ kind P, pml4 = p2v P ∧ v2p (p2v P) = P ∧ VmInv (usableMemory map) kind₀ s.vm ∧
      Loading (usableMemory map) kind₀ s.vm P kind s₁ ∧ Grows ∅ kind₀ s.vm kind s₁ := by
  obtain ⟨⟨kind₀, h₀, -⟩, -⟩ := hboot.invariant (I := SpacesInv (usableMemory map))
    (C := fun _ => True) (spacesInv_boot ram hmap hinit) (fun _ hstep _ h => h.step hstep)
    fun _ _ => trivial
  obtain ⟨kind, P, rfl, hP, hload, hgrows⟩ := Loading.start h₀ hkern hsetup
  exact ⟨kind₀, kind, P, rfl, hP, h₀, hload, hgrows⟩

theorem Loading.loaderInv_start {kind₀ kind : Kinds} (h : Loading U kind₀ s₀ P kind s₁)
    (elf : ElfHdr) : LoaderInv U kind₀ s₀ P (.start s₁ elf) :=
  ⟨⟨kind, h⟩, show 4096 < 2 ^ 64 by decide, show 0 < 2 ^ 64 by decide⟩

end Start

end MicroKernel
