import MicroKernel.Vm.Copy

/-!
# Copies to pages that are not mapped

`copy_uvm` does not look at what `page_walk` returns: where there is no table it returns 0, and
where the entry is not present it returns what is left in the entry.  The bytes are written all the
same, and the result is 0.

* `copySystem` : the iterations of the loop;
* `copyUvm_mapped_iff` : a call writes to mapped frames only, and fails otherwise, exactly when the
  page of every iteration is mapped.
-/

namespace MicroKernel

open Extent

attribute [local irreducible] p2v v2p pteAddr

/-! ### The iterations -/

/-- `copy_uvm` with its result. -/
def copyUvmResult (pml4 va src len : ℕ) : VmM ℤ := do
  copyUvm pml4 va src len
  return 0

/-- The loop under way. -/
structure Copying where
  /-- The memory. -/
  vm : VmState
  /-- The variables. -/
  call : CopyCall

/-- The iterations of the loop. -/
def copySystem (pml4 : ℕ) : System Copying Unit where
  step x _ x' := 0 < x.call.len ∧ x.call.copyPage pml4 x.vm = some ((), x'.vm) ∧
    x'.call = x.call.next

/-- The page of the iteration is mapped, at all four levels. -/
def PageMapped (P : ℕ) (x : System.Step Copying Unit) : Prop :=
  translate false x.pre.vm.ram P x.pre.call.va ≠ none

/-- What is asked of the iterations `tr` of a call that returns `r`. -/
structure ThroughMappings (P : ℕ) (tr : List (System.Step Copying Unit)) (r : ℤ) : Prop where
  /-- Every address that is written is in the frame of a present entry for the page. -/
  frames : ∀ x ∈ tr, ∀ a ∈ x.pre.call.written (p2v P) x.pre.vm, ∃ frame,
    translate false x.pre.vm.ram P (pgrounddown x.pre.call.va) = some frame ∧
      a ∈ Set.Ico frame (frame + pgsize)
  /-- Where a page is not mapped, the call fails. -/
  fails : (∃ x ∈ tr, ¬PageMapped P x) → r ≠ 0

/-- What is asked of a call for the addresses from `va` on, by the page table at its start. -/
structure CopiesMapped (P va len : ℕ) (s : VmState) (r : ℤ) (s' : VmState) : Prop where
  /-- Bytes change in frames of the range only. -/
  changes : ∀ a, s'.ram a ≠ s.ram a →
    ∃ i < len, ∃ b, translate false s.ram P (va + i) = some b ∧ a ∈ pageOf b
  /-- Where a page is not mapped, the call fails and writes nothing. -/
  fails : (∃ i < len, translate false s.ram P (va + i) = none) → r ≠ 0 ∧ s'.ram = s.ram

/-- The frames of the range meet no table of the walks. -/
def FramesSpareTables (ram : Ram) (P va len : ℕ) : Prop :=
  ∀ i < len, ∀ j < len, ∀ a b, translate false ram P (va + i) = some a →
    OnPath ram P (va + j) b → Disjoint (pageOf a) (Set.Ico b (b + pgsize))

section Iterations

variable {s s' : VmState} {P va src len n : ℕ} {c : CopyCall} {u : Unit} {r : ℤ} {x x' : Copying}

/-- A call that returns is a run of iterations, and its result is 0. -/
theorem copyLoop_iterations (pml4 n : ℕ) : ∀ {c : CopyCall} {s : VmState},
    c.copyLoop pml4 n s = some (u, s') →
      ∃ tr x, (copySystem pml4).Run ⟨s, c⟩ tr x ∧ x.vm = s' ∧ x.call.len = 0 := by
  induction n with
  | zero => exact fun hcall => nomatch hcall
  | succ n ih =>
    intro c s hcall
    rw [CopyCall.copyLoop] at hcall
    by_cases hlen : 0 < c.len
    · simp only [hlen, if_true, vm_bind_eq_some] at hcall
      obtain ⟨u₁, s₁, hpage, hrest⟩ := hcall
      have hstep : (copySystem pml4).step ⟨s, c⟩ () ⟨s₁, c.next⟩ := ⟨hlen, hpage, rfl⟩
      obtain ⟨tr, x, hrun, hend⟩ := ih hrest
      exact ⟨_, x, hrun.cons hstep, hend⟩
    · simp only [hlen, if_false, vm_pure_eq_some] at hcall
      obtain ⟨-, rfl⟩ := hcall
      exact ⟨[], ⟨s, c⟩, .nil _, rfl, Nat.eq_zero_of_not_pos hlen⟩

theorem copyUvmResult_iterations {pml4 : ℕ}
    (hcall : copyUvmResult pml4 va src len s = some (r, s')) :
    r = 0 ∧ ∃ tr x, (copySystem pml4).Run ⟨s, ⟨va, .memory src, len⟩⟩ tr x ∧ x.vm = s' ∧
      x.call.len = 0 := by
  simp only [copyUvmResult, copyUvm, copyUvmLoop_eq, vm_bind_eq_some, vm_pure_eq_some] at hcall
  obtain ⟨u, s₁, hloop, rfl, rfl⟩ := hcall
  exact ⟨rfl, copyLoop_iterations pml4 _ hloop⟩

theorem copyPage_writes (hdvd : pgsize ∣ P) (hP : P < 2 ^ 64) (hva : c.va < 2 ^ 64)
    (hlen : 0 < c.len) (hcall : c.copyPage (p2v P) s = some (u, s')) :
    c.written (p2v P) s = c.target s.ram P ∧
      s' = { s with ram := s.ram.writeBytes (c.dst s.ram P) c.size (c.buf.bytes s.ram) } := by
  obtain ⟨_, _, hwalk, -⟩ := vm_bind_eq_some.1 hcall
  have hlow : ∀ b, OnPath s.ram P (pgrounddown c.va) b → b + pgsize ≤ 2 ^ 31 :=
    fun _ hb => low_of_pageWalk hdvd hP hwalk hb
  exact ⟨CopyCall.written_eq_of_low hva hlow,
    ((CopyCall.copyPage_eq_some_of_low hva hlen hlow).1 hcall).2.2⟩

theorem translate_pgrounddown {user : Bool} {ram : Ram} {a : ℕ} (hva : va < 2 ^ 64)
    (h : translate user ram P va = some a) :
    translate user ram P (pgrounddown va) = some (walkedPage ram P va) := by
  obtain ⟨pt, page, htab, hpage, -⟩ := translate_eq_some.1 h
  obtain ⟨htab', hptx⟩ := tableOf_page user ram P (Nat.dvd_mul_left _ _) (mem_page va)
  have hoff : offset (va / 4096 * 4096) = 0 := by
    rw [offset_eq]
    omega
  rw [pgrounddown_eq hva]
  refine translate_eq_some.2 ⟨pt, page, htab' ▸ htab, hptx ▸ hpage, ?_⟩
  rw [hoff, Nat.add_zero, walkedPage, tableOf_false_of_tableOf htab]
  exact (follow_eq_some.1 hpage).2.2.symm

theorem translate_of_pgrounddown {user : Bool} {ram : Ram} {a : ℕ} (hva : va < 2 ^ 64)
    (h : translate user ram P (pgrounddown va) = some a) : translate user ram P va ≠ none := by
  rw [pgrounddown_eq hva] at h
  rw [translate_page (Nat.dvd_mul_left _ _) (mem_page va) h]
  exact Option.some_ne_none _

/-! ### Where an iteration writes -/

variable {y : System.Step Copying Unit}

/-- The bytes of an iteration go to the frame of its page exactly when the page is mapped. -/
theorem frames_iff_pageMapped (hdvd : pgsize ∣ P) (hP : P < 2 ^ 64) (hva : y.pre.call.va < 2 ^ 64)
    (hstep : (copySystem (p2v P)).step y.pre y.ev y.post) :
    (∀ a ∈ y.pre.call.written (p2v P) y.pre.vm, ∃ frame,
      translate false y.pre.vm.ram P (pgrounddown y.pre.call.va) = some frame ∧
        a ∈ Set.Ico frame (frame + pgsize)) ↔ PageMapped P y := by
  obtain ⟨hlen, hcall, -⟩ := hstep
  rw [(copyPage_writes hdvd hP hva hlen hcall).1]
  constructor
  · intro h
    have hpos : 0 < y.pre.call.size := CopyCall.size_pos hva hlen
    obtain ⟨frame, hframe, -⟩ := h (y.pre.call.dst y.pre.vm.ram P) ⟨le_rfl, by omega⟩
    exact translate_of_pgrounddown hva hframe
  · intro h a ha
    obtain ⟨b, hb⟩ := Option.ne_none_iff_exists'.1 h
    exact ⟨_, translate_pgrounddown hva hb, CopyCall.target_subset hva _ P ha⟩

/-- What the iterations of a call of `copy_uvm` for `[va, va + len)` keep, while the page table that
it started with maps the whole range: bytes change in the frames of the range only. -/
structure CopyInv (P va len : ℕ) (s : VmState) (x : Copying) : Prop where
  /-- The variable is a `u64`. -/
  va_lt : x.call.va < 2 ^ 64
  /-- How far the call is. -/
  progress : x.call.len = 0 ∨ ∃ k, k + x.call.len = len ∧ x.call.va = (va + k) % 2 ^ 64
  /-- What changed. -/
  changes : ∀ a, x.vm.ram a ≠ s.ram a →
    ∃ i < len, ∃ b, translate false s.ram P (va + i) = some b ∧ a ∈ pageOf b

theorem CopyInv.step (h : CopyInv P va len s y.pre) (hdvd : pgsize ∣ P) (hP : P < 2 ^ 64)
    (hmapped : ∀ i < len, translate false s.ram P (va + i) ≠ none)
    (hspare : FramesSpareTables s.ram P va len)
    (hstep : (copySystem (p2v P)).step y.pre y.ev y.post) : CopyInv P va len s y.post := by
  obtain ⟨hlen, hcall, hnext⟩ := hstep
  obtain ⟨hva, hprogress, hchanges⟩ := h
  obtain ⟨k, hk, hvak⟩ := hprogress.resolve_left hlen.ne'
  have hsize := CopyCall.size_eq hva
  have hpost := (copyPage_writes hdvd hP hva hlen hcall).2
  -- the walk leads where it led at the start
  have hsame : ∀ b, OnPath s.ram P (va + k) b → ∀ a ∈ Set.Ico b (b + pgsize),
      y.pre.vm.ram a = s.ram a := by
    intro b hb a ha
    by_contra hne
    obtain ⟨i, hi, c, hc, hac⟩ := hchanges a hne
    exact Set.disjoint_left.1 (hspare i hi k (by omega) c b hc hb) hac ha
  obtain ⟨b, hb⟩ := Option.ne_none_iff_exists'.1 (hmapped k (by omega))
  have hpage : translate false y.pre.vm.ram P y.pre.call.va = some b := by
    have hmod : y.pre.call.va % 2 ^ 48 = (va + k) % 2 ^ 48 := by omega
    rw [← translate_mod, hmod, translate_mod, translate_congr hsame, hb]
  have hsub : y.pre.call.target y.pre.vm.ram P ⊆ pageOf b := by
    have haddr := walkedPage_of_translate hpage
    obtain ⟨q, hq⟩ := walkedPage_dvd y.pre.vm.ram P y.pre.call.va
    refine (CopyCall.target_subset hva _ P).trans fun a ha => ?_
    obtain ⟨h₁, h₂⟩ := ha
    unfold pageOf
    unfold pgsize at hq h₂ ⊢
    exact ⟨by omega, by omega⟩
  refine ⟨?_, ?_, fun a ha => ?_⟩
  · rw [hnext]
    exact add64_lt _ _
  · rw [hnext]
    simp only [CopyCall.next]
    rcases Nat.lt_or_ge y.pre.call.size y.pre.call.len with hmore | hlast
    · refine Or.inr ⟨k + y.pre.call.size, by omega, ?_⟩
      rw [pgrounddown_eq hva]
      unfold add64 pgsize
      omega
    · exact Or.inl (Nat.sub_eq_zero_of_le hlast)
  · by_cases hin : a ∈ y.pre.call.target y.pre.vm.ram P
    · exact ⟨k, by omega, b, hb, hsub hin⟩
    · refine hchanges a fun heq => ha ?_
      rw [hpost]
      exact (Ram.writeBytes_of_not_mem hin).trans heq

/-! ### The call -/

/-- The iterations of a call write to the frames of mapped pages, and the call fails where a page is
not mapped, exactly when the page of every iteration is mapped.  As long as the frames hold no page
tables, that is when every page of the range is mapped at the start. -/
theorem copyUvm_mapped_iff (hdvd : pgsize ∣ P) (hP : P < 2 ^ 64) (hva : va < 2 ^ 64)
    (hcall : copyUvmResult (p2v P) va src len s = some (r, s')) :
    ∃ tr x, (copySystem (p2v P)).Run ⟨s, ⟨va, .memory src, len⟩⟩ tr x ∧ x.vm = s' ∧ x.call.len = 0 ∧
      (ThroughMappings P tr r ↔ ∀ y ∈ tr, PageMapped P y) ∧
      (FramesSpareTables s.ram P va len →
        (CopiesMapped P va len s r s' ↔ ∀ i < len, translate false s.ram P (va + i) ≠ none)) := by
  obtain ⟨rfl, tr, x, hrun, rfl, hend⟩ := copyUvmResult_iterations hcall
  have hiff := hrun.forall_iff (I := fun x => x.call.va < 2 ^ 64) hva
    (fun y hstep _ _ => by
      obtain ⟨-, -, hnext⟩ := hstep
      rw [hnext]
      exact add64_lt _ _)
    fun y hstep hlt => frames_iff_pageMapped hdvd hP hlt hstep
  refine ⟨tr, x, hrun, rfl, hend, ⟨fun h => hiff.1 h.frames, fun h => ⟨hiff.2 h, ?_⟩⟩,
    fun hspare => ⟨fun h i hi hnone => (h.fails ⟨i, hi, hnone⟩).1 rfl, fun hmapped => ⟨?_, ?_⟩⟩⟩
  · rintro ⟨y, hy, hnot⟩
    exact absurd (h y hy) hnot
  · have hinv := hrun.invariant (I := CopyInv P va len s) (C := fun _ => True)
      ⟨hva, Or.inr ⟨0, by simp, (Nat.mod_eq_of_lt hva).symm⟩, fun a ha => absurd rfl ha⟩
      (fun y hstep _ h => h.step hdvd hP hmapped hspare hstep) fun _ _ => trivial
    exact hinv.1.changes
  · rintro ⟨i, hi, hnone⟩
    exact absurd hnone (hmapped i hi)

end Iterations

/-- Two bytes on both sides of a page boundary, where both pages are mapped. -/
theorem copyUvm_mapped_iff_twoPages : ∃ s', copyUvmResult (p2v 0x1000) 0xFFF 0xFFFFFFFF80010000 2
    ⟨bootTables [⟨0, 0⟩] 0, twoPages, 0, []⟩ = some (0, s') ∧
      ∃ tr x, (copySystem (p2v 0x1000)).Run ⟨⟨bootTables [⟨0, 0⟩] 0, twoPages, 0, []⟩,
          ⟨0xFFF, .memory 0xFFFFFFFF80010000, 2⟩⟩ tr x ∧ x.vm = s' ∧
        (ThroughMappings 0x1000 tr 0 ↔ ∀ y ∈ tr, PageMapped 0x1000 y) := by
  obtain ⟨f, hplan⟩ := copyTarget_twoPages.exists_plan
  obtain ⟨ram', hloop, -⟩ := hplan.copyLoop
    (s := ⟨bootTables [⟨0, 0⟩] 0, twoPages, 0, []⟩) 3 (by decide) (by decide)
  have hcall : copyUvmResult (p2v 0x1000) 0xFFF 0xFFFFFFFF80010000 2
      ⟨bootTables [⟨0, 0⟩] 0, twoPages, 0, []⟩ =
        some (0, ⟨bootTables [⟨0, 0⟩] 0, ram', 0, []⟩) := by
    rw [copyUvmResult, copyUvm, copyUvmLoop_eq]
    exact vm_bind_of_eq hloop
  obtain ⟨tr, x, hrun, hx, -, hiff, -⟩ :=
    copyUvm_mapped_iff (by decide) (by decide) (by decide) hcall
  exact ⟨_, hcall, tr, x, hrun, hx, hiff⟩

/-- Memory with one byte that is not 0. -/
def oneByte : Ram := fun a => if a = 0x10000 then 1 else 0

/-- With a page table without entries, the byte goes to the physical address 0, and 0 is
returned. -/
theorem not_copyUvm_mapped : ∃ s',
    copyUvmResult (p2v 0x1000) 0 0xFFFFFFFF80010000 1 ⟨bootTables [⟨0, 0⟩] 0, oneByte, 0, []⟩ =
        some (0, s') ∧ s'.ram 0 = 1 ∧
      ¬CopiesMapped 0x1000 0 1 ⟨bootTables [⟨0, 0⟩] 0, oneByte, 0, []⟩ 0 s' := by
  have heval : (copyUvmResult (p2v 0x1000) 0 0xFFFFFFFF80010000 1
      ⟨bootTables [⟨0, 0⟩] 0, oneByte, 0, []⟩).map (fun x => (x.1, x.2.ram 0)) = some (0, 1) := by
    decide +kernel
  obtain ⟨⟨r, s'⟩, hcall, hx⟩ := Option.map_eq_some_iff.1 heval
  obtain ⟨rfl, hbyte⟩ := Prod.mk.inj hx
  refine ⟨s', hcall, hbyte, fun h => ?_⟩
  have hnone : translate false oneByte 0x1000 (0 + 0) = none := by decide +kernel
  exact (h.fails ⟨0, by decide, hnone⟩).1 rfl

end MicroKernel
