import MicroKernel.Vm.Loader

/-!
# Copies to user memory

`copy_uvm` cuts the range at the page boundaries and copies each part to the frame that a walk
finds, so that neighbouring parts go to unrelated places.

* `CopyTarget` : a range whose pages are mapped to frames of their own;
* `CopyPlan.copyPage` : what one iteration does, and what is left to copy;
* `copyUvm_copies` : the call ends, the bytes arrive, and nothing else changes.
-/

namespace MicroKernel

open Extent

attribute [local irreducible] p2v v2p pteAddr

/-! ### What is copied where -/

/-- The `len` bytes at `src` can be copied to the addresses from `va` on: their pages are mapped to
distinct frames, which meet neither the source nor the tables of the walks, in the memory that the
kernel reaches. -/
structure CopyTarget (user : Bool) (ram : Ram) (P va src len : ℕ) : Prop where
  /-- Every page is mapped. -/
  mapped : ∀ i < len, translate user ram P (va + i) ≠ none
  /-- Two pages have two frames. -/
  distinct : ∀ i < len, ∀ j < len, ∀ a b, translate user ram P (va + i) = some a →
    translate user ram P (va + j) = some b → pageOf a = pageOf b →
      (va + i) / pgsize = (va + j) / pgsize
  /-- A frame does not meet the source. -/
  source : ∀ i < len, ∀ a, translate user ram P (va + i) = some a →
    Disjoint (pageOf a) (Set.Ico (v2p src) (v2p src + len))
  /-- A frame does not meet a table. -/
  tables : ∀ i < len, ∀ j < len, ∀ a b, translate user ram P (va + i) = some a →
    OnPath ram P (va + j) b → Disjoint (pageOf a) (Set.Ico b (b + pgsize))
  /-- The kernel reaches the tables. -/
  tables_low : ∀ i < len, ∀ b, OnPath ram P (va + i) b → b + pgsize ≤ 2 ^ 31
  /-- It reaches the frames. -/
  frames_low : ∀ i < len, ∀ a, translate user ram P (va + i) = some a → a < 2 ^ 31
  /-- It reaches the source. -/
  source_range : KernelRange src len

/-- The byte `i` of the source goes to the physical address `f i`. -/
structure CopyPlan (user : Bool) (ram : Ram) (P va src len : ℕ) (f : ℕ → ℕ) : Prop where
  /-- The address that is mapped. -/
  maps : ∀ i < len, translate user ram P (va + i) = some (f i)
  /-- Two bytes go to two addresses. -/
  inj : ∀ i < len, ∀ j < len, f i = f j → i = j
  /-- No byte goes to the source. -/
  source : ∀ i < len, ∀ j < len, f i ≠ v2p src + j
  /-- No byte goes to a table. -/
  tables : ∀ i < len, ∀ j < len, ∀ b, OnPath ram P (va + j) b → f i ∉ Set.Ico b (b + pgsize)
  /-- The kernel reaches the tables. -/
  tables_low : ∀ i < len, ∀ b, OnPath ram P (va + i) b → b + pgsize ≤ 2 ^ 31
  /-- It reaches the addresses. -/
  low : ∀ i < len, f i < 2 ^ 31
  /-- It reaches the source. -/
  source_range : KernelRange src len

section Copies

variable {user : Bool} {ram : Ram} {s : VmState} {P va src len a b : ℕ} {f : ℕ → ℕ}

theorem mem_pageOf (a : ℕ) : a ∈ pageOf a := mem_page a

theorem CopyTarget.exists_plan (h : CopyTarget user ram P va src len) :
    ∃ f, CopyPlan user ram P va src len f := by
  have hmaps : ∀ i < len, translate user ram P (va + i) =
      some ((translate user ram P (va + i)).getD 0) := by
    intro i hi
    obtain ⟨a, ha⟩ := Option.ne_none_iff_exists'.1 (h.mapped i hi)
    rw [ha]
    rfl
  refine ⟨fun i => (translate user ram P (va + i)).getD 0, hmaps, fun i hi j hj heq => ?_,
    fun i hi j hj heq => ?_, fun i hi j hj b hb hin => ?_, h.tables_low,
    fun i hi => h.frames_low i hi _ (hmaps i hi), h.source_range⟩
  · -- the same page, and the same offset in it
    have hi' := hmaps i hi
    have hj' := hmaps j hj
    rw [← heq] at hj'
    have hpage := h.distinct i hi j hj _ _ hi' hj' rfl
    obtain ⟨_, page, -, hpage₁, hoff₁⟩ := translate_eq_some.1 hi'
    obtain ⟨_, page', -, hpage₂, hoff₂⟩ := translate_eq_some.1 hj'
    have hdvd₁ := follow_dvd hpage₁
    have hdvd₂ := follow_dvd hpage₂
    rw [offset_eq] at hoff₁ hoff₂
    unfold pgsize at hpage hdvd₁ hdvd₂
    omega
  · exact Set.disjoint_left.1 (h.source i hi _ (hmaps i hi)) (mem_pageOf _)
      ⟨heq ▸ Nat.le_add_right _ _, heq ▸ Nat.add_lt_add_left hj _⟩
  · exact Set.disjoint_left.1 (h.tables i hi j hj _ b (hmaps i hi) hb) (mem_pageOf _) hin

end Copies

/-! ### One iteration -/

namespace CopyPlan

variable {user : Bool} {ram ram' : Ram} {s : VmState} {P va src len a b m : ℕ} {f : ℕ → ℕ}

theorem eq_add (h : CopyPlan user ram P va src len f) {i : ℕ} (hi : i < len)
    (hpage : va % 4096 + i < 4096) : f i = f 0 + i := by
  have hfirst := h.maps 0 (by omega)
  rw [Nat.add_zero] at hfirst
  exact Option.some.inj ((h.maps i hi).symm.trans (translate_add hfirst hpage))

/-- A walk leads where it led while the bytes that are written are in the frames of the plan. -/
theorem ram_eq (h : CopyPlan user ram P va src len f)
    (hram : ∀ a, (∀ i < len, a ≠ f i) → ram' a = ram a) {j : ℕ} (hj : j < len) :
    ∀ b, OnPath ram P (va + j) b → ∀ a ∈ Set.Ico b (b + pgsize), ram' a = ram a :=
  fun b hb a ha => hram a fun i hi heq => h.tables i hi j hj b hb (heq ▸ ha)

theorem drop (h : CopyPlan user ram P va src len f) (hm : m < len)
    (hram : ∀ a, (∀ i < len, a ≠ f i) → ram' a = ram a) :
    CopyPlan user ram' P (add64 va m) (add64 src m) (len - m) fun i => f (m + i) := by
  -- addresses wrap around at the end, which the tables do not see
  have hmod : ∀ i, (add64 va m + i) % 2 ^ 48 = (va + (m + i)) % 2 ^ 48 := fun i => by
    unfold add64
    omega
  have hpath : ∀ i < len - m, ∀ b, OnPath ram' P (add64 va m + i) b →
      OnPath ram P (va + (m + i)) b := by
    intro i hi b hb
    rw [← onPath_mod, hmod, onPath_mod] at hb
    exact hb.of_congr (h.ram_eq hram (by omega))
  have hsrc : add64 src m = src + m ∧ v2p (add64 src m) = v2p src + m := by
    rcases h.source_range with hzero | ⟨hlow, hhigh⟩
    · omega
    · have hadd : add64 src m = src + m := add64_of_lt (by omega)
      refine ⟨hadd, ?_⟩
      rw [hadd]
      unfold v2p sub64 kernbase at *
      omega
  refine ⟨fun i hi => ?_, fun i hi j hj heq => ?_, fun i hi j hj => ?_, fun i hi j hj b hb => ?_,
    fun i hi b hb => h.tables_low _ (by omega) b (hpath i hi b hb),
      fun i hi => h.low _ (by omega), ?_⟩
  · rw [← translate_mod, hmod, translate_mod, translate_congr (h.ram_eq hram (by omega))]
    exact h.maps _ (by omega)
  · have := h.inj _ (show m + i < len by omega) _ (show m + j < len by omega) heq
    omega
  · rw [hsrc.2, Nat.add_assoc]
    exact h.source _ (by omega) _ (by omega)
  · exact h.tables _ (by omega) _ (by omega) b (hpath j hj b hb)
  · rw [hsrc.1]
    rcases h.source_range with hzero | ⟨hlow, hhigh⟩
    · omega
    · exact Or.inr ⟨by omega, by omega⟩

/-- The call of the plan. -/
def call (va src len : ℕ) : CopyCall := ⟨va, .memory src, len⟩

/-- An iteration copies the bytes of the page. -/
theorem copyPage (h : CopyPlan user s.ram P va src len f) (hva : va < 2 ^ 64) (hlen : 0 < len) :
    ∃ ram', (call va src len).copyPage (p2v P) s = some ((), { s with ram := ram' }) ∧
      (∀ i < (call va src len).size, ram' (f i) = s.ram (v2p src + i)) ∧
      ∀ a, (∀ i < (call va src len).size, a ≠ f i) → ram' a = s.ram a := by
  have hsize : (call va src len).size = min (4096 - va % 4096) len := CopyCall.size_eq hva
  have hsize' : (call va src len).size ≤ len := hsize ▸ min_le_right _ _
  have hfirst := h.maps 0 hlen
  rw [Nat.add_zero] at hfirst
  have hdst : (call va src len).dst s.ram P = f 0 :=
    (walkedPage_of_translate (translate_false_of_translate hfirst)).symm
  have hadd : ∀ i < (call va src len).size, f i = f 0 + i := fun i hi =>
    h.eq_add (hi.trans_le hsize') (by omega)
  have hlast : f 0 + (call va src len).size ≤ 2 ^ 31 := by
    have hpos : 0 < (call va src len).size := CopyCall.size_pos hva hlen
    have hlow := h.low ((call va src len).size - 1) (by omega)
    rw [hadd _ (by omega)] at hlow
    omega
  have hlow : ∀ b, OnPath s.ram P (pgrounddown va) b → b + pgsize ≤ 2 ^ 31 := by
    intro b hb
    rw [pgrounddown_eq hva] at hb
    obtain ⟨h₁, h₂, h₃, -⟩ := indices_page (Nat.dvd_mul_left _ _) (mem_page va)
    exact h.tables_low 0 hlen b ((onPath_congr h₁ h₂ h₃).2 hb)
  have hread : (call va src len).buf.Readable (call va src len).size := by
    rcases h.source_range with hzero | ⟨hbase, hend⟩
    · omega
    · exact Or.inr ⟨hbase, by omega⟩
  refine ⟨_, (CopyCall.copyPage_eq_some_of_low hva hlen hlow).2 ⟨hdst ▸ hlast, hread, rfl⟩,
    fun i hi => ?_, fun a ha => ?_⟩
  · rw [hdst, hadd i hi]
    exact Ram.writeBytes_add hi
  · rw [hdst]
    refine Ram.writeBytes_of_not_mem fun hin => ?_
    obtain ⟨h₁, h₂⟩ := hin
    refine ha (a - f 0) (by omega) ?_
    rw [hadd _ (by omega)]
    omega

end CopyPlan

/-! ### The loop -/

open CopyPlan in
/-- The loop ends and has copied what was planned. -/
theorem CopyPlan.copyLoop {user : Bool} {P : ℕ} (n : ℕ) : ∀ {s : VmState} {va src len : ℕ}
    {f : ℕ → ℕ}, CopyPlan user s.ram P va src len f → va < 2 ^ 64 → len < n →
      ∃ ram', (call va src len).copyLoop (p2v P) n s = some ((), { s with ram := ram' }) ∧
        (∀ i < len, ram' (f i) = s.ram (v2p src + i)) ∧
        ∀ a, (∀ i < len, a ≠ f i) → ram' a = s.ram a := by
  induction n with
  | zero => exact fun _ _ hlen => absurd hlen (Nat.not_lt_zero _)
  | succ n ih =>
    intro s va src len f h hva hlen
    rw [CopyCall.copyLoop]
    rcases Nat.eq_zero_or_pos len with rfl | hpos
    · exact ⟨s.ram, rfl, fun i hi => absurd hi (Nat.not_lt_zero i), fun _ _ => rfl⟩
    obtain ⟨ram₁, hpage, hcopied, hkept⟩ := h.copyPage hva hpos
    have hsize : (call va src len).size = min (4096 - va % 4096) len := CopyCall.size_eq hva
    have hsize' : 0 < (call va src len).size := CopyCall.size_pos hva hpos
    generalize hm : (call va src len).size = m at hcopied hkept hsize hsize'
    have hlen' : 0 < (call va src len).len := hpos
    rw [if_pos hlen', vm_bind_of_eq hpage]
    have hnext : (call va src len).next =
        ⟨add64 (pgrounddown va) pgsize, .memory (add64 src m), len - m⟩ := by
      rw [← hm]
      rfl
    rw [hnext]
    by_cases hmore : m < len
    · -- the page was filled up to its end
      have hva' : add64 (pgrounddown va) pgsize = add64 va m := by
        rw [pgrounddown_eq hva]
        unfold add64 pgsize
        omega
      have hkept' : ∀ a, (∀ i < len, a ≠ f i) → ram₁ a = s.ram a := fun a ha =>
        hkept a fun i hi => ha i (by omega)
      rw [hva']
      obtain ⟨ram', hloop, hcopied', hkept''⟩ :=
        ih (s := { s with ram := ram₁ }) (h.drop hmore hkept') (add64_lt _ _) (by omega)
      dsimp only at hcopied' hkept''
      refine ⟨ram', hloop, fun i hi => ?_, fun a ha => ?_⟩
      · rcases Nat.lt_or_ge i m with him | him
        · rw [hkept'' (f i) fun j hj heq => ?_, hcopied i him]
          have := h.inj i hi _ (show m + j < len by omega) heq
          omega
        · have hrest := hcopied' (i - m) (by omega)
          have hsrc : v2p (add64 src m) + (i - m) = v2p src + i := by
            rcases h.source_range with hzero | ⟨hbase, hend⟩
            · omega
            · rw [add64_of_lt (by omega)]
              unfold v2p sub64 kernbase at *
              omega
          rw [show m + (i - m) = i by omega, hsrc] at hrest
          rw [hrest]
          exact hkept _ fun j hj heq => h.source j (by omega) i hi heq.symm
      · rw [hkept'' a fun i hi => ha _ (by omega)]
        exact hkept' a ha
    · -- this was the last page
      have hall : len = m := by omega
      have hdone : ∀ c : CopyCall, c.len = 0 → 0 < n →
          c.copyLoop (p2v P) n { s with ram := ram₁ } = some ((), { s with ram := ram₁ }) := by
        intro c hc hn
        obtain ⟨k, rfl⟩ := Nat.exists_eq_succ_of_ne_zero hn.ne'
        rw [CopyCall.copyLoop, hc]
        rfl
      refine ⟨ram₁, hdone _ ?_ (by omega), fun i hi => hcopied i (by omega), fun a ha =>
        hkept a fun i hi => ha i (by omega)⟩
      exact Nat.sub_eq_zero_of_le hall.le

/-- The call ends.  Afterwards every address of the range leads to its byte of the source, and all
other bytes of memory are as they were. -/
theorem copyUvm_copies {user : Bool} {s : VmState} {P va src len : ℕ} (hva : va < 2 ^ 64)
    (h : CopyTarget user s.ram P va src len) :
    ∃ ram', copyUvm (p2v P) va src len s = some ((), { s with ram := ram' }) ∧
      (∀ i < len, ∃ a, translate user ram' P (va + i) = some a ∧
        pageWalk (p2v P) (va + i) false { s with ram := ram' } =
          some (a, { s with ram := ram' }) ∧ ram' a = s.ram (v2p src + i)) ∧
      ∀ a, (∀ i < len, translate user s.ram P (va + i) ≠ some a) → ram' a = s.ram a := by
  obtain ⟨f, hplan⟩ := h.exists_plan
  obtain ⟨ram', hcall, hcopied, hkept⟩ := hplan.copyLoop (len + 1) hva (Nat.lt_succ_self len)
  refine ⟨ram', ?_, fun i hi => ⟨f i, ?_, ?_, hcopied i hi⟩, fun a ha => hkept a fun i hi heq => ?_⟩
  · rw [copyUvm, copyUvmLoop_eq]
    exact hcall
  · rw [translate_congr (hplan.ram_eq hkept hi)]
    exact hplan.maps i hi
  · refine pageWalk_of_translate (fun b hb => ?_) ?_
    · exact h.tables_low i hi b (hb.of_congr (hplan.ram_eq hkept hi))
    · rw [translate_congr (hplan.ram_eq hkept hi)]
      exact translate_false_of_translate (hplan.maps i hi)
  · exact ha i hi (heq ▸ hplan.maps i hi)

/-! ### Two pages -/

/-- Page tables at `0x1000`, …, `0x4000`, by which the first two pages of a process lead to the
frames `0x9000` and `0x5000`. -/
def twoPages : Ram
  | 0x1000 => 0x07 | 0x1001 => 0x20
  | 0x2000 => 0x07 | 0x2001 => 0x30
  | 0x3000 => 0x07 | 0x3001 => 0x40
  | 0x4000 => 0x07 | 0x4001 => 0x90
  | 0x4008 => 0x07 | 0x4009 => 0x50
  | _ => 0

section TwoPages

attribute [local semireducible] p2v v2p pteAddr

theorem translate_twoPages : translate true twoPages 0x1000 0xFFF = some 0x9FFF ∧
    translate true twoPages 0x1000 0x1000 = some 0x5000 := by decide

theorem onPath_twoPages {i b : ℕ} (hi : i < 2) (h : OnPath twoPages 0x1000 (0xFFF + i) b) :
    b ∈ [0x1000, 0x2000, 0x3000, 0x4000] := by
  have hsteps : ∀ i < 2, follow false twoPages 0x1000 (pml4x (0xFFF + i)) = some 0x2000 ∧
      follow false twoPages 0x2000 (pdptx (0xFFF + i)) = some 0x3000 ∧
      tableOf false twoPages 0x1000 (0xFFF + i) = some 0x4000 := by decide
  obtain ⟨h₁, h₂, h₃⟩ := hsteps i hi
  cases h with
  | top => decide
  | second top =>
    obtain rfl := Option.some.inj (h₁.symm.trans top)
    decide
  | third top second =>
    obtain rfl := Option.some.inj (h₁.symm.trans top)
    obtain rfl := Option.some.inj (h₂.symm.trans second)
    decide
  | last table =>
    obtain rfl := Option.some.inj (h₃.symm.trans table)
    decide

theorem copyTarget_twoPages :
    CopyTarget true twoPages 0x1000 0xFFF 0xFFFFFFFF80010000 2 := by
  have hmap : ∀ i < 2, ∀ a, translate true twoPages 0x1000 (0xFFF + i) = some a →
      i = 0 ∧ a = 0x9FFF ∨ i = 1 ∧ a = 0x5000 := by
    intro i hi a ha
    rcases Nat.lt_or_ge i 1 with h | h
    · obtain rfl : i = 0 := by omega
      exact Or.inl ⟨rfl, Option.some.inj (ha.symm.trans translate_twoPages.1)⟩
    · obtain rfl : i = 1 := by omega
      exact Or.inr ⟨rfl, Option.some.inj (ha.symm.trans translate_twoPages.2)⟩
  have hframe : ∀ i < 2, ∀ a, translate true twoPages 0x1000 (0xFFF + i) = some a →
      pageOf a ⊆ Set.Ico 0x5000 0xA000 := by
    rintro i hi a ha x ⟨h₁, h₂⟩
    unfold pgsize at h₁ h₂
    rcases hmap i hi a ha with ⟨-, rfl⟩ | ⟨-, rfl⟩
    · exact ⟨by omega, by omega⟩
    · exact ⟨by omega, by omega⟩
  have hsrc : v2p 0xFFFFFFFF80010000 = 0x10000 := by decide
  have htable : ∀ i < 2, ∀ b, OnPath twoPages 0x1000 (0xFFF + i) b → b + pgsize ≤ 0x5000 := by
    intro i hi b hb
    have hall : ∀ b ∈ [0x1000, 0x2000, 0x3000, 0x4000], b + pgsize ≤ 0x5000 := by decide
    exact hall b (onPath_twoPages hi hb)
  refine ⟨by decide, fun i hi j hj a b ha hb hpage => ?_, fun i hi a ha => ?_,
    fun i hi j hj a b ha hb => ?_, fun i hi b hb => (htable i hi b hb).trans (by decide),
    fun i hi a ha => ?_, by decide⟩
  · -- two addresses in the same page have the same index
    have hin : a ∈ pageOf b := hpage ▸ mem_pageOf a
    obtain ⟨h₁, h₂⟩ := hin
    unfold pgsize at h₁ h₂
    rcases hmap i hi a ha with ⟨rfl, rfl⟩ | ⟨rfl, rfl⟩ <;>
      rcases hmap j hj b hb with ⟨rfl, rfl⟩ | ⟨rfl, rfl⟩
    · rfl
    · omega
    · omega
    · rfl
  · rw [hsrc]
    refine Set.disjoint_left.2 fun x hx hin => ?_
    have := (hframe i hi a ha hx).2
    have := hin.1
    omega
  · refine Set.disjoint_left.2 fun x hx hin => ?_
    have := (hframe i hi a ha hx).1
    have := htable j hj b hb
    have := hin.2
    omega
  · have := (hframe i hi a ha (mem_pageOf a)).2
    omega

end TwoPages

/-- Two bytes on both sides of a page boundary. -/
theorem copyUvm_copies_twoPages : ∃ ram',
    copyUvm (p2v 0x1000) 0xFFF 0xFFFFFFFF80010000 2 ⟨bootTables [⟨0, 0⟩] 0, twoPages, 0, []⟩ =
        some ((), ⟨bootTables [⟨0, 0⟩] 0, ram', 0, []⟩) ∧
      ∀ i < 2, ∃ a, translate true ram' 0x1000 (0xFFF + i) = some a ∧
        ram' a = twoPages (v2p 0xFFFFFFFF80010000 + i) := by
  obtain ⟨ram', hcall, hcopied, -⟩ := copyUvm_copies
    (s := ⟨bootTables [⟨0, 0⟩] 0, twoPages, 0, []⟩) (by decide) copyTarget_twoPages
  refine ⟨ram', hcall, fun i hi => ?_⟩
  obtain ⟨a, ha, -, hbyte⟩ := hcopied i hi
  exact ⟨a, ha, hbyte⟩

end MicroKernel
