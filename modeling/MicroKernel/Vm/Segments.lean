import MicroKernel.Vm.LoadReturns

/-!
# The image of a program

The loader copies `memsz` bytes from the file for every loadable segment, of which only the first
`filesz` belong to it.  So the process sees the bytes of the file, and behind them whatever stands
behind the segment's part of the file when it is copied.

* `ImageFile` : files whose segments fit;
* `ImageInv` : the invariant of the loop over the headers;
* `loadSystem_image_iff` : the image is what the file describes exactly when every byte copied from
  behind a segment's part of the file is zero.
-/

namespace MicroKernel

open Extent

attribute [local irreducible] p2v v2p pteAddr

/-! ### The file -/

/-- The program header with index `i` of the file at the physical address `buf`; headers are read at
multiples of 4. -/
def fileHdr (ram : Ram) (buf i : ℕ) : ProgHdr :=
  progHdrAt ram (buf + (elfHdrAt ram buf).phoff / 4 * 4 + sizeofProgHdr * i)

/-- The header with index `i` is there, and its segment is to be loaded. -/
def Segment (ram : Ram) (buf i : ℕ) : Prop :=
  i < (elfHdrAt ram buf).phnum ∧ (fileHdr ram buf i).type = elfProgLoad

/-- The addresses of a segment. -/
def ProgHdr.range (h : ProgHdr) : Set ℕ := Set.Ico h.vaddr (h.vaddr + h.memsz)

/-- The addresses of a segment that are behind the bytes of the file. -/
def ProgHdr.tail (h : ProgHdr) : Set ℕ := Set.Ico (h.vaddr + h.filesz) (h.vaddr + h.memsz)

/-- The headers and the bytes of the segments are in the buffer, and the segments are apart from
each other below 2 GiB. -/
structure ImageFile (ram : Ram) (buf : ℕ) : Prop where
  /-- The headers. -/
  table : (elfHdrAt ram buf).phoff + sizeofProgHdr * (elfHdrAt ram buf).phnum ≤ bufferSize
  /-- No more bytes in the file than in memory. -/
  filesz_le : ∀ i, Segment ram buf i → (fileHdr ram buf i).filesz ≤ (fileHdr ram buf i).memsz
  /-- The addresses. -/
  below : ∀ i, Segment ram buf i → (fileHdr ram buf i).vaddr + (fileHdr ram buf i).memsz ≤ 2 ^ 31
  /-- The bytes. -/
  file : ∀ i, Segment ram buf i → (fileHdr ram buf i).off + (fileHdr ram buf i).filesz ≤ bufferSize
  /-- No address is in two segments. -/
  disjoint : ∀ i j, Segment ram buf i → Segment ram buf j → i ≠ j →
    Disjoint (fileHdr ram buf i).range (fileHdr ram buf j).range

/-- By the page table `P`, the process sees the bytes of the file and zeros behind them. -/
def SegmentLoaded (file : Ram) (buf : ℕ) (h : ProgHdr) (ram : Ram) (P : ℕ) : Prop :=
  ∀ k < h.memsz, ∃ a, translate true ram P (h.vaddr + k) = some a ∧
    ram a = if k < h.filesz then file (buf + h.off + k) else 0

/-! ### Copies -/

/-- The step copies the byte `v` to the address `va`. -/
def Copies (x : System.Step Loader LoadEvent) (va : ℕ) (v : BitVec 8) : Prop :=
  x.ev = .copy ∧ ∃ j < x.pre.call.size, va = x.pre.call.va + j ∧
    v = x.pre.call.buf.bytes x.pre.vm.ram j

/-- Some step copies the byte `v` to the address `va`. -/
def Copied (tr : List (System.Step Loader LoadEvent)) (va : ℕ) (v : BitVec 8) : Prop :=
  ∃ x ∈ tr, Copies x va v

theorem copied_snoc {tr : List (System.Step Loader LoadEvent)} {x : System.Step Loader LoadEvent}
    {va : ℕ} {v : BitVec 8} : Copied (tr ++ [x]) va v ↔ Copied tr va v ∨ Copies x va v := by
  unfold Copied
  constructor
  · rintro ⟨y, hy, hcopy⟩
    rcases List.mem_append.1 hy with hy | hy
    · exact Or.inl ⟨y, hy, hcopy⟩
    · obtain rfl := List.mem_singleton.1 hy
      exact Or.inr hcopy
  · rintro (⟨y, hy, hcopy⟩ | hcopy)
    · exact ⟨y, List.mem_append_left _ hy, hcopy⟩
    · exact ⟨x, by simp, hcopy⟩

theorem copies_copy {l l' : Loader} {va : ℕ} {v : BitVec 8} : Copies ⟨l, .copy, l'⟩ va v ↔
    ∃ j < l.call.size, va = l.call.va + j ∧ v = l.call.buf.bytes l.vm.ram j :=
  and_iff_right rfl

theorem copied_snoc_of_ne {tr : List (System.Step Loader LoadEvent)}
    {x : System.Step Loader LoadEvent} {va : ℕ} {v : BitVec 8} (hx : x.ev ≠ .copy) :
    Copied (tr ++ [x]) va v ↔ Copied tr va v := by
  rw [copied_snoc, or_iff_left fun hcopy => hx hcopy.1]

/-- Whatever the step copies behind the bytes of a segment that are in the file is zero. -/
def TailZero (file : Ram) (buf : ℕ) (x : System.Step Loader LoadEvent) : Prop :=
  ∀ va v, Copies x va v → ∀ i, Segment file buf i → va ∈ (fileHdr file buf i).tail → v = 0

/-- The addresses that are left to copy to. -/
def CopyCall.rest (c : CopyCall) : Set ℕ := Set.Ico c.va (c.va + c.len)

namespace CopyCall

variable {c : CopyCall} {va : ℕ}

theorem rest_of_len (h : c.len = 0) : va ∉ c.rest := by
  rintro ⟨h₁, h₂⟩
  rw [h] at h₂
  exact absurd (h₁.trans_lt h₂) (lt_irrefl _)

theorem size_le (c : CopyCall) : c.size ≤ c.len := Nat.min_le_right _ _

/-- After an iteration the rest starts behind the bytes that were copied. -/
theorem next_eq (hva : c.va + c.len ≤ 2 ^ 31) (hlen : 0 < c.len) (hmore : 0 < c.next.len) :
    c.next.va = c.va + c.size ∧ c.next.len + c.size = c.len := by
  have hsize := size_eq (c := c) (by omega)
  have hle := c.size_le
  have hround := pgrounddown_eq (a := c.va) (by omega)
  unfold next at hmore ⊢
  dsimp only at hmore ⊢
  rw [hround]
  unfold add64 pgsize
  constructor
  · omega
  · omega

theorem mem_rest_next (hva : c.va + c.len ≤ 2 ^ 31) (hlen : 0 < c.len) :
    va ∈ c.next.rest ↔ va ∈ c.rest ∧ va ∉ Set.Ico c.va (c.va + c.size) := by
  have hle := c.size_le
  rcases Nat.eq_zero_or_pos c.next.len with hend | hmore
  · have hall : c.size = c.len := by
      have hsub : c.len - c.size = 0 := hend
      omega
    rw [hall]
    exact ⟨fun h => absurd h (rest_of_len hend), fun h => absurd h.1 h.2⟩
  · obtain ⟨hnext, hsum⟩ := next_eq hva hlen hmore
    unfold rest
    rw [hnext]
    simp only [Set.mem_Ico]
    omega

end CopyCall

/-! ### Steps -/

theorem loadSystem_stacked {pml4 pluginElf : ℕ} {l l' : Loader} {e : LoadEvent}
    (hstep : (loadSystem pml4 pluginElf).step l e l') (hstacked : l'.stacked = false) :
    l.stacked = false := by
  cases e with
  | copy =>
    obtain ⟨-, vm, -, rfl⟩ := hstep
    exact hstacked
  | stack => exact hstep.2.2.1
  | header progHdr =>
    obtain ⟨-, -, -, hstep⟩ := hstep
    split_ifs at hstep with htype
    · rw [hstep] at hstacked
      exact hstacked
    · obtain ⟨r, vm, -, rfl⟩ := hstep
      exact hstacked

/-! ### The invariant of the loop -/

/-- After `cnt` headers, when the steps `tr` were made. -/
structure ImageInv (U : Set ℕ) (kind₀ : Kinds) (s₀ : VmState) (P buf cnt : ℕ)
    (tr : List (System.Step Loader LoadEvent)) (l : Loader) : Prop where
  /-- The page tables are what they should be. -/
  inv : LoaderInv U kind₀ s₀ P l
  /-- The addresses up to `size` are mapped. -/
  reached : Reached l.vm.ram P l.size
  /-- The file is as it was. -/
  buffer : ∀ a ∈ Set.Ico buf (buf + bufferSize), l.vm.ram a = s₀.ram a
  /-- The headers that are left. -/
  count : cnt + l.left = (elfHdrAt s₀.ram buf).phnum
  /-- The next header. -/
  off : l.off = ((elfHdrAt s₀.ram buf).phoff + sizeofProgHdr * cnt : ℕ)
  /-- The rest of a segment is copied. -/
  call : 0 < l.call.len → ∃ i < cnt, Segment s₀.ram buf i ∧ ∃ k,
    k + l.call.len = (fileHdr s₀.ram buf i).memsz ∧ l.call.va = (fileHdr s₀.ram buf i).vaddr + k ∧
      l.call.buf = .memory (p2v (buf + (fileHdr s₀.ram buf i).off + k))
  /-- The process has pages there. -/
  mapped : ∀ va ∈ l.call.rest, translate true l.vm.ram P va ≠ none
  /-- Every byte of the segments so far was copied or is going to be. -/
  covered : ∀ i < cnt, Segment s₀.ram buf i → ∀ k < (fileHdr s₀.ram buf i).memsz,
    (fileHdr s₀.ram buf i).vaddr + k ∈ l.call.rest ∨
      ∃ v, Copied tr ((fileHdr s₀.ram buf i).vaddr + k) v ∧
        (k < (fileHdr s₀.ram buf i).filesz → v = s₀.ram (buf + (fileHdr s₀.ram buf i).off + k))
  /-- What was copied is there. -/
  kept : ∀ va v, Copied tr va v → ∃ a, translate true l.vm.ram P va = some a ∧ l.vm.ram a = v
  /-- It is not copied again. -/
  past : ∀ va v, Copied tr va v → va < 2 ^ 31 ∧ va ∉ l.call.rest ∧
    ∀ i, cnt ≤ i → Segment s₀.ram buf i → va ∉ (fileHdr s₀.ram buf i).range

namespace ImageInv

variable {U : Set ℕ} {kind₀ : Kinds} {s₀ vm : VmState} {P buf cnt : ℕ} {l l' : Loader} {r : ℤ}
  {tr : List (System.Step Loader LoadEvent)} {progHdr : ProgHdr}

theorem header_eq (h : ImageInv U kind₀ s₀ P buf cnt tr l) (hfile : ImageFile s₀.ram buf)
    (hbuf : buf + bufferSize ≤ 2 ^ 64) (hleft : 0 < l.left)
    (hread : readProgHdr (hdrAddr (p2v buf) l.off) l.vm = some (progHdr, l.vm)) :
    progHdr = fileHdr s₀.ram buf cnt := by
  obtain ⟨-, hhdr, -⟩ := readProgHdr_eq_some.1 hread
  have htable := hfile.table
  have hcount := h.count
  have hsize : bufferSize = 65536 := rfl
  have hpos : 0 < sizeofProgHdr := by decide
  have hlast : sizeofProgHdr * cnt + sizeofProgHdr ≤
      sizeofProgHdr * (elfHdrAt s₀.ram buf).phnum := by
    rw [← Nat.mul_succ]
    exact Nat.mul_le_mul_left _ (by omega)
  have hplace : buf + ((elfHdrAt s₀.ram buf).phoff + sizeofProgHdr * cnt) / 4 * 4 =
      buf + (elfHdrAt s₀.ram buf).phoff / 4 * 4 + sizeofProgHdr * cnt := by
    unfold sizeofProgHdr
    omega
  rw [h.off, hdrAddr_eq (by omega), AllocInv.v2p_p2v (by omega), hplace] at hhdr
  rw [← hhdr]
  refine progHdrAt_congr fun a ha => h.buffer a ⟨?_, ?_⟩
  · have := ha.1
    omega
  · have := ha.2
    omega

theorem buffer_grow (h : ImageInv U kind₀ s₀ P buf cnt tr l) {kind kind' : Kinds}
    (hload : Loading U kind₀ s₀ P kind l.vm) (hload' : Loading U kind₀ s₀ P kind' vm)
    (hgrows : Grows ∅ kind l.vm kind' vm) (hblock : ⟨⟨buf, bufferSize⟩, .other⟩ ∈ s₀.log) :
    ∀ a ∈ Set.Ico buf (buf + bufferSize), vm.ram a = s₀.ram a := by
  intro a ha
  rw [← h.buffer a ha]
  exact hgrows.ram_eq hload'.inv.blocks (hload.links.log _ hblock) Purpose.noConfusion ha

theorem nextOff_eq_off (h : ImageInv U kind₀ s₀ P buf cnt tr l) (hfile : ImageFile s₀.ram buf)
    (hleft : 0 < l.left) :
    nextOff l.off = ((elfHdrAt s₀.ram buf).phoff + sizeofProgHdr * (cnt + 1) : ℕ) := by
  have htable := hfile.table
  have hcount := h.count
  have hsize : bufferSize = 65536 := rfl
  have hlast : sizeofProgHdr * (cnt + 1) ≤ sizeofProgHdr * (elfHdrAt s₀.ram buf).phnum :=
    Nat.mul_le_mul_left _ (by omega)
  rw [Nat.mul_succ] at hlast ⊢
  rw [h.off, nextOff_eq (by omega), Nat.add_assoc]

theorem skip (h : ImageInv U kind₀ s₀ P buf cnt tr l) (hfile : ImageFile s₀.ram buf)
    (hleft : 0 < l.left) (hlen : l.call.len = 0)
    (htype : (fileHdr s₀.ram buf cnt).type ≠ elfProgLoad) {x : System.Step Loader LoadEvent}
    (hx : x.ev ≠ .copy) : ImageInv U kind₀ s₀ P buf (cnt + 1) (tr ++ [x]) l.skip where
  inv := ⟨h.inv.loading, h.inv.size_lt, h.inv.va_lt⟩
  reached := h.reached
  buffer := h.buffer
  count := by
    have hcount := h.count
    show cnt + 1 + (l.left - 1) = _
    omega
  off := h.nextOff_eq_off hfile hleft
  call := fun hpos => absurd hlen hpos.ne'
  mapped := h.mapped
  covered := by
    intro i hi hseg k hk
    have hold : i < cnt := by
      rcases Nat.lt_succ_iff_lt_or_eq.1 hi with hlt | rfl
      · exact hlt
      · exact absurd hseg.2 htype
    simp only [copied_snoc_of_ne hx]
    exact h.covered i hold hseg k hk
  kept := by
    simp only [copied_snoc_of_ne hx]
    exact h.kept
  past := by
    simp only [copied_snoc_of_ne hx]
    intro va v hcopy
    obtain ⟨hlow, hrest, hlater⟩ := h.past va v hcopy
    exact ⟨hlow, hrest, fun i hi => hlater i (Nat.le_of_succ_le hi)⟩

theorem segment (h : ImageInv U kind₀ s₀ P buf cnt tr l) (h₀ : VmInv U kind₀ s₀)
    (hfile : ImageFile s₀.ram buf) (hblock : ⟨⟨buf, bufferSize⟩, .other⟩ ∈ s₀.log)
    (hleft : 0 < l.left) (hlen : l.call.len = 0) (hseg : Segment s₀.ram buf cnt)
    (hcall : allocUvm (p2v P) l.size
      (add64 (fileHdr s₀.ram buf cnt).vaddr (fileHdr s₀.ram buf cnt).memsz) l.vm = some (r, vm))
    {x : System.Step Loader LoadEvent} (hx : x.ev ≠ .copy) :
    ImageInv U kind₀ s₀ P buf (cnt + 1) (tr ++ [x])
      (l.segment (p2v buf) (fileHdr s₀.ram buf cnt) r vm) := by
  obtain ⟨kind, hload⟩ := h.inv.loading
  obtain ⟨kind', hload', hgrows, -⟩ := hload.grow h.inv.size_lt (add64_lt _ _) hcall
  obtain ⟨hreached, hmapped⟩ := h.reached.grow hload h.inv.size_lt (add64_lt _ _) hcall
  have hbelow := hfile.below cnt hseg
  rw [add64_of_lt (by omega)] at hmapped
  have hempty : ∀ va, va ∉ l.call.rest := fun va => CopyCall.rest_of_len hlen
  refine ⟨⟨⟨kind', hload'⟩, ofInt_lt r, ?_⟩, hreached, h.buffer_grow hload hload' hgrows hblock, ?_,
    h.nextOff_eq_off hfile hleft, fun _ => ⟨cnt, Nat.lt_succ_self cnt, hseg, 0, ?_, ?_, ?_⟩,
    fun va hva => ?_, fun i hi hseg' k hk => ?_, fun va v hcopy => ?_, fun va v hcopy => ?_⟩
  · show (fileHdr s₀.ram buf cnt).vaddr < 2 ^ 64
    omega
  · have hcount := h.count
    show cnt + 1 + (l.left - 1) = _
    omega
  · exact Nat.zero_add _
  · exact (Nat.add_zero _).symm
  · rw [Nat.add_zero, ← add64_p2v]
    rfl
  · obtain ⟨-, hlt⟩ : va ∈ (fileHdr s₀.ram buf cnt).range := hva
    exact hmapped va hlt (by omega)
  · simp only [copied_snoc_of_ne hx]
    rcases Nat.lt_succ_iff_lt_or_eq.1 hi with hold | rfl
    · exact Or.inr ((h.covered i hold hseg' k hk).resolve_left (hempty _))
    · exact Or.inl ⟨Nat.le_add_right _ _, Nat.add_lt_add_left hk _⟩
  · rw [copied_snoc_of_ne hx] at hcopy
    obtain ⟨a, ha, hv⟩ := h.kept va v hcopy
    refine ⟨a, hgrows.translate hload.inv hload.top ha, ?_⟩
    rw [← hv]
    exact (hload.own_of_translate h₀ ha).ram_eq hgrows hload'.inv.blocks
  · rw [copied_snoc_of_ne hx] at hcopy
    obtain ⟨hlow, -, hlater⟩ := h.past va v hcopy
    exact ⟨hlow, hlater cnt le_rfl hseg, fun i hi => hlater i (Nat.le_of_succ_le hi)⟩

/-- The call of `copy_uvm` is for a segment whose header was read. -/
theorem rest_subset (h : ImageInv U kind₀ s₀ P buf cnt tr l) (hlen : 0 < l.call.len) :
    ∃ i < cnt, Segment s₀.ram buf i ∧ l.call.rest ⊆ (fileHdr s₀.ram buf i).range := by
  obtain ⟨i, hi, hseg, k, hk, hva, -⟩ := h.call hlen
  refine ⟨i, hi, hseg, fun va hmem => ?_⟩
  obtain ⟨h₁, h₂⟩ := hmem
  rw [hva] at h₁ h₂
  exact ⟨by omega, by omega⟩

theorem bytes_eq (h : ImageInv U kind₀ s₀ P buf cnt tr l) (hfile : ImageFile s₀.ram buf)
    (hbuf : buf + bufferSize ≤ 2 ^ 64) (hlen : 0 < l.call.len) {i j k : ℕ}
    (hseg : Segment s₀.ram buf i) (hva : l.call.va + j = (fileHdr s₀.ram buf i).vaddr + k)
    (hj : j < l.call.len) (hkm : k < (fileHdr s₀.ram buf i).memsz)
    (hk : k < (fileHdr s₀.ram buf i).filesz) :
    l.call.buf.bytes l.vm.ram j = s₀.ram (buf + (fileHdr s₀.ram buf i).off + k) := by
  obtain ⟨i', -, hseg', k', hlen', hva', hbytes⟩ := h.call hlen
  have hsame : i' = i := by
    by_contra hne
    have hmem' : l.call.va + j ∈ (fileHdr s₀.ram buf i').range := ⟨by omega, by omega⟩
    have hmem : l.call.va + j ∈ (fileHdr s₀.ram buf i).range := ⟨by omega, by omega⟩
    exact Set.disjoint_left.1 (hfile.disjoint i' i hseg' hseg hne) hmem' hmem
  subst hsame
  have hin := hfile.file i' hseg
  have hplace : buf + (fileHdr s₀.ram buf i').off + k' + j =
      buf + (fileHdr s₀.ram buf i').off + k := by
    omega
  rw [hbytes, ← hplace, ← h.buffer _ ⟨by omega, by omega⟩]
  show l.vm.ram (v2p (p2v _) + j) = _
  rw [AllocInv.v2p_p2v (by omega)]

theorem rest_le (h : ImageInv U kind₀ s₀ P buf cnt tr l) (hfile : ImageFile s₀.ram buf)
    (hlen : 0 < l.call.len) : l.call.va + l.call.len ≤ 2 ^ 31 := by
  obtain ⟨i, -, hseg, k, hk, hva, -⟩ := h.call hlen
  have hbelow := hfile.below i hseg
  omega

theorem call_next (h : ImageInv U kind₀ s₀ P buf cnt tr l) (hfile : ImageFile s₀.ram buf)
    (hlen : 0 < l.call.len) (hmore : 0 < l.call.next.len) :
    ∃ i < cnt, Segment s₀.ram buf i ∧ ∃ k,
      k + l.call.next.len = (fileHdr s₀.ram buf i).memsz ∧
        l.call.next.va = (fileHdr s₀.ram buf i).vaddr + k ∧
        l.call.next.buf = .memory (p2v (buf + (fileHdr s₀.ram buf i).off + k)) := by
  obtain ⟨hnext, hsum⟩ := CopyCall.next_eq (h.rest_le hfile hlen) hlen hmore
  obtain ⟨i, hi, hseg, k, hk, hva, hbytes⟩ := h.call hlen
  refine ⟨i, hi, hseg, k + l.call.size, by omega, by omega, ?_⟩
  show l.call.buf.drop l.call.size = _
  rw [hbytes, ← Nat.add_assoc, ← add64_p2v (_ + k)]
  rfl

/-- A byte of a segment is copied by the iteration, or was before, or is going to be. -/
theorem covered_next (h : ImageInv U kind₀ s₀ P buf cnt tr l) (hfile : ImageFile s₀.ram buf)
    (hbuf : buf + bufferSize ≤ 2 ^ 64) (hlen : 0 < l.call.len) {i k : ℕ} (hi : i < cnt)
    (hseg : Segment s₀.ram buf i) (hk : k < (fileHdr s₀.ram buf i).memsz) :
    (fileHdr s₀.ram buf i).vaddr + k ∈ l.call.next.rest ∨
      ∃ v, Copied (tr ++ [⟨l, .copy, l'⟩]) ((fileHdr s₀.ram buf i).vaddr + k) v ∧
        (k < (fileHdr s₀.ram buf i).filesz →
          v = s₀.ram (buf + (fileHdr s₀.ram buf i).off + k)) := by
  have hsize := l.call.size_le
  simp only [copied_snoc, copies_copy]
  rcases h.covered i hi hseg k hk with hin | ⟨v, hcopied, hbyte⟩
  · by_cases hpage : (fileHdr s₀.ram buf i).vaddr + k ∈
        Set.Ico l.call.va (l.call.va + l.call.size)
    · obtain ⟨h₁, h₂⟩ := hpage
      obtain ⟨j, hj⟩ := Nat.exists_eq_add_of_le h₁
      refine Or.inr ⟨_, Or.inr ⟨j, by omega, hj, rfl⟩, fun hfilesz => ?_⟩
      exact h.bytes_eq hfile hbuf hlen hseg hj.symm (by omega) hk hfilesz
    · exact Or.inl ((CopyCall.mem_rest_next (h.rest_le hfile hlen) hlen).2 ⟨hin, hpage⟩)
  · exact Or.inr ⟨v, Or.inl hcopied, hbyte⟩

/-- What the iteration copies is not copied again. -/
theorem past_next (h : ImageInv U kind₀ s₀ P buf cnt tr l) (hfile : ImageFile s₀.ram buf)
    (hlen : 0 < l.call.len) {va : ℕ} {v : BitVec 8} (hcopy : Copied (tr ++ [⟨l, .copy, l'⟩]) va v) :
    va < 2 ^ 31 ∧ va ∉ l.call.next.rest ∧
      ∀ i, cnt ≤ i → Segment s₀.ram buf i → va ∉ (fileHdr s₀.ram buf i).range := by
  have hle := h.rest_le hfile hlen
  have hsize := l.call.size_le
  rw [copied_snoc, copies_copy] at hcopy
  rcases hcopy with hold | ⟨j, hj, rfl, rfl⟩
  · obtain ⟨hlow, hout, hlater⟩ := h.past va v hold
    exact ⟨hlow, fun hin => hout ((CopyCall.mem_rest_next hle hlen).1 hin).1, hlater⟩
  · obtain ⟨i, hi, hseg, hsub⟩ := h.rest_subset hlen
    have hin : l.call.va + j ∈ l.call.rest := ⟨by omega, by omega⟩
    refine ⟨by omega, fun hnext =>
      ((CopyCall.mem_rest_next hle hlen).1 hnext).2 ⟨by omega, by omega⟩, fun i' hi' hseg' => ?_⟩
    exact Set.disjoint_left.1 (hfile.disjoint i i' hseg hseg' (by omega)) (hsub hin)

theorem copy (h : ImageInv U kind₀ s₀ P buf cnt tr l) (h₀ : VmInv U kind₀ s₀)
    (hfile : ImageFile s₀.ram buf) (hbuf : buf + bufferSize ≤ 2 ^ 64)
    (hblock : ⟨⟨buf, bufferSize⟩, .other⟩ ∈ s₀.log) {pluginElf : ℕ}
    (hstep : (loadSystem (p2v P) pluginElf).step l .copy l') :
    ImageInv U kind₀ s₀ P buf cnt (tr ++ [⟨l, .copy, l'⟩]) l' := by
  have hlen : 0 < l.call.len := hstep.1
  obtain ⟨kind, hload⟩ := h.inv.loading
  have hle := h.rest_le hfile hlen
  have hfirst : l.call.va ∈ l.call.rest := ⟨le_rfl, Nat.lt_add_of_pos_right hlen⟩
  obtain ⟨hdst, hown⟩ := hload.copy_mapped h₀ h.inv.va_lt (h.mapped _ hfirst)
  have hspare := sparesTables_of_own hload.inv.blocks hown
  have hinv := h.inv.copy hstep hspare
  obtain ⟨-, vm, hcall, rfl⟩ := hstep
  obtain ⟨-, -, rfl⟩ := (CopyCall.copyPage_eq_some hload.inv hload.top h.inv.va_lt hlen).1 hcall
  obtain ⟨-, hkeep⟩ := hload.store (f := l.call.buf.bytes l.vm.ram) hspare
  have hmap : ∀ va, translate true l.vm.ram P va ≠ none →
      translate true (l.vm.ram.writeBytes (l.call.dst l.vm.ram P) l.call.size
        (l.call.buf.bytes l.vm.ram)) P va ≠ none :=
    fun va => ne_none_of_imp (hkeep va true)
  have hsize := l.call.size_le
  refine ⟨hinv, h.reached.mono hmap, fun a ha => ?_, h.count, h.off, h.call_next hfile hlen,
    fun va hva => hmap va (h.mapped va ((CopyCall.mem_rest_next hle hlen).1 hva).1),
    fun i hi hseg k => h.covered_next hfile hbuf hlen hi hseg, fun va v hcopy => ?_,
    fun va v => h.past_next hfile hlen⟩
  · -- the buffer is no frame of the process
    have hout : a ∉ l.call.target l.vm.ram P := by
      intro hin
      have hpurpose := ((hown a hin).purpose_of_mem hload.inv.blocks
        (hload.links.log _ hblock) ha).1
      cases hpurpose
    rw [← h.buffer a ha]
    exact Ram.writeBytes_of_not_mem hout
  · rw [copied_snoc, copies_copy] at hcopy
    rcases hcopy with hold | ⟨j, hj, rfl, rfl⟩
    · obtain ⟨a, ha, hv⟩ := h.kept va v hold
      obtain ⟨hlow, hout, -⟩ := h.past va v hold
      refine ⟨a, hkeep va true a ha, ?_⟩
      rw [← hv]
      refine Ram.writeBytes_of_not_mem fun hin => hout ?_
      -- no other address leads there
      obtain ⟨h₁, h₂⟩ := hin
      obtain ⟨j, rfl⟩ := Nat.exists_eq_add_of_le h₁
      have hsame := hload.inv.translate_inj hload.top ha (hdst j (by omega))
      have heq : va = l.call.va + j := by omega
      rw [heq]
      exact ⟨by omega, by omega⟩
    · exact ⟨_, hkeep _ true _ (hdst j hj), Ram.writeBytes_add hj⟩

theorem start {kind kind' : Kinds} (hload : Loading U kind₀ s₀ P kind' vm)
    (hgrows : Grows ∅ kind s₀ kind' vm) (hfile : ImageFile s₀.ram buf)
    (hblock : ⟨⟨buf, bufferSize⟩, .other⟩ ∈ s₀.log) :
    ImageInv U kind₀ s₀ P buf 0 [] (.start vm (elfHdrAt s₀.ram buf)) := by
  have htable := hfile.table
  have hsize : bufferSize = 65536 := rfl
  have hoff : (elfHdrAt s₀.ram buf).off = ((elfHdrAt s₀.ram buf).phoff : ℤ) := off_eq (by omega)
  have hnone : ∀ va v, ¬Copied [] va v := by
    rintro va v ⟨x, hx, -⟩
    cases hx
  refine ⟨hload.loaderInv_start _, hload.reached,
    fun a ha => hgrows.ram_eq hload.inv.blocks hblock Purpose.noConfusion ha, ?_, ?_,
    fun hlen => absurd hlen (lt_irrefl 0), fun va hva => absurd hva (CopyCall.rest_of_len rfl),
    fun i hi => absurd hi (Nat.not_lt_zero i), fun va v hcopy => absurd hcopy (hnone va v),
    fun va v hcopy => absurd hcopy (hnone va v)⟩
  · exact Nat.zero_add _
  · rw [Nat.mul_zero, Nat.add_zero]
    unfold Loader.start
    dsimp only
    rw [hoff]

theorem step (h : ImageInv U kind₀ s₀ P buf cnt tr l) (h₀ : VmInv U kind₀ s₀)
    (hfile : ImageFile s₀.ram buf) (hbuf : buf + bufferSize ≤ 2 ^ 64)
    (hblock : ⟨⟨buf, bufferSize⟩, .other⟩ ∈ s₀.log) {e : LoadEvent}
    (hstep : (loadSystem (p2v P) (p2v buf)).step l e l') (hstacked : l'.stacked = false) :
    ∃ cnt', ImageInv U kind₀ s₀ P buf cnt' (tr ++ [⟨l, e, l'⟩]) l' := by
  cases e with
  | copy => exact ⟨cnt, h.copy h₀ hfile hbuf hblock hstep⟩
  | stack =>
    obtain ⟨-, -, -, r, vm, -, rfl⟩ := hstep
    cases hstacked
  | header progHdr =>
    obtain ⟨hlen, hleft, hread, hstep⟩ := hstep
    obtain rfl := h.header_eq hfile hbuf hleft hread
    split_ifs at hstep with htype
    · subst hstep
      exact ⟨cnt + 1, h.skip hfile hleft hlen htype LoadEvent.noConfusion⟩
    · obtain ⟨r, vm, hcall, rfl⟩ := hstep
      have hcount := h.count
      have hseg : Segment s₀.ram buf cnt := ⟨by omega, not_not.1 htype⟩
      exact ⟨cnt + 1, h.segment h₀ hfile hblock hleft hlen hseg hcall LoadEvent.noConfusion⟩

theorem run (h : ImageInv U kind₀ s₀ P buf 0 [] l) (h₀ : VmInv U kind₀ s₀)
    (hfile : ImageFile s₀.ram buf) (hbuf : buf + bufferSize ≤ 2 ^ 64)
    (hblock : ⟨⟨buf, bufferSize⟩, .other⟩ ∈ s₀.log)
    (hrun : (loadSystem (p2v P) (p2v buf)).Run l tr l') (hstacked : l'.stacked = false) :
    ∃ cnt, ImageInv U kind₀ s₀ P buf cnt tr l' := by
  induction hrun with
  | nil => exact ⟨0, h⟩
  | snoc _ hstep ih =>
    obtain ⟨cnt, hinv⟩ := ih (loadSystem_stacked hstep hstacked)
    exact hinv.step h₀ hfile hbuf hblock hstep hstacked

theorem loaded_iff (h : ImageInv U kind₀ s₀ P buf cnt tr l) (hleft : l.left = 0)
    (hlen : l.call.len = 0) :
    (∀ i, Segment s₀.ram buf i → SegmentLoaded s₀.ram buf (fileHdr s₀.ram buf i) l.vm.ram P) ↔
      ∀ x ∈ tr, TailZero s₀.ram buf x := by
  have hcount := h.count
  constructor
  · intro hall x hx va v hcopy i hseg hva
    obtain ⟨a, ha, hv⟩ := h.kept va v ⟨x, hx, hcopy⟩
    obtain ⟨h₁, h₂⟩ := hva
    obtain ⟨k, rfl⟩ := Nat.exists_eq_add_of_le ((Nat.le_add_right _ _).trans h₁)
    obtain ⟨a', ha', hbyte⟩ := hall i hseg k (by omega)
    obtain rfl : a' = a := Option.some.inj (ha'.symm.trans ha)
    rw [if_neg (by omega)] at hbyte
    rw [← hv, hbyte]
  · intro htail i hseg k hk
    obtain ⟨v, hcopied, hbyte⟩ := (h.covered i (by have := hseg.1; omega) hseg k hk).resolve_left
      (CopyCall.rest_of_len hlen)
    obtain ⟨a, ha, hv⟩ := h.kept _ v hcopied
    refine ⟨a, ha, hv.trans ?_⟩
    by_cases hfilesz : k < (fileHdr s₀.ram buf i).filesz
    · rw [if_pos hfilesz]
      exact hbyte hfilesz
    · rw [if_neg hfilesz]
      obtain ⟨x, hx, hcopy⟩ := hcopied
      exact htail x hx _ v hcopy i hseg ⟨by omega, by omega⟩

end ImageInv

/-! ### Files with one segment -/

section OneHeader

variable {h : ProgHdr} {s : UserSpaces} {P : ℕ} {s₁ : VmState}

namespace Prepared

theorem fileHdr_eq (hp : Prepared (oneHeaderFile h) s P s₁) (hfits : h.Fits) :
    fileHdr s.vm.ram pluginBuf 0 = h := by
  have hplace : pluginBuf + sizeofElfHdr / 4 * 4 + sizeofProgHdr * 0 = pluginBuf + 64 := rfl
  unfold fileHdr
  rw [hp.elfHdrAt_eq, hplace, ← progHdrAt_oneHeaderFile hfits]
  refine progHdrAt_congr fun b hb => hp.ram_eq b ⟨?_, ?_⟩
  · exact (Nat.le_add_right _ _).trans hb.1
  · exact hb.2.trans_le (by decide)

theorem segment_iff (hp : Prepared (oneHeaderFile h) s P s₁) (hfits : h.Fits)
    (htype : h.type = elfProgLoad) {i : ℕ} : Segment s.vm.ram pluginBuf i ↔ i = 0 := by
  unfold Segment
  rw [hp.elfHdrAt_eq]
  constructor
  · rintro ⟨hi, -⟩
    exact Nat.lt_one_iff.1 hi
  · rintro rfl
    rw [hp.fileHdr_eq hfits]
    exact ⟨Nat.one_pos, htype⟩

theorem imageFile (hp : Prepared (oneHeaderFile h) s P s₁) (hfits : h.Fits)
    (htype : h.type = elfProgLoad) (hfilesz : h.filesz ≤ h.memsz)
    (hbelow : h.vaddr + h.memsz ≤ 2 ^ 31) (hfile : h.off + h.filesz ≤ bufferSize) :
    ImageFile s.vm.ram pluginBuf := by
  have hhdr := hp.fileHdr_eq hfits
  refine ⟨?_, fun i hi => ?_, fun i hi => ?_, fun i hi => ?_, fun i j hi hj hne => ?_⟩
  · rw [hp.elfHdrAt_eq]
    decide
  · rw [(hp.segment_iff hfits htype).1 hi, hhdr]
    exact hfilesz
  · rw [(hp.segment_iff hfits htype).1 hi, hhdr]
    exact hbelow
  · rw [(hp.segment_iff hfits htype).1 hi, hhdr]
    exact hfile
  · rw [(hp.segment_iff hfits htype).1 hi, (hp.segment_iff hfits htype).1 hj] at hne
    exact absurd rfl hne

end Prepared

end OneHeader

/-! ### The image -/

/-- After the loop over the headers, the process sees every segment as the file describes it exactly
when the bytes that were copied from behind the segments' parts of the file were zero. -/
theorem loadSystem_image_iff {map : List E820Entry} {m : Memblock} {ram : Ram} {s : UserSpaces}
    {tr₀ : List (System.Step UserSpaces VmCall)} {pml4 buf : ℕ} {s₁ : VmState} {l : Loader}
    {tr : List (System.Step Loader LoadEvent)}
    (hmap : ∀ x ∈ usableEntries map, x.addr + x.len < 2 ^ 64 - 1) (hinit : memblockInit map = .ok m)
    (hboot : vmSystem.Run (.boot m ram) tr₀ s) (hkern : s.vm.kernPml4 ≠ 0)
    (hblock : ⟨⟨buf, bufferSize⟩, .other⟩ ∈ s.vm.log) (hfile : ImageFile s.vm.ram buf)
    (hsetup : setupUserMemoryPages s.vm = some (pml4, s₁))
    (hrun : (loadSystem pml4 (p2v buf)).Run (.start s₁ (elfHdrAt s.vm.ram buf)) tr l)
    (hleft : l.left = 0) (hlen : l.call.len = 0) (hstacked : l.stacked = false) :
    (∀ i, Segment s.vm.ram buf i →
      SegmentLoaded s.vm.ram buf (fileHdr s.vm.ram buf i) l.vm.ram (v2p pml4)) ↔
        ∀ x ∈ tr, TailZero s.vm.ram buf x := by
  obtain ⟨kind₀, kind, P, rfl, hP, h₀, hload, hgrows⟩ :=
    exists_loading hmap hinit hboot hkern hsetup
  have hbuf : buf + bufferSize ≤ 2 ^ 64 := by
    have hlast : buf + (bufferSize - 1) ∈ Set.Ico buf (buf + bufferSize) :=
      ⟨Nat.le_add_right _ _, Nat.add_lt_add_left (by decide) _⟩
    have hlt := h₀.blocks.lt_of_mem hblock hlast
    have hsize : bufferSize = 65536 := rfl
    omega
  obtain ⟨cnt, hinv⟩ :=
    (ImageInv.start hload hgrows hfile hblock).run h₀ hfile hbuf hblock hrun hstacked
  rw [hP]
  exact hinv.loaded_iff hleft hlen

/-- The image of a file with a segment of one byte. -/
theorem loadSystem_image_iff_oneByte : ∃ s P s₁ tr l,
    Prepared (oneHeaderFile oneByteSegment) s P s₁ ∧
    (loadSystem (p2v P) (p2v pluginBuf)).Run (.start s₁ (elfHdrAt s.vm.ram pluginBuf)) tr l ∧
      ((∀ i, Segment s.vm.ram pluginBuf i →
        SegmentLoaded s.vm.ram pluginBuf (fileHdr s.vm.ram pluginBuf i) l.vm.ram (v2p (p2v P))) ↔
          ∀ x ∈ tr, TailZero s.vm.ram pluginBuf x) := by
  obtain ⟨s, P, s₁, hp⟩ := exists_prepared (oneHeaderFile oneByteSegment)
  obtain ⟨tr, l, hrun, hleft, hlen, hstacked, -⟩ :=
    hp.run_first oneByteSegment_fits rfl (by decide) (by decide) (by decide)
  have hfile := hp.imageFile oneByteSegment_fits rfl (by decide) (by decide) (by decide)
  obtain ⟨tr₀, hboot⟩ := hp.boot
  exact ⟨s, P, s₁, tr, l, hp, hrun,
    loadSystem_image_iff bootMap_lt memblockInit_bootMap hboot hp.kern
    hp.block hfile hp.setup hrun hleft hlen hstacked⟩

/-- A segment of one byte, of which the file has none. -/
def zeroSegment : ProgHdr := ⟨elfProgLoad, 0, 0, 0, 1⟩

theorem zeroSegment_fits : zeroSegment.Fits :=
  ⟨by decide, by decide, by decide, by decide, by decide⟩

/-- The process sees the first byte of the file where the segment should hold zero. -/
theorem not_loadSystem_image : ∃ s P s₁ tr l, Prepared (oneHeaderFile zeroSegment) s P s₁ ∧
    ImageFile s.vm.ram pluginBuf ∧
    (loadSystem (p2v P) (p2v pluginBuf)).Run (.start s₁ (elfHdrAt s.vm.ram pluginBuf)) tr l ∧
      l.left = 0 ∧ l.call.len = 0 ∧ l.stacked = false ∧
      ¬∀ i, Segment s.vm.ram pluginBuf i →
        SegmentLoaded s.vm.ram pluginBuf (fileHdr s.vm.ram pluginBuf i) l.vm.ram (v2p (p2v P)) := by
  obtain ⟨s, P, s₁, hp⟩ := exists_prepared (oneHeaderFile zeroSegment)
  obtain ⟨tr, l, hrun, hleft, hlen, hstacked, x, hx, hev, hvm, hsize, hcall⟩ :=
    hp.run_first zeroSegment_fits rfl (by decide) (by decide) (by decide)
  have hfile := hp.imageFile zeroSegment_fits rfl (by decide) (by decide) (by decide)
  refine ⟨s, P, s₁, tr, l, hp, hfile, hrun, hleft, hlen, hstacked, fun hall => ?_⟩
  obtain ⟨kind₀, kind, h₀, hload, hgrows⟩ := hp.loading
  obtain ⟨cnt, hinv⟩ := (ImageInv.start hload hgrows hfile hp.block).run h₀ hfile
    (by decide) hp.block
    hrun hstacked
  rw [hp.home] at hall
  -- the byte that was copied is the first one of the magic number
  have hcopy : Copies x 0 0x7F := by
    refine ⟨hev, 0, ?_, ?_, ?_⟩
    · rw [hsize]
      decide
    · rw [hcall]
      rfl
    · rw [hcall, hvm]
      show _ = s₁.ram (v2p (p2v pluginBuf) + 0)
      rw [AllocInv.v2p_p2v (by decide), hp.ram_eq_start _ ⟨Nat.le_add_right _ _, by decide⟩]
      decide +kernel
  have hseg := (hp.segment_iff zeroSegment_fits rfl).2 rfl
  have hzero := (hinv.loaded_iff hleft hlen).1 hall x hx 0 0x7F hcopy 0 hseg
  rw [hp.fileHdr_eq zeroSegment_fits] at hzero
  exact absurd (hzero ⟨le_rfl, by decide⟩) (by decide)

end MicroKernel
