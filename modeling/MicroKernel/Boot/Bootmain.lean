import Mathlib.Order.CompletePartialOrder
import Mathlib.Order.Interval.Set.Disjoint
import MicroKernel.Ram.Basic
import MicroKernel.System.While

/-!
# The boot loader

The boot sector reads the beginning of the kernel image from the disk, looks for a multiboot header
in it, reads the part of the image that the header describes to the place it names, clears the
memory behind it and calls the entry point.

* `bootmain` : the function of the boot sector;
* `readsegLoop_spec`, `readseg_spec` : where the bytes of the disk are afterwards;
* `Bootable.find` : the header is found in the image;
* `bootmain_loads` : the memory with which the kernel is entered.
-/

namespace MicroKernel

namespace Bootmain

/-! ### The code -/

/-- `SECTSIZE`. -/
def sectsize : ℕ := 512

/-- The address of the scratch space. -/
def scratch : ℕ := 0x10000

/-- `struct mbheader`. -/
structure Mbheader where
  /-- `magic`. -/
  magic : ℕ
  /-- `flags`. -/
  flags : ℕ
  /-- `checksum`. -/
  checksum : ℕ
  /-- `header_addr`. -/
  headerAddr : ℕ
  /-- `load_addr`. -/
  loadAddr : ℕ
  /-- `load_end_addr`. -/
  loadEndAddr : ℕ
  /-- `bss_end_addr`. -/
  bssEndAddr : ℕ
  /-- `entry_addr`. -/
  entryAddr : ℕ
  deriving DecidableEq

/-- The header at an address. -/
def mbheader (ram : Ram) (a : ℕ) : Mbheader where
  magic := ram.readLe a 4
  flags := ram.readLe (a + 4) 4
  checksum := ram.readLe (a + 8) 4
  headerAddr := ram.readLe (a + 12) 4
  loadAddr := ram.readLe (a + 16) 4
  loadEndAddr := ram.readLe (a + 20) 4
  bssEndAddr := ram.readLe (a + 24) 4
  entryAddr := ram.readLe (a + 28) 4

/-- `readsect`, when the disk is ready: the number of the sector has 28 bits for the controller. -/
def readsect (disk : Ram) (dst offset : ℕ) (ram : Ram) : Ram :=
  ram.writeBytes dst sectsize fun i => disk (sectsize * (offset % 2 ^ 28) + i)

/-- The loop of `readseg`, with at most `n` tests of its condition. -/
def readsegLoop (disk : Ram) (epa : ℕ) : ℕ → ℕ → ℕ → Ram → Option Ram
  | 0, _, _, _ => none
  | n + 1, pa, offset, ram =>
    if pa < epa then
      readsegLoop disk epa n ((pa + sectsize) % 2 ^ 32) ((offset + 1) % 2 ^ 32)
        (readsect disk pa offset ram)
    else some ram

/-- `readseg`. -/
def readseg (disk : Ram) (pa count offset n : ℕ) (ram : Ram) : Option Ram :=
  let epa := (pa + count) % 2 ^ 32
  let pa := (pa + 2 ^ 32 - offset % sectsize) % 2 ^ 32
  let offset := (offset / sectsize + 1) % 2 ^ 32
  readsegLoop disk epa n pa offset ram

/-- The conditions of the loop that looks for the header. -/
def IsHeader (ram : Ram) (x n : ℕ) : Prop :=
  ram.readLe (x + 4 * n) 4 = 0x1BADB002 ∧
    (ram.readLe (x + 4 * n) 4 + ram.readLe (x + 4 * (n + 1)) 4 +
      ram.readLe (x + 4 * (n + 2)) 4) % 2 ^ 32 = 0

instance (ram : Ram) (x : ℕ) : DecidablePred (IsHeader ram x) :=
  fun _ => inferInstanceAs (Decidable (_ ∧ _))

/-- The memory behind the load range is cleared. -/
def clearBss (hdr : Mbheader) (ram : Ram) : Ram :=
  if hdr.bssEndAddr > hdr.loadEndAddr then
    ram.memset hdr.loadEndAddr 0 (hdr.bssEndAddr - hdr.loadEndAddr)
  else ram

/-- What `bootmain` does. -/
inductive Outcome where
  /-- It returns. -/
  | failed
  /-- It calls the entry point. -/
  | entered (entry : ℕ) (ram : Ram)

/-- `bootmain`, where the loop of each call of `readseg` makes at most `fuel` tests. -/
def bootmain (disk : Ram) (fuel : ℕ) (ram : Ram) : Option Outcome := do
  let ram ← readseg disk scratch 8192 0 fuel ram
  match (List.range (8192 / 4)).find? (IsHeader ram scratch ·) with
  | none => some .failed
  | some n =>
    let hdr := mbheader ram (scratch + 4 * n)
    if hdr.flags &&& 0x10000 = 0 then some .failed
    else if hdr.loadAddr > hdr.headerAddr then some .failed
    else if hdr.loadEndAddr < hdr.loadAddr then some .failed
    else
      let ram ← readseg disk hdr.loadAddr (hdr.loadEndAddr - hdr.loadAddr)
        ((n * 4 + 2 ^ 32 - (hdr.headerAddr - hdr.loadAddr)) % 2 ^ 32) fuel ram
      -- the header is still in the scratch space
      let ram := clearBss (mbheader ram (scratch + 4 * n)) ram
      some (.entered (mbheader ram (scratch + 4 * n)).entryAddr ram)

/-! ### Reading a part of the disk -/

section Readseg

/-- The loop reads sector after sector; behind the end, it changes less than a sector. -/
theorem readsegLoop_spec (disk : Ram) (epa n : ℕ) : ∀ (pa offset : ℕ) (ram : Ram),
    epa ≤ pa + sectsize * n → epa + sectsize ≤ 2 ^ 32 → offset + n ≤ 2 ^ 28 →
    ∃ ram', readsegLoop disk epa (n + 1) pa offset ram = some ram' ∧
      (∀ a, pa ≤ a → a < epa → ram' a = disk (sectsize * offset + (a - pa))) ∧
      ∀ a, a < pa ∨ epa + sectsize ≤ a → ram' a = ram a := by
  unfold sectsize
  induction n with
  | zero =>
    intro pa offset ram hepa hwrap hoffset
    refine ⟨ram, ?_, fun a hlow hhigh => ?_, fun _ _ => rfl⟩
    · rw [readsegLoop, if_neg (by omega)]
    · omega
  | succ n ih =>
    intro pa offset ram hepa hwrap hoffset
    by_cases hlt : pa < epa
    · obtain ⟨ram', hloop, hread, hkeep⟩ := ih (pa + 512) (offset + 1)
        (readsect disk pa offset ram) (by omega) hwrap (by omega)
      have hsect : offset % 2 ^ 28 = offset := Nat.mod_eq_of_lt (by omega)
      refine ⟨ram', ?_, fun a hlow hhigh => ?_, fun a ha => ?_⟩
      · rw [readsegLoop, if_pos hlt, sectsize, Nat.mod_eq_of_lt (a := pa + 512) (by omega),
          Nat.mod_eq_of_lt (a := offset + 1) (by omega)]
        exact hloop
      · by_cases hnext : pa + 512 ≤ a
        · rw [hread a hnext hhigh]
          exact congrArg disk (by omega)
        · -- the sectors that follow are behind this byte
          rw [hkeep a (.inl (by omega)), readsect, hsect,
            Ram.writeBytes_of_mem ⟨hlow, by rw [sectsize]; omega⟩]
          rfl
      · rw [hkeep a (by omega), readsect,
          Ram.writeBytes_of_not_mem fun hin => by
            have := hin.1
            have := hin.2
            rw [sectsize] at this
            omega]
    · refine ⟨ram, ?_, fun a hlow hhigh => ?_, fun _ _ => rfl⟩
      · rw [readsegLoop, if_neg hlt]
      · omega

/-- The bytes of the image from `offset` on are read to `pa`; the image begins at the second sector
of the disk, and less than a sector before and behind the range is changed, too. -/
theorem readseg_spec (disk : Ram) {pa count offset n : ℕ} (ram : Ram)
    (hcount : pa + count ≤ pa - sectsize + sectsize * n) (hlow : sectsize ≤ pa)
    (hwrap : pa + count + sectsize ≤ 2 ^ 32) (hoffset : offset + n < 2 ^ 28) :
    ∃ ram', readseg disk pa count offset (n + 1) ram = some ram' ∧
      (∀ i < count, ram' (pa + i) = disk (sectsize + (offset + i))) ∧
      ∀ a, a + sectsize ≤ pa ∨ pa + count + sectsize ≤ a → ram' a = ram a := by
  unfold sectsize at *
  have hepa : (pa + count) % 2 ^ 32 = pa + count := Nat.mod_eq_of_lt (by omega)
  have hpa : (pa + 2 ^ 32 - offset % 512) % 2 ^ 32 = pa - offset % 512 := by omega
  have hsect : (offset / 512 + 1) % 2 ^ 32 = offset / 512 + 1 := Nat.mod_eq_of_lt (by omega)
  obtain ⟨ram', hloop, hread, hkeep⟩ := readsegLoop_spec disk (pa + count) n
    (pa - offset % 512) (offset / 512 + 1) ram (by rw [sectsize]; omega) hwrap (by omega)
  unfold sectsize at hread hkeep
  refine ⟨ram', ?_, fun i hi => ?_, fun a ha => hkeep a (by omega)⟩
  · rw [readseg, hepa, sectsize, hpa, hsect]
    exact hloop
  · rw [hread (pa + i) (by omega) (by omega)]
    exact congrArg disk (by omega)

end Readseg

/-! ### The header -/

section Header

variable {ram ram' : Ram} {a b n : ℕ}

theorem mbheader_congr (h : ∀ i < 32, ram (a + i) = ram' (b + i)) :
    mbheader ram a = mbheader ram' b := by
  have hword (k : ℕ) (hk : k + 4 ≤ 32) : ram.readLe (a + k) 4 = ram'.readLe (b + k) 4 :=
    Ram.readLe_eq_of_bytes 4 fun i hi => by
      rw [Nat.add_assoc, Nat.add_assoc]
      exact h (k + i) (by omega)
  have hmagic := hword 0 (by omega)
  rw [Nat.add_zero, Nat.add_zero] at hmagic
  rw [mbheader, mbheader, hmagic, hword 4 (by omega), hword 8 (by omega), hword 12 (by omega),
    hword 16 (by omega), hword 20 (by omega), hword 24 (by omega), hword 28 (by omega)]

/-- The image begins with a header at the word `n`, which passes the checks. -/
structure Bootable (file : Ram) (n : ℕ) : Prop where
  /-- It is complete. -/
  complete : 4 * n + 32 ≤ 8192
  /-- It is the first. -/
  first : FirstFrom (IsHeader file 0) 0 n
  /-- The addresses are valid. -/
  flags : (mbheader file (4 * n)).flags &&& 0x10000 ≠ 0
  /-- The load range begins before the header. -/
  header : (mbheader file (4 * n)).loadAddr ≤ (mbheader file (4 * n)).headerAddr
  /-- It ends behind its beginning. -/
  load : (mbheader file (4 * n)).loadAddr ≤ (mbheader file (4 * n)).loadEndAddr
  /-- It begins in the image. -/
  start : (mbheader file (4 * n)).headerAddr - (mbheader file (4 * n)).loadAddr ≤ 4 * n

/-- Where in the image the load range begins. -/
def loadOffset (file : Ram) (n : ℕ) : ℕ :=
  4 * n - ((mbheader file (4 * n)).headerAddr - (mbheader file (4 * n)).loadAddr)

/-- The memory of the loader: its sector, and 512 bytes below for its stack, which starts there. -/
def loaderRange : Set ℕ := Set.Ico 0x7A00 0x7E00

/-- The scratch space. -/
def scratchRange : Set ℕ := Set.Ico scratch (scratch + 8192)

/-- The load range and the memory to clear, with a sector before and behind. -/
def Mbheader.range (h : Mbheader) : Set ℕ :=
  Set.Ico (h.loadAddr - sectsize) (max h.loadEndAddr h.bssEndAddr + sectsize)

/-- The range does not wrap around, and spares the loader and its scratch space. -/
structure Mbheader.Spares (h : Mbheader) : Prop where
  /-- There is a sector before it. -/
  low : sectsize ≤ h.loadAddr
  /-- There is a sector behind it. -/
  high : max h.loadEndAddr h.bssEndAddr + sectsize ≤ 2 ^ 32
  /-- The loader is not in it. -/
  loader : Disjoint h.range loaderRange
  /-- The scratch space is not in it. -/
  scratch : Disjoint h.range scratchRange

variable {file : Ram}

theorem isHeader_iff (h : ∀ i < 8192, ram (scratch + i) = file i) (hn : 4 * n + 12 ≤ 8192) :
    IsHeader ram scratch n ↔ IsHeader file 0 n := by
  have hword (k : ℕ) (hk : k ≤ n + 2) :
      ram.readLe (scratch + 4 * k) 4 = file.readLe (0 + 4 * k) 4 :=
    Ram.readLe_eq_of_bytes 4 fun i hi => by
      rw [Nat.add_assoc, h _ (by omega), Nat.zero_add]
  rw [IsHeader, IsHeader, hword n (by omega), hword (n + 1) (by omega), hword (n + 2) (by omega)]

theorem Bootable.find (hfile : Bootable file n) (h : ∀ i < 8192, ram (scratch + i) = file i) :
    (List.range (8192 / 4)).find? (IsHeader ram scratch ·) = some n ∧
      mbheader ram (scratch + 4 * n) = mbheader file (4 * n) := by
  have hcomplete := hfile.complete
  refine ⟨List.find?_range_eq_some.2 ⟨?_, List.mem_range.2 (by omega), fun j hj => ?_⟩,
    mbheader_congr fun i hi => ?_⟩
  · exact decide_eq_true ((isHeader_iff h (by omega)).2 hfile.first.hit_self)
  · have hnot := mt (isHeader_iff h (by omega)).1 (hfile.first.not_hit (Nat.zero_le j) hj)
    simpa using hnot
  · rw [Nat.add_assoc]
    exact h _ (by omega)

end Header

/-! ### The kernel in memory -/

section Load

variable {disk ram : Ram} {hdr : Mbheader} {a n : ℕ}

theorem clearBss_of_mem (ha : a ∈ Set.Ico hdr.loadEndAddr hdr.bssEndAddr) :
    clearBss hdr ram a = 0 := by
  have hlt : hdr.loadEndAddr < hdr.bssEndAddr := ha.1.trans_lt ha.2
  rw [clearBss, if_pos hlt, Ram.memset_of_mem]
  rwa [Nat.add_sub_cancel' hlt.le]

theorem clearBss_of_not_mem (ha : a ∉ Set.Ico hdr.loadEndAddr hdr.bssEndAddr) :
    clearBss hdr ram a = ram a := by
  rw [clearBss]
  split_ifs with hlt
  · rw [Ram.memset_of_not_mem]
    rwa [Nat.add_sub_cancel' (Nat.le_of_lt hlt)]
  · rfl

theorem Mbheader.not_mem_range (hload : hdr.loadAddr ≤ hdr.loadEndAddr) (ha : a ∉ hdr.range) :
    (a + sectsize ≤ hdr.loadAddr ∨ hdr.loadEndAddr + sectsize ≤ a) ∧
      a ∉ Set.Ico hdr.loadEndAddr hdr.bssEndAddr := by
  rw [Mbheader.range, Set.mem_Ico, not_and_or, not_le, not_lt] at ha
  refine ⟨?_, fun hin => ?_⟩
  · omega
  · have := hin.1
    have := hin.2
    omega

/-- The image, which begins at the second sector of the disk. -/
def image (disk : Ram) : Ram := fun i => disk (sectsize + i)

/-- The beginning of the image is read to the scratch space, with no more iterations than there are
sectors in the address space. -/
theorem readseg_scratch {k : ℕ} (hk : k = 2 ^ 23) (disk ram : Ram) :
    ∃ ram', readseg disk scratch 8192 0 (k + 1) ram = some ram' ∧
      (∀ i < 8192, ram' (scratch + i) = image disk i) ∧
      ∀ a, a + sectsize ≤ scratch → ram' a = ram a := by
  have hcount : scratch + 8192 ≤ scratch - sectsize + sectsize * k := by
    unfold scratch sectsize
    omega
  obtain ⟨ram', hseg, hread, hkeep⟩ := readseg_spec disk ram hcount (by decide) (by decide)
    (show 0 + k < 2 ^ 28 by omega)
  refine ⟨ram', hseg, fun i hi => ?_, fun a ha => hkeep a (.inl ha)⟩
  rw [hread i hi, Nat.zero_add]
  rfl

/-- The load range is read and the memory behind it cleared; what is not in the range is kept. -/
theorem readseg_range {k : ℕ} (hk : k = 2 ^ 23) (disk ram : Ram) {offset : ℕ}
    (hload : hdr.loadAddr ≤ hdr.loadEndAddr) (hspares : hdr.Spares) (hoffset : offset ≤ 8192) :
    ∃ ram', readseg disk hdr.loadAddr (hdr.loadEndAddr - hdr.loadAddr) offset (k + 1) ram =
        some ram' ∧
      (∀ i < hdr.loadEndAddr - hdr.loadAddr, ram' (hdr.loadAddr + i) = image disk (offset + i)) ∧
      ∀ a ∉ hdr.range, ram' a = ram a ∧ clearBss hdr ram' a = ram a := by
  have hlow := hspares.low
  have hhigh := hspares.high
  have hcount : hdr.loadAddr + (hdr.loadEndAddr - hdr.loadAddr) ≤
      hdr.loadAddr - sectsize + sectsize * k := by
    unfold sectsize at *
    omega
  obtain ⟨ram', hseg, hread, hkeep⟩ := readseg_spec disk ram hcount hlow (by omega)
    (show offset + k < 2 ^ 28 by omega)
  rw [Nat.add_sub_cancel' hload] at hkeep
  refine ⟨ram', hseg, hread, fun a ha => ?_⟩
  obtain ⟨hout, hbss⟩ := Mbheader.not_mem_range hload ha
  exact ⟨hkeep a hout, (clearBss_of_not_mem hbss).trans (hkeep a hout)⟩

/-- What is in memory when the kernel is entered. -/
theorem bootmain_spec (hfile : Bootable (image disk) n)
    (hhdr : mbheader (image disk) (4 * n) = hdr) (hspares : hdr.Spares) (ram : Ram) :
    ∃ fuel ram', bootmain disk fuel ram = some (.entered hdr.entryAddr ram') ∧
      (∀ i < hdr.loadEndAddr - hdr.loadAddr,
        ram' (hdr.loadAddr + i) = image disk (loadOffset (image disk) n + i)) ∧
      (∀ a ∈ Set.Ico hdr.loadEndAddr hdr.bssEndAddr, ram' a = 0) ∧
      ∀ a ∉ hdr.range, a + sectsize ≤ scratch → ram' a = ram a := by
  obtain ⟨k, hk⟩ : ∃ k, k = 2 ^ 23 := ⟨_, rfl⟩
  have hcomplete := hfile.complete
  have hflags := hfile.flags
  have hheader := hfile.header
  have hload := hfile.load
  have hstart := hfile.start
  rw [hhdr] at hflags hheader hload hstart
  -- the beginning of the image
  obtain ⟨ram₁, hseg₁, hfirst, hkeep⟩ := readseg_scratch hk disk ram
  obtain ⟨hfind, hhdr₁⟩ := hfile.find hfirst
  rw [hhdr] at hhdr₁
  -- the load range
  have hoffset : (n * 4 + 2 ^ 32 - (hdr.headerAddr - hdr.loadAddr)) % 2 ^ 32 =
      4 * n - (hdr.headerAddr - hdr.loadAddr) := by omega
  obtain ⟨ram₂, hseg₂, hread, hspared⟩ := readseg_range hk disk ram₁ hload hspares
    (show 4 * n - (hdr.headerAddr - hdr.loadAddr) ≤ 8192 by omega)
  have hscratch (i : ℕ) (hi : i < 32) : scratch + 4 * n + i ∉ hdr.range :=
    Set.disjoint_right.1 hspares.scratch (Set.mem_Ico.2 (by omega))
  have hhdr₂ : mbheader ram₂ (scratch + 4 * n) = hdr :=
    (mbheader_congr fun i hi => (hspared _ (hscratch i hi)).1).trans hhdr₁
  have hhdr₃ : mbheader (clearBss hdr ram₂) (scratch + 4 * n) = hdr :=
    (mbheader_congr fun i hi => (hspared _ (hscratch i hi)).2).trans hhdr₁
  refine ⟨k + 1, clearBss hdr ram₂, ?_, fun i hi => ?_, fun a ha => clearBss_of_mem ha,
    fun a ha hlow => (hspared a ha).2.trans (hkeep a hlow)⟩
  · rw [bootmain, hseg₁, Option.bind_eq_bind, Option.bind_some, hfind]
    dsimp only
    rw [hhdr₁, if_neg hflags, if_neg (Nat.not_lt.2 hheader), if_neg (Nat.not_lt.2 hload), hoffset,
      hseg₂, Option.bind_some, hhdr₂, hhdr₃]
  · rw [clearBss_of_not_mem fun hin => by have := hin.1; omega, hread i hi, loadOffset, hhdr]

/-- When the kernel is entered, the load range holds its part of the image, and the memory behind it
is cleared.  The loader is still in its place. -/
theorem bootmain_loads (hfile : Bootable (image disk) n)
    (hhdr : mbheader (image disk) (4 * n) = hdr) (hspares : hdr.Spares) (ram : Ram) :
    ∃ fuel ram', bootmain disk fuel ram = some (.entered hdr.entryAddr ram') ∧
      (∀ i < hdr.loadEndAddr - hdr.loadAddr,
        ram' (hdr.loadAddr + i) = image disk (loadOffset (image disk) n + i)) ∧
      (∀ a ∈ Set.Ico hdr.loadEndAddr hdr.bssEndAddr, ram' a = 0) ∧
      ∀ a ∈ loaderRange, ram' a = ram a := by
  obtain ⟨fuel, ram', hentered, hload, hbss, hkeep⟩ := bootmain_spec hfile hhdr hspares ram
  refine ⟨fuel, ram', hentered, hload, hbss, fun a ha => ?_⟩
  refine hkeep a (Set.disjoint_right.1 hspares.loader ha) ?_
  have hhigh : a < 0x7E00 := ha.2
  unfold scratch sectsize
  omega

/-- The header of an image of which 1024 bytes are loaded at 1 MB, before 1024 bytes of zeros. -/
def smallHeader : Mbheader where
  magic := 0x1BADB002
  flags := 0x10000
  checksum := 0xE4514FFE
  headerAddr := 0x100000
  loadAddr := 0x100000
  loadEndAddr := 0x100400
  bssEndAddr := 0x100800
  entryAddr := 0x100020

/-- A disk with an image that begins with this header. -/
def smallDisk : Ram := fun i =>
  [0x02, 0xB0, 0xAD, 0x1B, 0x00, 0x00, 0x01, 0x00, 0xFE, 0x4F, 0x51, 0xE4, 0x00, 0x00, 0x10, 0x00,
    0x00, 0x00, 0x10, 0x00, 0x00, 0x04, 0x10, 0x00, 0x00, 0x08, 0x10, 0x00,
    0x20, 0x00, 0x10, 0x00].getD (i - sectsize) 0

theorem bootmain_loads_smallDisk : ∃ fuel ram',
    bootmain smallDisk fuel (fun _ => 0xFF) = some (.entered 0x100020 ram') ∧
      (∀ i < 0x100400 - 0x100000,
        ram' (0x100000 + i) = image smallDisk (loadOffset (image smallDisk) 0 + i)) ∧
      (∀ a ∈ Set.Ico 0x100400 0x100800, ram' a = 0) ∧ ∀ a ∈ loaderRange, ram' a = 0xFF := by
  have hhdr : mbheader (image smallDisk) (4 * 0) = smallHeader := by decide
  have hfile : Bootable (image smallDisk) 0 := by
    refine ⟨by decide, .self (by decide), ?_, ?_, ?_, ?_⟩
    all_goals
      rw [hhdr]
      decide
  have hspares : smallHeader.Spares := by
    refine ⟨by decide, by decide, Set.disjoint_left.2 fun a ha hin => ?_,
      Set.disjoint_left.2 fun a ha hin => ?_⟩
    · have hlow : 0x100000 - sectsize ≤ a := ha.1
      have hhigh := hin.2
      unfold sectsize at hlow
      omega
    · have hlow : 0x100000 - sectsize ≤ a := ha.1
      have hhigh : a < scratch + 8192 := hin.2
      unfold sectsize at hlow
      unfold scratch at hhigh
      omega
  exact bootmain_loads hfile hhdr hspares _

end Load

end Bootmain

end MicroKernel
