import Mathlib.Data.Option.Defs
import MicroKernel.Boot.Bootmain
import MicroKernel.Disk.Ata
import MicroKernel.Vm.Scan

/-!
# Reading the disk through I/O ports

The boot sector and the kernel read a sector by waiting for the controller, writing its registers,
waiting again and reading the data word by word.  Above this, they see memory into which sectors are
copied.

* `readsect`, `readSect` : the functions of the boot sector and of the kernel;
* `sectorAt_eq` : one sector is copied, and the controller is never used while it works;
* `bootmain_refines` : the boot sector does what it does with the bytes of the first drive;
* `readSeg_refines` : the kernel does what it does with the bytes of the second drive.
-/

namespace MicroKernel

namespace Pio

open Ata

/-! ### The code -/

/-- The memory and the controller. -/
abbrev State := Ram × Controller

/-- `waitdisk` and `wait_disk`, with at most `k` tests. -/
def waitdisk (k : ℕ) (c : Controller) : Option Controller := waitReady k c

/-- Read a sector; `device` is what goes to the register of the drive, besides the upper bits of the
number of the sector. -/
def sectorAt (device k dst offset : ℕ) (s : State) : Option State :=
  (waitdisk k s.2).bind fun c =>
  (c.out 0x1F2 1).bind fun c =>
  (c.out 0x1F3 (BitVec.ofNat 8 offset)).bind fun c =>
  (c.out 0x1F4 (BitVec.ofNat 8 (offset >>> 8))).bind fun c =>
  (c.out 0x1F5 (BitVec.ofNat 8 (offset >>> 16))).bind fun c =>
  (c.out 0x1F6 (BitVec.ofNat 8 (offset >>> 24 ||| device))).bind fun c =>
  (c.out 0x1F7 0x20).bind fun c =>
  (waitdisk k c).bind fun c => insl 128 dst (s.1, c)

/-- `readsect`. -/
def readsect (k dst offset : ℕ) (s : State) : Option State := sectorAt 0xE0 k dst offset s

/-- `read_sect`. -/
def readSect (k dst offset : ℕ) (s : State) : Option State := sectorAt 0xF0 k dst offset s

/-- The loop of `readseg`, with at most `n` tests of its condition. -/
def readsegLoop (k epa : ℕ) : ℕ → ℕ → ℕ → State → Option State
  | 0, _, _, _ => none
  | n + 1, pa, offset, s =>
    if pa < epa then
      (readsect k pa offset s).bind
        (readsegLoop k epa n ((pa + Bootmain.sectsize) % 2 ^ 32) ((offset + 1) % 2 ^ 32))
    else some s

/-- `readseg`. -/
def readseg (k pa count offset n : ℕ) (s : State) : Option State :=
  let epa := (pa + count) % 2 ^ 32
  let pa := (pa + 2 ^ 32 - offset % Bootmain.sectsize) % 2 ^ 32
  let offset := (offset / Bootmain.sectsize + 1) % 2 ^ 32
  readsegLoop k epa n pa offset s

/-- `bootmain`. -/
def bootmain (k fuel : ℕ) (s : State) : Option (Bootmain.Outcome × Controller) :=
  (readseg k Bootmain.scratch 8192 0 fuel s).bind fun (ram, c) =>
    match (List.range (8192 / 4)).find? (Bootmain.IsHeader ram Bootmain.scratch ·) with
    | none => some (.failed, c)
    | some n =>
      let hdr := Bootmain.mbheader ram (Bootmain.scratch + 4 * n)
      if hdr.flags &&& 0x10000 = 0 then some (.failed, c)
      else if hdr.loadAddr > hdr.headerAddr then some (.failed, c)
      else if hdr.loadEndAddr < hdr.loadAddr then some (.failed, c)
      else
        (readseg k hdr.loadAddr (hdr.loadEndAddr - hdr.loadAddr)
          ((n * 4 + 2 ^ 32 - (hdr.headerAddr - hdr.loadAddr)) % 2 ^ 32) fuel (ram, c)).bind
        fun (ram, c) =>
          let ram := Bootmain.clearBss (Bootmain.mbheader ram (Bootmain.scratch + 4 * n)) ram
          some (.entered (Bootmain.mbheader ram (Bootmain.scratch + 4 * n)).entryAddr ram, c)

/-! ### One sector -/

section Sector

variable {k dst offset device : ℕ} {c : Controller} {ram : Ram} {image : Bool → Ram}

theorem lba_eq (hdevice : device = 0xE0 ∨ device = 0xF0) :
    (BitVec.ofNat 8 offset).toNat + 2 ^ 8 * (BitVec.ofNat 8 (offset >>> 8)).toNat +
      2 ^ 16 * (BitVec.ofNat 8 (offset >>> 16)).toNat +
        2 ^ 24 * (BitVec.ofNat 8 (offset >>> 24 ||| device) &&& 0x0F).toNat = offset % 2 ^ 28 := by
  have hhigh : (BitVec.ofNat 8 (offset >>> 24 ||| device) &&& 0x0F).toNat =
      offset / 2 ^ 24 % 16 := by
    have hlow : ∀ x : BitVec 8, ((x ||| 0xE0) &&& 0x0F).toNat = x.toNat % 16 ∧
        ((x ||| 0xF0) &&& 0x0F).toNat = x.toNat % 16 := by decide
    have hmod : (BitVec.ofNat 8 (offset >>> 24)).toNat % 16 = offset / 2 ^ 24 % 16 := by
      rw [BitVec.toNat_ofNat, Nat.shiftRight_eq_div_pow]
      omega
    rw [BitVec.ofNat_or, ← hmod]
    rcases hdevice with rfl | rfl
    · exact (hlow _).1
    · exact (hlow _).2
  rw [hhigh, BitVec.toNat_ofNat, BitVec.toNat_ofNat, BitVec.toNat_ofNat,
    Nat.shiftRight_eq_div_pow, Nat.shiftRight_eq_div_pow]
  omega

theorem device_lba (hdevice : device = 0xE0 ∨ device = 0xF0) (offset : ℕ) :
    (BitVec.ofNat 8 (offset >>> 24 ||| device)).getLsbD 6 = true := by
  rw [BitVec.getLsbD_ofNat, Nat.testBit_or]
  rcases hdevice with rfl | rfl
  · simp [Nat.testBit]
  · simp [Nat.testBit]

/-- The controller when a command is about to be given. -/
def selected (device offset : ℕ) (c : Controller) : Controller :=
  { c with
    busy := 0
    count := 1
    lba := setLba c.lba (BitVec.ofNat 8 offset) (BitVec.ofNat 8 (offset >>> 8))
      (BitVec.ofNat 8 (offset >>> 16))
    device := BitVec.ofNat 8 (offset >>> 24 ||| device) }

theorem selected_sector (hdevice : device = 0xE0 ∨ device = 0xF0) :
    (selected device offset c).sector = offset % 2 ^ 28 := lba_eq hdevice

/-- The registers are written while the controller is at rest. -/
theorem sectorAt_eq_insl (hidle : c.Idle) (hprompt : c.Prompt k)
    (hdevice : device = 0xE0 ∨ device = 0xF0) : sectorAt device k dst offset (ram, c) =
      insl 128 dst (ram, { (selected device offset c).command false with busy := 0 }) := by
  have hlba := device_lba hdevice offset
  have htransfer : c.transfer = none := hidle
  have hdelay : ((selected device offset c).command false).busy < k := hprompt.2 0
  have hwait := waitReady_eq hdelay
  rw [sectorAt, waitdisk, waitReady_eq hprompt.1]
  simp only [Controller.out, htransfer, Option.bind_some, Nat.lt_irrefl, Option.isSome_none,
    Bool.false_eq_true, or_self, if_false, if_true, Nat.reduceEqDiff, hlba]
  change (waitdisk k ((selected device offset c).command false)).bind _ = _
  rw [waitdisk, hwait, Option.bind_some]

/-- One sector is read, from the drive that the register selects. -/
theorem sectorAt_eq (h : Rests k image c) (hdevice : device = 0xE0 ∨ device = 0xF0)
    (dst offset : ℕ) (ram : Ram) :
    ∃ c', Rests k image c' ∧ sectorAt device k dst offset (ram, c) =
      some (ram.writeBytes dst 512 (fun i =>
        image (BitVec.ofNat 8 (offset >>> 24 ||| device) |>.getLsbD 4)
          (512 * (offset % 2 ^ 28) + i)), c') := by
  obtain ⟨hidle, hprompt, rfl⟩ := h
  set c₁ : Controller := { (selected device offset c).command false with busy := 0 } with hc₁
  have hread : insl 128 dst (ram, c₁) = _ := insl_eq 127 rfl rfl
  refine ⟨{ c₁ with transfer := none }, ⟨rfl, ⟨?_, fun i => hprompt.2 (i + 1)⟩, rfl⟩, ?_⟩
  · exact Nat.zero_lt_of_lt hprompt.1
  · rw [sectorAt_eq_insl hidle hprompt hdevice, hread, ← selected_sector hdevice]
    rfl

/-- The boot sector reads from the first drive. -/
theorem readsect_refines (h : Rests k image c) (dst : ℕ) (ram : Ram) (hoffset : offset < 2 ^ 28) :
    ∃ c', Rests k image c' ∧ readsect k dst offset (ram, c) =
      some (Bootmain.readsect (image false) dst offset ram, c') := by
  obtain ⟨c', hc', hread⟩ := sectorAt_eq h (.inl rfl) dst offset ram
  refine ⟨c', hc', hread.trans ?_⟩
  have hdrive : (BitVec.ofNat 8 (offset >>> 24 ||| 0xE0)).getLsbD 4 = false := by
    rw [BitVec.getLsbD_ofNat, Nat.testBit_or, Nat.testBit_shiftRight,
      Nat.testBit_lt_two_pow hoffset]
    decide
  rw [hdrive]
  rfl

/-- The kernel reads from the second drive. -/
theorem readSect_refines (h : Rests k image c) (dst offset : ℕ) (r : Scan) :
    ∃ c', Rests k image c' ∧ readSect k dst offset (r.ram, c) =
      some ((MicroKernel.readSect (image true) dst offset r).ram, c') := by
  obtain ⟨c', hc', hread⟩ := sectorAt_eq h (.inr rfl) dst offset r.ram
  refine ⟨c', hc', hread.trans ?_⟩
  have hdrive : (BitVec.ofNat 8 (offset >>> 24 ||| 0xF0)).getLsbD 4 = true := by
    rw [BitVec.getLsbD_ofNat, Nat.testBit_or]
    simp [Nat.testBit]
  rw [hdrive]
  rfl

end Sector

/-! ### The boot sector -/

section Boot

variable {k fuel epa n pa offset count : ℕ} {c : Controller} {ram : Ram} {image : Bool → Ram}

/-- The same memory, and the controller is at rest. -/
def Same (k : ℕ) (image : Bool → Ram) (s : State) (ram : Ram) : Prop :=
  s.1 = ram ∧ Rests k image s.2

theorem rel_bind {α α' β β' : Type*} {R : α → α' → Prop} {S : β → β' → Prop} {o : Option α}
    {o' : Option α'} {f : α → Option β} {f' : α' → Option β'} (h : Option.Rel R o o')
    (hf : ∀ a a', R a a' → Option.Rel S (f a) (f' a')) :
    Option.Rel S (o.bind f) (o'.bind f') := by
  cases h with
  | none => exact .none
  | some h => exact hf _ _ h

theorem readsegLoop_refines (h : Rests k image c) (hn : offset + n ≤ 2 ^ 28) :
    Option.Rel (Same k image) (readsegLoop k epa n pa offset (ram, c))
      (Bootmain.readsegLoop (image false) epa n pa offset ram) := by
  induction n generalizing pa offset ram c with
  | zero => exact .none
  | succ n ih =>
    rw [readsegLoop, Bootmain.readsegLoop]
    by_cases hlt : pa < epa
    · obtain ⟨c', hc', hread⟩ := readsect_refines h pa ram (by omega : offset < 2 ^ 28)
      rw [if_pos hlt, if_pos hlt, hread, Option.bind_some, Nat.mod_eq_of_lt (a := offset + 1)
        (by omega)]
      exact ih hc' (by omega)
    · rw [if_neg hlt, if_neg hlt]
      exact .some ⟨rfl, h⟩

theorem readseg_refines (h : Rests k image c) (hn : n ≤ 2 ^ 27) (hoffset : offset < 2 ^ 32) :
    Option.Rel (Same k image) (readseg k pa count offset n (ram, c))
      (Bootmain.readseg (image false) pa count offset n ram) := by
  rw [readseg, Bootmain.readseg]
  refine readsegLoop_refines h ?_
  rw [Bootmain.sectsize]
  omega

/-- With a controller that is ready after fewer than `k` polls, the boot sector does through the
I/O ports what `bootmain` does with the bytes of the first drive: it never uses a register while the
controller works, the drives keep their contents, and the controller is at rest afterwards. -/
theorem bootmain_refines (h : Rests k image c) (hfuel : fuel ≤ 2 ^ 27) :
    Option.Rel (fun x o => x.1 = o ∧ Rests k image x.2) (bootmain k fuel (ram, c))
      (Bootmain.bootmain (image false) fuel ram) := by
  rw [bootmain, Bootmain.bootmain, Option.bind_eq_bind]
  refine rel_bind (readseg_refines h hfuel (by decide)) ?_
  rintro ⟨ram₁, c₁⟩ _ ⟨rfl, h₁⟩
  dsimp only
  cases (List.range (8192 / 4)).find? (Bootmain.IsHeader ram₁ Bootmain.scratch ·) with
  | none => exact .some ⟨rfl, h₁⟩
  | some m =>
    dsimp only
    split_ifs
    · exact .some ⟨rfl, h₁⟩
    · exact .some ⟨rfl, h₁⟩
    · exact .some ⟨rfl, h₁⟩
    · refine rel_bind (readseg_refines h₁ hfuel (Nat.mod_lt _ (by decide))) ?_
      rintro ⟨ram₂, c₂⟩ _ ⟨rfl, h₂⟩
      exact .some ⟨rfl, h₂⟩

end Boot

/-- A controller that needs one poll for a command; the first drive holds the disk with an image,
the second one holds twos. -/
def twoDrives : Controller where
  image
    | false => Bootmain.smallDisk
    | true => fun _ => 2
  count := 0
  lba _ := 0
  device := 0
  busy := 1
  delays _ := 1
  dataDelays _ := 1
  transfer := none

theorem rests_twoDrives : Rests 2 twoDrives.image twoDrives :=
  ⟨rfl, ⟨by decide, fun _ => Nat.lt_succ_self 1⟩, rfl⟩

/-- The image is loaded through the ports, and the kernel is entered. -/
theorem bootmain_refines_twoDrives : ∃ ram c,
    bootmain 2 17 (fun _ => 0xFF, twoDrives) = some (.entered 0x100020 ram, c) ∧
      Bootmain.bootmain Bootmain.smallDisk 17 (fun _ => 0xFF) = some (.entered 0x100020 ram) ∧
      Rests 2 twoDrives.image c := by
  have hentry : ((Bootmain.bootmain Bootmain.smallDisk 17 fun _ => 0xFF).map fun o =>
      match o with
      | .entered entry _ => some entry
      | .failed => none) = some (some 0x100020) := by decide +kernel
  have hrel : Option.Rel _ (bootmain 2 17 (fun _ => 0xFF, twoDrives)) _ :=
    bootmain_refines rests_twoDrives (by decide)
  rw [show twoDrives.image false = Bootmain.smallDisk by simp only [twoDrives]] at hrel
  generalize Bootmain.bootmain Bootmain.smallDisk 17 (fun _ => 0xFF) = o at hentry hrel ⊢
  generalize bootmain 2 17 (fun _ => 0xFF, twoDrives) = b at hrel ⊢
  cases hrel with
  | none => cases hentry
  | @some x o h =>
    obtain ⟨rfl, hc⟩ := h
    obtain ⟨o, c⟩ := x
    cases o with
    | failed => cases hentry
    | entered entry ram =>
      obtain rfl := Option.some.inj (Option.some.inj hentry)
      exact ⟨ram, c, rfl, rfl, hc⟩

/-! ### The kernel -/

/-- The loop of `read_seg`. -/
def readSegLoop (k epa pa offset : ℕ) (s : State) : Option State :=
  if pa < epa then
    (readSect k pa offset s).bind (readSegLoop k epa (pa + sectsize) ((offset + 1) % 2 ^ 32))
  else some s
termination_by epa - pa
decreasing_by
  rw [sectsize]
  omega

/-- `read_seg`. -/
def readSeg (k pa count offset : ℕ) (s : State) : Option State :=
  readSegLoop k (pa + count) (pa - offset % sectsize) (offset / sectsize + 1) s

/-- A call of `read_seg`. -/
structure ReadCall where
  /-- `pa`. -/
  pa : ℕ
  /-- `count`. -/
  count : ℕ
  /-- `offset`. -/
  offset : ℕ

section Kernel

variable {k epa pa offset count : ℕ} {c : Controller} {image : Bool → Ram}

theorem readSegLoop_refines (epa pa offset : ℕ) (h : Rests k image c) (r : Scan) :
    ∃ c', Rests k image c' ∧ readSegLoop k epa pa offset (r.ram, c) =
      some ((MicroKernel.readSegLoop (image true) epa pa offset r).ram, c') := by
  induction hn : epa - pa using Nat.strong_induction_on generalizing pa offset r c with
  | _ n ih =>
    rw [readSegLoop, MicroKernel.readSegLoop]
    by_cases hlt : pa < epa
    · obtain ⟨c', hc', hread⟩ := readSect_refines h pa offset r
      rw [if_pos hlt, if_pos hlt, hread, Option.bind_some]
      exact ih _ (by rw [sectsize]; omega) _ _ hc' _ rfl
    · rw [if_neg hlt, if_neg hlt]
      exact ⟨c, h, rfl⟩

/-- Through the I/O ports, any sequence of calls of `read_seg` does what the calls do with the bytes
of the second drive. -/
theorem readSeg_refines (h : Rests k image c) (r : Scan) (calls : List ReadCall) :
    ∃ c', Rests k image c' ∧
      calls.foldlM (fun s x => readSeg k x.pa x.count x.offset s) (r.ram, c) =
        some ((calls.foldl (fun r x => MicroKernel.readSeg (image true) x.pa x.count x.offset r)
          r).ram, c') := by
  induction calls generalizing r c with
  | nil => exact ⟨c, h, rfl⟩
  | cons x calls ih =>
    obtain ⟨c', hc', hread⟩ := readSegLoop_refines (x.pa + x.count)
      (x.pa - x.offset % sectsize) (x.offset / sectsize + 1) h r
    obtain ⟨c'', hc'', hrest⟩ := ih hc' (MicroKernel.readSeg (image true) x.pa x.count x.offset r)
    refine ⟨c'', hc'', ?_⟩
    rw [List.foldlM_cons, readSeg, hread]
    exact hrest

end Kernel

/-- Two calls, one of which is not at a boundary of sectors. -/
theorem readSeg_refines_twoDrives : ∃ c', Rests 2 twoDrives.image c' ∧
    [⟨0x10000, 512, 0⟩, ⟨0x20000, 100, 700⟩].foldlM
        (fun s (x : ReadCall) => readSeg 2 x.pa x.count x.offset s) (fun _ => 0, twoDrives) =
      some (([⟨0x10000, 512, 0⟩, ⟨0x20000, 100, 700⟩].foldl
        (fun r (x : ReadCall) => MicroKernel.readSeg (fun _ => 2) x.pa x.count x.offset r)
        (⟨fun _ => 0, 0, 0, 0, []⟩ : Scan)).ram, c') :=
  readSeg_refines rests_twoDrives ⟨fun _ => 0, 0, 0, 0, []⟩
    [⟨0x10000, 512, 0⟩, ⟨0x20000, 100, 700⟩]

end Pio

end MicroKernel
