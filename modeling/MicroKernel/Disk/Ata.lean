import Mathlib.Logic.Function.Basic
import MicroKernel.Ram.Basic

/-!
# A disk controller

A controller with two drives is used through I/O ports.  A command names a drive, a first sector and
a number of sectors; the data go through a port of their own, word by word.  After a command the
controller is busy for some time, and its registers must not be used before it is ready again.

* `Controller` : the controller, `Controller.out`, `poll`, `readWord`, `writeWord` : its ports;
* `waitReady_eq` : waiting for the controller;
* `insl_eq`, `outsl_eq` : the data of one sector.
-/

namespace MicroKernel

namespace Ata

/-! ### The controller -/

/-- The number of bytes of a sector. -/
def sectorBytes : ℕ := 512

/-- A transfer that is under way. -/
structure Transfer where
  /-- Whether the data go to the drive. -/
  write : Bool
  /-- The drive. -/
  drive : Bool
  /-- Where the next word is on the drive. -/
  pos : ℕ
  /-- The number of words that follow in the same sector. -/
  words : ℕ
  /-- The number of sectors that follow. -/
  sectors : ℕ

/-- A controller. -/
structure Controller where
  /-- The bytes of the two drives. -/
  image : Bool → Ram
  /-- The register for the number of sectors. -/
  count : BitVec 8
  /-- The three registers for the low bits of the first sector. -/
  lba : Fin 3 → BitVec 8
  /-- The register for the drive and the upper bits of the first sector. -/
  device : BitVec 8
  /-- For how many more polls the controller is busy. -/
  busy : ℕ
  /-- For how many polls it will be busy with the sectors that follow. -/
  delays : ℕ → ℕ
  /-- For how many polls it will be busy before it takes the data of the commands that follow. -/
  dataDelays : ℕ → ℕ
  /-- The transfer that is under way. -/
  transfer : Option Transfer

/-- The registers for the number of the sector. -/
def setLba (lba : Fin 3 → BitVec 8) (low mid high : BitVec 8) : Fin 3 → BitVec 8 :=
  Function.update (Function.update (Function.update lba 0 low) 1 mid) 2 high

namespace Controller

/-- The status register: busy, ready, or ready for data. -/
def status (c : Controller) : BitVec 8 :=
  if 0 < c.busy then 0x80 else if c.transfer.isSome then 0x48 else 0x40

/-- The controller after its status was read. -/
def poll (c : Controller) : Controller := { c with busy := c.busy - 1 }

/-- The first sector of a command. -/
def sector (c : Controller) : ℕ :=
  (c.lba 0).toNat + 2 ^ 8 * (c.lba 1).toNat + 2 ^ 16 * (c.lba 2).toNat +
    2 ^ 24 * (c.device &&& 0x0F).toNat

/-- The controller works for some time, and then waits for the rest of a transfer. -/
def work (c : Controller) (t : Option Transfer) : Controller :=
  { c with busy := c.delays 0, delays := fun i => c.delays (i + 1), transfer := t }

/-- The controller gets ready for the data of a command. -/
def expect (c : Controller) (t : Transfer) : Controller :=
  { c with busy := c.dataDelays 0, dataDelays := fun i => c.dataDelays (i + 1), transfer := some t }

/-- A command to read or to write sectors. -/
def command (c : Controller) (write : Bool) : Controller :=
  let t : Transfer := ⟨write, c.device.getLsbD 4, sectorBytes * c.sector, 127,
    (if c.count = 0 then 256 else c.count.toNat) - 1⟩
  if write then c.expect t else c.work (some t)

/-- Write to a port.  The registers must not be written while the controller works, and the sectors
have to be given by numbers of 28 bits. -/
def out (c : Controller) (port : ℕ) (v : BitVec 8) : Option Controller :=
  if 0 < c.busy ∨ c.transfer.isSome then none
  else if port = 0x1F2 then some { c with count := v }
  else if port = 0x1F3 then some { c with lba := Function.update c.lba 0 v }
  else if port = 0x1F4 then some { c with lba := Function.update c.lba 1 v }
  else if port = 0x1F5 then some { c with lba := Function.update c.lba 2 v }
  else if port = 0x1F6 then some { c with device := v }
  else if port = 0x1F7 then
    if c.device.getLsbD 6 = false then none
    else if v = 0x20 then some (c.command false)
    else if v = 0x30 then some (c.command true)
    else none
  else if port = 0x3F6 then some c
  else none

/-- The transfer after a word. -/
def next (c : Controller) (t : Transfer) : Controller :=
  if t.words ≠ 0 then { c with transfer := some { t with pos := t.pos + 4, words := t.words - 1 } }
  else if t.sectors ≠ 0 then
    c.work (some { t with pos := t.pos + 4, words := 127, sectors := t.sectors - 1 })
  else if t.write then c.work none
  else { c with transfer := none }

/-- Read a word from the data port, if there is one. -/
def readWord (c : Controller) : Option (ℕ × Controller) :=
  match c.transfer with
  | some t =>
    if 0 < c.busy ∨ t.write then none else some ((c.image t.drive).readLe t.pos 4, c.next t)
  | none => none

/-- Write a word to the data port, if one is expected. -/
def writeWord (c : Controller) (v : ℕ) : Option Controller :=
  match c.transfer with
  | some t =>
    if 0 < c.busy ∨ t.write = false then none
    else
      let c := { c with
        image := Function.update c.image t.drive ((c.image t.drive).writeLe t.pos 4 v) }
      some (c.next t)
  | none => none

/-- No transfer is under way. -/
def Idle (c : Controller) : Prop := c.transfer = none

/-- The controller is ready after fewer than `k` polls, now and after the sectors that
follow. -/
def Prompt (k : ℕ) (c : Controller) : Prop := c.busy < k ∧ ∀ i, c.delays i < k

end Controller

/-- The controller is at rest, its drives hold what they held before, and it stays as prompt. -/
structure Rests (k : ℕ) (image : Bool → Ram) (c : Controller) : Prop where
  /-- No transfer is under way. -/
  idle : c.Idle
  /-- It will be ready soon. -/
  prompt : c.Prompt k
  /-- The contents of the drives. -/
  image_eq : c.image = image

/-! ### Access -/

/-- Poll until the controller is ready, at most `k` times. -/
def waitReady : ℕ → Controller → Option Controller
  | 0, _ => none
  | k + 1, c => if c.status &&& 0xC0 ≠ 0x40 then waitReady k c.poll else some c.poll

/-- `rep insl`: `n` words from the data port to the memory at `a`. -/
def insl : ℕ → ℕ → Ram × Controller → Option (Ram × Controller)
  | 0, _, s => some s
  | n + 1, a, (ram, c) => c.readWord.bind fun (v, c) => insl n (a + 4) (ram.writeLe a 4 v, c)

/-- `rep outsl`: `n` words from the memory at `a` to the data port. -/
def outsl : ℕ → ℕ → Ram → Controller → Option Controller
  | 0, _, _, c => some c
  | n + 1, a, ram, c => (c.writeWord (ram.readLe a 4)).bind fun c => outsl n (a + 4) ram c

section Access

variable {c : Controller} {k n a : ℕ} {ram : Ram} {t : Transfer}

/-- Waiting ends when the controller is ready. -/
theorem waitReady_eq (h : c.busy < k) : waitReady k c = some { c with busy := 0 } := by
  induction k generalizing c with
  | zero => exact absurd h (Nat.not_lt_zero _)
  | succ k ih =>
    rw [waitReady]
    by_cases hbusy : 0 < c.busy
    · have hstatus : c.status = 0x80 := if_pos hbusy
      have hpoll : c.poll.busy < k := by
        change c.busy - 1 < k
        omega
      rw [hstatus, if_pos (by decide), ih hpoll]
      rfl
    · have hstatus : c.status &&& 0xC0 = 0x40 := by
        rw [Controller.status, if_neg hbusy]
        split_ifs <;> rfl
      have hzero : c.busy = 0 := by omega
      rw [if_neg (not_not.2 hstatus), Controller.poll, hzero]

theorem writeBytes_writeBytes (r : Ram) (p m : ℕ) :
    (ram.writeBytes a n fun i => r (p + i)).writeBytes (a + n) m (fun i => r (p + n + i)) =
      ram.writeBytes a (n + m) fun i => r (p + i) := by
  funext b
  by_cases hlow : b ∈ Set.Ico (a + n) (a + n + m)
  · have hb : b ∈ Set.Ico a (a + (n + m)) := ⟨by have := hlow.1; omega, by have := hlow.2; omega⟩
    rw [Ram.writeBytes_of_mem hlow, Ram.writeBytes_of_mem hb]
    exact congrArg r (by have := hlow.1; omega)
  · rw [Ram.writeBytes_of_not_mem hlow]
    by_cases hb : b ∈ Set.Ico a (a + n)
    · rw [Ram.writeBytes_of_mem hb, Ram.writeBytes_of_mem
        ⟨hb.1, by have := hb.2; omega⟩]
    · rw [Ram.writeBytes_of_not_mem hb, Ram.writeBytes_of_not_mem]
      rw [Set.mem_Ico] at hlow hb ⊢
      omega

theorem ofNat_readLe_div (n : ℕ) : ∀ {p i : ℕ}, i < n →
    BitVec.ofNat 8 (ram.readLe p n / 256 ^ i) = ram (p + i) := by
  induction n with
  | zero => exact fun hi => absurd hi (Nat.not_lt_zero _)
  | succ n ih =>
    intro p i hi
    have hbyte := (ram p).isLt
    cases i with
    | zero =>
      refine BitVec.eq_of_toNat_eq ?_
      rw [Nat.pow_zero, Nat.div_one, BitVec.toNat_ofNat, Ram.readLe, Nat.add_mul_mod_self_left,
        Nat.mod_eq_of_lt hbyte]
      rfl
    | succ i =>
      have hrest : ram.readLe p (n + 1) / 256 = ram.readLe (p + 1) n := by
        rw [Ram.readLe]
        omega
      rw [Nat.pow_succ', ← Nat.div_div_eq_div_mul, hrest, ih (Nat.lt_of_succ_lt_succ hi),
        Nat.add_assoc, Nat.add_comm 1 i]

theorem writeLe_readLe {r : Ram} {p : ℕ} :
    ram.writeLe a n (r.readLe p n) = ram.writeBytes a n fun i => r (p + i) := by
  funext b
  by_cases hb : b ∈ Set.Ico a (a + n)
  · have := hb.1
    have := hb.2
    rw [Ram.writeLe, Ram.writeBytes_of_mem hb, Ram.writeBytes_of_mem hb,
      ofNat_readLe_div n (by omega)]
  · rw [Ram.writeLe_of_not_mem hb, Ram.writeBytes_of_not_mem hb]

/-- The rest of the last sector is read. -/
theorem insl_eq (n : ℕ) : ∀ {c : Controller} {ram : Ram} {a pos : ℕ} {d : Bool}, c.busy = 0 →
    c.transfer = some ⟨false, d, pos, n, 0⟩ → insl (n + 1) a (ram, c) =
      some (ram.writeBytes a (4 * (n + 1)) fun i => c.image d (pos + i),
        { c with transfer := none }) := by
  induction n with
  | zero =>
    intro c ram a pos d hbusy ht
    rw [insl, Controller.readWord, ht]
    dsimp only
    rw [if_neg (by simp [hbusy]), Option.bind_some]
    dsimp only
    rw [insl, writeLe_readLe]
    rfl
  | succ n ih =>
    intro c ram a pos d hbusy ht
    rw [insl, Controller.readWord, ht]
    dsimp only
    rw [if_neg (by simp [hbusy]), Option.bind_some]
    dsimp only
    rw [Controller.next, if_pos (Nat.succ_ne_zero n), writeLe_readLe]
    refine (ih (c := { c with transfer := some ⟨false, d, pos + 4, n, 0⟩ }) hbusy rfl).trans ?_
    dsimp only
    rw [writeBytes_writeBytes, show 4 + 4 * (n + 1) = 4 * (n + 1 + 1) by omega]

/-- The rest of the last sector is written; then the controller works for some time. -/
theorem outsl_eq (n : ℕ) : ∀ {c : Controller} {ram : Ram} {a pos : ℕ} {d : Bool}, c.busy = 0 →
    c.transfer = some ⟨true, d, pos, n, 0⟩ → outsl (n + 1) a ram c =
      some ({ c with
        image := Function.update c.image d
          ((c.image d).writeBytes pos (4 * (n + 1)) fun i => ram (a + i)) }.work none) := by
  induction n with
  | zero =>
    intro c ram a pos d hbusy ht
    rw [outsl, Controller.writeWord, ht]
    dsimp only
    rw [if_neg (by simp [hbusy]), Option.bind_some, outsl, writeLe_readLe]
    rfl
  | succ n ih =>
    intro c ram a pos d hbusy ht
    rw [outsl, Controller.writeWord, ht]
    dsimp only
    rw [if_neg (by simp [hbusy]), Option.bind_some, Controller.next, if_pos (Nat.succ_ne_zero n),
      writeLe_readLe]
    refine (ih (c := { c with
      image := Function.update c.image d ((c.image d).writeBytes pos 4 fun i => ram (a + i))
      transfer := some ⟨true, d, pos + 4, n, 0⟩ }) hbusy rfl).trans ?_
    dsimp only
    rw [Function.update_self, Function.update_idem, writeBytes_writeBytes,
      show 4 + 4 * (n + 1) = 4 * (n + 1 + 1) by omega]
    rfl

end Access

end Ata

end MicroKernel
