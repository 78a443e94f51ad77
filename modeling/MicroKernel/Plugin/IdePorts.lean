import MicroKernel.Disk.Ata
import MicroKernel.Plugin.Ide

/-!
# The requests of the disk driver at the I/O ports

A request is started by writing the registers of the controller; the data of a dirty buffer follow
at once.  The interrupt handler waits for the controller and reads the data of a clean one.

* `ideStart`, `ideRead`, `request` : what the driver does with the ports;
* `request_dirty`, `request_clean` : what happens to the drives and to the buffer;
* `serve_iff` : the requests are served exactly if the controller never lets the driver wait for the
  data of a dirty buffer.
-/

namespace MicroKernel

namespace IdeDriver

open Ata

/-! ### The code -/

/-- The bytes of a buffer, from the address 0 on. -/
def dataRam (l : List (BitVec 8)) : Ram := fun a => l.getD a 0

/-- `b.flags & B_DIRTY`. -/
def Buf.Dirty (b : Buf) : Prop := b.flags &&& bDirty ≠ 0

instance (b : Buf) : Decidable b.Dirty := inferInstanceAs (Decidable (_ ≠ _))

/-- The loop of `ide_wait`, with at most `k` tests. -/
def ideWaitLoop (k : ℕ) (c : Controller) : Option Controller := waitReady k c

/-- What `ide_start` writes to the ports. -/
def Buf.start (k : ℕ) (b : Buf) (c : Controller) : Option Controller :=
  (ideWaitLoop k c).bind fun c =>
  (b.command.ports.foldlM (fun (c : Controller) p => c.out p.1 (p.2.setWidth 8)) c).bind fun c =>
    if b.Dirty then outsl (512 / 4) 0 (dataRam b.command.data) c else some c

/-- What `ide_intr` reads, if there is no error. -/
def ideRead (k : ℕ) (c : Controller) : Option (List (BitVec 8) × Controller) :=
  (ideWaitLoop k c).bind fun c =>
  (insl (512 / 4) 0 (fun _ => 0, c)).map fun (ram, c) => ((List.range 512).map ram, c)

/-- A request, from `ide_start` to the interrupt; the result is in `data`. -/
def request (k : ℕ) (b : Buf) (c : Controller) : Option (Buf × Controller) :=
  (b.start k c).bind fun c =>
    if b.Dirty then some (b, c)
    else (ideRead k c).map fun (sector, c) => ({ b with data := sector }, c)

/-- Requests, one after the other. -/
def serve (k : ℕ) : List Buf → Controller → Option (List Buf × Controller)
  | [], c => some ([], c)
  | b :: bs, c => (request k b c).bind fun (b, c) => (serve k bs c).map fun (bs, c) => (b :: bs, c)

/-! ### What is asked for -/

/-- The drive of a buffer. -/
def Buf.drive (b : Buf) : Bool := b.dev.getLsbD 0

/-- Where its sector begins. -/
def Buf.addr (b : Buf) : ℕ := 512 * (b.blockNo.toNat % 2 ^ 28)

/-- The drives after a request: a dirty buffer has replaced its sector. -/
def Buf.write (b : Buf) (image : Bool → Ram) : Bool → Ram :=
  if b.Dirty then
    Function.update image b.drive ((image b.drive).writeBytes b.addr 512 (dataRam b.data))
  else image

/-- The buffer after a request: a clean one has got its sector. -/
def Buf.read (b : Buf) (image : Bool → Ram) : Buf :=
  if b.Dirty then b
  else { b with data := (List.range 512).map fun i => image b.drive (b.addr + i) }

/-- The buffers and the drives after a list of requests. -/
def served : List Buf → (Bool → Ram) → List Buf × (Bool → Ram)
  | [], image => ([], image)
  | b :: bs, image => (b.read image :: (served bs (b.write image)).1, (served bs (b.write image)).2)

/-- The number of the dirty buffers. -/
def dirtyCount (bs : List Buf) : ℕ := bs.countP fun b => decide b.Dirty

/-! ### The registers -/

section Registers

variable {k : ℕ} {b : Buf} {c : Controller}

theorem toNat_low (x : BitVec 32) : ((x &&& 0xff).setWidth 8).toNat = x.toNat % 2 ^ 8 := by
  rw [BitVec.toNat_setWidth, BitVec.toNat_and]
  exact (congrArg (· % 2 ^ 8) (Nat.and_two_pow_sub_one_eq_mod x.toNat 8)).trans (Nat.mod_mod _ _)

/-- What is written to the register of the drive. -/
def Buf.device (b : Buf) : BitVec 8 :=
  ((0xe0 : BitVec 32) ||| (b.dev &&& 1) <<< 4 |||
    ((b.blockNo >>> 24) &&& (0x0f : BitVec 32))).setWidth 8

theorem device_eq (b : Buf) : (b.device &&& 0x0F).toNat = b.blockNo.toNat / 2 ^ 24 % 16 ∧
    b.device.getLsbD 4 = b.drive ∧ b.device.getLsbD 6 = true := by
  refine ⟨?_, by simp [Buf.drive, Buf.device], by simp [Buf.device]⟩
  have hlow : b.device &&& (0x0F : BitVec 8) =
      (b.blockNo >>> 24).setWidth 8 &&& (0x0F : BitVec 8) := by
    refine BitVec.eq_of_getLsbD_eq fun i hi => ?_
    have hmask : ∀ i < 8, (15#8).getLsbD i = decide (i < 4) ∧
        (224#8).getLsbD i = decide (5 ≤ i) := by decide
    have hlow : (0x0F : BitVec 8).getLsbD i = decide (i < 4) := (hmask i hi).1
    rw [BitVec.getLsbD_and, BitVec.getLsbD_and, hlow]
    by_cases hlt : i < 4
    · have hhigh : ¬5 ≤ i := by omega
      simp [Buf.device, hlt, hmask i hi, hhigh, -BitVec.getLsbD_eq_getElem]
    · simp [hlt]
  rw [hlow, BitVec.toNat_and, BitVec.toNat_setWidth, BitVec.toNat_ushiftRight,
    Nat.shiftRight_eq_div_pow]
  refine (Nat.and_two_pow_sub_one_eq_mod _ 4).trans ?_
  omega

/-- The controller when the command is about to be given. -/
def Buf.selected (b : Buf) (c : Controller) : Controller :=
  { c with
    busy := 0
    count := 1
    lba := setLba c.lba ((b.blockNo &&& 0xff).setWidth 8)
      (((b.blockNo >>> 8) &&& 0xff).setWidth 8) (((b.blockNo >>> 16) &&& 0xff).setWidth 8)
    device := b.device }

theorem Buf.selected_sector (b : Buf) (c : Controller) :
    sectorBytes * (b.selected c).sector = b.addr ∧ (b.selected c).device.getLsbD 4 = b.drive := by
  obtain ⟨hhigh, hdrive, -⟩ := device_eq b
  refine ⟨congrArg (512 * ·) ?_, hdrive⟩
  have hsector : (b.selected c).sector = ((b.blockNo &&& 0xff).setWidth 8).toNat +
      2 ^ 8 * (((b.blockNo >>> 8) &&& 0xff).setWidth 8).toNat +
      2 ^ 16 * (((b.blockNo >>> 16) &&& 0xff).setWidth 8).toNat +
      2 ^ 24 * (b.device &&& 0x0F).toNat := rfl
  rw [hsector, hhigh, toNat_low, toNat_low, toNat_low, BitVec.toNat_ushiftRight,
    BitVec.toNat_ushiftRight, Nat.shiftRight_eq_div_pow, Nat.shiftRight_eq_div_pow]
  omega

/-- The registers are written while the controller is at rest; then the data follow. -/
theorem Buf.start_eq (hidle : c.Idle) (hprompt : c.Prompt k) : b.start k c =
    if b.Dirty then outsl 128 0 (dataRam b.data) ((b.selected c).command true)
    else some ((b.selected c).command false) := by
  have htransfer : c.transfer = none := hidle
  have hlba : b.device.getLsbD 6 = true := (device_eq b).2.2
  have hports : b.command.ports = [(0x3f6, 0), (0x1f2, 1), (0x1f3, b.blockNo &&& 0xff),
      (0x1f4, (b.blockNo >>> 8) &&& 0xff), (0x1f5, (b.blockNo >>> 16) &&& 0xff),
      (0x1f6, (0xe0 : BitVec 32) ||| (b.dev &&& 1) <<< 4 |||
        ((b.blockNo >>> 24) &&& (0x0f : BitVec 32))),
      (0x1f7, if b.Dirty then 0x30 else 0x20)] := rfl
  rw [Buf.start, ideWaitLoop, waitReady_eq hprompt.1, Option.bind_some, hports]
  have hout : (List.foldlM (fun (c : Controller) (p : ℕ × BitVec 32) => c.out p.1 (p.2.setWidth 8))
      { c with busy := 0 } [(0x3f6, 0), (0x1f2, 1), (0x1f3, b.blockNo &&& 0xff),
      (0x1f4, (b.blockNo >>> 8) &&& 0xff), (0x1f5, (b.blockNo >>> 16) &&& 0xff),
      (0x1f6, (0xe0 : BitVec 32) ||| (b.dev &&& 1) <<< 4 |||
        ((b.blockNo >>> 24) &&& (0x0f : BitVec 32))),
      (0x1f7, if b.Dirty then 0x30 else 0x20)] : Option Controller) =
      some ((b.selected c).command (decide b.Dirty)) := by
    have hcommand : ((if b.Dirty then 0x30 else 0x20 : BitVec 32)).setWidth 8 =
        if b.Dirty then (0x30 : BitVec 8) else 0x20 := by split_ifs <;> rfl
    simp only [List.foldlM_cons, List.foldlM_nil, Controller.out, htransfer, Option.bind_eq_bind,
      Option.bind_some, Nat.lt_irrefl, Option.isSome_none, Bool.false_eq_true, or_self, if_false,
      if_true, Nat.reduceEqDiff, hcommand]
    have hdevice : ((0xe0 : BitVec 32) ||| (b.dev &&& 1) <<< 4 |||
        ((b.blockNo >>> 24) &&& (0x0f : BitVec 32))).setWidth 8 = b.device := rfl
    have hread : ¬(0x30 : BitVec 8) = 0x20 := by decide
    rw [hdevice, hlba]
    by_cases hdirty : b.Dirty
    · simp only [hdirty, if_true, reduceCtorEq, if_false, hread]
      rfl
    · simp only [hdirty, reduceCtorEq, if_false, if_true]
      rfl
  rw [hout, Option.bind_some]
  by_cases hdirty : b.Dirty
  · have hflags : b.flags &&& bDirty ≠ 0 := hdirty
    rw [if_pos hdirty, if_pos hdirty, decide_eq_true hdirty]
    have hdata : b.command.data = b.data := if_pos hflags
    rw [hdata]
  · rw [if_neg hdirty, if_neg hdirty, decide_eq_false hdirty]

end Registers

/-! ### One request -/

section Request

variable {k : ℕ} {b : Buf} {c : Controller} {image : Bool → Ram}

/-- A clean buffer gets its sector. -/
theorem request_clean (h : Rests k image c) (hclean : ¬b.Dirty) :
    ∃ c', Rests k image c' ∧ c'.dataDelays = c.dataDelays ∧
      request k b c = some (b.read image, c') := by
  obtain ⟨hidle, hprompt, rfl⟩ := h
  obtain ⟨hsector, hdrive⟩ := b.selected_sector c
  have hbusy : ((b.selected c).command false).busy < k := hprompt.2 0
  set c₁ : Controller := { (b.selected c).command false with busy := 0 } with hc₁
  have hread : insl 128 0 (fun _ => 0, c₁) = _ := insl_eq 127 rfl rfl
  refine ⟨{ c₁ with transfer := none }, ⟨rfl, ⟨Nat.zero_lt_of_lt hprompt.1,
    fun i => hprompt.2 (i + 1)⟩, rfl⟩, rfl, ?_⟩
  rw [request, Buf.start_eq hidle hprompt, if_neg hclean, Option.bind_some, if_neg hclean, ideRead,
    ideWaitLoop, waitReady_eq hbusy, Option.bind_some, hread, Option.map_some, Option.map_some,
    Buf.read, if_neg hclean, hsector, hdrive]
  refine congrArg (fun l => some ({ b with data := l }, { c₁ with transfer := none })) ?_
  refine List.map_congr_left fun i hi => ?_
  rw [Ram.writeBytes_of_mem ⟨Nat.zero_le i, by have := List.mem_range.1 hi; omega⟩]
  rfl

/-- A dirty buffer replaces its sector, if the controller takes the data at once. -/
theorem request_dirty (h : Rests k image c) (hdirty : b.Dirty) (hzero : c.dataDelays 0 = 0) :
    ∃ c', Rests k (b.write image) c' ∧ c'.dataDelays = (fun i => c.dataDelays (i + 1)) ∧
      request k b c = some (b.read image, c') := by
  obtain ⟨hidle, hprompt, rfl⟩ := h
  obtain ⟨hsector, hdrive⟩ := b.selected_sector c
  have hbusy : ((b.selected c).command true).busy = 0 := hzero
  have hwrite : outsl 128 0 (dataRam b.data) ((b.selected c).command true) = _ :=
    outsl_eq 127 hbusy rfl
  set c₂ := (b.selected c).command true with hc₂
  have himage : Function.update c₂.image ((b.selected c).device.getLsbD 4)
      ((c₂.image ((b.selected c).device.getLsbD 4)).writeBytes
        (sectorBytes * (b.selected c).sector) (4 * (127 + 1))
        fun i => dataRam b.data (0 + i)) = b.write c.image := by
    rw [hsector, hdrive, Buf.write, if_pos hdirty]
    simp only [Nat.zero_add]
    rfl
  rw [himage] at hwrite
  refine ⟨({ c₂ with image := b.write c.image } : Controller).work none,
    ⟨rfl, ⟨hprompt.2 0, fun i => hprompt.2 (i + 1)⟩, rfl⟩, rfl, ?_⟩
  rw [request, Buf.start_eq hidle hprompt, if_pos hdirty, hwrite, Option.bind_some, if_pos hdirty,
    Buf.read, if_pos hdirty]

/-- Otherwise the driver would use the data port while the controller works. -/
theorem request_none (h : Rests k image c) (hdirty : b.Dirty) (hpos : c.dataDelays 0 ≠ 0) :
    request k b c = none := by
  obtain ⟨hidle, hprompt, rfl⟩ := h
  have hbusy : 0 < ((b.selected c).command true).busy := Nat.pos_of_ne_zero hpos
  have hword : ((b.selected c).command true).writeWord ((dataRam b.data).readLe 0 4) = none :=
    if_pos (.inl hbusy)
  rw [request, Buf.start_eq hidle hprompt, if_pos hdirty, outsl, hword]
  rfl

end Request

/-! ### Any sequence of requests -/

section Serve

variable {k : ℕ} {c : Controller} {image : Bool → Ram} {bs : List Buf}

theorem serve_cons (b : Buf) : serve k (b :: bs) c = (request k b c).bind fun r =>
    (serve k bs r.2).map fun r' => (r.1 :: r'.1, r'.2) := rfl

theorem serve_some (h : Rests k image c) (hzero : ∀ i < dirtyCount bs, c.dataDelays i = 0) :
    ∃ c', Rests k (served bs image).2 c' ∧ serve k bs c = some ((served bs image).1, c') := by
  induction bs generalizing c image with
  | nil => exact ⟨c, h, rfl⟩
  | cons b bs ih =>
    by_cases hdirty : b.Dirty
    · have hcount : dirtyCount (b :: bs) = dirtyCount bs + 1 :=
        List.countP_cons_of_pos (decide_eq_true hdirty)
      rw [hcount] at hzero
      obtain ⟨c₁, h₁, hdelays, hrequest⟩ := request_dirty h hdirty (hzero 0 (Nat.succ_pos _))
      obtain ⟨c₂, h₂, hserve⟩ := ih h₁ fun i hi => by
        rw [hdelays]
        exact hzero (i + 1) (Nat.succ_lt_succ hi)
      refine ⟨c₂, h₂, ?_⟩
      rw [serve_cons, hrequest, Option.bind_some, hserve]
      rfl
    · have hcount : dirtyCount (b :: bs) = dirtyCount bs :=
        List.countP_cons_of_neg (by simpa using hdirty)
      have hwrite : b.write image = image := if_neg hdirty
      rw [hcount] at hzero
      obtain ⟨c₁, h₁, hdelays, hrequest⟩ := request_clean h hdirty
      obtain ⟨c₂, h₂, hserve⟩ := ih h₁ fun i hi => by
        rw [hdelays]
        exact hzero i hi
      rw [served, hwrite]
      refine ⟨c₂, h₂, ?_⟩
      rw [serve_cons, hrequest, Option.bind_some, hserve]
      rfl

theorem serve_none (h : Rests k image c) {i : ℕ} (hi : i < dirtyCount bs)
    (hpos : c.dataDelays i ≠ 0) : serve k bs c = none := by
  induction bs generalizing c image i with
  | nil => exact absurd hi (Nat.not_lt_zero i)
  | cons b bs ih =>
    rw [serve_cons]
    by_cases hdirty : b.Dirty
    · have hcount : dirtyCount (b :: bs) = dirtyCount bs + 1 :=
        List.countP_cons_of_pos (decide_eq_true hdirty)
      rw [hcount] at hi
      by_cases hfirst : c.dataDelays 0 = 0
      · obtain ⟨c₁, h₁, hdelays, hrequest⟩ := request_dirty h hdirty hfirst
        cases i with
        | zero => exact absurd hfirst hpos
        | succ i =>
          have hrest := ih h₁ (Nat.lt_of_succ_lt_succ hi) (by rw [hdelays]; exact hpos)
          rw [hrequest, Option.bind_some, hrest]
          rfl
      · rw [request_none h hdirty hfirst]
        rfl
    · have hcount : dirtyCount (b :: bs) = dirtyCount bs :=
        List.countP_cons_of_neg (by simpa using hdirty)
      rw [hcount] at hi
      obtain ⟨c₁, h₁, hdelays, hrequest⟩ := request_clean h hdirty
      have hrest := ih h₁ hi (by rw [hdelays]; exact hpos)
      rw [hrequest, Option.bind_some, hrest]
      rfl

/-- Requests that are served one after the other end as reads and writes of the two drives: a dirty
buffer replaces its sector, a clean one gets the present contents of its sector.  For this the
controller must take the data of every dirty buffer at once, since `ide_start` does not wait for it;
otherwise the driver uses the data port while the controller works. -/
theorem serve_iff (h : Rests k image c) (bs : List Buf) :
    ((∃ c', Rests k (served bs image).2 c' ∧ serve k bs c = some ((served bs image).1, c')) ↔
        ∀ i < dirtyCount bs, c.dataDelays i = 0) ∧
      (serve k bs c = none ↔ ∃ i < dirtyCount bs, c.dataDelays i ≠ 0) := by
  by_cases hzero : ∀ i < dirtyCount bs, c.dataDelays i = 0
  · obtain ⟨c', hc', hserve⟩ := serve_some h hzero
    refine ⟨iff_of_true ⟨c', hc', hserve⟩ hzero, iff_of_false ?_ ?_⟩
    · rw [hserve]
      exact Option.some_ne_none _
    · rintro ⟨i, hi, hpos⟩
      exact hpos (hzero i hi)
  · obtain ⟨i, hi⟩ := not_forall.1 hzero
    obtain ⟨hi, hpos⟩ := Classical.not_imp.1 hi
    have hserve := serve_none h hi hpos
    refine ⟨iff_of_false ?_ hzero, iff_of_true hserve ⟨i, hi, hpos⟩⟩
    rintro ⟨c', -, hsome⟩
    rw [hserve] at hsome
    cases hsome

end Serve

/-- A controller that takes the data of the first command at once, and not those of the second. -/
def secondLate : Controller where
  image _ _ := 0
  count := 0
  lba _ := 0
  device := 0
  busy := 1
  delays _ := 1
  dataDelays i := i
  transfer := none

/-- A dirty buffer for the sector 7 of the second drive, and one that reads it. -/
def writeThenRead : List Buf := [⟨0x6, 1, 7, 0, 0, List.replicate 512 9⟩, ⟨0, 1, 7, 0, 0, []⟩]

theorem rests_secondLate : Rests 2 secondLate.image secondLate :=
  ⟨rfl, ⟨by decide, fun _ => Nat.lt_succ_self 1⟩, rfl⟩

/-- One dirty buffer is served, a second one is not. -/
theorem serve_iff_writeThenRead :
    (∃ c', Rests 2 (served writeThenRead secondLate.image).2 c' ∧
      serve 2 writeThenRead secondLate = some ((served writeThenRead secondLate.image).1, c')) ∧
      serve 2 (writeThenRead ++ writeThenRead) secondLate = none :=
  ⟨(serve_iff rests_secondLate writeThenRead).1.2 (by decide),
    (serve_iff rests_secondLate (writeThenRead ++ writeThenRead)).2.2 ⟨1, by decide, by decide⟩⟩

end IdeDriver

end MicroKernel
