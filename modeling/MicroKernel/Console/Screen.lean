import MicroKernel.Ram.Strings

/-!
# The screen

The kernel writes characters into the memory of the display and moves the cursor by the registers of
its controller.  What it writes is what a terminal with 24 rows of 80 cells shows.

* `cgaputc` : the function of the kernel;
* `Terminal` : the terminal, whose cursor is always on the screen;
* `cgaputc_represents` : one character;
* `cgaputc_run` : any sequence of characters.
-/

namespace MicroKernel

namespace Console

/-! ### The code -/

/-- `crt`, the address of the memory of the display. -/
def crt : ℕ := 0xFFFFFFFF800B8000

/-- `BACKSPACE`. -/
def backspace : BitVec 32 := 0x100

/-- `'\n'`. -/
def newline : BitVec 32 := 10

/-- The display. -/
structure Display where
  /-- The memory. -/
  ram : Ram
  /-- The index register of the controller. -/
  index : BitVec 8
  /-- The other registers of the controller. -/
  regs : BitVec 8 → BitVec 8
  /-- Where something was stored, and how many bytes. -/
  stores : List (ℕ × ℕ)

namespace Display

/-- `outb(CRTPORT, v)`. -/
def outIndex (s : Display) (v : BitVec 8) : Display := { s with index := v }

/-- `outb(CRTPORT + 1, v)`. -/
def outData (s : Display) (v : BitVec 8) : Display :=
  { s with regs := Function.update s.regs s.index v }

/-- `inb(CRTPORT + 1)`. -/
def inData (s : Display) : BitVec 8 := s.regs s.index

/-- `crt[i] = v`. -/
def setCell (s : Display) (i : ℕ) (v : BitVec 16) : Display :=
  { s with
    ram := s.ram.writeLe (crt + 2 * i) 2 v.toNat
    stores := s.stores ++ [(crt + 2 * i, 2)] }

/-- `memmove(dst, src, n)`. -/
def move (s : Display) (dst src n : ℕ) : Display :=
  { s with
    ram := CString.memmove s.ram dst src n
    stores := s.stores ++ [(dst, n)] }

/-- `memset(dst, c, n)`. -/
def fill (s : Display) (dst : ℕ) (c : BitVec 32) (n : ℕ) : Display :=
  { s with
    ram := CString.memset s.ram dst c n
    stores := s.stores ++ [(dst, n)] }

end Display

/-- The new position for a character, which is stored if it has to be shown. -/
def putChar (c : BitVec 32) (pos : ℕ) (s : Display) : ℕ × Display :=
  if c = newline then (pos + (80 - pos % 80), s)
  else if c = backspace then (if pos > 0 then pos - 1 else pos, s)
  else (pos + 1, s.setCell pos (((c &&& 0xFF) ||| 0x0700).setWidth 16))

/-- The rows move up if the position is behind the last one.  A size is a `u32`. -/
def scrollUp (pos : ℕ) (s : Display) : ℕ × Display :=
  if pos / 80 ≥ 24 then
    let s := s.move crt (crt + 2 * 80) (2 * 23 * 80)
    let pos := pos - 80
    (pos, s.fill (crt + 2 * pos) 0 ((2 * (24 * 80) + 2 ^ 32 - 2 * pos) % 2 ^ 32))
  else (pos, s)

/-- The cursor is moved, and the cell under it is cleared. -/
def setCursor (pos : ℕ) (s : Display) : Display :=
  let s := (s.outIndex 14).outData (BitVec.ofNat 8 (pos >>> 8))
  let s := (s.outIndex 15).outData (BitVec.ofNat 8 pos)
  s.setCell pos (0x20 ||| 0x0700)

/-- `cgaputc`. -/
def cgaputc (s : Display) (c : BitVec 32) : Display :=
  let s := s.outIndex 14
  let pos := s.inData.toNat <<< 8
  let s := s.outIndex 15
  let pos := pos ||| s.inData.toNat
  let (pos, s) := putChar c pos s
  let (pos, s) := scrollUp pos s
  setCursor pos s

/-- The cursor position. -/
def Display.cursor (s : Display) : ℕ := (s.regs 14).toNat <<< 8 ||| (s.regs 15).toNat

/-- `crt[i]`. -/
def cell (ram : Ram) (i : ℕ) : BitVec 16 := BitVec.ofNat 16 (ram.readLe (crt + 2 * i) 2)

/-! ### The terminal -/

/-- A terminal. -/
structure Terminal where
  /-- The cells of each row. -/
  cells : Fin 24 → Fin 80 → BitVec 16
  /-- The row of the cursor. -/
  row : Fin 24
  /-- The column of the cursor. -/
  col : Fin 80

namespace Terminal

/-- The number of the cell at the cursor. -/
def pos (t : Terminal) : ℕ := 80 * t.row + t.col

/-- Change the cell at the cursor. -/
def set (t : Terminal) (v : BitVec 16) : Terminal :=
  { t with cells := fun r c => if r = t.row ∧ c = t.col then v else t.cells r c }

/-- All rows move up, and the last one is cleared. -/
def scroll (t : Terminal) : Terminal :=
  { t with cells := fun r c => if h : r.val + 1 < 24 then t.cells ⟨r.val + 1, h⟩ c else 0 }

/-- Go to the start of the next row. -/
def nextRow (t : Terminal) : Terminal :=
  if h : t.row.val + 1 < 24 then { t with row := ⟨t.row.val + 1, h⟩, col := 0 }
  else { t.scroll with col := 0 }

/-- Go to the next cell. -/
def advance (t : Terminal) : Terminal :=
  if h : t.col.val + 1 < 80 then { t with col := ⟨t.col.val + 1, h⟩ } else t.nextRow

/-- Go to the cell before. -/
def back (t : Terminal) : Terminal :=
  if t.col.val ≠ 0 then { t with col := ⟨t.col.val - 1, by omega⟩ }
  else if t.row.val ≠ 0 then { t with row := ⟨t.row.val - 1, by omega⟩, col := 79 }
  else t

/-- A character, white on black. -/
def glyph (c : BitVec 32) : BitVec 16 := ((c &&& 0xFF) ||| 0x0700).setWidth 16

/-- A character is shown, and the cursor moves. -/
def echo (t : Terminal) (c : BitVec 32) : Terminal :=
  if c = newline then t.nextRow
  else if c = backspace then t.back
  else (t.set (glyph c)).advance

/-- A character is shown; the cell under the new cursor is cleared. -/
def put (t : Terminal) (c : BitVec 32) : Terminal := (t.echo c).set (glyph 0x20)

end Terminal

/-- The memory of the display shows a terminal. -/
def Shows (ram : Ram) (t : Terminal) : Prop :=
  ∀ (r : Fin 24) (c : Fin 80), cell ram (80 * r + c) = t.cells r c

/-- The display shows a terminal, and the cursor is where that of the terminal is. -/
structure Represents (s : Display) (t : Terminal) : Prop where
  /-- The cursor. -/
  cursor : s.cursor = t.pos
  /-- The cells. -/
  shows : Shows s.ram t

/-! ### Cells -/

section Cells

variable {ram : Ram} {t : Terminal} {i j pos : ℕ} {v : BitVec 16}

theorem cell_writeLe_self : cell (ram.writeLe (crt + 2 * i) 2 v.toNat) i = v := by
  rw [cell, Ram.readLe_writeLe (v.isLt.trans_le (by decide)), BitVec.ofNat_toNat,
    BitVec.setWidth_eq]

theorem cell_writeLe_of_ne (h : j ≠ i) :
    cell (ram.writeLe (crt + 2 * i) 2 v.toNat) j = cell ram j := by
  rw [cell, Ram.readLe_writeLe_of_disjoint (by omega)]
  rfl

theorem cell_memmove (hi : i < 23 * 80) :
    cell (ram.memmove crt (crt + 2 * 80) (2 * 23 * 80)) i = cell ram (i + 80) := by
  refine congrArg (BitVec.ofNat 16) (Ram.readLe_eq_of_bytes 2 fun k hk => ?_)
  rw [Ram.memmove, Ram.writeBytes_of_mem (Set.mem_Ico.2 (by omega))]
  exact congrArg ram (by omega)

theorem cell_memset (hpos : pos ≤ i) (hi : i < 24 * 80) :
    cell (ram.memset (crt + 2 * pos) 0 (2 * (24 * 80 - pos))) i = 0 := by
  rw [cell, Ram.readLe_memset (by omega) (by omega)]
  rfl

theorem cell_memset_of_lt {n : ℕ} (hi : i < pos) :
    cell (ram.memset (crt + 2 * pos) 0 n) i = cell ram i := by
  rw [cell, Ram.memset, Ram.readLe_writeBytes_of_disjoint (by omega)]
  rfl

theorem Shows.set (h : Shows ram t) :
    Shows (ram.writeLe (crt + 2 * t.pos) 2 v.toNat) (t.set v) := by
  intro r c
  rw [Terminal.set]
  dsimp only
  split_ifs with heq
  · rw [heq.1, heq.2]
    exact cell_writeLe_self
  · rw [cell_writeLe_of_ne, h r c]
    rw [Terminal.pos]
    rw [Fin.ext_iff, Fin.ext_iff] at heq
    omega

end Cells

/-! ### What is stored -/

/-- A store is inside the 24 rows. -/
def InScreen (w : ℕ × ℕ) : Prop := crt ≤ w.1 ∧ w.1 + w.2 ≤ crt + 2 * (24 * 80)

/-- The stores that were added are inside the 24 rows. -/
def Stored (s s' : Display) : Prop := ∀ w ∈ s'.stores, w ∈ s.stores ∨ InScreen w

section Stores

variable {s s' s'' : Display} {c : BitVec 32} {pos : ℕ} {v : BitVec 16}

theorem Stored.refl (s : Display) : Stored s s := fun _ => Or.inl

theorem Stored.trans (h : Stored s s') (h' : Stored s' s'') : Stored s s'' := fun w hw =>
  (h' w hw).elim (h w) Or.inr

theorem stored_append {w : ℕ × ℕ} (h : s'.stores = s.stores ++ [w]) (hw : InScreen w) :
    Stored s s' := by
  intro w' hw'
  rw [h, List.mem_append, List.mem_singleton] at hw'
  rcases hw' with hw' | rfl
  · exact .inl hw'
  · exact .inr hw

theorem stored_setCell (h : pos < 24 * 80) : Stored s (s.setCell pos v) :=
  stored_append rfl ⟨Nat.le_add_right .., by dsimp only; omega⟩

theorem stored_putChar (h : pos < 24 * 80) : Stored s (putChar c pos s).2 := by
  rw [putChar]
  split_ifs
  · exact .refl s
  · exact .refl s
  · exact .refl s
  · exact stored_setCell h

theorem stored_scrollUp (h : pos ≤ 24 * 80) : Stored s (scrollUp pos s).2 := by
  rw [scrollUp]
  split_ifs with hrow
  · have hmove : Stored s (s.move crt (crt + 2 * 80) (2 * 23 * 80)) :=
      stored_append rfl ⟨le_rfl, by dsimp only; omega⟩
    refine hmove.trans (stored_append rfl ⟨Nat.le_add_right .., ?_⟩)
    dsimp only
    omega
  · exact .refl s

theorem stored_setCursor (h : pos < 24 * 80) : Stored s (setCursor pos s) :=
  stored_append rfl ⟨Nat.le_add_right .., by dsimp only; omega⟩

end Stores

/-! ### One character -/

section Step

variable {s : Display} {t : Terminal} {pos : ℕ}

theorem scrollUp_of_lt (h : pos < 24 * 80) : scrollUp pos s = (pos, s) := by
  rw [scrollUp, if_neg (by omega)]

theorem scrollUp_last (h : Shows s.ram t) :
    (scrollUp (24 * 80) s).1 = 23 * 80 ∧ Shows (scrollUp (24 * 80) s).2.ram t.scroll := by
  rw [scrollUp, if_pos (by decide)]
  refine ⟨rfl, fun r c => ?_⟩
  have hsize : (2 * (24 * 80) + 2 ^ 32 - 2 * (24 * 80 - 80)) % 2 ^ 32 =
      2 * (24 * 80 - (24 * 80 - 80)) := by decide
  have hzero : (0 : BitVec 32).setWidth 8 = 0 := by decide
  dsimp only [Display.fill, Display.move]
  rw [CString.memset_eq, CString.memmove_eq, hsize, hzero, Terminal.scroll]
  dsimp only
  split_ifs with hr
  · rw [cell_memset_of_lt (by omega), cell_memmove (by omega), ← h ⟨r + 1, hr⟩ c]
    exact congrArg (cell s.ram) (by dsimp only; omega)
  · exact cell_memset (by omega) (by omega)

theorem scrollUp_nextRow (h : Shows s.ram t) :
    (scrollUp (80 * (t.row + 1)) s).1 = t.nextRow.pos ∧
      Shows (scrollUp (80 * (t.row + 1)) s).2.ram t.nextRow := by
  by_cases hrow : t.row.val + 1 < 24
  · rw [scrollUp_of_lt (by omega), Terminal.nextRow, dif_pos hrow]
    exact ⟨rfl, h⟩
  · have hlast : 80 * (t.row.val + 1) = 24 * 80 := by omega
    rw [hlast, Terminal.nextRow, dif_neg hrow]
    obtain ⟨hpos, hshows⟩ := scrollUp_last h
    refine ⟨hpos.trans ?_, hshows⟩
    change 23 * 80 = 80 * t.row.val + 0
    omega

theorem setCursor_cursor (h : pos < 2 ^ 16) : (setCursor pos s).cursor = pos := by
  have hhigh : (setCursor pos s).regs 14 = BitVec.ofNat 8 (pos >>> 8) := by
    simp [setCursor, Display.setCell, Display.outData, Display.outIndex]
  have hlow : (setCursor pos s).regs 15 = BitVec.ofNat 8 pos := by
    simp [setCursor, Display.setCell, Display.outData, Display.outIndex]
  rw [Display.cursor, hhigh, hlow, ← Nat.shiftLeft_add_eq_or_of_lt (BitVec.isLt _),
    Nat.shiftLeft_eq, BitVec.toNat_ofNat, BitVec.toNat_ofNat, Nat.shiftRight_eq_div_pow]
  omega

theorem Terminal.pos_lt (t : Terminal) : t.pos < 24 * 80 := by
  rw [Terminal.pos]
  omega

theorem setCursor_represents (h : Shows s.ram t) :
    Represents (setCursor t.pos s) (t.set (Terminal.glyph 0x20)) :=
  ⟨setCursor_cursor (t.pos_lt.trans (by decide)), h.set⟩

/-- A character at the cursor, and the cursor moves on. -/
theorem scrollUp_advance (h : Shows s.ram t) :
    (scrollUp (t.pos + 1) s).1 = t.advance.pos ∧
      Shows (scrollUp (t.pos + 1) s).2.ram t.advance := by
  by_cases hcol : t.col.val + 1 < 80
  · rw [Terminal.advance, dif_pos hcol, scrollUp_of_lt (by rw [Terminal.pos]; omega)]
    exact ⟨rfl, h⟩
  · have hpos : t.pos + 1 = 80 * (t.row + 1) := by
      rw [Terminal.pos]
      omega
    rw [Terminal.advance, dif_neg hcol, hpos]
    exact scrollUp_nextRow h

theorem Terminal.back_pos (t : Terminal) :
    t.back.pos = if t.pos > 0 then t.pos - 1 else t.pos := by
  rw [Terminal.back]
  by_cases hcol : t.col.val ≠ 0
  · rw [if_pos hcol, if_pos (by rw [Terminal.pos]; omega)]
    change 80 * t.row.val + (t.col.val - 1) = 80 * t.row.val + t.col.val - 1
    omega
  · rw [if_neg hcol]
    by_cases hrow : t.row.val ≠ 0
    · rw [if_pos hrow, if_pos (by rw [Terminal.pos]; omega)]
      change 80 * (t.row.val - 1) + 79 = 80 * t.row.val + t.col.val - 1
      omega
    · rw [if_neg hrow, if_neg (by rw [Terminal.pos]; omega)]

theorem Terminal.back_cells (t : Terminal) : t.back.cells = t.cells := by
  rw [Terminal.back]
  split_ifs <;> rfl

/-- The character is shown, and the position is that of the terminal. -/
theorem echo_shows (h : Shows s.ram t) (c : BitVec 32) :
    (scrollUp (putChar c t.pos s).1 (putChar c t.pos s).2).1 = (t.echo c).pos ∧
      Shows (scrollUp (putChar c t.pos s).1 (putChar c t.pos s).2).2.ram (t.echo c) := by
  by_cases hnewline : c = newline
  · have hpos : t.pos + (80 - t.pos % 80) = 80 * (t.row + 1) := by
      rw [Terminal.pos]
      omega
    rw [putChar, if_pos hnewline, Terminal.echo, if_pos hnewline, hpos]
    exact scrollUp_nextRow h
  · by_cases hback : c = backspace
    · rw [putChar, if_neg hnewline, if_pos hback, Terminal.echo, if_neg hnewline, if_pos hback,
        ← Terminal.back_pos, scrollUp_of_lt t.back.pos_lt]
      refine ⟨rfl, fun r c => ?_⟩
      rw [Terminal.back_cells]
      exact h r c
    · rw [putChar, if_neg hnewline, if_neg hback, Terminal.echo, if_neg hnewline, if_neg hback]
      exact scrollUp_advance (t := t.set (Terminal.glyph c)) h.set

theorem putChar_le (h : pos < 24 * 80) (c : BitVec 32) : (putChar c pos s).1 ≤ 24 * 80 := by
  rw [putChar]
  split_ifs <;> omega

/-- The display shows what the terminal shows after the same character. -/
theorem cgaputc_represents (h : Represents s t) (c : BitVec 32) :
    Represents (cgaputc s c) (t.put c) ∧ Stored s (cgaputc s c) := by
  obtain ⟨hpos, hshows⟩ := echo_shows (s := (s.outIndex 14).outIndex 15) h.shows c
  have heq : cgaputc s c =
      setCursor (scrollUp (putChar c s.cursor ((s.outIndex 14).outIndex 15)).1
          (putChar c s.cursor ((s.outIndex 14).outIndex 15)).2).1
        (scrollUp (putChar c s.cursor ((s.outIndex 14).outIndex 15)).1
          (putChar c s.cursor ((s.outIndex 14).outIndex 15)).2).2 := rfl
  rw [heq, h.cursor, hpos]
  refine ⟨setCursor_represents hshows, ?_⟩
  have hput : Stored s (putChar c t.pos ((s.outIndex 14).outIndex 15)).2 := stored_putChar t.pos_lt
  exact (hput.trans (stored_scrollUp (putChar_le t.pos_lt c))).trans
    (stored_setCursor (t.echo c).pos_lt)

end Step

/-! ### Any sequence of characters -/

section Run

variable {s : Display} {t : Terminal}

/-- The terminal that shows the same as a display. -/
def Display.terminal (s : Display) (h : s.cursor < 24 * 80) : Terminal where
  cells r c := cell s.ram (80 * r + c)
  row := ⟨s.cursor / 80, by omega⟩
  col := ⟨s.cursor % 80, Nat.mod_lt _ (by decide)⟩

theorem Display.represents (s : Display) (h : s.cursor < 24 * 80) :
    Represents s (s.terminal h) :=
  ⟨(Nat.div_add_mod s.cursor 80).symm, fun _ _ => rfl⟩

theorem cgaputc_foldl (h : Represents s t) : ∀ cs : List (BitVec 32),
    Represents (cs.foldl cgaputc s) (cs.foldl Terminal.put t) ∧
      Stored s (cs.foldl cgaputc s) := by
  intro cs
  induction cs generalizing s t with
  | nil => exact ⟨h, .refl s⟩
  | cons c cs ih =>
    obtain ⟨hstep, hstored⟩ := cgaputc_represents h c
    obtain ⟨hrun, hrest⟩ := ih hstep
    exact ⟨hrun, hstored.trans hrest⟩

/-- If the cursor is on the screen then the display shows what a terminal shows, for any sequence of
characters: the cursor stays on the screen, and so does everything that is stored. -/
theorem cgaputc_run (h : s.cursor < 24 * 80) (cs : List (BitVec 32)) :
    (cs.foldl cgaputc s).cursor < 24 * 80 ∧
      (∀ w ∈ (cs.foldl cgaputc s).stores, w ∈ s.stores ∨ InScreen w) ∧
      Represents (cs.foldl cgaputc s) (cs.foldl Terminal.put (s.terminal h)) := by
  obtain ⟨hrun, hstored⟩ := cgaputc_foldl (s.represents h) cs
  refine ⟨?_, hstored, hrun⟩
  rw [hrun.cursor]
  exact Terminal.pos_lt _

/-- A display whose cursor is at the start of the last row. -/
def lastRow : Display := ⟨fun _ => 0, 0, fun i => if i = 14 then 0x07 else 0x30, []⟩

/-- A character, and the next row. -/
theorem cgaputc_run_lastRow :
    ([0x41, newline].foldl cgaputc lastRow).cursor < 24 * 80 ∧
      (∀ w ∈ ([0x41, newline].foldl cgaputc lastRow).stores, w ∈ [] ∨ InScreen w) ∧
      Represents ([0x41, newline].foldl cgaputc lastRow)
        ([0x41, newline].foldl Terminal.put (lastRow.terminal (by decide))) :=
  cgaputc_run (by decide) _

end Run

end Console

end MicroKernel
