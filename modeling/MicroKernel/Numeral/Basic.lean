import Mathlib.Algebra.Order.Group.Nat
import Mathlib.Data.Int.Notation

/-!
# Numerals

The digits of a number to a base up to 16, the most significant one first, as a list of characters.

* `parseNat`, `parseInt` : the number that a list of characters denotes;
* `IsNumeral` : the numeral of a natural number, without leading zeros, and `IsSigned` that of an
  integer;
* `parseNat_toDigits`, `isNumeral_toDigits` : the numeral of a number is read back.
-/

namespace MicroKernel

/-! ### Reading -/

/-- The digits. -/
def digitChars : List Char :=
  ['0', '1', '2', '3', '4', '5', '6', '7', '8', '9', 'a', 'b', 'c', 'd', 'e', 'f']

/-- The value of a digit. -/
def digitValue (c : Char) : Option ℕ := digitChars.idxOf? c

/-- Read digits behind those of `n`. -/
def parseFrom (b n : ℕ) : List Char → Option ℕ
  | [] => some n
  | c :: l => do
    let d ← digitValue c
    if d < b then parseFrom b (n * b + d) l else none

/-- Read a number. -/
def parseNat (b : ℕ) (l : List Char) : Option ℕ := if l = [] then none else parseFrom b 0 l

/-- Read an integer. -/
def parseInt (b : ℕ) : List Char → Option ℤ
  | '-' :: l => (parseNat b l).map fun n : ℕ => -Int.ofNat n
  | l => (parseNat b l).map Int.ofNat

variable {b d n : ℕ} {c : Char} {l l' : List Char} {z : ℤ}

theorem digitValue_digitChar : ∀ d < 16, digitValue d.digitChar = some d := by decide

theorem parseFrom_append : ∀ {l : List Char} {n : ℕ},
    parseFrom b n (l ++ l') = (parseFrom b n l).bind fun m => parseFrom b m l' := by
  intro l
  induction l with
  | nil => exact fun {n} => rfl
  | cons c l ih =>
    intro n
    rw [List.cons_append, parseFrom, parseFrom]
    cases digitValue c with
    | none => rfl
    | some d =>
      rw [Option.bind_eq_bind, Option.bind_some, Option.bind_some]
      split_ifs
      · exact ih
      · rfl

theorem parseFrom_digitChar (hd : d < b) (hb : b ≤ 16) :
    parseFrom b n [d.digitChar] = some (n * b + d) := by
  rw [parseFrom, digitValue_digitChar d (hd.trans_le hb), Option.bind_eq_bind, Option.bind_some,
    if_pos hd]
  rfl

/-! ### Numerals -/

/-- The numeral of a natural number. -/
structure IsNumeral (b n : ℕ) (l : List Char) : Prop where
  /-- It consists of the digits of the number. -/
  digits : l = Nat.toDigits b n
  /-- It does not begin with a zero, unless it is that of zero. -/
  canonical : l.head? = some '0' → l = ['0']
  /-- The number is read back. -/
  reads : parseNat b l = some n

/-- The numeral of an integer. -/
structure IsSigned (b : ℕ) (z : ℤ) (l : List Char) : Prop where
  /-- It is the numeral of the absolute value, behind a sign for the negative numbers. -/
  digits : ∃ l', IsNumeral b z.natAbs l' ∧ l = if z < 0 then '-' :: l' else l'
  /-- The integer is read back. -/
  reads : parseInt b l = some z

theorem parseFrom_toDigits (hb : 1 < b) (hb' : b ≤ 16) (n : ℕ) :
    parseFrom b 0 (Nat.toDigits b n) = some n := by
  induction n using Nat.strong_induction_on with
  | _ n ih =>
    rw [Nat.toDigits_eq_if hb]
    split_ifs with hlt
    · rw [parseFrom_digitChar hlt hb', Nat.zero_mul, Nat.zero_add]
    · rw [parseFrom_append, ih _ (Nat.div_lt_self (by omega) hb), Option.bind_some,
        parseFrom_digitChar (Nat.mod_lt n (by omega)) hb', Nat.div_add_mod']

theorem parseNat_toDigits (hb : 1 < b) (hb' : b ≤ 16) (n : ℕ) :
    parseNat b (Nat.toDigits b n) = some n := by
  rw [parseNat, if_neg Nat.toDigits_ne_nil, parseFrom_toDigits hb hb']

theorem head?_toDigits (hb : 1 < b) (hn : n ≠ 0) : (Nat.toDigits b n).head? ≠ some '0' := by
  induction n using Nat.strong_induction_on with
  | _ n ih =>
    rw [Nat.toDigits_eq_if hb]
    split_ifs with hlt
    · rw [List.head?_cons, ne_eq, Option.some_inj, Nat.digitChar_eq_zero]
      exact hn
    · have hdiv : n / b ≠ 0 := (Nat.div_pos (Nat.not_lt.1 hlt) (by omega)).ne'
      obtain ⟨c, l, hl⟩ := List.exists_cons_of_ne_nil (Nat.toDigits_ne_nil (n := n / b) (b := b))
      have hhead := ih _ (Nat.div_lt_self (by omega) hb) hdiv
      rwa [hl] at hhead ⊢

theorem isNumeral_toDigits (hb : 1 < b) (hb' : b ≤ 16) (n : ℕ) :
    IsNumeral b n (Nat.toDigits b n) := by
  refine ⟨rfl, fun h => ?_, parseNat_toDigits hb hb' n⟩
  by_cases hn : n = 0
  · rw [hn, Nat.toDigits_zero]
  · exact absurd h (head?_toDigits hb hn)

theorem minus_not_mem_toDigits (hb : 1 < b) (hb' : b ≤ 16) (n : ℕ) :
    '-' ∉ Nat.toDigits b n := by
  induction n using Nat.strong_induction_on with
  | _ n ih =>
    have hdigit : ∀ d < 16, '-' ≠ d.digitChar := by decide
    rw [Nat.toDigits_eq_if hb]
    split_ifs with hlt
    · rw [List.mem_singleton]
      exact hdigit n (by omega)
    · have hmod : n % b < b := Nat.mod_lt n (by omega)
      rw [List.mem_append, List.mem_singleton, not_or]
      exact ⟨ih _ (Nat.div_lt_self (by omega) hb), hdigit _ (by omega)⟩

theorem isSigned_of_isNumeral (hb : 1 < b) (hb' : b ≤ 16) (h : IsNumeral b z.natAbs l') :
    IsSigned b z (if z < 0 then '-' :: l' else l') := by
  refine ⟨⟨l', h, rfl⟩, ?_⟩
  split_ifs with hz
  · rw [parseInt, h.reads, Option.map_some, Int.ofNat_eq_natCast]
    exact congrArg some (by omega)
  · have hminus : ∀ l'' : List Char, l' ≠ '-' :: l'' := by
      rintro l'' rfl
      exact minus_not_mem_toDigits hb hb' z.natAbs (h.digits ▸ List.mem_cons_self)
    rw [parseInt, h.reads, Option.map_some, Int.ofNat_eq_natCast]
    · exact congrArg some (by omega)
    · exact hminus

end MicroKernel
