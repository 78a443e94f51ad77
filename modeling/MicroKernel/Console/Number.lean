import MicroKernel.Numeral.Basic

/-!
# Numbers on the console

The kernel prints numbers digit by digit: the last digits of a number are put into a buffer of 16
bytes until nothing is left of it, and are then printed in reverse order.

* `printint`, `printlong`, `printptr` : the functions of the kernel;
* `digitLoop_spec` : the buffer holds the numeral in reverse order;
* `printed_read_back` : what is printed is read back as the number.
-/

namespace MicroKernel

namespace Console

/-! ### The code -/

/-- `digits`. -/
def digits : List Char := "0123456789abcdef".toList

/-- `buf`, up to the index `i`. -/
structure Buf where
  /-- The characters that were stored. -/
  chars : List Char
  /-- They are in the buffer. -/
  le : chars.length ≤ 16

/-- The buffer at the beginning. -/
def Buf.empty : Buf := ⟨[], Nat.zero_le 16⟩

/-- `buf[i++] = c`. -/
def Buf.put (b : Buf) (c : Char) (h : b.chars.length < 16) : Buf :=
  ⟨b.chars ++ [c], by rwa [List.length_append, List.length_singleton]⟩

/-- `buf[i++] = c`, which fails if `i` is not an index of the buffer. -/
def Buf.put? (b : Buf) (c : Char) : Option Buf :=
  if h : b.chars.length < 16 then some (b.put c h) else none

/-- `while(--i >= 0) consputc(buf[i])`. -/
def Buf.printed (b : Buf) : List Char := b.chars.reverse

/-- The loop `do { buf[i++] = digits[x % base]; } while((x /= base) != 0)`. -/
def digitLoop {w : ℕ} (base x : BitVec w) (b : Buf) : Option Buf :=
  if h : b.chars.length < 16 then
    match digits[(x % base).toNat]? with
    | none => none
    | some c => if x / base ≠ 0 then digitLoop base (x / base) (b.put c h) else some (b.put c h)
  else none
termination_by 16 - b.chars.length
decreasing_by
  rw [Buf.put, List.length_append, List.length_singleton]
  omega

/-- `printint`, with the characters that are printed as its result. -/
def printint (xx base : BitVec 32) (sign : Bool) : Option (List Char) := do
  let sign := sign && decide (xx.toInt < 0)
  let x := if sign then -xx else xx
  let b ← digitLoop base x .empty
  let b ← if sign then b.put? '-' else some b
  some b.printed

/-- `printlong`.  Its first argument is unsigned. -/
def printlong (xx : BitVec 64) (base : BitVec 32) (sign : Bool) : Option (List Char) := do
  let sign := sign && decide (xx.toNat < 0)
  let x := if sign then -xx else xx
  let b ← digitLoop (base.signExtend 64) x .empty
  let b ← if sign then b.put? '-' else some b
  some b.printed

/-- The loop of `printptr`. -/
def printptrLoop : ℕ → BitVec 64 → Option (List Char)
  | 0, _ => some []
  | n + 1, x => do
    let c ← digits[(x >>> 60).toNat]?
    let l ← printptrLoop n (x <<< 4)
    some (c :: l)

/-- `printptr`. -/
def printptr (x : BitVec 64) : Option (List Char) := printptrLoop 16 x

/-! ### The digits in the buffer -/

section Digits

variable {w : ℕ} {base x : BitVec w} {b : Buf}

theorem digits_getElem? : ∀ d < 16, digits[d]? = some d.digitChar := by decide

/-- If there is room for the digits then the loop puts all of them into the buffer. -/
theorem digitLoop_spec (hbase : 1 < base.toNat) (hbase' : base.toNat ≤ 16)
    (hroom : b.chars.length + (Nat.toDigits base.toNat x.toNat).length ≤ 16) :
    ∃ b', digitLoop base x b = some b' ∧
      b'.chars = b.chars ++ (Nat.toDigits base.toNat x.toNat).reverse := by
  induction hx : x.toNat using Nat.strong_induction_on generalizing x b with
  | _ n ih =>
    have hmod : x.toNat % base.toNat < base.toNat := Nat.mod_lt _ (by omega)
    have hdigit := digits_getElem? _ (hmod.trans_le hbase')
    have hpos := Nat.length_toDigits_pos (b := base.toNat) (n := x.toNat)
    have hzero : x / base ≠ 0 ↔ base.toNat ≤ x.toNat := by
      rw [ne_eq, ← BitVec.toNat_inj, BitVec.toNat_udiv]
      exact (Nat.div_eq_zero_iff_lt (by omega)).not.trans not_lt
    rw [digitLoop, dif_pos (by omega), BitVec.toNat_umod, hdigit]
    dsimp only
    subst hx
    rw [Nat.toDigits_eq_if hbase] at hroom ⊢
    by_cases hlt : x.toNat < base.toNat
    · rw [if_neg (mt hzero.1 (Nat.not_le.2 hlt)), if_pos hlt, Nat.mod_eq_of_lt hlt]
      exact ⟨_, rfl, rfl⟩
    · rw [if_neg hlt, List.length_append, List.length_singleton] at hroom
      obtain ⟨b', hloop, hchars⟩ := ih (x / base).toNat
        (by rw [BitVec.toNat_udiv]; exact Nat.div_lt_self (by omega) hbase)
        (b := b.put (x.toNat % base.toNat).digitChar (by omega))
        (by rw [Buf.put, List.length_append, List.length_singleton, BitVec.toNat_udiv]; omega) rfl
      refine ⟨b', ?_, ?_⟩
      · rw [if_pos (hzero.2 (Nat.not_lt.1 hlt))]
        exact hloop
      · rw [hchars, if_neg hlt, BitVec.toNat_udiv, Buf.put, List.reverse_append, List.append_assoc]
        rfl

theorem digitLoop_empty (base x : BitVec w) {k : ℕ} (hbase : 1 < base.toNat)
    (hbase' : base.toNat ≤ 16) (hk : 0 < k) (hk' : k ≤ 16) (hx : x.toNat < base.toNat ^ k) :
    ∃ b, digitLoop base x .empty = some b ∧ b.chars.length ≤ k ∧
      b.printed = Nat.toDigits base.toNat x.toNat := by
  have hlen : (Nat.toDigits base.toNat x.toNat).length ≤ k :=
    (Nat.length_toDigits_le_iff hbase hk).2 hx
  obtain ⟨b, hloop, hchars⟩ := digitLoop_spec hbase hbase'
    (show Buf.empty.chars.length + (Nat.toDigits base.toNat x.toNat).length ≤ 16 by
      rw [Buf.empty, List.length_nil]
      omega)
  rw [Buf.empty, List.nil_append] at hchars
  refine ⟨b, hloop, ?_, ?_⟩
  · rwa [hchars, List.length_reverse]
  · rw [Buf.printed, hchars, List.reverse_reverse]

theorem Buf.put?_printed (b : Buf) (c : Char) (h : b.chars.length < 16) :
    ∃ b', b.put? c = some b' ∧ b'.printed = c :: b.printed := by
  refine ⟨b.put c h, dif_pos h, ?_⟩
  rw [printed, put, List.reverse_append, printed]
  rfl

end Digits

/-! ### What is printed -/

section Printed

theorem toNat_neg_eq_natAbs (xx : BitVec 32) :
    (if xx.toInt < 0 then -xx else xx).toNat = xx.toInt.natAbs := by
  have hlt := xx.isLt
  have hint := BitVec.toInt_eq_toNat_cond xx
  split_ifs with hneg
  · rw [BitVec.toNat_neg]
    split_ifs at hint <;> omega
  · split_ifs at hint <;> omega

/-- `printint` to the base 10 prints the numeral of a signed number. -/
theorem printint_signed (xx : BitVec 32) :
    ∃ l, printint xx 10 true = some l ∧ IsSigned 10 xx.toInt l := by
  have hx := toNat_neg_eq_natAbs xx
  generalize hy : (if xx.toInt < 0 then -xx else xx) = y at hx
  obtain ⟨b, hloop, hlen, hdigits⟩ := digitLoop_empty 10 y (k := 10) (by decide) (by decide)
    (by decide) (by decide) (y.isLt.trans (by decide))
  have hnum : IsNumeral 10 xx.toInt.natAbs b.printed := by
    rw [hdigits, hx]
    exact isNumeral_toDigits (by decide) (by decide) _
  refine ⟨_, ?_, isSigned_of_isNumeral (by decide) (by decide) hnum⟩
  simp only [printint, Bool.true_and, decide_eq_true_eq]
  rw [hy, hloop, Option.bind_eq_bind, Option.bind_some]
  split_ifs with hneg
  · obtain ⟨b', hput, hprinted⟩ := b.put?_printed '-' (by omega)
    rw [hput, Option.bind_some, hprinted]
  · rfl

/-- `printint` to the base 16 prints the numeral of an unsigned number. -/
theorem printint_unsigned (xx : BitVec 32) :
    ∃ l, printint xx 16 false = some l ∧ IsNumeral 16 xx.toNat l := by
  obtain ⟨b, hloop, -, hdigits⟩ := digitLoop_empty 16 xx (k := 8) (by decide) (by decide)
    (by decide) (by decide) (xx.isLt.trans_le (by decide))
  refine ⟨b.printed, ?_, ?_⟩
  · simp only [printint, Bool.false_and, Bool.false_eq_true, if_false]
    rw [hloop]
    rfl
  · rw [hdigits]
    exact isNumeral_toDigits (by decide) (by decide) _

/-- `printlong` to the base 16 prints the numeral of an unsigned number, whatever its last argument
is. -/
theorem printlong_hex (xx : BitVec 64) (sign : Bool) :
    ∃ l, printlong xx 16 sign = some l ∧ IsNumeral 16 xx.toNat l := by
  obtain ⟨b, hloop, -, hdigits⟩ := digitLoop_empty 16 xx (k := 16) (by decide) (by decide)
    (by decide) (by decide) (xx.isLt.trans_le (by decide))
  have hbase : (16 : BitVec 32).signExtend 64 = 16 := by decide
  refine ⟨b.printed, ?_, ?_⟩
  · simp only [printlong, Nat.not_lt_zero, decide_false, Bool.and_false, Bool.false_eq_true,
      if_false]
    rw [hbase, hloop]
    rfl
  · rw [hdigits]
    exact isNumeral_toDigits (by decide) (by decide) _

theorem div_pow_eq {n : ℕ} (hn : n ≤ 15) (x : ℕ) :
    x / 16 ^ 15 * 16 ^ n + x * 16 % 16 ^ 16 / 16 ^ (16 - n) = x / 16 ^ (15 - n) := by
  have hrest : x * 16 % 16 ^ 16 / 16 ^ (16 - n) = x % 16 ^ 15 / 16 ^ (15 - n) := by
    have hdiv : 16 ^ (16 - n) = 16 ^ (15 - n) * 16 := by
      rw [← Nat.pow_succ, show 16 - n = 15 - n + 1 by omega]
    rw [hdiv, show 16 ^ 16 = 16 ^ 15 * 16 from rfl, Nat.mul_mod_mul_right,
      Nat.mul_div_mul_right _ _ (by decide)]
  have hpow : 16 ^ (15 - n) * 16 ^ n = 16 ^ 15 := by
    rw [← Nat.pow_add, Nat.sub_add_cancel hn]
  have hsplit : 16 ^ (15 - n) * (x / 16 ^ 15 * 16 ^ n) + x % 16 ^ 15 = x := by
    rw [Nat.mul_comm (x / 16 ^ 15), ← Nat.mul_assoc, hpow, Nat.div_add_mod]
  calc x / 16 ^ 15 * 16 ^ n + x * 16 % 16 ^ 16 / 16 ^ (16 - n)
      = x / 16 ^ 15 * 16 ^ n + x % 16 ^ 15 / 16 ^ (15 - n) := by rw [hrest]
    _ = (16 ^ (15 - n) * (x / 16 ^ 15 * 16 ^ n) + x % 16 ^ 15) / 16 ^ (15 - n) :=
        (Nat.mul_add_div (Nat.pow_pos (by decide)) _ _).symm
    _ = x / 16 ^ (15 - n) := by rw [hsplit]

/-- The first `n` of the 16 digits of a number are printed. -/
theorem printptrLoop_spec (n : ℕ) : ∀ {x : BitVec 64} {m : ℕ}, n ≤ 16 →
    ∃ l, printptrLoop n x = some l ∧ l.length = n ∧
      parseFrom 16 m l = some (m * 16 ^ n + x.toNat / 16 ^ (16 - n)) := by
  induction n with
  | zero =>
    intro x m _
    refine ⟨[], rfl, rfl, ?_⟩
    rw [parseFrom, show x.toNat / 16 ^ (16 - 0) = 0 from Nat.div_eq_of_lt x.isLt, Nat.pow_zero,
      Nat.mul_one, Nat.add_zero]
  | succ n ih =>
    intro x m hn
    have hd : (x >>> 60).toNat = x.toNat / 16 ^ 15 := by
      rw [BitVec.toNat_ushiftRight, Nat.shiftRight_eq_div_pow, show 2 ^ 60 = 16 ^ 15 from rfl]
    have hnext : (x <<< 4).toNat = x.toNat * 16 % 16 ^ 16 := by
      rw [BitVec.toNat_shiftLeft, Nat.shiftLeft_eq, show 2 ^ 64 = 16 ^ 16 from rfl]
    have hlt : x.toNat / 16 ^ 15 < 16 := by
      have := x.isLt
      omega
    obtain ⟨l, hloop, hlen, hparse⟩ := ih (x := x <<< 4) (m := m * 16 + x.toNat / 16 ^ 15)
      (by omega)
    refine ⟨(x.toNat / 16 ^ 15).digitChar :: l, ?_, ?_, ?_⟩
    · rw [printptrLoop, hd, digits_getElem? _ hlt, Option.bind_eq_bind, Option.bind_some, hloop,
        Option.bind_eq_bind, Option.bind_some]
    · rw [List.length_cons, hlen]
    · rw [parseFrom, digitValue_digitChar _ hlt, Option.bind_eq_bind, Option.bind_some, if_pos hlt,
        hparse, hnext, Nat.add_mul, Nat.add_assoc, div_pow_eq (by omega), Nat.pow_succ',
        Nat.mul_assoc, show 16 - (n + 1) = 15 - n by omega]

theorem printptr_digits (x : BitVec 64) :
    ∃ l, printptr x = some l ∧ l.length = 16 ∧ parseNat 16 l = some x.toNat := by
  obtain ⟨l, hloop, hlen, hparse⟩ := printptrLoop_spec 16 (x := x) (m := 0) le_rfl
  refine ⟨l, hloop, hlen, ?_⟩
  rw [parseNat, if_neg (List.ne_nil_of_length_pos (by omega)), hparse]
  simp

/-- The numbers are printed as their numerals and can be read back. -/
theorem printed_read_back :
    (∀ xx, ∃ l, printint xx 10 true = some l ∧ IsSigned 10 xx.toInt l) ∧
      (∀ xx, ∃ l, printint xx 16 false = some l ∧ IsNumeral 16 xx.toNat l) ∧
      (∀ xx sign, ∃ l, printlong xx 16 sign = some l ∧ IsNumeral 16 xx.toNat l) ∧
      ∀ x, ∃ l, printptr x = some l ∧ l.length = 16 ∧ parseNat 16 l = some x.toNat :=
  ⟨printint_signed, printint_unsigned, printlong_hex, printptr_digits⟩

end Printed

end Console

end MicroKernel
