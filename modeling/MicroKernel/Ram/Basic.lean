import Mathlib.Algebra.Order.Group.Nat
import Mathlib.Order.Interval.Set.Basic

/-!
# Byte-addressed memory

A memory holds a byte at every address.  Numbers are stored in it as words of any length, the
lowest byte first.

* `Ram.writeBytes` : the bytes of a range are replaced;
* `Ram.readLe`, `Ram.writeLe` : words;
* `Ram.readLe_writeLe`, `Ram.readLe_writeBytes_of_disjoint` : what is read after a write.
-/

namespace MicroKernel

/-- The contents of a memory. -/
abbrev Ram := ℕ → BitVec 8

namespace Ram

variable {ram ram' : Ram} {a b n : ℕ}

/-! ### Ranges of bytes -/

/-- The `n` bytes at `a` are replaced by the bytes `f 0, …, f (n - 1)`. -/
def writeBytes (ram : Ram) (a n : ℕ) (f : ℕ → BitVec 8) : Ram :=
  fun b => if a ≤ b ∧ b < a + n then f (b - a) else ram b

/-- Set `n` bytes to `c`. -/
def memset (ram : Ram) (a : ℕ) (c : BitVec 8) (n : ℕ) : Ram := ram.writeBytes a n fun _ => c

/-- Copy `n` bytes from `src` to `dst`; the two ranges may overlap. -/
def memmove (ram : Ram) (dst src n : ℕ) : Ram := ram.writeBytes dst n fun i => ram (src + i)

theorem writeBytes_of_mem {f : ℕ → BitVec 8} (h : b ∈ Set.Ico a (a + n)) :
    ram.writeBytes a n f b = f (b - a) := if_pos h

theorem writeBytes_of_not_mem {f : ℕ → BitVec 8} (h : b ∉ Set.Ico a (a + n)) :
    ram.writeBytes a n f b = ram b := if_neg h

theorem memset_of_mem {c : BitVec 8} (h : b ∈ Set.Ico a (a + n)) : ram.memset a c n b = c :=
  writeBytes_of_mem h

theorem memset_of_not_mem {c : BitVec 8} (h : b ∉ Set.Ico a (a + n)) :
    ram.memset a c n b = ram b := writeBytes_of_not_mem h

theorem memset_of_zero {c : BitVec 8} (h : ∀ b ∈ Set.Ico a (a + n), ram b = c) :
    ram.memset a c n = ram := by
  funext b
  by_cases hb : b ∈ Set.Ico a (a + n)
  · rw [memset_of_mem hb, h b hb]
  · exact memset_of_not_mem hb

theorem writeBytes_add {f : ℕ → BitVec 8} {i : ℕ} (hi : i < n) :
    ram.writeBytes a n f (a + i) = f i := by
  rw [writeBytes_of_mem ⟨by omega, by omega⟩, Nat.add_sub_cancel_left]

/-! ### Words -/

/-- The `n` bytes at `a` as a number. -/
def readLe (ram : Ram) : ℕ → ℕ → ℕ
  | _, 0 => 0
  | a, n + 1 => (ram a).toNat + 256 * readLe ram (a + 1) n

/-- Store a number in the `n` bytes at `a`. -/
def writeLe (ram : Ram) (a n v : ℕ) : Ram :=
  ram.writeBytes a n fun i => BitVec.ofNat 8 (v / 256 ^ i)

theorem writeLe_of_not_mem {v : ℕ} (h : b ∉ Set.Ico a (a + n)) : ram.writeLe a n v b = ram b :=
  writeBytes_of_not_mem h

theorem readLe_lt (ram : Ram) (n : ℕ) : ∀ a, ram.readLe a n < 256 ^ n := by
  induction n with
  | zero => exact fun _ => Nat.one_pos
  | succ n ih =>
    intro a
    have hbyte := (ram a).isLt
    have hrest := ih (a + 1)
    rw [readLe, Nat.pow_succ]
    omega

theorem readLe_eq_of_bytes (n : ℕ) : ∀ {a b : ℕ}, (∀ i < n, ram (a + i) = ram' (b + i)) →
    ram.readLe a n = ram'.readLe b n := by
  induction n with
  | zero => exact fun _ => rfl
  | succ n ih =>
    intro a b h
    rw [readLe, readLe, show ram a = ram' b from h 0 (Nat.succ_pos n), ih fun i hi => ?_]
    rw [Nat.add_assoc, Nat.add_assoc, Nat.add_comm 1 i]
    exact h (i + 1) (Nat.succ_lt_succ hi)

theorem readLe_congr (n : ℕ) {a : ℕ} (h : ∀ b ∈ Set.Ico a (a + n), ram b = ram' b) :
    ram.readLe a n = ram'.readLe a n :=
  readLe_eq_of_bytes n fun i hi => h (a + i) ⟨Nat.le_add_right a i, Nat.add_lt_add_left hi a⟩

theorem readLe_writeBytes_of_disjoint {f : ℕ → BitVec 8} {m : ℕ} (h : b + m ≤ a ∨ a + n ≤ b) :
    (ram.writeBytes a n f).readLe b m = ram.readLe b m := by
  refine readLe_congr m fun c hc => writeBytes_of_not_mem fun hin => ?_
  have := hc.1
  have := hc.2
  have := hin.1
  have := hin.2
  omega

theorem readLe_writeLe_of_disjoint {m v : ℕ} (h : b + m ≤ a ∨ a + n ≤ b) :
    (ram.writeLe a n v).readLe b m = ram.readLe b m := readLe_writeBytes_of_disjoint h

theorem readLe_of_bytes (n : ℕ) : ∀ {a v : ℕ}, v < 256 ^ n →
    (∀ i < n, ram (a + i) = BitVec.ofNat 8 (v / 256 ^ i)) → ram.readLe a n = v := by
  induction n with
  | zero =>
    intro a v hv _
    rw [readLe]
    omega
  | succ n ih =>
    intro a v hv h
    have hlow : ram a = BitVec.ofNat 8 v := by simpa using h 0 (Nat.succ_pos n)
    have hrest : ram.readLe (a + 1) n = v / 256 := by
      refine ih (by rw [Nat.pow_succ] at hv; omega) fun i hi => ?_
      rw [show a + 1 + i = a + (i + 1) by omega, h (i + 1) (by omega), Nat.div_div_eq_div_mul,
        Nat.pow_succ']
    rw [readLe, hlow, hrest, BitVec.toNat_ofNat]
    omega

theorem readLe_writeLe {v : ℕ} (hv : v < 256 ^ n) : (ram.writeLe a n v).readLe a n = v :=
  readLe_of_bytes n hv fun _ hi => writeBytes_add hi

theorem readLe_memset {m : ℕ} (hb : a ≤ b) (hend : b + m ≤ a + n) :
    (ram.memset a 0 n).readLe b m = 0 := by
  refine readLe_of_bytes m (Nat.pow_pos (by decide)) fun i hi => ?_
  rw [memset, writeBytes_of_mem ⟨by omega, by omega⟩]
  simp

end Ram

end MicroKernel
