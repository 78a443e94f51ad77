import Mathlib.Logic.Function.Basic
import MicroKernel.Ram.Basic

/-!
# Setting and copying memory

The functions `memset` and `memmove` of the kernel.  The first one stores words where it can; the
second one copies byte by byte, from the end to the beginning if it would overwrite what it has
still to read.

* `CString.memset_eq`, `CString.memmove_eq` : they do what they are for;
* `CString.memmove64_copies` : so does `memmove` with pointers of 64 bits, for every overlap.
-/

namespace MicroKernel

namespace CString

/-! ### The code -/

/-- `rep stosb`. -/
def stosb (ram : Ram) (addr : ℕ) (data : BitVec 32) (cnt : ℕ) : Ram :=
  ram.writeBytes addr cnt fun _ => data.setWidth 8

/-- `rep stosl`. -/
def stosl (ram : Ram) (addr : ℕ) (data : BitVec 32) (cnt : ℕ) : Ram :=
  ram.writeBytes addr (4 * cnt) fun i => (data >>> (8 * (i % 4))).setWidth 8

/-- `memset`. -/
def memset (ram : Ram) (dst : ℕ) (c : BitVec 32) (n : ℕ) : Ram :=
  if dst % 4 = 0 ∧ n % 4 = 0 then
    let c := c &&& 0xFF
    stosl ram dst (c <<< 24 ||| c <<< 16 ||| c <<< 8 ||| c) (n / 4)
  else stosb ram dst c n

/-- `while(n-- > 0) *d++ = *s++`. -/
def copyUp : ℕ → ℕ → ℕ → Ram → Ram
  | 0, _, _, ram => ram
  | n + 1, d, s, ram => copyUp n (d + 1) (s + 1) (Function.update ram d (ram s))

/-- `while(n-- > 0) *--d = *--s`. -/
def copyDown : ℕ → ℕ → ℕ → Ram → Ram
  | 0, _, _, ram => ram
  | n + 1, d, s, ram => copyDown n (d - 1) (s - 1) (Function.update ram (d - 1) (ram (s - 1)))

/-- `memmove`. -/
def memmove (ram : Ram) (dst src n : ℕ) : Ram :=
  if src < dst ∧ src + n > dst then copyDown n (dst + n) (src + n) ram
  else copyUp n dst src ram

/-! ### What they do -/

variable {ram : Ram} {dst src d s n : ℕ}

theorem byte_shift {v : BitVec 32} {k m : ℕ} (hv : v.toNat < 2 ^ 8) (hk : k < 4) :
    ((v <<< (8 * m)) >>> (8 * k)).setWidth 8 = if k = m then v.setWidth 8 else 0#8 := by
  have hhigh (j : ℕ) (hj : 8 ≤ j) : v.getLsbD j = false :=
    Nat.testBit_lt_two_pow (hv.trans_le (Nat.pow_le_pow_right (by decide) hj))
  refine BitVec.eq_of_getLsbD_eq fun i hi => ?_
  rw [BitVec.getLsbD_setWidth, BitVec.getLsbD_ushiftRight, BitVec.getLsbD_shiftLeft]
  rcases Nat.lt_trichotomy k m with hlt | rfl | hlt
  · have hshift : 8 * k + i < 8 * m := by omega
    simp [hshift, Nat.ne_of_lt hlt]
  · have hwidth : 8 * k + i < 32 := by omega
    have hshift : ¬8 * k + i < 8 * k := by omega
    simp [hwidth, hshift]
  · rw [hhigh _ (by omega)]
    simp [Nat.ne_of_gt hlt]

theorem repeated_byte (c : BitVec 32) {k : ℕ} (hk : k < 4) :
    (((c &&& 0xFF) <<< 24 ||| (c &&& 0xFF) <<< 16 ||| (c &&& 0xFF) <<< 8 ||| c &&& 0xFF) >>>
      (8 * k)).setWidth 8 = c.setWidth 8 := by
  have hv : (c &&& 0xFF).toNat < 2 ^ 8 := by
    rw [BitVec.toNat_and]
    exact Nat.lt_of_le_of_lt Nat.and_le_right (by decide)
  have hlow : (c &&& 0xFF).setWidth 8 = c.setWidth 8 := by
    rw [BitVec.setWidth_and]
    exact BitVec.and_allOnes
  have h₃ := byte_shift (m := 3) hv hk
  have h₂ := byte_shift (m := 2) hv hk
  have h₁ := byte_shift (m := 1) hv hk
  have h₀ := byte_shift (m := 0) hv hk
  rw [Nat.mul_zero, BitVec.shiftLeft_zero] at h₀
  rw [BitVec.ushiftRight_or_distrib, BitVec.ushiftRight_or_distrib, BitVec.ushiftRight_or_distrib,
    BitVec.setWidth_or, BitVec.setWidth_or, BitVec.setWidth_or, h₃, h₂, h₁, h₀, hlow]
  obtain rfl | rfl | rfl | rfl : k = 0 ∨ k = 1 ∨ k = 2 ∨ k = 3 := by omega
  all_goals simp

theorem memset_eq (ram : Ram) (dst : ℕ) (c : BitVec 32) (n : ℕ) :
    memset ram dst c n = ram.memset dst (c.setWidth 8) n := by
  rw [memset]
  split_ifs with h
  · dsimp only
    rw [stosl, Nat.mul_div_cancel' (Nat.dvd_of_mod_eq_zero h.2), Ram.memset]
    exact congrArg (ram.writeBytes dst n) (funext fun i =>
      repeated_byte c (Nat.mod_lt i (by decide)))
  · rfl

/-- Copying upwards reads every byte before it is overwritten. -/
theorem copyUp_eq (n : ℕ) : ∀ {d s : ℕ} {ram : Ram}, d ≤ s ∨ s + n ≤ d →
    copyUp n d s ram = ram.memmove d s n := by
  induction n with
  | zero =>
    intro d s ram _
    exact funext fun b => (Ram.writeBytes_of_not_mem (by rw [Set.mem_Ico]; omega)).symm
  | succ n ih =>
    intro d s ram h
    rw [copyUp, ih (by omega)]
    funext b
    by_cases hb : b ∈ Set.Ico d (d + (n + 1))
    · obtain ⟨hlow, hhigh⟩ := hb
      rw [Ram.memmove, Ram.memmove, Ram.writeBytes_of_mem ⟨hlow, hhigh⟩]
      by_cases hfirst : b = d
      · rw [Ram.writeBytes_of_not_mem (by rw [Set.mem_Ico]; omega), hfirst,
          Function.update_self, Nat.sub_self, Nat.add_zero]
      · rw [Ram.writeBytes_of_mem ⟨by omega, by omega⟩, Function.update_of_ne (by omega)]
        exact congrArg ram (by omega)
    · rw [Set.mem_Ico, not_and_or] at hb
      rw [Ram.memmove, Ram.memmove, Ram.writeBytes_of_not_mem (by rw [Set.mem_Ico]; omega),
        Function.update_of_ne (by omega), Ram.writeBytes_of_not_mem (by rw [Set.mem_Ico]; omega)]

/-- So does copying downwards to a higher address. -/
theorem copyDown_eq (n : ℕ) : ∀ {d s : ℕ} {ram : Ram}, s < d →
    copyDown n (d + n) (s + n) ram = ram.memmove d s n := by
  induction n with
  | zero =>
    intro d s ram _
    exact funext fun b => (Ram.writeBytes_of_not_mem (by rw [Set.mem_Ico]; omega)).symm
  | succ n ih =>
    intro d s ram h
    have hd : d + (n + 1) - 1 = d + n := by omega
    have hs : s + (n + 1) - 1 = s + n := by omega
    rw [copyDown, hd, hs, ih h]
    funext b
    by_cases hb : b ∈ Set.Ico d (d + (n + 1))
    · obtain ⟨hlow, hhigh⟩ := hb
      rw [Ram.memmove, Ram.memmove, Ram.writeBytes_of_mem ⟨hlow, hhigh⟩]
      by_cases hlast : b = d + n
      · rw [Ram.writeBytes_of_not_mem (by rw [Set.mem_Ico]; omega), hlast,
          Function.update_self]
        exact congrArg ram (by omega)
      · rw [Ram.writeBytes_of_mem ⟨by omega, by omega⟩, Function.update_of_ne (by omega)]
    · rw [Set.mem_Ico, not_and_or] at hb
      rw [Ram.memmove, Ram.memmove, Ram.writeBytes_of_not_mem (by rw [Set.mem_Ico]; omega),
        Function.update_of_ne (by omega), Ram.writeBytes_of_not_mem (by rw [Set.mem_Ico]; omega)]

theorem memmove_eq (ram : Ram) (dst src n : ℕ) :
    memmove ram dst src n = ram.memmove dst src n := by
  rw [memmove]
  split_ifs with h
  · exact copyDown_eq n h.1
  · exact copyUp_eq n (by omega)

/-! ### Pointers of 64 bits -/

/-- `while(n-- > 0) *d++ = *s++`. -/
def copyUp64 : ℕ → BitVec 64 → BitVec 64 → Ram → Ram
  | 0, _, _, ram => ram
  | n + 1, d, s, ram => copyUp64 n (d + 1) (s + 1) (Function.update ram d.toNat (ram s.toNat))

/-- `while(n-- > 0) *--d = *--s`. -/
def copyDown64 : ℕ → BitVec 64 → BitVec 64 → Ram → Ram
  | 0, _, _, ram => ram
  | n + 1, d, s, ram =>
    copyDown64 n (d - 1) (s - 1) (Function.update ram (d - 1).toNat (ram (s - 1).toNat))

/-- `memmove`, with the width of its arguments. -/
def memmove64 (ram : Ram) (dst src : BitVec 64) (n : BitVec 32) : Ram :=
  let n' := n.setWidth 64
  if src < dst ∧ src + n' > dst then copyDown64 n.toNat (dst + n') (src + n') ram
  else copyUp64 n.toNat dst src ram

section Pointers

variable {ram : Ram} {dst src : BitVec 64}

theorem toNat_add_ofNat {p : BitVec 64} {k : ℕ} (h : p.toNat + k < 2 ^ 64) :
    (p + BitVec.ofNat 64 k).toNat = p.toNat + k := by
  rw [BitVec.toNat_add, BitVec.toNat_ofNat, Nat.add_mod_mod, Nat.mod_eq_of_lt h]

/-- The pointers behind the last byte may be 0; they are not used. -/
theorem copyUp64_eq (n : ℕ) : ∀ {d s : BitVec 64} {ram : Ram}, d.toNat + n ≤ 2 ^ 64 →
    s.toNat + n ≤ 2 ^ 64 → copyUp64 n d s ram = copyUp n d.toNat s.toNat ram := by
  induction n with
  | zero => exact fun _ _ => rfl
  | succ n ih =>
    intro d s ram hd hs
    rw [copyUp64, copyUp]
    cases n with
    | zero => rfl
    | succ n =>
      have hd' : (d + 1).toNat = d.toNat + 1 := toNat_add_ofNat (k := 1) (by omega)
      have hs' : (s + 1).toNat = s.toNat + 1 := toNat_add_ofNat (k := 1) (by omega)
      rw [ih (by omega) (by omega), hd', hs']

theorem copyDown64_eq (n : ℕ) : ∀ {ram : Ram}, dst.toNat + n ≤ 2 ^ 64 → src.toNat + n ≤ 2 ^ 64 →
    copyDown64 n (dst + BitVec.ofNat 64 n) (src + BitVec.ofNat 64 n) ram =
      copyDown n (dst.toNat + n) (src.toNat + n) ram := by
  induction n with
  | zero => exact fun _ _ => rfl
  | succ n ih =>
    intro ram hd hs
    have hpred (p : BitVec 64) : p + BitVec.ofNat 64 (n + 1) - 1 = p + BitVec.ofNat 64 n := by
      rw [BitVec.ofNat_add, ← BitVec.add_assoc]
      exact BitVec.add_sub_cancel _ _
    rw [copyDown64, copyDown, hpred, hpred, toNat_add_ofNat (by omega), toNat_add_ofNat (by omega),
      ih (by omega) (by omega)]
    rfl

/-- The direction does not depend on the width. -/
theorem memmove64_eq {n : BitVec 32} (hdst : dst.toNat + n.toNat ≤ 2 ^ 64)
    (hsrc : src.toNat + n.toNat ≤ 2 ^ 64) :
    memmove64 ram dst src n = memmove ram dst.toNat src.toNat n.toNat := by
  have hn : n.setWidth 64 = BitVec.ofNat 64 n.toNat := by
    rw [BitVec.ofNat_toNat]
  rw [memmove64, memmove, hn, copyUp64_eq _ hdst hsrc, copyDown64_eq _ hdst hsrc]
  refine if_congr (and_congr_right fun hlt => ?_) rfl rfl
  have hlt' : src.toNat < dst.toNat := hlt
  rw [gt_iff_lt, BitVec.lt_def, toNat_add_ofNat (by omega)]

/-- The bytes are copied and no other byte is changed, in whichever direction. -/
theorem memmove64_copies (ram : Ram) (dst src : BitVec 64) (n : BitVec 32)
    (hdst : dst.toNat + n.toNat ≤ 2 ^ 64) (hsrc : src.toNat + n.toNat ≤ 2 ^ 64) :
    (∀ i < n.toNat, memmove64 ram dst src n (dst.toNat + i) = ram (src.toNat + i)) ∧
      ∀ a ∉ Set.Ico dst.toNat (dst.toNat + n.toNat), memmove64 ram dst src n a = ram a := by
  rw [memmove64_eq hdst hsrc, memmove_eq]
  exact ⟨fun i hi => Ram.writeBytes_add hi, fun a ha => Ram.writeBytes_of_not_mem ha⟩

/-- The last four bytes of the address space, and the four bytes two before them. -/
theorem memmove64_copies_end :
    (∀ i < 4, memmove64 (fun a => BitVec.ofNat 8 a) (-4) (-6) 4 (0xFFFFFFFFFFFFFFFC + i) =
        BitVec.ofNat 8 (0xFFFFFFFFFFFFFFFA + i)) ∧
      ∀ a ∉ Set.Ico 0xFFFFFFFFFFFFFFFC (0xFFFFFFFFFFFFFFFC + 4),
        memmove64 (fun a => BitVec.ofNat 8 a) (-4) (-6) 4 a = BitVec.ofNat 8 a :=
  memmove64_copies (fun a => BitVec.ofNat 8 a) (-4) (-6) 4 (by decide) (by decide)

end Pointers

end CString

end MicroKernel
