import MicroKernel.Ipc.Transfer

/-!
# Message info in the library of the plugins

The kernel declares the fields of a message info as bit fields; the library of the plugins gets and
sets them with masks and shifts of the word.

* `InfoField.get`, `InfoField.set` : the functions of the library;
* `get_eq_field_iff` : a getter gives the field of the bit-field structure;
* `Accurate` : getters and setters agree with the structure;
* `accurate_iff` : where they do.
-/

namespace MicroKernel

/-! ### Bits of a word -/

section Bits

variable {v w m : U64} {start len : ℕ}

theorem getLsbD_bits (w : U64) (start len : ℕ) {i : ℕ} (hi : i < 64) :
    (bits w start len).getLsbD i = (decide (i < len) && w.getLsbD (start + i)) := by
  rw [bits, BitVec.getLsbD_setWidth, BitVec.getLsbD_extractLsb', decide_eq_true hi, Bool.true_and]

theorem bits_and (v w : U64) (start len : ℕ) :
    bits (v &&& w) start len = bits v start len &&& bits w start len := by
  refine BitVec.eq_of_getLsbD_eq fun i hi => ?_
  rw [BitVec.getLsbD_and, getLsbD_bits _ _ _ hi, getLsbD_bits _ _ _ hi, getLsbD_bits _ _ _ hi,
    BitVec.getLsbD_and]
  cases decide (i < len) <;> rfl

theorem bits_or (v w : U64) (start len : ℕ) :
    bits (v ||| w) start len = bits v start len ||| bits w start len := by
  refine BitVec.eq_of_getLsbD_eq fun i hi => ?_
  rw [BitVec.getLsbD_or, getLsbD_bits _ _ _ hi, getLsbD_bits _ _ _ hi, getLsbD_bits _ _ _ hi,
    BitVec.getLsbD_or]
  cases decide (i < len) <;> rfl

theorem bits_of_lt (h : v.toNat < 2 ^ start) : bits v start len = 0 := by
  refine BitVec.eq_of_getLsbD_eq fun i hi => ?_
  have hlt : v.toNat < 2 ^ (start + i) := h.trans_le (Nat.pow_le_pow_right (by decide) (by omega))
  rw [getLsbD_bits _ _ _ hi, BitVec.getLsbD, Nat.testBit_lt_two_pow hlt, Bool.and_false]
  exact BitVec.getLsbD_zero.symm

theorem bits_zero_of_lt (h : v.toNat < 2 ^ len) : bits v 0 len = v := by
  refine BitVec.eq_of_getLsbD_eq fun i hi => ?_
  rw [getLsbD_bits _ _ _ hi, Nat.zero_add]
  by_cases hlen : i < len
  · rw [decide_eq_true hlen, Bool.true_and]
  · have hlt : v.toNat < 2 ^ i := h.trans_le (Nat.pow_le_pow_right (by decide) (by omega))
    rw [decide_eq_false hlen, Bool.false_and, BitVec.getLsbD, Nat.testBit_lt_two_pow hlt]

theorem bits_and_of_ones (h : bits m start len = bits (BitVec.allOnes 64) start len) :
    bits (w &&& m) start len = bits w start len := by
  rw [bits_and, h, ← bits_and, BitVec.and_allOnes]

theorem bits_and_of_zero (h : bits m start len = 0) : bits (w &&& m) start len = 0 := by
  rw [bits_and, h]
  exact BitVec.and_zero

theorem shift_and_eq_bits (w : U64) (start : ℕ) (h : m = bits (BitVec.allOnes 64) 0 len) :
    w >>> start &&& m = bits w start len := by
  refine BitVec.eq_of_getLsbD_eq fun i hi => ?_
  rw [BitVec.getLsbD_and, BitVec.getLsbD_ushiftRight, h, getLsbD_bits _ _ _ hi,
    getLsbD_bits _ _ _ hi, Nat.zero_add, BitVec.getLsbD_allOnes, decide_eq_true hi, Bool.and_true,
    Bool.and_comm]

end Bits

/-! ### The fields -/

/-- `messageinfo_from_u64_raw`. -/
def messageinfoFromU64Raw (w : U64) : OsMessageInfo :=
  ⟨w.extractLsb' 0 52, w.extractLsb' 52 3, w.extractLsb' 55 2, w.extractLsb' 57 7⟩

/-- The fields of `OsMessageInfo`. -/
inductive InfoField
  /-- The label. -/
  | label
  /-- Which capabilities were unwrapped. -/
  | capsUnwrapped
  /-- The number of capabilities. -/
  | extraCaps
  /-- The number of words. -/
  | length
  deriving DecidableEq

namespace InfoField

/-- The number of bits. -/
def width : InfoField → ℕ
  | label => 52
  | capsUnwrapped => 3
  | extraCaps => 2
  | length => 7

/-- The first bit. -/
def start : InfoField → ℕ
  | label => 0
  | capsUnwrapped => 52
  | extraCaps => 55
  | length => 57

/-- The field of the structure. -/
def field (mi : OsMessageInfo) : InfoField → U64
  | label => mi.label.setWidth 64
  | capsUnwrapped => mi.capsUnwrapped.setWidth 64
  | extraCaps => mi.extraCaps.setWidth 64
  | length => mi.length.setWidth 64

theorem field_raw (w : U64) (f : InfoField) :
    f.field (messageinfoFromU64Raw w) = bits w f.start f.width := by
  cases f <;> rfl

end InfoField

/-! ### The library -/

/-- The expression in `get_osmessageinfo_label`. -/
def getOsmessageinfoLabel (osMessageInfo : U64) : U64 := osMessageInfo &&& 0x000FFFFFFFFFFFFF

/-- `get_osmessageinfo_capsUnwrapped`. -/
def getOsmessageinfoCapsUnwrapped (osMessageInfo : U64) : U64 := (osMessageInfo >>> 52) &&& 0x7

/-- `get_osmessageinfo_extraCaps`. -/
def getOsmessageinfoExtraCaps (osMessageInfo : U64) : U64 := (osMessageInfo >>> 55) &&& 0x2

/-- `get_osmessageinfo_length`. -/
def getOsmessageinfoLength (osMessageInfo : U64) : U64 := (osMessageInfo >>> 57) &&& 0x7F

/-- The word that `set_osmessageinfo_label` computes. -/
def setOsmessageinfoLabel (osMessageInfo label : U64) : U64 :=
  osMessageInfo &&& 0xFFF0000000000000 ||| label

/-- The word that `set_osmessageinfo_capsUnwrapped` computes. -/
def setOsmessageinfoCapsUnwrapped (osMessageInfo capsUnwrapped : U64) : U64 :=
  osMessageInfo &&& 0xFF8FFFFFFFFFFFFF ||| capsUnwrapped

/-- The word that `set_osmessageinfo_extraCaps` computes. -/
def setOsmessageinfoExtraCaps (osMessageInfo extraCaps : U64) : U64 :=
  osMessageInfo &&& 0xFE7FFFFFFFFFFFFF ||| extraCaps

/-- The word that the second `set_osmessageinfo_capsUnwrapped` computes, which sets the length. -/
def setOsmessageinfoLength (osMessageInfo length : U64) : U64 :=
  osMessageInfo &&& 0x01FFFFFFFFFFFFFF ||| length

namespace InfoField

/-- The getter of the field. -/
def get : InfoField → U64 → U64
  | label => getOsmessageinfoLabel
  | capsUnwrapped => getOsmessageinfoCapsUnwrapped
  | extraCaps => getOsmessageinfoExtraCaps
  | length => getOsmessageinfoLength

/-- The setter of the field. -/
def set : InfoField → U64 → U64 → U64
  | label => setOsmessageinfoLabel
  | capsUnwrapped => setOsmessageinfoCapsUnwrapped
  | extraCaps => setOsmessageinfoExtraCaps
  | length => setOsmessageinfoLength

/-- What a setter keeps of the word. -/
def keepMask : InfoField → U64
  | label => 0xFFF0000000000000
  | capsUnwrapped => 0xFF8FFFFFFFFFFFFF
  | extraCaps => 0xFE7FFFFFFFFFFFFF
  | length => 0x01FFFFFFFFFFFFFF

theorem set_eq (f : InfoField) (w v : U64) : f.set w v = w &&& f.keepMask ||| v := by
  cases f <;> rfl

theorem bits_keepMask_self (f : InfoField) : bits f.keepMask f.start f.width = 0 := by
  cases f <;> decide

theorem bits_keepMask_of_ne {f g : InfoField} (h : g ≠ f) :
    bits f.keepMask g.start g.width = bits (BitVec.allOnes 64) g.start g.width := by
  revert h
  cases f <;> cases g <;> decide

end InfoField

section Accessors

variable {w v : U64} {f g : InfoField}

/-- The getter of `extraCaps` misses the lower bit. -/
theorem getOsmessageinfoExtraCaps_eq (w : U64) :
    getOsmessageinfoExtraCaps w = bits w 55 2 &&& 2 := by
  rw [← shift_and_eq_bits w 55 (m := 3) (by decide), BitVec.and_assoc]
  rfl

theorem get_of_ne (w : U64) (h : f ≠ .extraCaps) : f.get w = bits w f.start f.width := by
  cases f with
  | label =>
    rw [InfoField.start, ← shift_and_eq_bits w 0 (m := 0x000FFFFFFFFFFFFF) (by decide)]
    rfl
  | capsUnwrapped => exact shift_and_eq_bits w 52 (by decide)
  | length => exact shift_and_eq_bits w 57 (by decide)
  | extraCaps => exact absurd rfl h

/-- A getter gives the field, except that the one of `extraCaps` needs an even number. -/
theorem get_eq_field_iff : f.get w = f.field (messageinfoFromU64Raw w) ↔
    (f = .extraCaps → w.getLsbD 55 = false) := by
  rw [InfoField.field_raw]
  by_cases hf : f = .extraCaps
  · have hbit : w.getLsbD 55 = (w.extractLsb' 55 2).getLsbD 0 := by
      rw [BitVec.getLsbD_extractLsb']
      rfl
    have hsmall : ∀ x : BitVec 2, x.setWidth 64 &&& 2#64 = x.setWidth 64 ↔ x.getLsbD 0 = false := by
      decide
    subst hf
    rw [InfoField.get, getOsmessageinfoExtraCaps_eq, hbit]
    exact (hsmall (w.extractLsb' 55 2)).trans ⟨fun h _ => h, fun h => h rfl⟩
  · exact iff_of_true (get_of_ne w hf) fun h => absurd h hf

theorem get_of_bits_zero (h : bits w f.start f.width = 0) : f.get w = 0 := by
  by_cases hf : f = .extraCaps
  · subst hf
    rw [InfoField.get, getOsmessageinfoExtraCaps_eq]
    exact (congrArg (· &&& 2) h).trans BitVec.zero_and
  · rw [get_of_ne w hf, h]

/-- The fields after a setter. -/
theorem bits_set (w v : U64) (f g : InfoField) :
    bits (f.set w v) g.start g.width =
      (if g = f then 0 else bits w g.start g.width) ||| bits v g.start g.width := by
  rw [InfoField.set_eq, bits_or]
  split_ifs with h
  · rw [h, bits_and_of_zero f.bits_keepMask_self]
  · rw [bits_and_of_ones (InfoField.bits_keepMask_of_ne h)]

theorem bits_of_fits (hv : v.toNat < 2 ^ f.width) (h : g ≠ .label) :
    bits v g.start g.width = 0 := by
  have hle : f.width ≤ g.start := by
    revert h
    cases f <;> cases g <;> decide
  exact bits_of_lt (hv.trans_le (Nat.pow_le_pow_right (by decide) hle))

end Accessors

/-! ### Getters and setters -/

/-- The getters give the fields of the word `w`, and after the setter of the field `f` the getter
gives `v` and the other fields are as before. -/
structure Accurate (w : U64) (f : InfoField) (v : U64) : Prop where
  /-- The getters. -/
  get_eq : ∀ g : InfoField, g.get w = g.field (messageinfoFromU64Raw w)
  /-- The value is read back. -/
  reads_back : f.get (f.set w v) = v
  /-- The other fields. -/
  others : ∀ g ≠ f, g.field (messageinfoFromU64Raw (f.set w v)) = g.field (messageinfoFromU64Raw w)

/-- The library agrees with the structure if and only if the number of capabilities is even and the
field is the label or the value is 0. -/
theorem accurate_iff (w : U64) (f : InfoField) (v : U64) (hv : v.toNat < 2 ^ f.width) :
    Accurate w f v ↔ w.getLsbD 55 = false ∧ (f = .label ∨ v = 0) := by
  constructor
  · intro h
    refine ⟨get_eq_field_iff.1 (h.get_eq .extraCaps) rfl, or_iff_not_imp_left.2 fun hf => ?_⟩
    have hzero : bits (f.set w v) f.start f.width = 0 := by
      rw [bits_set, if_pos rfl, bits_of_fits hv hf]
      rfl
    rw [← h.reads_back, get_of_bits_zero hzero]
  · rintro ⟨hbit, hcase⟩
    -- the value reaches the label only
    have hvalue : ∀ g : InfoField, g ≠ .label ∨ v = 0 → bits v g.start g.width = 0 := by
      rintro g (hg | rfl)
      · exact bits_of_fits hv hg
      · exact bits_of_lt (Nat.two_pow_pos _)
    refine ⟨fun g => get_eq_field_iff.2 fun _ => hbit, ?_, fun g hg => ?_⟩
    · by_cases hf : f = .label
      · subst hf
        rw [get_of_ne _ (by decide), bits_set, if_pos rfl]
        exact BitVec.zero_or.trans (bits_zero_of_lt hv)
      · have hzero := hcase.resolve_left hf
        refine (get_of_bits_zero ?_).trans hzero.symm
        rw [bits_set, if_pos rfl, hvalue f (Or.inl hf)]
        rfl
    · have hg' : g ≠ .label ∨ v = 0 := hcase.imp_left fun (hf : f = .label) => hf ▸ hg
      rw [InfoField.field_raw, InfoField.field_raw, bits_set, if_neg hg, hvalue g hg']
      exact BitVec.or_zero

/-- A label in a word with two capabilities. -/
theorem accurate_iff_label : Accurate 0x0100000000000000 .label 5 ↔
    (0x0100000000000000 : U64).getLsbD 55 = false ∧ (InfoField.label = .label ∨ (5 : U64) = 0) :=
  accurate_iff _ _ _ (by decide)

/-- One word of a message is not counted. -/
theorem not_accurate : ¬∀ (w : U64) (f : InfoField) (v : U64), v.toNat < 2 ^ f.width →
    Accurate w f v := by
  intro hall
  have hback := (hall 0 .length 1 (by decide)).reads_back
  exact absurd hback (by decide)

end MicroKernel
