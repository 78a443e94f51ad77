import Mathlib.Data.List.Range
import Mathlib.Logic.Function.Basic
import MicroKernel.Ram.Basic

/-!
# The multiple APIC description table

The firmware lists the processors in a table of entries, each of which begins with a type and a
length.  The kernel goes through the table once and notes the enabled processors in `cpus`.

* `acpiConfigSmp` : the function of the kernel;
* `entryLoop_reads`, `entryLoop_ends_iff` : what the loop reads, and when it ends;
* `acpiConfigSmp_ends_iff` : the function ends unless an entry has the length zero;
* `noted_of_entryLoop` : what is noted of a well-formed table;
* `discovered_iff` : the processors are found, and fit into `cpus` if they are not too many.
-/

namespace MicroKernel

namespace Acpi

/-! ### The code -/

/-- `NCPU`. -/
def nCpu : ℕ := 8

/-- `TYPE_LAPIC`. -/
def typeLapic : BitVec 8 := 0

/-- `TYPE_IOAPIC`. -/
def typeIoapic : BitVec 8 := 1

/-- `APIC_LAPIC_ENABLED`. -/
def apicLapicEnabled : ℕ := 1

/-- `sizeof(struct acpi_madt)`. -/
def sizeofMadt : ℕ := 44

/-- `sizeof(struct madt_lapic)`. -/
def sizeofLapic : ℕ := 8

/-- `sizeof(struct madt_ioapic)`. -/
def sizeofIoapic : ℕ := 12

/-- The fields of `struct cpu` that are set. -/
structure Cpu where
  /-- The index in `cpus`. -/
  id : BitVec 8
  /-- The number of the local APIC. -/
  apicid : BitVec 8

/-- The variables, and the accesses of the loop. -/
structure Smp where
  /-- `cpus`; the index is not limited here. -/
  cpus : ℕ → Cpu
  /-- `ncpu`. -/
  ncpu : ℕ
  /-- `nioapic`, a local variable. -/
  nioapic : ℕ
  /-- `ismp`. -/
  ismp : ℕ
  /-- `ioapicid`. -/
  ioapicid : BitVec 8
  /-- `lapic`. -/
  lapic : BitVec 64
  /-- The addresses of the bytes that were read. -/
  reads : List ℕ
  /-- The indices at which `cpus` was written. -/
  writes : List ℕ

/-- `IO2V`. -/
def io2v (a : ℕ) : BitVec 64 := BitVec.ofNat 64 a + 0xFFFFFFFF40000000 - 0xFE000000

/-- `n` bytes at `a` are read. -/
def Smp.read (s : Smp) (a n : ℕ) : Smp := { s with reads := s.reads ++ List.range' a n }

/-- `madt->header.length`. -/
def headerLength (ram : Ram) (madt : ℕ) : ℕ := ram.readLe (madt + 4) 4

/-- `p[1]`. -/
def entryLen (ram : Ram) (p : ℕ) : ℕ := (ram (p + 1)).toNat

/-- `lapic->flags & APIC_LAPIC_ENABLED`. -/
def enabledFlag (ram : Ram) (p : ℕ) : ℕ := ram.readLe (p + 4) 4 &&& apicLapicEnabled

/-- `lapic->apic_id`. -/
def apicId (ram : Ram) (p : ℕ) : BitVec 8 := ram (p + 3)

/-- The `case TYPE_LAPIC`. -/
def lapicEntry (ram : Ram) (p len : ℕ) (s : Smp) : Smp :=
  if len < sizeofLapic then s
  else
    let s := s.read (p + 4) 4
    if enabledFlag ram p = 0 then s
    else
      let s := s.read (p + 3) 1
      { s with
        cpus := Function.update s.cpus s.ncpu ⟨BitVec.ofNat 8 s.ncpu, apicId ram p⟩
        writes := s.writes ++ [s.ncpu]
        ncpu := s.ncpu + 1 }

/-- The `case TYPE_IOAPIC`.  Its message has the address and the base, too. -/
def ioapicEntry (ram : Ram) (p len : ℕ) (s : Smp) : Smp :=
  if len < sizeofIoapic then s
  else
    let s := ((s.read (p + 4) 4).read (p + 2) 1).read (p + 8) 4
    { s with
      ioapicid := if s.nioapic ≠ 0 then s.ioapicid else ram (p + 2)
      nioapic := s.nioapic + 1 }

/-- The `switch`. -/
def entry (ram : Ram) (p len : ℕ) (s : Smp) : Smp :=
  let s := s.read p 1
  if ram p = typeLapic then lapicEntry ram p len s
  else if ram p = typeIoapic then ioapicEntry ram p len s
  else s

/-- The loop, with at most `n` tests of its condition. -/
def entryLoop (ram : Ram) (e : ℕ) : ℕ → ℕ → Smp → Option Smp
  | 0, _, _ => none
  | n + 1, p, s =>
    if p < e then
      if e - p < 2 then some s
      else
        let s := s.read (p + 1) 1
        if e - p < entryLen ram p then some s
        else entryLoop ram e n (p + entryLen ram p) (entry ram p (entryLen ram p) s)
    else some s

/-- `acpi_config_smp`.  The accesses are those of the loop of this call. -/
def acpiConfigSmp (ram : Ram) (madt n : ℕ) (s : Smp) : Option (ℤ × Smp) :=
  if madt = 0 then some (-1, { s with reads := [], writes := [] })
  else if headerLength ram madt < sizeofMadt then some (-1, { s with reads := [], writes := [] })
  else do
    let lapicAddr := ram.readLe (madt + 36) 4
    let p := madt + sizeofMadt
    let e := p + headerLength ram madt - sizeofMadt
    let s ← entryLoop ram e n p { s with nioapic := 0, reads := [], writes := [] }
    if s.ncpu ≠ 0 then some (0, { s with ismp := 1, lapic := io2v lapicAddr })
    else some (-1, s)

/-! ### The end of the loop -/

/-- The addresses of the entries that are found from an address on: each entry begins where the one
before it ends, and the last one may go beyond the end of the table. -/
inductive EntryFrom (ram : Ram) (e : ℕ) : ℕ → ℕ → Prop where
  | here {p : ℕ} : p + 2 ≤ e → EntryFrom ram e p p
  | next {p q : ℕ} : p + 2 ≤ e → p + entryLen ram p ≤ e →
      EntryFrom ram e (p + entryLen ram p) q → EntryFrom ram e p q

section Loop

variable {ram : Ram} {a e p q n len : ℕ} {s s' : Smp}

theorem entryLoop_entry (hp : p + 2 ≤ e) (hlen : p + entryLen ram p ≤ e) :
    entryLoop ram e (n + 1) p s = entryLoop ram e n (p + entryLen ram p)
      (entry ram p (entryLen ram p) (s.read (p + 1) 1)) := by
  rw [entryLoop, if_pos (by omega), if_neg (by omega)]
  dsimp only
  rw [if_neg (by omega)]

theorem entryLoop_end (hp : e < p + 2) : entryLoop ram e (n + 1) p s = some s := by
  by_cases hlt : p < e
  · rw [entryLoop, if_pos hlt, if_pos (by omega)]
  · rw [entryLoop, if_neg hlt]

theorem entryLoop_beyond (hp : p + 2 ≤ e) (hlen : e < p + entryLen ram p) :
    entryLoop ram e (n + 1) p s = some (s.read (p + 1) 1) := by
  rw [entryLoop, if_pos (by omega), if_neg (by omega)]
  dsimp only
  rw [if_pos (by omega)]

theorem entryLoop_zero (hp : p + 2 ≤ e) (hzero : entryLen ram p = 0) (n : ℕ) :
    ∀ s, entryLoop ram e n p s = none := by
  induction n with
  | zero => exact fun _ => rfl
  | succ n ih =>
    intro s
    rw [entryLoop_entry hp (by omega), hzero]
    exact ih _

theorem entryLoop_returns (h : ∀ q, EntryFrom ram e p q → entryLen ram q ≠ 0) (s : Smp) :
    ∃ n s', entryLoop ram e n p s = some s' := by
  -- a step of another length brings the loop nearer to the end of the table
  induction hk : e - p using Nat.strong_induction_on generalizing p s with
  | _ k ih =>
    by_cases hp : p + 2 ≤ e
    · by_cases hlen : p + entryLen ram p ≤ e
      · have hne := h p (.here hp)
        obtain ⟨n, s', hloop⟩ := ih _ (by omega) (fun q hq => h q (.next hp hlen hq))
          (entry ram p (entryLen ram p) (s.read (p + 1) 1)) rfl
        exact ⟨n + 1, s', (entryLoop_entry hp hlen).trans hloop⟩
      · exact ⟨1, _, entryLoop_beyond hp (by omega)⟩
    · exact ⟨1, _, entryLoop_end (by omega)⟩

theorem ne_zero_of_entryLoop (hq : EntryFrom ram e p q) :
    ∀ {n s}, entryLoop ram e n p s = some s' → entryLen ram q ≠ 0 := by
  induction hq with
  | here hp =>
    intro n s h hzero
    rw [entryLoop_zero hp hzero n s] at h
    cases h
  | next hp hlen _ ih =>
    intro n s h
    cases n with
    | zero => cases h
    | succ n => exact ih ((entryLoop_entry hp hlen).symm.trans h)

theorem entryLoop_ends_iff (s : Smp) : (∃ n s', entryLoop ram e n p s = some s') ↔
    ∀ q, EntryFrom ram e p q → entryLen ram q ≠ 0 := by
  constructor
  · rintro ⟨n, s', h⟩ q hq
    exact ne_zero_of_entryLoop hq h
  · exact fun h => entryLoop_returns h s

/-! ### What the loop reads -/

/-- The reads are in a range. -/
def Smp.Inside (s : Smp) (a e : ℕ) : Prop := ∀ r ∈ s.reads, r ∈ Set.Ico a e

theorem Smp.Inside.read {b : ℕ} (h : s.Inside a e) (ha : a ≤ b) (he : b + n ≤ e) :
    (s.read b n).Inside a e := by
  intro r hr
  rcases List.mem_append.1 hr with hr | hr
  · exact h r hr
  · obtain ⟨hlow, hhigh⟩ := List.mem_range'_1.1 hr
    exact ⟨ha.trans hlow, hhigh.trans_le he⟩

theorem inside_lapicEntry (h : s.Inside a e) (hp : a ≤ p) (hlen : p + len ≤ e) :
    (lapicEntry ram p len s).Inside a e := by
  rw [lapicEntry, sizeofLapic]
  split_ifs with hsize hflag
  · exact h
  · exact h.read (by omega) (by omega)
  · exact (h.read (b := p + 4) (n := 4) (by omega) (by omega)).read (by omega) (by omega)

theorem inside_ioapicEntry (h : s.Inside a e) (hp : a ≤ p) (hlen : p + len ≤ e) :
    (ioapicEntry ram p len s).Inside a e := by
  rw [ioapicEntry, sizeofIoapic]
  split_ifs with hsize
  · exact h
  · have haddr := h.read (b := p + 4) (n := 4) (by omega) (by omega)
    have hid := haddr.read (b := p + 2) (n := 1) (by omega) (by omega)
    exact hid.read (b := p + 8) (n := 4) (by omega) (by omega)

theorem inside_entry (h : s.Inside a e) (hp : a ≤ p) (hhead : p + 2 ≤ e) (hlen : p + len ≤ e) :
    (entry ram p len s).Inside a e := by
  have htype := h.read (b := p) (n := 1) hp (by omega)
  rw [entry]
  split_ifs with hlapic hioapic
  · exact inside_lapicEntry htype hp hlen
  · exact inside_ioapicEntry htype hp hlen
  · exact htype

theorem entryLoop_reads (n : ℕ) : ∀ {p : ℕ} {s : Smp}, s.Inside a e → a ≤ p →
    entryLoop ram e n p s = some s' → s'.Inside a e := by
  induction n with
  | zero =>
    intro p s _ _ h
    cases h
  | succ n ih =>
    intro p s hs hp h
    by_cases hhead : p + 2 ≤ e
    · have hread := hs.read (b := p + 1) (n := 1) (by omega) (by omega)
      by_cases hlen : p + entryLen ram p ≤ e
      · rw [entryLoop_entry hhead hlen] at h
        exact ih (inside_entry hread hp hhead hlen) (by omega) h
      · rw [entryLoop_beyond hhead (by omega)] at h
        cases h
        exact hread
    · rw [entryLoop_end (by omega)] at h
      cases h
      exact hs

end Loop

section Table

variable {ram : Ram} {madt : ℕ}

theorem acpiConfigSmp_eq_some {n : ℕ} {r : ℤ} {s s' : Smp} (hmadt : madt ≠ 0)
    (hsize : sizeofMadt ≤ headerLength ram madt) :
    acpiConfigSmp ram madt n s = some (r, s') ↔
      ∃ t, entryLoop ram (madt + headerLength ram madt) n (madt + sizeofMadt)
          { s with nioapic := 0, reads := [], writes := [] } = some t ∧
        (if t.ncpu ≠ 0 then (0, { t with ismp := 1, lapic := io2v (ram.readLe (madt + 36) 4) })
          else (-1, t)) = (r, s') := by
  have hend : madt + sizeofMadt + headerLength ram madt - sizeofMadt =
      madt + headerLength ram madt := by omega
  rw [acpiConfigSmp, if_neg hmadt, if_neg (by omega)]
  dsimp only
  rw [hend, Option.bind_eq_bind, Option.bind_eq_some_iff]
  refine exists_congr fun t => and_congr_right fun _ => ?_
  split_ifs
  · exact Option.some_inj
  · exact Option.some_inj

/-- The function ends, and reads bytes of the table only, exactly if none of the entries that it
finds has the length zero. -/
theorem acpiConfigSmp_ends_iff (hmadt : madt ≠ 0) (s : Smp) :
    (∃ n r s', acpiConfigSmp ram madt n s = some (r, s') ∧
        s'.Inside madt (madt + headerLength ram madt)) ↔
      ∀ p, EntryFrom ram (madt + headerLength ram madt) (madt + sizeofMadt) p →
        entryLen ram p ≠ 0 := by
  by_cases hsize : sizeofMadt ≤ headerLength ram madt
  · rw [← entryLoop_ends_iff { s with nioapic := 0, reads := [], writes := [] }]
    constructor
    · rintro ⟨n, r, s', h, -⟩
      obtain ⟨t, hloop, -⟩ := (acpiConfigSmp_eq_some hmadt hsize).1 h
      exact ⟨n, t, hloop⟩
    · rintro ⟨n, t, hloop⟩
      have hreads := entryLoop_reads n (fun r hr => absurd hr List.not_mem_nil)
        (Nat.le_add_right madt sizeofMadt) hloop
      by_cases hncpu : t.ncpu ≠ 0
      · exact ⟨n, 0, _, (acpiConfigSmp_eq_some hmadt hsize).2 ⟨t, hloop, if_pos hncpu⟩, hreads⟩
      · exact ⟨n, -1, t, (acpiConfigSmp_eq_some hmadt hsize).2 ⟨t, hloop, if_neg hncpu⟩, hreads⟩
  · constructor
    · -- there is no entry
      rintro - p hp
      cases hp with
      | here h => omega
      | next h => omega
    · intro _
      refine ⟨0, -1, { s with reads := [], writes := [] }, ?_,
        fun r hr => absurd hr List.not_mem_nil⟩
      rw [acpiConfigSmp, if_neg hmadt, if_pos (by omega)]

/-- A table of 46 bytes, in which the two bytes after the header are zero. -/
def emptyEntryTable : Ram := fun a => if a = 0x1004 then 46 else 0

theorem headerLength_emptyEntryTable : headerLength emptyEntryTable 0x1000 = 46 := by decide

/-- With this table the loop does not end. -/
theorem not_acpiConfigSmp_ends : ¬∀ (ram : Ram) (madt : ℕ) (s : Smp), madt ≠ 0 →
    ∃ n r s', acpiConfigSmp ram madt n s = some (r, s') ∧
      s'.Inside madt (madt + headerLength ram madt) := by
  intro h
  obtain ⟨n, r, s', hend, -⟩ := h emptyEntryTable 0x1000 ⟨fun _ => ⟨0, 0⟩, 0, 0, 0, 0, 0, [], []⟩
    (by decide)
  obtain ⟨t, hloop, -⟩ := (acpiConfigSmp_eq_some (by decide)
    (by rw [headerLength_emptyEntryTable]; decide)).1 hend
  rw [headerLength_emptyEntryTable, entryLoop_zero (by decide) (by decide)] at hloop
  cases hloop

/-- A table of 64 bytes with two entries: a processor and an I/O APIC. -/
def twoEntryTable : Ram := fun a =>
  if a = 0x1004 then 64 else if a = 0x102d then 8 else if a = 0x1030 then 1
  else if a = 0x1034 then 1 else if a = 0x1035 then 12 else 0

theorem acpiConfigSmp_ends_twoEntryTable : ∃ n r s', acpiConfigSmp twoEntryTable 0x1000 n
    ⟨fun _ => ⟨0, 0⟩, 0, 0, 0, 0, 0, [], []⟩ = some (r, s') ∧
      s'.Inside 0x1000 (0x1000 + headerLength twoEntryTable 0x1000) := by
  refine (acpiConfigSmp_ends_iff (by decide) _).2 fun p hp => ?_
  have hlen : headerLength twoEntryTable 0x1000 = 64 := by decide
  have hfirst : entryLen twoEntryTable (0x1000 + 44) = 8 := by decide
  have hsecond : entryLen twoEntryTable (0x1000 + 44 + 8) = 12 := by decide
  rw [hlen, sizeofMadt] at hp
  cases hp with
  | here => omega
  | next _ _ hp =>
    rw [hfirst] at hp
    cases hp with
    | here => omega
    | next _ _ hp =>
      rw [hsecond] at hp
      cases hp with
      | here h => omega
      | next h => omega

end Table

/-! ### The processors that are found -/

/-- The entries of a part of a table, which have at least two bytes and are inside the table. -/
inductive WellFormed (ram : Ram) (e : ℕ) : ℕ → List ℕ → Prop where
  | done {p : ℕ} : p ≤ e → e < p + 2 → WellFormed ram e p []
  | entry {p : ℕ} {l : List ℕ} : 2 ≤ entryLen ram p → p + entryLen ram p ≤ e →
      WellFormed ram e (p + entryLen ram p) l → WellFormed ram e p (p :: l)

/-- An entry of an enabled processor. -/
def IsEnabled (ram : Ram) (p : ℕ) : Prop :=
  ram p = typeLapic ∧ sizeofLapic ≤ entryLen ram p ∧ enabledFlag ram p ≠ 0

instance (ram : Ram) : DecidablePred (IsEnabled ram) :=
  fun _ => inferInstanceAs (Decidable (_ ∧ _ ∧ _))

/-- The entries of the enabled processors. -/
def enabledLapics (ram : Ram) (l : List ℕ) : List ℕ := l.filter (IsEnabled ram ·)

/-- The processors of some entries were noted. -/
structure Noted (ram : Ram) (l : List ℕ) (s s' : Smp) : Prop where
  /-- They are counted. -/
  ncpu : s'.ncpu = s.ncpu + l.length
  /-- What is in `cpus` behind the old entries. -/
  new : ∀ i p, l[i]? = some p →
    s'.cpus (s.ncpu + i) = ⟨BitVec.ofNat 8 (s.ncpu + i), apicId ram p⟩
  /-- The old entries are kept. -/
  old : ∀ i < s.ncpu, s'.cpus i = s.cpus i
  /-- Where `cpus` was written. -/
  writes : s'.writes = s.writes ++ List.range' s.ncpu l.length

section Noted

variable {ram : Ram} {e p len madt : ℕ} {l l' : List ℕ} {s s' s'' : Smp}

theorem noted_nil (hncpu : s'.ncpu = s.ncpu) (hcpus : s'.cpus = s.cpus)
    (hwrites : s'.writes = s.writes) : Noted ram [] s s' where
  ncpu := hncpu
  new i p h := by cases h
  old i _ := congrFun hcpus i
  writes := by rw [hwrites, List.length_nil, List.range'_zero, List.append_nil]

theorem Noted.append (h : Noted ram l s s') (h' : Noted ram l' s' s'') :
    Noted ram (l ++ l') s s'' where
  ncpu := by rw [h'.ncpu, h.ncpu, List.length_append, Nat.add_assoc]
  new i p hi := by
    by_cases hlt : i < l.length
    · rw [List.getElem?_append_left hlt] at hi
      rw [h'.old _ (by rw [h.ncpu]; omega), h.new i p hi]
    · rw [List.getElem?_append_right (by omega)] at hi
      have hnew := h'.new _ p hi
      rwa [h.ncpu, show s.ncpu + l.length + (i - l.length) = s.ncpu + i by omega] at hnew
  old i hi := (h'.old i (by rw [h.ncpu]; omega)).trans (h.old i hi)
  writes := by
    rw [h'.writes, h.writes, h.ncpu, List.append_assoc, List.length_append, List.range'_append_1]

theorem noted_entry (ram : Ram) (p : ℕ) (s : Smp) :
    Noted ram (enabledLapics ram [p]) s (entry ram p (entryLen ram p) s) := by
  have hnot (h : ¬IsEnabled ram p) : enabledLapics ram [p] = [] :=
    List.filter_cons_of_neg (by simpa using h)
  rw [entry]
  split_ifs with hlapic hioapic
  · rw [lapicEntry]
    split_ifs with hsize hflag
    · rw [hnot fun h => Nat.not_lt.2 h.2.1 hsize]
      exact noted_nil rfl rfl rfl
    · rw [hnot fun h => h.2.2 hflag]
      exact noted_nil rfl rfl rfl
    · have hen : enabledLapics ram [p] = [p] :=
        List.filter_cons_of_pos (by simpa using ⟨hlapic, Nat.not_lt.1 hsize, hflag⟩)
      rw [hen]
      refine ⟨rfl, fun i q hq => ?_, fun i hi => Function.update_of_ne (Nat.ne_of_lt hi) .., rfl⟩
      cases i with
      | zero =>
        cases hq
        exact Function.update_self ..
      | succ i => cases hq
  · rw [hnot fun h => hlapic h.1, ioapicEntry]
    split_ifs
    · exact noted_nil rfl rfl rfl
    · exact noted_nil rfl rfl rfl
  · rw [hnot fun h => hlapic h.1]
    exact noted_nil rfl rfl rfl

theorem noted_read (h : Noted ram l (s.read p len) s') : Noted ram l s s' :=
  ⟨h.ncpu, h.new, h.old, h.writes⟩

/-- The loop notes the enabled processors. -/
theorem noted_of_entryLoop (h : WellFormed ram e p l) : ∀ {n : ℕ} {s : Smp},
    entryLoop ram e n p s = some s' → Noted ram (enabledLapics ram l) s s' := by
  induction h with
  | done _ hp =>
    intro n s hloop
    cases n with
    | zero => cases hloop
    | succ n =>
      rw [entryLoop_end hp] at hloop
      cases hloop
      exact noted_nil rfl rfl rfl
  | @entry p l hlen he _ ih =>
    intro n s hloop
    cases n with
    | zero => cases hloop
    | succ n =>
      rw [entryLoop_entry (by omega) he] at hloop
      have hall := (noted_read (noted_entry ram p (s.read (p + 1) 1))).append (ih hloop)
      rwa [enabledLapics, enabledLapics, ← List.filter_append, List.singleton_append] at hall

theorem WellFormed.ne_zero (h : WellFormed ram e p l) {q : ℕ} (hq : EntryFrom ram e p q) :
    entryLen ram q ≠ 0 := by
  induction h with
  | done _ hp =>
    cases hq with
    | here h => omega
    | next h => omega
  | entry hlen he _ ih =>
    cases hq with
    | here => omega
    | next _ _ hq => exact ih hq

theorem WellFormed.le (h : WellFormed ram e p l) : p ≤ e := by
  cases h with
  | done hp => exact hp
  | entry _ hp => omega

/-- The processors were found: `cpus` begins with them, and was not written behind its end. -/
structure Discovered (ram : Ram) (l : List ℕ) (s : Smp) : Prop where
  /-- They are counted. -/
  ncpu : s.ncpu = l.length
  /-- They are in `cpus`, in the order of the table. -/
  cpus : ∀ i p, l[i]? = some p → (s.cpus i).id.toNat = i ∧ (s.cpus i).apicid = apicId ram p
  /-- The writes are inside `cpus`. -/
  writes : ∀ i ∈ s.writes, i < nCpu

/-- At the end of the function the processors are noted. -/
theorem noted_of_acpiConfigSmp {n : ℕ} {r : ℤ} (hmadt : madt ≠ 0)
    (hwf : WellFormed ram (madt + headerLength ram madt) (madt + sizeofMadt) l)
    (h : acpiConfigSmp ram madt n s = some (r, s')) :
    Noted ram (enabledLapics ram l) { s with writes := [] } s' := by
  have hsize : sizeofMadt ≤ headerLength ram madt := Nat.le_of_add_le_add_left hwf.le
  obtain ⟨t, hloop, hresult⟩ := (acpiConfigSmp_eq_some hmadt hsize).1 h
  have hnoted := noted_of_entryLoop hwf hloop
  split_ifs at hresult
  · cases hresult
    exact ⟨hnoted.ncpu, hnoted.new, hnoted.old, hnoted.writes⟩
  · cases hresult
    exact ⟨hnoted.ncpu, hnoted.new, hnoted.old, hnoted.writes⟩

theorem Noted.fits_iff (h : Noted ram l { s with writes := [] } s') (hncpu : s.ncpu = 0) :
    Discovered ram l s' ↔ l.length ≤ nCpu := by
  have hwrites : s'.writes = List.range' 0 l.length := by
    rw [← hncpu]
    exact h.writes
  constructor
  · intro hd
    by_contra hlt
    have hin := hd.writes nCpu (by rw [hwrites, List.mem_range'_1]; omega)
    exact Nat.lt_irrefl _ hin
  · intro hle
    refine ⟨?_, fun i p hi => ?_, fun i hi => ?_⟩
    · rw [h.ncpu, hncpu, Nat.zero_add]
    · have hlt : i < l.length := (List.getElem?_eq_some_iff.1 hi).1
      have hnew := h.new i p hi
      rw [hncpu, Nat.zero_add] at hnew
      rw [hnew]
      refine ⟨?_, rfl⟩
      rw [BitVec.toNat_ofNat]
      exact Nat.mod_eq_of_lt (hlt.trans_le (hle.trans (by decide)))
    · rw [hwrites, List.mem_range'_1] at hi
      omega

/-- The processors of a well-formed table are found, in the order of the table and without a write
behind the end of `cpus`, exactly if there are not more than `cpus` has entries. -/
theorem discovered_iff (hmadt : madt ≠ 0)
    (hwf : WellFormed ram (madt + headerLength ram madt) (madt + sizeofMadt) l)
    (hncpu : s.ncpu = 0) :
    (∃ n r s', acpiConfigSmp ram madt n s = some (r, s') ∧
        Discovered ram (enabledLapics ram l) s') ↔
      (enabledLapics ram l).length ≤ nCpu := by
  constructor
  · rintro ⟨n, r, s', h, hd⟩
    exact ((noted_of_acpiConfigSmp hmadt hwf h).fits_iff hncpu).1 hd
  · intro hle
    obtain ⟨n, r, s', h, -⟩ := (acpiConfigSmp_ends_iff hmadt s).2 fun p => hwf.ne_zero
    exact ⟨n, r, s', h, ((noted_of_acpiConfigSmp hmadt hwf h).fits_iff hncpu).2 hle⟩

/-- A table with `k` entries of enabled processors. -/
def lapicTable (k : ℕ) : Ram := fun a =>
  if a = 0x1004 then BitVec.ofNat 8 (44 + 8 * k)
  else if a < 0x102c then 0
  else if (a - 0x102c) % 8 = 1 then 8
  else if (a - 0x102c) % 8 = 4 then 1
  else 0

/-- The addresses of the entries from the entry number `i` on. -/
def lapicEntries (i n : ℕ) : List ℕ := (List.range' i n).map (0x102c + 8 * ·)

theorem entryLen_lapicTable (k i : ℕ) : entryLen (lapicTable k) (0x102c + 8 * i) = 8 := by
  rw [entryLen, lapicTable, if_neg (by omega), if_neg (by omega), if_pos (by omega)]
  rfl

theorem wellFormed_lapicTable (k n : ℕ) : ∀ i, WellFormed (lapicTable k) (0x102c + 8 * (i + n))
    (0x102c + 8 * i) (lapicEntries i n) := by
  induction n with
  | zero => exact fun i => .done le_rfl (by omega)
  | succ n ih =>
    intro i
    have hlen := entryLen_lapicTable k i
    refine .entry (by omega) (by omega) ?_
    have hrest := ih (i + 1)
    rwa [hlen, show 0x102c + 8 * i + 8 = 0x102c + 8 * (i + 1) by omega,
      show i + (n + 1) = i + 1 + n by omega]

/-- A ninth processor is noted behind the end of `cpus`. -/
theorem not_discovered : ¬∀ (ram : Ram) (madt : ℕ) (l : List ℕ) (s : Smp), madt ≠ 0 →
    WellFormed ram (madt + headerLength ram madt) (madt + sizeofMadt) l → s.ncpu = 0 →
    ∃ n r s', acpiConfigSmp ram madt n s = some (r, s') ∧
      Discovered ram (enabledLapics ram l) s' := by
  intro hall
  have hlen : 0x1000 + headerLength (lapicTable 9) 0x1000 = 0x102c + 8 * (0 + 9) := by decide
  have hwf : WellFormed (lapicTable 9) (0x1000 + headerLength (lapicTable 9) 0x1000)
      (0x1000 + sizeofMadt) (lapicEntries 0 9) := by
    rw [hlen]
    exact wellFormed_lapicTable 9 9 0
  obtain ⟨n, r, s', h, hd⟩ := hall (lapicTable 9) 0x1000 (lapicEntries 0 9)
    ⟨fun _ => ⟨0, 0⟩, 0, 0, 0, 0, 0, [], []⟩ (by decide) hwf rfl
  have hle := ((noted_of_acpiConfigSmp (by decide) hwf h).fits_iff rfl).1 hd
  exact absurd hle (by decide)

/-- A table with three processors. -/
theorem discovered_three : ∃ n r s', acpiConfigSmp (lapicTable 3) 0x1000 n
    ⟨fun _ => ⟨0, 0⟩, 0, 0, 0, 0, 0, [], []⟩ = some (r, s') ∧
      Discovered (lapicTable 3) (enabledLapics (lapicTable 3) (lapicEntries 0 3)) s' := by
  have hlen : 0x1000 + headerLength (lapicTable 3) 0x1000 = 0x102c + 8 * (0 + 3) := by decide
  refine (discovered_iff (by decide) ?_ rfl).2 (by decide)
  rw [hlen]
  exact wellFormed_lapicTable 3 3 0

end Noted

end Acpi

end MicroKernel
