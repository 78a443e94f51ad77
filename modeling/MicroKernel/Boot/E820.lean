import Mathlib.Data.List.TakeWhile
import MicroKernel.Boot.Bootmain
import MicroKernel.Memblock.Order
import MicroKernel.Vm.EntryTables

/-!
# The memory map of the firmware

The boot sector asks the firmware for the memory map, entry by entry, and leaves it at 0x8000.  It
stays there while the kernel is loaded and the first page tables are built, until `memblock_init`
reads it.

* `probeMemory` : the code of the boot sector;
* `probeLoop_spec` : the entries that were reported are in memory;
* `boot_memblockInit` : the entries that `memblock_init` reads are the reported ones exactly if all
  usable ones are among the first 32, before one that ends the map, and nothing usable is in memory
  behind them (`ReadsReported`); then its tables are those of the reported memory.
-/

namespace MicroKernel

namespace E820

open Bootmain

/-! ### The code -/

/-- What the firmware does for a value of `%ebx`: it stores an entry and gives the next value, or it
sets the carry flag. -/
abbrev Bios := BitVec 32 → Option (E820Entry × BitVec 32)

/-- An entry is stored. -/
def storeEntry (m : Ram) (a : ℕ) (x : E820Entry) : Ram :=
  ((m.writeLe a 8 x.addr).writeLe (a + 8) 8 x.len).writeLe (a + 16) 4 x.type

/-- The code at `start_probe`, with at most `n` calls of the firmware. -/
def probeLoop (bios : Bios) : ℕ → BitVec 32 → BitVec 16 → Ram → Option Ram
  | 0, _, _, _ => none
  | n + 1, ebx, di, m =>
    match bios ebx with
    | none => some (m.writeLe 0x8000 2 12345)
    | some (x, ebx) =>
      let m := storeEntry m di.toNat x
      let di := di + 20
      let m := m.writeLe 0x8000 4 (m.readLe 0x8000 4 + 1)
      if ebx = 0 then some m else probeLoop bios n ebx di m

/-- The code at `probe_memory`. -/
def probeMemory (bios : Bios) (n : ℕ) (m : Ram) : Option Ram :=
  probeLoop bios n 0 0x8004 (m.writeLe 0x8000 4 0)

/-- An entry of `ARDS->map`. -/
def entryAt (m : Ram) (a : ℕ) : E820Entry := ⟨m.readLe a 8, m.readLe (a + 8) 8, m.readLe (a + 16) 4⟩

/-- `ARDS->map`, which is at `KERNBASE + ARDSOFFSET`. -/
def ards (m : Ram) : List E820Entry := (List.range 32).map fun i => entryAt m (0x8004 + 20 * i)

/-! ### What the firmware reports -/

/-- The entries that are reported from a value of `%ebx` on. -/
inductive Reports (bios : Bios) : BitVec 32 → List E820Entry → Prop where
  | carry {ebx : BitVec 32} : bios ebx = none → Reports bios ebx []
  | last {ebx : BitVec 32} {x : E820Entry} : bios ebx = some (x, 0) → Reports bios ebx [x]
  | more {ebx ebx' : BitVec 32} {x : E820Entry} {l : List E820Entry} :
      bios ebx = some (x, ebx') → ebx' ≠ 0 → Reports bios ebx' l → Reports bios ebx (x :: l)

/-- The fields of an entry fit. -/
structure Fits (x : E820Entry) : Prop where
  /-- `addr`. -/
  addr : x.addr < 2 ^ 64
  /-- `len`. -/
  len : x.len < 2 ^ 64
  /-- `type`. -/
  type : x.type < 2 ^ 32

variable {bios : Bios} {ebx : BitVec 32} {di : BitVec 16} {m m' : Ram} {l : List E820Entry}
  {x : E820Entry} {a b : ℕ}

/-! ### Entries in memory -/

theorem entryAt_congr (h : ∀ b ∈ Set.Ico a (a + 20), m b = m' b) : entryAt m a = entryAt m' a := by
  have hword (k n : ℕ) (hk : k + n ≤ 20) : m.readLe (a + k) n = m'.readLe (a + k) n :=
    Ram.readLe_congr n fun b hb => h b ⟨(Nat.le_add_right a k).trans hb.1, by
      have := hb.2
      omega⟩
  have hfirst := hword 0 8 (by decide)
  rw [Nat.add_zero] at hfirst
  rw [entryAt, entryAt, hfirst, hword 8 8 (by decide), hword 16 4 (by decide)]

theorem entryAt_storeEntry (hx : Fits x) : entryAt (storeEntry m a x) a = x := by
  have haddr : (storeEntry m a x).readLe a 8 = x.addr := by
    rw [storeEntry, Ram.readLe_writeLe_of_disjoint (by omega),
      Ram.readLe_writeLe_of_disjoint (by omega), Ram.readLe_writeLe hx.addr]
  have hlen : (storeEntry m a x).readLe (a + 8) 8 = x.len := by
    rw [storeEntry, Ram.readLe_writeLe_of_disjoint (by omega), Ram.readLe_writeLe hx.len]
  have htype : (storeEntry m a x).readLe (a + 16) 4 = x.type := Ram.readLe_writeLe hx.type
  rw [entryAt, haddr, hlen, htype]

theorem storeEntry_of_not_mem (hb : b ∉ Set.Ico a (a + 20)) : storeEntry m a x b = m b := by
  have hout : b < a ∨ a + 20 ≤ b := by
    by_contra hin
    exact hb ⟨by omega, by omega⟩
  rw [storeEntry, Ram.writeLe_of_not_mem, Ram.writeLe_of_not_mem, Ram.writeLe_of_not_mem]
  all_goals
    intro hin
    have := hin.1
    have := hin.2
    omega

/-! ### The loop -/

theorem storeEntry_count (hx : Fits x) (hlow : 0x8004 ≤ a) (v : ℕ) :
    entryAt ((storeEntry m a x).writeLe 0x8000 4 v) a = x ∧
      ∀ b, b ∉ Set.Ico 0x8000 0x8004 → b ∉ Set.Ico a (a + 20) →
        (storeEntry m a x).writeLe 0x8000 4 v b = m b := by
  refine ⟨?_, fun b hcount hb => ?_⟩
  · have hcount : entryAt ((storeEntry m a x).writeLe 0x8000 4 v) a =
        entryAt (storeEntry m a x) a :=
      entryAt_congr fun b hb => Ram.writeLe_of_not_mem fun hin =>
        Nat.not_lt.2 (hlow.trans hb.1) hin.2
    rw [hcount, entryAt_storeEntry hx]
  · rw [Ram.writeLe_of_not_mem hcount, storeEntry_of_not_mem hb]

/-- The entries are stored one behind the other; besides them only the count is changed. -/
theorem probeLoop_spec (h : Reports bios ebx l) (hfits : ∀ x ∈ l, Fits x)
    (hlow : 0x8004 ≤ di.toNat) (hroom : di.toNat + 20 * l.length < 2 ^ 16) (m : Ram) :
    ∃ n m', probeLoop bios n ebx di m = some m' ∧
      (∀ (i : ℕ) (hi : i < l.length), entryAt m' (di.toNat + 20 * i) = l[i]) ∧
      ∀ b, b ∉ Set.Ico 0x8000 0x8004 → b ∉ Set.Ico di.toNat (di.toNat + 20 * l.length) →
        m' b = m b := by
  induction h generalizing di m with
  | carry hbios =>
    refine ⟨1, m.writeLe 0x8000 2 12345, ?_, fun i hi => absurd hi (Nat.not_lt_zero i),
      fun b hb _ => Ram.writeLe_of_not_mem fun hin => hb ⟨hin.1, hin.2.trans (by decide)⟩⟩
    rw [probeLoop, hbios]
  | @last ebx x hbios =>
    obtain ⟨hentry, hkeep⟩ := storeEntry_count (m := m) (hfits x List.mem_cons_self) hlow
      ((storeEntry m di.toNat x).readLe 0x8000 4 + 1)
    refine ⟨1, _, ?_, fun i hi => ?_, hkeep⟩
    · rw [probeLoop, hbios]
      exact if_pos rfl
    · obtain rfl := Nat.lt_one_iff.1 hi
      exact hentry
  | @more ebx ebx' x l hbios hne _ ih =>
    rw [List.length_cons] at hroom
    have hnext : (di + 20).toNat = di.toNat + 20 := by
      rw [BitVec.toNat_add]
      exact Nat.mod_eq_of_lt (by change di.toNat + 20 < 2 ^ 16; omega)
    obtain ⟨hentry, hkeep⟩ := storeEntry_count (m := m) (hfits x List.mem_cons_self) hlow
      ((storeEntry m di.toNat x).readLe 0x8000 4 + 1)
    have hlow' : 0x8004 ≤ (di + 20).toNat := by omega
    obtain ⟨n, m', hloop, hentries, hkeep'⟩ := ih
      (fun y hy => hfits y (List.mem_cons_of_mem _ hy)) hlow' (by omega)
      ((storeEntry m di.toNat x).writeLe 0x8000 4
        ((storeEntry m di.toNat x).readLe 0x8000 4 + 1))
    rw [hnext] at hentries hkeep'
    refine ⟨n + 1, m', ?_, fun i hi => ?_, fun b hcount hb => ?_⟩
    · rw [probeLoop, hbios]
      exact (if_neg hne).trans hloop
    · cases i with
      | zero =>
        -- the entries that follow are behind this one
        refine (entryAt_congr fun b hb => hkeep' b (fun hin => ?_) fun hin => ?_).trans hentry
        · exact Nat.not_lt.2 (hlow.trans hb.1) hin.2
        · exact Nat.not_lt.2 hin.1 hb.2
      | succ i =>
        have hrest := hentries i (Nat.lt_of_succ_lt_succ hi)
        rwa [show di.toNat + 20 * (i + 1) = di.toNat + 20 + 20 * i by omega]
    · rw [List.length_cons] at hb
      rw [hkeep' b hcount fun hin => hb ⟨by have := hin.1; omega, by have := hin.2; omega⟩,
        hkeep b hcount fun hin => hb ⟨hin.1, by have := hin.2; omega⟩]

/-! ### What the kernel reads -/

/-- The first 32 entries of the reported map are read, and behind them what was in memory before. -/
theorem ards_eq (hentries : ∀ i < 32, ∀ hi : i < l.length, entryAt m' (0x8004 + 20 * i) = l[i])
    (hkeep : ∀ b, 0x8004 + 20 * l.length ≤ b → b < 0x8004 + 20 * 32 → m' b = m b) :
    ards m' = l.take 32 ++ (ards m).drop l.length := by
  refine List.ext_getElem (by simp [ards]; omega) fun i hi hi' => ?_
  have hlt : i < 32 := by simpa [ards] using hi
  by_cases hil : i < l.length
  · rw [List.getElem_append_left (by simp; omega)]
    simpa [ards] using hentries i hlt hil
  · rw [List.getElem_append_right (by simp; omega)]
    have hlen : (l.take 32).length = l.length := by simp; omega
    simp only [ards, List.getElem_map, List.getElem_range, List.getElem_drop, hlen,
      Nat.add_sub_cancel' (Nat.not_lt.1 hil)]
    refine entryAt_congr fun b hb => hkeep b ?_ ?_
    · have := hb.1
      omega
    · have := hb.2
      omega

/-- An entry that ends the map. -/
def Ends (x : E820Entry) : Prop := x.type < 1 ∨ 4 < x.type

/-- The usable entries of a map. -/
def reportedUsable (l : List E820Entry) : List E820Entry := l.filter fun x => x.type = 1

/-- The memory of these entries. -/
def reportedMemory (l : List E820Entry) : Set ℕ :=
  Extent.cover ((reportedUsable l).map E820Entry.extent)

/-- The entries of a map that are not read: from the first one on that ends it, and behind the
32nd. -/
def unread (l : List E820Entry) : List E820Entry :=
  ((l.take 32).dropWhile fun x => 1 ≤ x.type ∧ x.type ≤ 4) ++ l.drop 32

/-- Where the map `l` was put into the memory `m`, its usable entries are read, and no others. -/
structure ReadsReported (l : List E820Entry) (m : Ram) : Prop where
  /-- Its usable entries are read. -/
  all : ∀ x ∈ unread l, x.type ≠ 1
  /-- It is ended by an entry, or there is no usable entry behind it. -/
  only : (∃ x ∈ l.take 32, Ends x) ∨ usablePrefix ((ards m).drop l.length) = []

theorem reportedUsable_eq (l : List E820Entry) :
    reportedUsable l = usablePrefix (l.take 32) ++ reportedUsable (unread l) := by
  rw [reportedUsable, usablePrefix, reportedUsable, unread, ← List.filter_append,
    ← List.append_assoc, List.takeWhile_append_dropWhile, List.take_append_drop]

theorem usablePrefix_append_of_ends {g : List E820Entry} (h : ∃ x ∈ l, Ends x) :
    usablePrefix (l ++ g) = usablePrefix l := by
  induction l with
  | nil => exact absurd h.choose_spec.1 List.not_mem_nil
  | cons x l ih =>
    rw [List.cons_append, usablePrefix_cons, usablePrefix_cons]
    by_cases hend : x.type < 1 ∨ 4 < x.type
    · rw [if_pos hend, if_pos hend]
    · obtain ⟨y, hy, hends⟩ := h
      rcases List.mem_cons.1 hy with rfl | hy
      · exact absurd hends hend
      · rw [if_neg hend, if_neg hend, ih ⟨y, hy, hends⟩]

theorem usablePrefix_append {g : List E820Entry} (h : ¬∃ x ∈ l, Ends x) :
    usablePrefix (l ++ g) = usablePrefix l ++ usablePrefix g := by
  induction l with
  | nil => rfl
  | cons x l ih =>
    obtain ⟨hend, htail⟩ := not_or.1 (mt (List.exists_mem_cons_iff _ _ _).2 h)
    change ¬(x.type < 1 ∨ 4 < x.type) at hend
    rw [List.cons_append, usablePrefix_cons, usablePrefix_cons, if_neg hend, if_neg hend, ih htail]
    split_ifs <;> rfl

theorem unread_of_not_ends (h : ¬∃ x ∈ l.take 32, Ends x) : unread l = l.drop 32 := by
  have hnil : ((l.take 32).dropWhile fun x => 1 ≤ x.type ∧ x.type ≤ 4) = [] := by
    refine List.dropWhile_eq_nil_iff.2 fun x hx => decide_eq_true ?_
    have hends : ¬(x.type < 1 ∨ 4 < x.type) := fun hends => h ⟨x, hx, hends⟩
    omega
  rw [unread, hnil, List.nil_append]

/-- What is read is what was reported exactly under the condition. -/
theorem usablePrefix_eq_iff (l : List E820Entry) (m : Ram) :
    usablePrefix (l.take 32 ++ (ards m).drop l.length) = reportedUsable l ↔
      ReadsReported l m := by
  have hall : reportedUsable (unread l) = [] ↔ ∀ x ∈ unread l, x.type ≠ 1 := by
    simp [reportedUsable]
  rw [reportedUsable_eq l]
  by_cases hends : ∃ x ∈ l.take 32, Ends x
  · rw [usablePrefix_append_of_ends hends, List.self_eq_append_right, hall]
    exact ⟨fun h => ⟨h, Or.inl hends⟩, ReadsReported.all⟩
  · rw [usablePrefix_append hends, List.append_cancel_left_eq]
    have hlen : (ards m).length = 32 := by simp [ards]
    -- either the map has more than 32 entries or there is something behind it
    rcases Nat.le_total l.length 32 with hle | hle
    · have hnil : unread l = [] := by
        rw [unread_of_not_ends hends]
        exact List.drop_of_length_le hle
      have hempty : reportedUsable (unread l) = [] := by
        rw [hnil]
        rfl
      rw [hempty]
      refine ⟨fun h => ⟨fun x hx => ?_, Or.inr h⟩, fun h => h.only.resolve_left hends⟩
      rw [hnil] at hx
      exact absurd hx List.not_mem_nil
    · have hnil : usablePrefix ((ards m).drop l.length) = [] := by
        rw [List.drop_of_length_le (hlen.trans_le hle)]
        rfl
      rw [hnil, eq_comm, hall]
      exact ⟨fun h => ⟨h, Or.inr hnil⟩, ReadsReported.all⟩

/-! ### The way to the kernel -/

/-- The memory of the map. -/
def mapRange : Set ℕ := Set.Ico 0x8000 (0x8004 + 20 * 32)

theorem entryTables_keeps (m : Ram) (h : 0x6000 ≤ b) : entryTables m b = m b := by
  have hpd : (0x4000 : BitVec 32).toNat = 0x4000 := by decide
  have hbyte : ∀ r : Ram, r.readLe b 1 = (r b).toNat := fun r => by rw [Ram.readLe, Ram.readLe]; rfl
  refine BitVec.eq_of_toNat_eq ?_
  rw [← hbyte, ← hbyte, entryTables_eq, readLe_ptblLoop_of_disjoint (by omega) (by omega),
    entryTops, readLe_store32_of_disjoint (by omega), readLe_store32_of_disjoint (by omega),
    readLe_store32_of_disjoint (by omega), readLe_store32_of_disjoint (by omega)]
  exact Ram.readLe_writeBytes_of_disjoint (by omega)

/-- From the firmware to the allocator: the boot sector asks for the memory map, loads the kernel,
which does not lie over the map, and the kernel builds its first page tables.  Then `memblock_init`
reads the first 32 entries that were reported, and behind them what the memory held before.  It
finds just the usable entries that were reported if and only if all of them are read and there is
nothing behind them to be read, and then its tables are those of the usable memory. -/
theorem boot_memblockInit {bios : Bios} {l : List E820Entry} {disk : Ram} {n : ℕ} {hdr : Mbheader}
    (hreports : Reports bios 0 l) (hfits : ∀ x ∈ l, Fits x)
    (hroom : 0x8004 + 20 * l.length < 2 ^ 16)
    (hwrap : ∀ x ∈ reportedUsable l, x.addr + x.len < 2 ^ 64 - 1)
    (hfile : Bootable (image disk) n) (hhdr : mbheader (image disk) (4 * n) = hdr)
    (hspares : hdr.Spares) (hmap : ∀ a ∈ hdr.range, a ∉ mapRange) (m : Ram) :
    ∃ k m₁ fuel m₂, probeMemory bios k m = some m₁ ∧
      bootmain disk fuel m₁ = some (.entered hdr.entryAddr m₂) ∧
      ards (entryTables m₂) = l.take 32 ++ (ards m).drop l.length ∧
      (usableEntries (ards (entryTables m₂)) = reportedUsable l ↔ ReadsReported l m) ∧
      (ReadsReported l m → ∃ mb, memblockInit (ards (entryTables m₂)) = .ok mb ∧
        Represents mb.memory (reportedMemory l) ∧ Represents mb.reserved ∅) := by
  have hdi : (0x8004 : BitVec 16).toNat = 0x8004 := rfl
  obtain ⟨k, m₁, hprobe, hentries, hkeep⟩ := probeLoop_spec hreports hfits (Nat.le_of_eq hdi.symm)
    (by rwa [hdi]) (m.writeLe 0x8000 4 0)
  obtain ⟨fuel, m₂, hboot, -, -, hkeep₂⟩ := bootmain_spec hfile hhdr hspares m₁
  rw [hdi] at hentries hkeep
  -- the image is not over the map, and the tables are below it
  have hmapped : ∀ b ∈ mapRange, entryTables m₂ b = m₁ b := fun b hb => by
    have hlow := hb.1
    have hhigh := hb.2
    rw [entryTables_keeps m₂ (by omega),
      hkeep₂ b (fun hin => hmap b hin hb) (by unfold Bootmain.sectsize scratch; omega)]
  have hards : ards (entryTables m₂) = l.take 32 ++ (ards m).drop l.length := by
    refine ards_eq (fun i hlt hi => ?_) fun b hlow hhigh => ?_
    · rw [← hentries i hi]
      exact entryAt_congr fun b hb => hmapped b ⟨by have := hb.1; omega, by have := hb.2; omega⟩
    · rw [hmapped b ⟨by omega, hhigh⟩, hkeep b (fun hin => Nat.not_lt.2 (by omega) hin.2)
        fun hin => Nat.not_lt.2 hlow hin.2]
      exact Ram.writeLe_of_not_mem fun hin => Nat.not_lt.2 (by omega) hin.2
  have husable : usableEntries (ards (entryTables m₂)) = reportedUsable l ↔ ReadsReported l m := by
    have hlen : (ards (entryTables m₂)).length ≤ 32 := by simp [ards]
    rw [usableEntries, List.take_of_length_le hlen, hards]
    exact usablePrefix_eq_iff l m
  refine ⟨k, m₁, fuel, m₂, hprobe, hboot, hards, husable, fun hreads => ?_⟩
  have hsame := husable.2 hreads
  obtain ⟨mb, hinit, htables⟩ := @memblockInit_ok (ards (entryTables m₂)) (by rwa [hsame])
  rw [usableMemory, hsame] at htables
  exact ⟨mb, hinit, htables⟩

/-- The map of a machine with 128 MB of memory. -/
def pcMap : List E820Entry :=
  [⟨0, 0x9F000, 1⟩, ⟨0x9F000, 0x61000, 2⟩, ⟨0x100000, 0x7EE0000, 1⟩, ⟨0x7FE0000, 0x20000, 3⟩]

/-- A firmware that reports it, one entry for each value of `%ebx`. -/
def pcBios : Bios
  | 0 => some (⟨0, 0x9F000, 1⟩, 1)
  | 1 => some (⟨0x9F000, 0x61000, 2⟩, 2)
  | 2 => some (⟨0x100000, 0x7EE0000, 1⟩, 3)
  | _ => some (⟨0x7FE0000, 0x20000, 3⟩, 0)

theorem boot_memblockInit_pcBios : ∃ k m₁ fuel m₂ mb,
    probeMemory pcBios k (fun _ => 0) = some m₁ ∧
    bootmain smallDisk fuel m₁ = some (.entered smallHeader.entryAddr m₂) ∧
    usableEntries (ards (entryTables m₂)) = [⟨0, 0x9F000, 1⟩, ⟨0x100000, 0x7EE0000, 1⟩] ∧
    memblockInit (ards (entryTables m₂)) = .ok mb ∧
    Represents mb.memory (reportedMemory pcMap) ∧ Represents mb.reserved ∅ := by
  have hhdr : mbheader (image smallDisk) (4 * 0) = smallHeader := by decide
  have hfile : Bootable (image smallDisk) 0 := by
    refine ⟨by decide, .self (by decide), ?_, ?_, ?_, ?_⟩
    all_goals
      rw [hhdr]
      decide
  have habove : ∀ a ∈ smallHeader.range, 0x12000 ≤ a := fun a ha => by
    have hlow : 0x100000 - Bootmain.sectsize ≤ a := ha.1
    unfold Bootmain.sectsize at hlow
    omega
  have hspares : smallHeader.Spares := by
    refine ⟨by decide, by decide, Set.disjoint_left.2 fun a ha hin => ?_,
      Set.disjoint_left.2 fun a ha hin => ?_⟩
    · have hlow := habove a ha
      have hhigh := hin.2
      omega
    · have hlow := habove a ha
      have hhigh : a < scratch + 8192 := hin.2
      unfold scratch at hhigh
      omega
  have hmap : ∀ a ∈ smallHeader.range, a ∉ mapRange := fun a ha hin => by
    have hlow := habove a ha
    have hhigh := hin.2
    omega
  have hreports : Reports pcBios 0 pcMap :=
    .more rfl (by decide) (.more rfl (by decide) (.more rfl (by decide) (.last rfl)))
  have hfits : ∀ x ∈ pcMap, Fits x := by
    simp only [pcMap, List.forall_mem_cons]
    exact ⟨⟨by decide, by decide, by decide⟩, ⟨by decide, by decide, by decide⟩,
      ⟨by decide, by decide, by decide⟩, ⟨by decide, by decide, by decide⟩, nofun⟩
  obtain ⟨k, m₁, fuel, m₂, hprobe, hboot, -, husable, htables⟩ := boot_memblockInit hreports hfits
    (by decide) (by decide) hfile hhdr hspares hmap fun _ => 0
  have hreads : ReadsReported pcMap fun _ => 0 := ⟨by decide, Or.inr (by decide)⟩
  obtain ⟨mb, hinit, hmemory⟩ := htables hreads
  exact ⟨k, m₁, fuel, m₂, mb, hprobe, hboot, husable.2 hreads, hinit, hmemory⟩

end E820

end MicroKernel
