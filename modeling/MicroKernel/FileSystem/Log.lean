import MicroKernel.Disk.Basic
import MicroKernel.Memblock.Basic
import MicroKernel.Ram.Basic

/-!
# The log of the file system

A transaction first writes the new contents of its sectors to the log, then commits by writing the
header, which lists the home sectors, and only then copies the contents to their home.  After a
crash `recover_from_log` copies what was committed.

* `LogState` : the log in memory, the disk, and the writes made to it;
* `transaction`, `recoverFromLog` : the code;
* `SectorData.header_putHeader` : the header is read back as it was written.
-/

namespace MicroKernel

/-! ### Sectors -/

/-- `BSIZE`. -/
def bsize : ℕ := 512

/-- `LOGSIZE`. -/
def logsize : ℕ := 10

/-- The bytes of a sector. -/
abbrev SectorData := Fin bsize → BitVec 8

namespace SectorData

/-- The bytes by their offsets. -/
def bytes (d : SectorData) : Ram := fun a => if h : a < bsize then d ⟨a, h⟩ else 0

/-- The four bytes at an offset. -/
def readI32 (d : SectorData) (off : ℕ) : ℕ := d.bytes.readLe off 4

/-- Store four bytes at an offset. -/
def writeI32 (d : SectorData) (off v : ℕ) : SectorData := fun i => d.bytes.writeLe off 4 v i

/-- How often a loop bounded by the field `n` of `struct LogHeader` runs. -/
def count (d : SectorData) : ℕ := (toInt32 (d.readI32 0)).toNat

/-- The first `n` entries of the field `sector` of `struct LogHeader`. -/
def header (d : SectorData) : List ℕ := (List.range d.count).map fun i => d.readI32 (4 + 4 * i)

/-- Store the entries of the field `sector` from index `i` on. -/
def putSectors (d : SectorData) (i : ℕ) : List ℕ → SectorData
  | [] => d
  | k :: ks => putSectors (d.writeI32 (4 + 4 * i) k) (i + 1) ks

/-- Store a header; the rest of the sector stays. -/
def putHeader (d : SectorData) (sectors : List ℕ) : SectorData :=
  (d.writeI32 0 sectors.length).putSectors 0 sectors

variable {d : SectorData} {off off' v i : ℕ} {ks : List ℕ}

theorem readI32_writeI32 (h : off + 4 ≤ bsize) (hv : v < 2 ^ 32) :
    (d.writeI32 off v).readI32 off = v := by
  refine Ram.readLe_of_bytes 4 hv fun i hi => ?_
  have hlt : off + i < bsize := by omega
  rw [bytes, dif_pos hlt]
  show d.bytes.writeLe off 4 v (off + i) = _
  exact Ram.writeBytes_add hi

theorem readI32_writeI32_of_disjoint (h : off' + 4 ≤ off ∨ off + 4 ≤ off') :
    (d.writeI32 off v).readI32 off' = d.readI32 off' := by
  refine Ram.readLe_congr 4 fun a ha => ?_
  have hout : a ∉ Set.Ico off (off + 4) := fun hin => by
    have := ha.1
    have := ha.2
    have := hin.1
    have := hin.2
    omega
  unfold bytes
  split_ifs with hlt
  · show d.bytes.writeLe off 4 v a = d ⟨a, hlt⟩
    rw [Ram.writeLe_of_not_mem hout, bytes, dif_pos hlt]
  · rfl

theorem readI32_putSectors_of_le (h : off + 4 ≤ 4 + 4 * i) :
    (d.putSectors i ks).readI32 off = d.readI32 off := by
  induction ks generalizing d i with
  | nil => rfl
  | cons k ks ih =>
    rw [putSectors, ih (by omega)]
    exact readI32_writeI32_of_disjoint (Or.inl h)

theorem readI32_putSectors (hlen : i + ks.length ≤ logsize) (hks : ∀ k ∈ ks, k < 2 ^ 32) {j : ℕ}
    (hj : j < ks.length) : (d.putSectors i ks).readI32 (4 + 4 * (i + j)) = ks[j] := by
  induction ks generalizing d i j with
  | nil => exact absurd hj (Nat.not_lt_zero j)
  | cons k ks ih =>
    rw [List.length_cons] at hlen hj
    rw [putSectors]
    cases j with
    | zero =>
      rw [readI32_putSectors_of_le (by omega)]
      refine readI32_writeI32 ?_ (hks k List.mem_cons_self)
      unfold logsize at hlen
      unfold bsize
      omega
    | succ j =>
      have hrest := @ih (d.writeI32 (4 + 4 * i) k) (i + 1) (by omega)
        (fun k hk => hks k (List.mem_cons_of_mem _ hk)) j (by omega)
      rw [show i + (j + 1) = i + 1 + j by omega, hrest]
      rfl

theorem count_putHeader (hlen : ks.length ≤ logsize) : (d.putHeader ks).count = ks.length := by
  unfold logsize at hlen
  have hn : (d.putHeader ks).readI32 0 = ks.length := by
    rw [putHeader, readI32_putSectors_of_le (by omega)]
    exact readI32_writeI32 (by decide) (by omega)
  rw [count, hn, toInt32, if_pos (by omega)]
  rfl

/-- The header is read back as it was written. -/
theorem header_putHeader (hlen : ks.length ≤ logsize) (hks : ∀ k ∈ ks, k < 2 ^ 32) :
    (d.putHeader ks).header = ks := by
  refine List.ext_getElem (by simp [header, count_putHeader hlen]) fun j hj hj' => ?_
  have hread := readI32_putSectors (d := d.writeI32 0 ks.length) (i := 0)
    (by simpa using hlen) hks hj'
  rw [Nat.zero_add] at hread
  simpa [header, putHeader] using hread

end SectorData

/-! ### The code -/

/-- `struct Log` with the fields `n` and `sector` of its header as a list, and the disk. -/
structure LogState where
  /-- The sector of the header. -/
  start : ℕ
  /-- The number of sectors, header included. -/
  size : ℕ
  /-- Whether a transaction is under way. -/
  busy : Bool
  /-- `logHeader.sector[0], …, logHeader.sector[n - 1]`. -/
  sectors : List ℕ
  /-- The disk. -/
  disk : Disk SectorData
  /-- The writes made so far. -/
  writes : List (Disk.Write SectorData)

namespace LogState

/-- `buffer_write` of a sector. -/
def bufferWrite (s : LogState) (w : Disk.Write SectorData) : LogState :=
  { s with disk := s.disk.apply w, writes := s.writes ++ [w] }

/-- The loop of `install_trans` from index `tail` on. -/
def installLoop (s : LogState) (tail : ℕ) : List ℕ → LogState
  | [] => s
  | k :: ks => installLoop (s.bufferWrite ⟨k, s.disk (s.start + tail + 1)⟩) (tail + 1) ks

/-- Copy committed blocks from the log to their home location. -/
def installTrans (s : LogState) : LogState := s.installLoop 0 s.sectors

/-- Read the log header from disk into the in-memory log header. -/
def readHead (s : LogState) : LogState := { s with sectors := (s.disk s.start).header }

/-- Write the in-memory log header to disk. -/
def writeHead (s : LogState) : LogState :=
  s.bufferWrite ⟨s.start, (s.disk s.start).putHeader s.sectors⟩

/-- `recover_from_log`. -/
def recoverFromLog (s : LogState) : LogState :=
  writeHead { s.readHead.installTrans with sectors := [] }

/-- `begin_trans` waits until no transaction is under way. -/
def beginTrans (s : LogState) : Option LogState :=
  if s.busy then none else some { s with busy := true }

/-- `commit_trans`. -/
def commitTrans (s : LogState) : LogState :=
  let s := if 0 < s.sectors.length then writeHead { s.writeHead.installTrans with sectors := [] }
    else s
  { s with busy := false }

/-- `log_write` of a buffer; the two checks at its start have empty bodies. -/
def logWrite (s : LogState) (b : Disk.Write SectorData) : LogState :=
  let i := s.sectors.idxOf b.sector
  let s := { s with sectors := if i = s.sectors.length then s.sectors ++ [b.sector] else s.sectors }
  s.bufferWrite ⟨s.start + i + 1, b.data⟩

/-- A transaction: `begin_trans`, calls of `log_write`, and `commit_trans`. -/
def transaction (s : LogState) (bs : List (Disk.Write SectorData)) : Option LogState :=
  s.beginTrans.map fun s => (bs.foldl logWrite s).commitTrans

/-- The machine is started again after the first `k` of the writes that took the disk of `s` to that
of `s'`. -/
def crash (s s' : LogState) (k : ℕ) : LogState :=
  { s with busy := false, sectors := [], disk := s.disk.applyAll (s'.writes.take k), writes := [] }

/-- Recovery that a crash interrupts after each of the given numbers of writes, and that runs to its
end the last time. -/
def recoverAll (s : LogState) : List ℕ → LogState
  | [] => s.recoverFromLog
  | k :: ks => recoverAll (s.crash s.recoverFromLog k) ks

/-- The sectors of the log. -/
def logArea (s : LogState) : Set ℕ := Set.Icc s.start (s.start + (s.size - 1))

/-- No transaction is under way, and the header on the disk lists no sectors. -/
structure Idle (s : LogState) : Prop where
  /-- No transaction is under way. -/
  busy : s.busy = false
  /-- The header in memory is empty. -/
  sectors : s.sectors = []
  /-- The header on the disk is empty. -/
  count : (s.disk s.start).count = 0
  /-- No write is recorded. -/
  writes : s.writes = []

end LogState

end MicroKernel
