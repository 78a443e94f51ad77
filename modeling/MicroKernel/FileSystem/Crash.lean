import MicroKernel.FileSystem.Log
import Mathlib.Data.List.Dedup
import Mathlib.Data.List.Perm.Subperm
import Mathlib.Order.Interval.Set.Basic

/-!
# Crashes of the file system

A disk is clean for some contents of the home sectors if they have these contents and the header is
empty; it is committed for them if the header lists the sectors that may still have to be copied
from the log.  Recovery turns either into a clean disk, and so does a recovery that was interrupted.

* `Good.recoverAll` : recovery, with any number of crashes, leaves the disk clean;
* `Logged.logWrite` : the log holds what was last logged;
* `transaction_crash_atomic` : a crash during a transaction leaves all of it or nothing.
-/

namespace MicroKernel

open LogState

/-! ### Disks between the writes -/

section Disks

variable {start size : ℕ} {c c' d : Disk SectorData}

/-- The header is empty, and the home sectors hold `c`. -/
structure CleanDisk (start size : ℕ) (c d : Disk SectorData) : Prop where
  /-- The header lists no sectors. -/
  count : (d start).count = 0
  /-- The home sectors. -/
  home : ∀ h ∉ Set.Icc start (start + (size - 1)), d h = c h

/-- The header lists home sectors whose contents in `c` are in the log; the other home sectors hold
`c`. -/
structure Committed (start size : ℕ) (c d : Disk SectorData) : Prop where
  /-- Only home sectors are listed. -/
  not_log : ∀ k ∈ (d start).header, k ∉ Set.Icc start (start + (size - 1))
  /-- The log has room for them. -/
  length_le : (d start).header.length ≤ size - 1
  /-- Their contents are in the log. -/
  log : ∀ (i : ℕ) (hi : i < (d start).header.length), d (start + i + 1) = c (d start).header[i]
  /-- The home sectors that are not listed. -/
  home : ∀ h ∉ Set.Icc start (start + (size - 1)), h ∉ (d start).header → d h = c h

/-- Recovery can restore `c`. -/
def Good (start size : ℕ) (c d : Disk SectorData) : Prop :=
  Committed start size c d ∨ CleanDisk start size c d

theorem start_mem_log (start size : ℕ) : start ∈ Set.Icc start (start + (size - 1)) :=
  ⟨le_rfl, Nat.le_add_right _ _⟩

theorem Committed.install (h : Committed start size c d) {k : ℕ} (hk : k ∈ (d start).header) :
    Committed start size c (d.apply ⟨k, c k⟩) := by
  have hlog := h.not_log k hk
  have hne : ∀ {j}, j ∈ Set.Icc start (start + (size - 1)) → j ≠ k := fun hj heq => hlog (heq ▸ hj)
  have hstart : d.apply ⟨k, c k⟩ start = d start :=
    Disk.apply_of_ne (hne (start_mem_log start size))
  constructor
  · rw [hstart]
    exact h.not_log
  · rw [hstart]
    exact h.length_le
  · rw [hstart]
    intro i hi
    have hle := h.length_le
    rw [Disk.apply_of_ne (hne ⟨by omega, by omega⟩)]
    exact h.log i hi
  · rw [hstart]
    intro j hj hnot
    have hne' : j ≠ k := fun heq => hnot (heq ▸ hk)
    rw [Disk.apply_of_ne hne']
    exact h.home j hj hnot

theorem CleanDisk.of_home (h : ∀ h ∉ Set.Icc start (start + (size - 1)), d h = c h) :
    CleanDisk start size c (d.apply ⟨start, (d start).putHeader []⟩) := by
  constructor
  · rw [Disk.apply_same]
    exact SectorData.count_putHeader (Nat.zero_le _)
  · intro j hj
    have hne : j ≠ start := fun heq => hj (heq ▸ start_mem_log start size)
    rw [Disk.apply_of_ne hne]
    exact h j hj

theorem CleanDisk.header (h : CleanDisk start size c d) : (d start).header = [] := by
  rw [SectorData.header, h.count]
  rfl

end Disks

/-! ### Code that writes -/

/-- The code took the state `s` to `s'`, and every disk that a crash on the way leaves has the
property `P`. -/
structure Ran (P : Disk SectorData → Prop) (s s' : LogState) : Prop where
  /-- The place of the log. -/
  start_eq : s'.start = s.start
  /-- The size of the log. -/
  size_eq : s'.size = s.size
  /-- The writes. -/
  writes : ∃ ws, s'.writes = s.writes ++ ws ∧ s'.disk = s.disk.applyAll ws ∧ Disk.Along P s.disk ws

namespace Ran

variable {P Q : Disk SectorData → Prop} {s s' s'' : LogState}

theorem refl (h : P s.disk) : Ran P s s := ⟨rfl, rfl, [], by simp, rfl, Disk.along_nil.2 h⟩

theorem trans (h : Ran P s s') (h' : Ran P s' s'') : Ran P s s'' := by
  obtain ⟨ws, hws, hd, hP⟩ := h.writes
  obtain ⟨ws', hws', hd', hP'⟩ := h'.writes
  refine ⟨h'.start_eq.trans h.start_eq, h'.size_eq.trans h.size_eq, ws ++ ws', ?_, ?_, ?_⟩
  · rw [hws', hws, List.append_assoc]
  · rw [hd', hd, Disk.applyAll_append]
  · rw [Disk.along_append, ← hd]
    exact ⟨hP, hP'⟩

theorem mono (h : Ran P s s') (hPQ : ∀ d, P d → Q d) : Ran Q s s' := by
  obtain ⟨ws, hws, hd, hP⟩ := h.writes
  exact ⟨h.start_eq, h.size_eq, ws, hws, hd, hP.mono hPQ⟩

theorem bufferWrite {w : Disk.Write SectorData} (h : P s.disk) (h' : P (s.disk.apply w)) :
    Ran P s (s.bufferWrite w) :=
  ⟨rfl, rfl, [w], rfl, rfl, Disk.along_cons.2 ⟨h, Disk.along_nil.2 h'⟩⟩

theorem crash (h : Ran P s s') (hs : s.writes = []) (k : ℕ) : P (s.crash s' k).disk := by
  obtain ⟨ws, hws, -, hP⟩ := h.writes
  have hw : s'.writes = ws := by rw [hws, hs, List.nil_append]
  show P (s.disk.applyAll (s'.writes.take k))
  rw [hw]
  exact hP k

end Ran

/-! ### Recovery -/

section Recovery

variable {start size : ℕ} {c : Disk SectorData} {s : LogState}

/-- The loop of `install_trans` copies the rest of the listed sectors to their home. -/
theorem installLoop_spec (ks : List ℕ) : ∀ (s : LogState) (tail : ℕ),
    Committed s.start s.size c s.disk → ks = (s.disk s.start).header.drop tail →
      Ran (Committed s.start s.size c) s (s.installLoop tail ks) ∧
        ∀ h, (s.installLoop tail ks).disk h = if h ∈ ks then c h else s.disk h := by
  induction ks with
  | nil => exact fun s tail h _ => ⟨Ran.refl h, fun _ => rfl⟩
  | cons k ks ih =>
    intro s tail h hks
    have hlen : tail < (s.disk s.start).header.length := by
      have hlength := congrArg List.length hks
      rw [List.length_cons, List.length_drop] at hlength
      omega
    have hk : (s.disk s.start).header[tail] = k := by
      have hhead := List.drop_eq_getElem_cons hlen
      rw [← hks] at hhead
      exact (List.cons.inj hhead).1.symm
    have hmem : k ∈ (s.disk s.start).header := hk ▸ List.getElem_mem hlen
    have hlog : s.disk (s.start + tail + 1) = c k := by rw [h.log tail hlen, hk]
    have hstep := h.install hmem
    rw [installLoop, hlog]
    -- the header is not a home sector, so the list stays the same
    have hstart : (s.disk.apply ⟨k, c k⟩) s.start = s.disk s.start :=
      Disk.apply_of_ne fun heq => h.not_log k hmem (heq ▸ start_mem_log s.start s.size)
    have hrest := ih (s.bufferWrite ⟨k, c k⟩) (tail + 1) hstep (by
      show ks = ((s.disk.apply ⟨k, c k⟩) s.start).header.drop (tail + 1)
      rw [hstart, ← List.drop_drop, ← hks]
      rfl)
    refine ⟨(Ran.bufferWrite h hstep).trans hrest.1, fun j => ?_⟩
    rw [hrest.2 j]
    by_cases hj : j ∈ ks
    · rw [if_pos hj, if_pos (List.mem_cons_of_mem _ hj)]
    · rw [if_neg hj]
      rcases eq_or_ne j k with rfl | hne
      · rw [if_pos List.mem_cons_self]
        exact Disk.apply_same s.disk ⟨j, c j⟩
      · rw [if_neg (by simp [hj, hne])]
        exact Disk.apply_of_ne hne

/-- Installing what the header lists, and then clearing the header. -/
theorem installTrans_spec (h : Committed s.start s.size c s.disk)
    (hs : s.sectors = (s.disk s.start).header) :
    Ran (Good s.start s.size c) s (writeHead { s.installTrans with sectors := [] }) ∧
      CleanDisk s.start s.size c (writeHead { s.installTrans with sectors := [] }).disk := by
  obtain ⟨hran, hdisk⟩ := installLoop_spec s.sectors s 0 h hs
  have hhome : ∀ j ∉ Set.Icc s.start (s.start + (s.size - 1)), s.installTrans.disk j = c j := by
    intro j hj
    rw [installTrans, hdisk j]
    split_ifs with hmem
    · rfl
    · exact h.home j hj (hs ▸ hmem)
  have hstart : s.installTrans.start = s.start := hran.start_eq
  have hclean := CleanDisk.of_home hhome
  have hend : Good s.start s.size c s.installTrans.disk := by
    obtain ⟨ws, -, hd, hP⟩ := hran.writes
    refine Or.inl ?_
    rw [installTrans, hd]
    simpa using hP ws.length
  have hran' : Ran (Good s.start s.size c) s { s.installTrans with sectors := [] } :=
    ⟨hran.start_eq, hran.size_eq, (hran.mono fun _ => Or.inl).writes⟩
  rw [writeHead]
  refine ⟨hran'.trans (Ran.bufferWrite hend (Or.inr ?_)), ?_⟩
  · simpa [hstart] using hclean
  · simpa [hstart, bufferWrite] using hclean

/-- Recovery leaves the disk clean, and a crash during recovery leaves it such that recovery can be
run again. -/
theorem Good.recoverFromLog (h : Good s.start s.size c s.disk) :
    Ran (Good s.start s.size c) s s.recoverFromLog ∧
      CleanDisk s.start s.size c s.recoverFromLog.disk := by
  rcases h with h | h
  · obtain ⟨hran, hclean⟩ := installTrans_spec (s := s.readHead) h rfl
    exact ⟨⟨hran.start_eq, hran.size_eq, hran.writes⟩, hclean⟩
  · -- nothing is listed: only the header is written
    have hnil : s.readHead.sectors = [] := h.header
    have hstep : s.recoverFromLog =
        { s.bufferWrite ⟨s.start, (s.disk s.start).putHeader []⟩ with sectors := [] } := by
      rw [LogState.recoverFromLog, installTrans, hnil]
      rfl
    have hclean := CleanDisk.of_home h.home
    rw [hstep]
    have hran := Ran.bufferWrite (P := Good s.start s.size c) (s := s) (Or.inr h) (Or.inr hclean)
    exact ⟨⟨hran.start_eq, hran.size_eq, hran.writes⟩, hclean⟩

/-- Any number of crashes during recovery do no harm. -/
theorem Good.recoverAll (ks : List ℕ) : ∀ {s : LogState}, s.writes = [] →
    Good s.start s.size c s.disk → CleanDisk s.start s.size c (s.recoverAll ks).disk := by
  induction ks with
  | nil => exact fun _ h => h.recoverFromLog.2
  | cons k ks ih =>
    intro s hs h
    exact @ih (s.crash s.recoverFromLog k) rfl (h.recoverFromLog.1.crash hs k)

end Recovery

/-! ### Logging -/

/-- The buffers `bs` have been logged on a disk that was `old` before. -/
structure Logged (old : Disk SectorData) (bs : List (Disk.Write SectorData)) (s : LogState) :
    Prop where
  /-- No sector is listed twice. -/
  nodup : s.sectors.Nodup
  /-- The sectors logged are listed. -/
  mem : ∀ k, k ∈ s.sectors ↔ k ∈ bs.map Disk.Write.sector
  /-- The log holds what was last logged. -/
  log : ∀ (i : ℕ) (hi : i < s.sectors.length),
    s.disk (s.start + i + 1) = old.applyAll bs s.sectors[i]
  /-- Nothing is committed. -/
  clean : CleanDisk s.start s.size old s.disk

/-- The number of distinct sectors. -/
def distinct (bs : List (Disk.Write SectorData)) : ℕ := (bs.map Disk.Write.sector).dedup.length

section Logging

variable {old : Disk SectorData} {bs bs' : List (Disk.Write SectorData)} {s : LogState}
  {b : Disk.Write SectorData}

theorem Logged.length_le (h : Logged old bs s) : s.sectors.length ≤ distinct bs := by
  have hsub : s.sectors ⊆ (bs.map Disk.Write.sector).dedup := fun k hk =>
    List.mem_dedup.2 ((h.mem k).1 hk)
  exact (List.Nodup.subperm h.nodup hsub).length_le

theorem distinct_append_le (bs bs' : List (Disk.Write SectorData)) :
    distinct bs ≤ distinct (bs ++ bs') := by
  have hsub : (bs.map Disk.Write.sector).dedup ⊆ ((bs ++ bs').map Disk.Write.sector).dedup := by
    intro k hk
    rw [List.mem_dedup] at hk ⊢
    rw [List.map_append]
    exact List.mem_append_left _ hk
  exact (List.Nodup.subperm (List.nodup_dedup _) hsub).length_le

theorem CleanDisk.log {d : Disk SectorData} {start size i : ℕ} {data : SectorData}
    (h : CleanDisk start size old d) (hi : i < size - 1) :
    CleanDisk start size old (d.apply ⟨start + i + 1, data⟩) := by
  constructor
  · have hne : start ≠ start + i + 1 := by omega
    rw [Disk.apply_of_ne hne]
    exact h.count
  · intro j hj
    have hne : j ≠ start + i + 1 := by
      rintro rfl
      exact hj ⟨by omega, by omega⟩
    rw [Disk.apply_of_ne hne]
    exact h.home j hj

theorem applyAll_snoc (k : ℕ) :
    old.applyAll (bs ++ [b]) k = if k = b.sector then b.data else old.applyAll bs k := by
  rw [Disk.applyAll_append]
  split_ifs with h
  · rw [h]
    exact Disk.apply_same _ b
  · exact Disk.apply_of_ne h

theorem sectors_logWrite (h : s.sectors.Nodup) (k : ℕ) :
    (s.logWrite b).sectors.Nodup ∧ (k ∈ (s.logWrite b).sectors ↔ k ∈ s.sectors ∨ k = b.sector) := by
  show (if _ then _ else _ : List ℕ).Nodup ∧ (k ∈ (if _ then _ else _ : List ℕ) ↔ _)
  split_ifs with hi
  · have hnot : b.sector ∉ s.sectors := by rwa [← List.idxOf_eq_length_iff]
    refine ⟨List.nodup_append.2 ⟨h, List.nodup_singleton _, ?_⟩, by simp⟩
    rintro a ha c hc rfl
    rw [List.mem_singleton] at hc
    exact hnot (hc ▸ ha)
  · refine ⟨h, fun hk => Or.inl hk, ?_⟩
    rintro (hk | rfl)
    · exact hk
    · by_contra hnot
      exact hi (List.idxOf_eq_length_iff.2 hnot)

theorem getElem_logWrite (h : s.sectors.Nodup) {i : ℕ} (hi : i < (s.logWrite b).sectors.length) :
    ((s.logWrite b).sectors[i] = b.sector ↔ i = s.sectors.idxOf b.sector) ∧
      (i ≠ s.sectors.idxOf b.sector → ∃ hi' : i < s.sectors.length,
        (s.logWrite b).sectors[i] = s.sectors[i]) := by
  have hsectors : (s.logWrite b).sectors =
      if s.sectors.idxOf b.sector = s.sectors.length then s.sectors ++ [b.sector]
      else s.sectors := rfl
  have hidx : ∃ hlt : s.sectors.idxOf b.sector < (s.logWrite b).sectors.length,
      (s.logWrite b).sectors[s.sectors.idxOf b.sector] = b.sector := by
    simp only [hsectors]
    split_ifs with hlen
    · simp [hlen]
    · have hlt := lt_of_le_of_ne List.idxOf_le_length hlen
      exact ⟨hlt, List.getElem_idxOf hlt⟩
  obtain ⟨hlt, hget⟩ := hidx
  constructor
  · constructor
    · intro heq
      exact ((sectors_logWrite h 0).1.getElem_inj_iff).1 (heq.trans hget.symm)
    · rintro rfl
      exact hget
  · intro hne
    simp only [hsectors] at hi ⊢
    split_ifs at hi ⊢ with hlen
    · rw [List.length_append, List.length_singleton] at hi
      have hi' : i < s.sectors.length := by omega
      exact ⟨hi', List.getElem_append_left hi'⟩
    · exact ⟨hi, rfl⟩

/-- One call of `log_write`. -/
theorem Logged.logWrite (h : Logged old bs s) (hroom : distinct (bs ++ [b]) ≤ s.size - 1) :
    Ran (CleanDisk s.start s.size old) s (s.logWrite b) ∧
      Logged old (bs ++ [b]) (s.logWrite b) := by
  have hnodup := fun k => (sectors_logWrite (b := b) h.nodup k).1
  have hmem : ∀ k, k ∈ (s.logWrite b).sectors ↔ k ∈ (bs ++ [b]).map Disk.Write.sector := by
    intro k
    rw [(sectors_logWrite h.nodup k).2, h.mem k]
    simp
  -- the block lies in the log
  have hlen : (s.logWrite b).sectors.length ≤ s.size - 1 := by
    have hsub : (s.logWrite b).sectors ⊆ ((bs ++ [b]).map Disk.Write.sector).dedup := fun k hk =>
      List.mem_dedup.2 ((hmem k).1 hk)
    exact (List.Nodup.subperm (hnodup 0) hsub).length_le.trans hroom
  have hidx : s.sectors.idxOf b.sector < (s.logWrite b).sectors.length := by
    obtain ⟨j, hj, hget⟩ := List.getElem_of_mem ((hmem b.sector).2 (by simp))
    rwa [← ((getElem_logWrite h.nodup hj).1).1 hget]
  have hclean : CleanDisk s.start s.size old
      (s.disk.apply ⟨s.start + s.sectors.idxOf b.sector + 1, b.data⟩) :=
    h.clean.log (hidx.trans_le hlen)
  refine ⟨?_, hnodup 0, hmem, fun i hi => ?_, hclean⟩
  · have hran := Ran.bufferWrite h.clean hclean
    exact ⟨hran.start_eq, hran.size_eq, hran.writes⟩
  · obtain ⟨hiff, hother⟩ := getElem_logWrite h.nodup hi
    show s.disk.apply ⟨s.start + s.sectors.idxOf b.sector + 1, b.data⟩ (s.start + i + 1) = _
    rw [applyAll_snoc]
    by_cases hi' : i = s.sectors.idxOf b.sector
    · rw [if_pos (hiff.2 hi'), hi']
      exact Disk.apply_same s.disk ⟨_, b.data⟩
    · obtain ⟨hlt, hget⟩ := hother hi'
      have hne : s.start + i + 1 ≠ s.start + s.sectors.idxOf b.sector + 1 := by omega
      rw [if_neg fun heq => hi' (hiff.1 heq), Disk.apply_of_ne hne, hget]
      exact h.log i hlt

theorem Logged.foldl (bs' : List (Disk.Write SectorData)) : ∀ {bs : List (Disk.Write SectorData)}
    {s : LogState}, Logged old bs s → distinct (bs ++ bs') ≤ s.size - 1 →
      Ran (CleanDisk s.start s.size old) s (bs'.foldl LogState.logWrite s) ∧
        Logged old (bs ++ bs') (bs'.foldl LogState.logWrite s) := by
  induction bs' with
  | nil => exact fun h _ => ⟨Ran.refl h.clean, by simpa using h⟩
  | cons b bs' ih =>
    intro bs s h hroom
    have happend : bs ++ b :: bs' = bs ++ [b] ++ bs' := by simp
    rw [happend] at hroom ⊢
    obtain ⟨hran, hlogged⟩ := h.logWrite ((distinct_append_le _ _).trans hroom)
    obtain ⟨hran', hlogged'⟩ := ih hlogged hroom
    exact ⟨hran.trans hran', hlogged'⟩

/-- Writing the header commits. -/
theorem Logged.writeHead (h : Logged old bs s)
    (hhome : ∀ b ∈ bs, b.sector ∉ s.logArea ∧ b.sector < 2 ^ 32) (hlog : distinct bs ≤ logsize)
    (hroom : distinct bs ≤ s.size - 1) :
    Committed s.start s.size (old.applyAll bs) s.writeHead.disk ∧
      s.writeHead.sectors = (s.writeHead.disk s.start).header := by
  have hlen := h.length_le
  have hsectors : ∀ k ∈ s.sectors, k ∉ s.logArea ∧ k < 2 ^ 32 := by
    intro k hk
    obtain ⟨b, hb, rfl⟩ := List.mem_map.1 ((h.mem k).1 hk)
    exact hhome b hb
  have hheader : (s.writeHead.disk s.start).header = s.sectors := by
    show ((s.disk.apply ⟨s.start, (s.disk s.start).putHeader s.sectors⟩) s.start).header = _
    rw [Disk.apply_same]
    exact SectorData.header_putHeader (hlen.trans hlog) fun k hk => (hsectors k hk).2
  have hother : ∀ j ≠ s.start, s.writeHead.disk j = s.disk j := fun j hj => Disk.apply_of_ne hj
  refine ⟨⟨?_, ?_, ?_, ?_⟩, hheader.symm⟩
  · rw [hheader]
    exact fun k hk => (hsectors k hk).1
  · rw [hheader]
    exact hlen.trans hroom
  · simp only [hheader]
    intro i hi
    rw [hother _ (by omega)]
    exact h.log i hi
  · rw [hheader]
    intro j hj hnot
    rw [hother j fun heq => hj (heq ▸ start_mem_log s.start s.size), h.clean.home j hj]
    refine (Disk.applyAll_of_not_mem fun w hw heq => hnot ?_).symm
    exact (h.mem j).2 (List.mem_map.2 ⟨w, hw, heq⟩)

/-- The disks on the way through `commit_trans`, and the one at its end. -/
theorem Logged.commitTrans (h : Logged old bs s)
    (hhome : ∀ b ∈ bs, b.sector ∉ s.logArea ∧ b.sector < 2 ^ 32) (hlog : distinct bs ≤ logsize)
    (hroom : distinct bs ≤ s.size - 1) :
    Ran (fun d => CleanDisk s.start s.size old d ∨ Good s.start s.size (old.applyAll bs) d) s
        s.commitTrans ∧
      CleanDisk s.start s.size (old.applyAll bs) s.commitTrans.disk ∧
        s.commitTrans.sectors = [] := by
  rcases Nat.eq_zero_or_pos s.sectors.length with hnil | hpos
  · -- nothing was logged
    have hs : s.sectors = [] := List.length_eq_zero_iff.1 hnil
    have hbs : bs = [] := by
      refine List.eq_nil_iff_forall_not_mem.2 fun b hb => ?_
      have hmem := (h.mem b.sector).2 (List.mem_map_of_mem hb)
      rw [hs] at hmem
      exact absurd hmem List.not_mem_nil
    have hcommit : s.commitTrans = { s with busy := false } := by
      rw [LogState.commitTrans, if_neg (by omega)]
    rw [hcommit, hbs]
    have hran := (Ran.refl h.clean).mono fun d hd =>
      (Or.inl hd : CleanDisk s.start s.size old d ∨ Good s.start s.size old d)
    exact ⟨⟨hran.start_eq, hran.size_eq, hran.writes⟩, h.clean, hs⟩
  · obtain ⟨hcommitted, hheader⟩ := h.writeHead hhome hlog hroom
    obtain ⟨hran, hclean⟩ := installTrans_spec (s := s.writeHead) hcommitted hheader
    have hcommit : s.commitTrans =
        { (LogState.writeHead { s.writeHead.installTrans with sectors := [] }) with
          busy := false } := by
      rw [LogState.commitTrans, if_pos hpos]
    have hfirst := Ran.bufferWrite (s := s)
      (P := fun d => CleanDisk s.start s.size old d ∨ Good s.start s.size (old.applyAll bs) d)
      (Or.inl h.clean) (Or.inr (Or.inl hcommitted))
    have hall := hfirst.trans (hran.mono fun _ => Or.inr)
    rw [hcommit]
    exact ⟨⟨hall.start_eq, hall.size_eq, hall.writes⟩, hclean, rfl⟩

end Logging

/-! ### Transactions -/

section Transactions

variable {s s' : LogState} {bs : List (Disk.Write SectorData)}

/-- The disks on the way through a transaction, and the one at its end. -/
theorem LogState.Idle.transaction (h : s.Idle)
    (hhome : ∀ b ∈ bs, b.sector ∉ s.logArea ∧ b.sector < 2 ^ 32) (hlog : distinct bs ≤ logsize)
    (hroom : distinct bs ≤ s.size - 1) :
    ∃ s', s.transaction bs = some s' ∧
      Ran (fun d => CleanDisk s.start s.size s.disk d ∨
        Good s.start s.size (s.disk.applyAll bs) d) s s' ∧
      CleanDisk s.start s.size (s.disk.applyAll bs) s'.disk ∧ s'.sectors = [] := by
  have hbegin : Logged s.disk [] { s with busy := true } := by
    refine ⟨?_, ?_, ?_, ⟨h.count, fun _ _ => rfl⟩⟩
    · simp [h.sectors]
    · simp [h.sectors]
    · simp [h.sectors]
  obtain ⟨hran, hlogged⟩ := hbegin.foldl bs hroom
  rw [List.nil_append] at hlogged
  have hstart := hran.start_eq
  have hsize := hran.size_eq
  obtain ⟨hran', hclean, hnil⟩ := hlogged.commitTrans (by rwa [logArea, hstart, hsize]) hlog
    (by rwa [hsize])
  rw [hstart, hsize] at hran' hclean
  refine ⟨_, by rw [LogState.transaction, beginTrans, h.busy]; rfl, ?_, hclean, hnil⟩
  have hall := (hran.mono fun _ => Or.inl).trans hran'
  exact ⟨hall.start_eq, hall.size_eq, hall.writes⟩

/-- A transaction that is not interrupted leaves the log idle. -/
theorem LogState.Idle.next (h : s.Idle)
    (hhome : ∀ b ∈ bs, b.sector ∉ s.logArea ∧ b.sector < 2 ^ 32) (hlog : distinct bs ≤ logsize)
    (hroom : distinct bs ≤ s.size - 1) (htrans : s.transaction bs = some s') :
    Idle { s' with writes := [] } := by
  obtain ⟨s'', hs, hran, hclean, hnil⟩ := h.transaction hhome hlog hroom
  obtain rfl := Option.some.inj (hs.symm.trans htrans)
  refine ⟨?_, hnil, ?_, rfl⟩
  · rw [LogState.transaction, beginTrans, h.busy] at htrans
    cases htrans
    rfl
  · show (s''.disk s''.start).count = 0
    rw [hran.start_eq]
    exact hclean.count

/-- A crash after any number of the writes of a transaction, and after any number of the writes of
each of any number of recoveries: the last recovery leaves every home sector as it was before the
transaction, or every home sector with what was last logged for it. -/
theorem transaction_crash_atomic (h : s.Idle)
    (hhome : ∀ b ∈ bs, b.sector ∉ s.logArea ∧ b.sector < 2 ^ 32) (hlog : distinct bs ≤ logsize)
    (hroom : distinct bs ≤ s.size - 1) :
    ∃ s', s.transaction bs = some s' ∧ ∀ (k : ℕ) (ks : List ℕ),
      (∀ j ∉ s.logArea, ((s.crash s' k).recoverAll ks).disk j = s.disk j) ∨
        ∀ j ∉ s.logArea, ((s.crash s' k).recoverAll ks).disk j = s.disk.applyAll bs j := by
  obtain ⟨s', hs, hran, -⟩ := h.transaction hhome hlog hroom
  refine ⟨s', hs, fun k ks => ?_⟩
  rcases hran.crash h.writes k with hold | hnew
  · have hgood : Good s.start s.size s.disk (s.crash s' k).disk := Or.inr hold
    exact Or.inl (hgood.recoverAll ks (s := s.crash s' k) rfl).home
  · exact Or.inr (hnew.recoverAll ks (s := s.crash s' k) rfl).home

/-- A log of 11 sectors from sector 10 on, on a disk of zeros. -/
def smallLog : LogState := ⟨10, 11, false, [], fun _ _ => 0, []⟩

/-- A transaction that logs sector 3 twice. -/
theorem transaction_crash_atomic_absorb :
    ∃ s', smallLog.transaction [⟨3, fun _ => 1⟩, ⟨4, fun _ => 2⟩, ⟨3, fun _ => 5⟩] = some s' ∧
      ∀ (k : ℕ) (ks : List ℕ),
        (∀ j ∉ smallLog.logArea, ((smallLog.crash s' k).recoverAll ks).disk j = smallLog.disk j) ∨
          ∀ j ∉ smallLog.logArea, ((smallLog.crash s' k).recoverAll ks).disk j =
            smallLog.disk.applyAll [⟨3, fun _ => 1⟩, ⟨4, fun _ => 2⟩, ⟨3, fun _ => 5⟩] j :=
  transaction_crash_atomic ⟨rfl, rfl, by decide, rfl⟩ (by simp [logArea, smallLog]) (by decide)
    (by decide)

end Transactions

end MicroKernel
