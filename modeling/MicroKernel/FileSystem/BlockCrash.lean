import MicroKernel.FileSystem.BlockAlloc
import MicroKernel.FileSystem.Crash

/-!
# Allocation and crashes

The calls of the block allocator are made in transactions.  The machine may crash during each of
them, and during each recovery.

* `SuperBlock.Kept` : the calls of the transactions that took effect;
* `SuperBlock.Sound.commit`, `SuperBlock.Sound.crash` : what a transaction leaves;
* `SuperBlock.crash_run_refines` : the disk describes the pool after the calls that took effect.
-/

namespace MicroKernel

namespace LogState

variable {s : LogState}

@[simp] theorem installLoop_busy (ks : List ℕ) (tail : ℕ) :
    (s.installLoop tail ks).busy = s.busy := by
  induction ks generalizing s tail with
  | nil => rfl
  | cons k ks ih => exact ih ..

@[simp] theorem writeHead_busy : s.writeHead.busy = s.busy := rfl

@[simp] theorem recoverFromLog_busy : s.recoverFromLog.busy = s.busy := by
  rw [recoverFromLog, writeHead_busy, installTrans, installLoop_busy]
  rfl

theorem recoverFromLog_sectors : s.recoverFromLog.sectors = [] := rfl

theorem idle_of_clean {start size : ℕ} {c : Disk SectorData} (hbusy : s.busy = false)
    (hsectors : s.sectors = []) (hstart : s.start = start)
    (hclean : CleanDisk start size c s.disk) : Idle { s with writes := [] } := by
  subst hstart
  exact ⟨hbusy, hsectors, hclean.count, rfl⟩

/-- After a crash and any number of interrupted recoveries the log is idle again. -/
theorem idle_recoverAll {c : Disk SectorData} (ks : List ℕ) : ∀ {s : LogState}, s.writes = [] →
    s.busy = false → Good s.start s.size c s.disk →
      Idle { s.recoverAll ks with writes := [] } ∧ (s.recoverAll ks).start = s.start ∧
        (s.recoverAll ks).size = s.size := by
  induction ks with
  | nil =>
    intro s _ hbusy h
    obtain ⟨hran, hclean⟩ := h.recoverFromLog
    have hbusy' : s.recoverFromLog.busy = false := by rw [recoverFromLog_busy, hbusy]
    have hidle := idle_of_clean (s := s.recoverFromLog) hbusy' recoverFromLog_sectors
      hran.start_eq hclean
    exact ⟨hidle, hran.start_eq, hran.size_eq⟩
  | cons k ks ih =>
    intro s hs _ h
    exact @ih (s.crash s.recoverFromLog k) rfl rfl (h.recoverFromLog.1.crash hs k)

end LogState

namespace SuperBlock

open LogState

/-! ### Transactions -/

/-- A transaction: its calls, and how it ended.  It was committed, or the machine crashed after some
of its writes, and again after some of the writes of each recovery but the last. -/
structure Txn where
  /-- The calls. -/
  calls : List Call
  /-- The crash, if there was one. -/
  crash : Option (ℕ × List ℕ)

variable (sb : SuperBlock)

/-- The calls of a transaction are made on the blocks of the disk, free and write only blocks that
are held, and log what the log has room for. -/
structure Made (places : Set ℕ) (s : LogState) (calls : List Call)
    (bs : List (Disk.Write SectorData)) : Prop where
  /-- The calls. -/
  run : ∃ tr t, sb.system.Run ⟨s.disk, []⟩ tr t ∧ tr.map (·.ev) = calls ∧
    (∀ x ∈ tr, sb.Proper places x) ∧ t.logged = bs
  /-- The header has room. -/
  header : distinct bs ≤ logsize
  /-- The log has room. -/
  room : distinct bs ≤ s.size - 1

/-- A transaction that is committed, or interrupted and followed by recovery. -/
inductive TxnStep (places : Set ℕ) : LogState → Txn → LogState → Prop where
  | commit {s s' : LogState} {calls : List Call} {bs : List (Disk.Write SectorData)} :
      sb.Made places s calls bs → s.transaction bs = some s' →
        TxnStep places s ⟨calls, none⟩ { s' with writes := [] }
  | crash {s s' : LogState} {calls : List Call} {bs : List (Disk.Write SectorData)} {k : ℕ}
      {ks : List ℕ} : sb.Made places s calls bs → s.transaction bs = some s' →
        TxnStep places s ⟨calls, some (k, ks)⟩ { (s.crash s' k).recoverAll ks with writes := [] }

/-- The transactions in any order. -/
def txnSystem (places : Set ℕ) : System LogState Txn := ⟨sb.TxnStep places⟩

/-- The calls of the transactions that took effect: all that were committed, and some that were
interrupted. -/
inductive Kept : List Txn → List Call → Prop where
  | nil : Kept [] []
  | commit {ts : List Txn} {es calls : List Call} : Kept ts es →
      Kept (ts ++ [⟨calls, none⟩]) (es ++ calls)
  | whole {ts : List Txn} {es calls : List Call} {r : ℕ × List ℕ} : Kept ts es →
      Kept (ts ++ [⟨calls, some r⟩]) (es ++ calls)
  | lost {ts : List Txn} {es calls : List Call} {r : ℕ × List ℕ} : Kept ts es →
      Kept (ts ++ [⟨calls, some r⟩]) es

/-- The log is outside the bitmap and the pool. -/
structure LogApart (places : Set ℕ) (start size : ℕ) : Prop where
  /-- The blocks of the pool. -/
  places : ∀ b ∈ places, b ∉ Set.Icc start (start + (size - 1))
  /-- The bitmap. -/
  bitmap : ∀ j < sb.size, sb.bBlock j ∉ Set.Icc start (start + (size - 1))

/-- The log is idle, and the bitmap describes the pool. -/
structure Sound (places : Set ℕ) (start size : ℕ) (p : Pool ℕ SectorData) (s : LogState) :
    Prop where
  /-- The log is idle. -/
  idle : s.Idle
  /-- The place of the log. -/
  start_eq : s.start = start
  /-- The size of the log. -/
  size_eq : s.size = size
  /-- The bitmap. -/
  refines : sb.Refines places p s.disk

variable {sb} {places : Set ℕ} {start size : ℕ} {p : Pool ℕ SectorData} {s s' : LogState}
  {blocks blocks' : Disk SectorData} {calls : List Call} {bs : List (Disk.Write SectorData)}

theorem bBlock_lt {j : ℕ} (hj : j < sb.size) : sb.bBlock j < 2 ^ 32 := by
  have hsize := sb.size_le
  have hinodes := sb.nINodes.isLt
  have hdiv : j / bpb ≤ j := Nat.div_le_self ..
  have hdiv' : sb.nINodes.toNat / ipb ≤ sb.nINodes.toNat := Nat.div_le_self ..
  unfold bBlock
  omega

theorem Refines.congr (h : sb.Refines places p blocks)
    (hplaces : ∀ b ∈ places, blocks' b = blocks b)
    (hbitmap : ∀ j < sb.size, blocks' (sb.bBlock j) = blocks (sb.bBlock j)) :
    sb.Refines places p blocks' := by
  refine ⟨fun b hb => ?_, h.held, fun b hb => ?_⟩
  · rw [SuperBlock.used, hbitmap b hb]
    exact h.used b hb
  · rw [hplaces b (h.held hb)]
    exact h.content b hb

theorem Refines.home (h : sb.Refines places p blocks) (hapart : sb.LogApart places start size)
    (hhome : ∀ i ∉ Set.Icc start (start + (size - 1)), blocks' i = blocks i) :
    sb.Refines places p blocks' :=
  h.congr (fun b hb => hhome b (hapart.places b hb)) fun j hj => hhome _ (hapart.bitmap j hj)

/-- What a transaction logs, and the pool after its calls. -/
theorem Sound.made (h : sb.Sound places start size p s) (hl : sb.Places places)
    (hapart : sb.LogApart places start size) (hmade : sb.Made places s calls bs) :
    (∀ b ∈ bs, b.sector ∉ s.logArea ∧ b.sector < 2 ^ 32) ∧
      ∃ tr' p', (Pool.system places fun _ => 0).Run p tr' p' ∧ tr'.map (·.ev) = calls ∧
        sb.Refines places p' (s.disk.applyAll bs) := by
  obtain ⟨tr, t, hrun, rfl, hproper, rfl⟩ := hmade.run
  obtain ⟨tr', p', ws, hpool, hev, href, hlogs⟩ :=
    Refines.run (s := ⟨s.disk, []⟩) h.refines hl hrun hproper
  have hws : t.logged = ws := hlogs.logged
  rw [hlogs.blocks] at href
  rw [hws]
  refine ⟨fun b hb => ?_, tr', p', hpool, hev, href⟩
  rw [logArea, h.start_eq, h.size_eq]
  rcases hlogs.sector b hb with hin | ⟨j, hj, hblock⟩
  · have hlt := hl.lt _ hin
    have hsize := sb.size_le
    exact ⟨hapart.places _ hin, by omega⟩
  · rw [hblock]
    exact ⟨hapart.bitmap j hj, bBlock_lt hj⟩

/-- A transaction that is committed. -/
theorem Sound.commit (h : sb.Sound places start size p s) (hl : sb.Places places)
    (hapart : sb.LogApart places start size) (hmade : sb.Made places s calls bs)
    (htrans : s.transaction bs = some s') :
    ∃ tr' p', (Pool.system places fun _ => 0).Run p tr' p' ∧ tr'.map (·.ev) = calls ∧
      sb.Sound places start size p' { s' with writes := [] } := by
  obtain ⟨hhome, tr', p', hpool, hev, href⟩ := h.made hl hapart hmade
  obtain ⟨s₁, hs₁, hran, hclean, -⟩ := h.idle.transaction hhome hmade.header hmade.room
  obtain rfl := Option.some.inj (hs₁.symm.trans htrans)
  refine ⟨tr', p', hpool, hev, h.idle.next hhome hmade.header hmade.room htrans,
    hran.start_eq.trans h.start_eq, hran.size_eq.trans h.size_eq, ?_⟩
  have hhome' := hclean.home
  rw [h.start_eq, h.size_eq] at hhome'
  exact href.home hapart hhome'

/-- A transaction that is interrupted: all of its calls took effect, or none. -/
theorem Sound.crash (h : sb.Sound places start size p s) (hl : sb.Places places)
    (hapart : sb.LogApart places start size) (hmade : sb.Made places s calls bs)
    (htrans : s.transaction bs = some s') (k : ℕ) (ks : List ℕ) :
    sb.Sound places start size p { (s.crash s' k).recoverAll ks with writes := [] } ∨
      ∃ tr' p', (Pool.system places fun _ => 0).Run p tr' p' ∧ tr'.map (·.ev) = calls ∧
        sb.Sound places start size p' { (s.crash s' k).recoverAll ks with writes := [] } := by
  obtain ⟨hhome, tr', p', hpool, hev, href⟩ := h.made hl hapart hmade
  obtain ⟨s₁, hs₁, hran, -⟩ := h.idle.transaction hhome hmade.header hmade.room
  obtain rfl := Option.some.inj (hs₁.symm.trans htrans)
  -- the disk that the crash leaves is good for some contents of the home sectors
  have hsound : ∀ {c : Disk SectorData} {q : Pool ℕ SectorData}, sb.Refines places q c →
      Good s.start s.size c (s.crash s₁ k).disk →
        sb.Sound places start size q { (s.crash s₁ k).recoverAll ks with writes := [] } := by
    intro c q hq hgood
    obtain ⟨hidle, hstart, hsize⟩ := idle_recoverAll (s := s.crash s₁ k) ks rfl rfl hgood
    have hhome' := (hgood.recoverAll ks (s := s.crash s₁ k) rfl).home
    refine ⟨hidle, hstart.trans h.start_eq, hsize.trans h.size_eq, hq.home hapart ?_⟩
    rw [← h.start_eq, ← h.size_eq]
    exact hhome'
  rcases hran.crash h.idle.writes k with hold | hnew
  · exact Or.inl (hsound h.refines (Or.inr hold))
  · exact Or.inr ⟨tr', p', hpool, hev, hsound href hnew⟩

/-! ### Runs -/

/-- The transactions of a run. -/
theorem Sound.run {tr : List (System.Step LogState Txn)} (h : sb.Sound places start size p s)
    (hl : sb.Places places) (hapart : sb.LogApart places start size)
    (hrun : (sb.txnSystem places).Run s tr s') :
    ∃ calls tr' p', Kept (tr.map (·.ev)) calls ∧
      (Pool.system places fun _ => 0).Run p tr' p' ∧ tr'.map (·.ev) = calls ∧
        sb.Sound places start size p' s' := by
  induction hrun with
  | nil => exact ⟨[], [], p, .nil, .nil p, rfl, h⟩
  | snoc _ hstep ih =>
    obtain ⟨calls, tr₁, p₁, hkept, hpool, hev, hsound⟩ := ih
    rw [List.map_append]
    cases hstep with
    | commit hmade htrans =>
      obtain ⟨tr₂, p₂, hpool', hev', hsound'⟩ := hsound.commit hl hapart hmade htrans
      refine ⟨_, _, p₂, hkept.commit, hpool.append hpool', ?_, hsound'⟩
      rw [List.map_append, hev, hev']
    | crash hmade htrans =>
      rcases hsound.crash hl hapart hmade htrans _ _ with hold | ⟨tr₂, p₂, hpool', hev', hnew⟩
      · exact ⟨_, _, p₁, hkept.lost, hpool, hev, hold⟩
      · refine ⟨_, _, p₂, hkept.whole, hpool.append hpool', ?_, hnew⟩
        rw [List.map_append, hev, hev']

/-- The block allocator over any run of transactions, each of which is committed or interrupted by a
crash, with crashes during recovery: the disk describes the pool after the calls of the transactions
that were committed and of some of those that were interrupted, and each transaction took effect
with all of its calls or with none. -/
theorem crash_run_refines {tr : List (System.Step LogState Txn)} (hl : sb.Places places)
    (hapart : sb.LogApart places s.start s.size) (hidle : s.Idle)
    (hmarked : ∀ b < sb.size, b ∉ places → sb.used s.disk b = true)
    (hrun : (sb.txnSystem places).Run s tr s') :
    ∃ calls tr' p', Kept (tr.map (·.ev)) calls ∧
      (Pool.system places fun _ => 0).Run (sb.pool places s.disk) tr' p' ∧
        tr'.map (·.ev) = calls ∧ s'.Idle ∧ sb.Refines places p' s'.disk := by
  obtain ⟨calls, tr', p', hkept, hpool, hev, hsound⟩ :=
    Sound.run ⟨hidle, rfl, rfl, refines_pool hmarked⟩ hl hapart hrun
  exact ⟨calls, tr', p', hkept, hpool, hev, hsound.idle, hsound.refines⟩

/-- The disk of 8 blocks, with a log behind it. -/
def eightBlocksLog : LogState := ⟨10, 11, false, [], twoFree.blocks, []⟩

/-- The log after the transaction that hands out block 5. -/
def takenLog : LogState :=
  LogState.commitTrans
    ((eightBlocks.take twoFree 5).logged.foldl logWrite { eightBlocksLog with busy := true })

/-- The disk after a crash behind the second write of the transaction, and after a recovery that is
interrupted once. -/
def recoveredLog : LogState :=
  { (eightBlocksLog.crash takenLog 2).recoverAll [1] with writes := [] }

theorem eightBlocks_apart : eightBlocks.LogApart {5, 6} 10 11 := by
  refine ⟨fun b hb => ?_, fun j hj => ?_⟩
  · rcases hb with rfl | rfl <;> simp
  · have hblock : ∀ j < eightBlocks.size, eightBlocks.bBlock j = 3 := by decide
    rw [hblock j hj]
    simp

theorem eightBlocksLog_idle : eightBlocksLog.Idle := ⟨rfl, rfl, by decide, rfl⟩

theorem eightBlocks_made : eightBlocks.Made {5, 6} eightBlocksLog [.alloc (some 5)]
    (eightBlocks.take twoFree 5).logged :=
  ⟨⟨_, _, twoFree_run, rfl, by simp [Proper], rfl⟩, by decide, by decide⟩

theorem recoveredLog_run : (eightBlocks.txnSystem {5, 6}).Run eightBlocksLog
    [⟨eightBlocksLog, ⟨[.alloc (some 5)], some (2, [1])⟩, recoveredLog⟩] recoveredLog :=
  .single (.crash eightBlocks_made rfl)

/-- Block 5 was handed out, or it was not. -/
theorem crash_run_refines_recoveredLog :
    ∃ calls tr' p', Kept [⟨[.alloc (some 5)], some (2, [1])⟩] calls ∧
      (Pool.system {5, 6} fun _ => 0).Run (eightBlocks.pool {5, 6} eightBlocksLog.disk) tr' p' ∧
        tr'.map (·.ev) = calls ∧ recoveredLog.Idle ∧
          eightBlocks.Refines {5, 6} p' recoveredLog.disk :=
  crash_run_refines (s := eightBlocksLog) eightBlocks_places eightBlocks_apart eightBlocksLog_idle
    twoFree_marked recoveredLog_run

end SuperBlock

end MicroKernel
