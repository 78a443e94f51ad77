import MicroKernel.FileSystem.Inode
import Mathlib.Data.List.Range

/-!
# What is read after a write

The pointer to the data that is written is not advanced, so that each block gets the first bytes of
the data again.

* `RoundTrip` : what the functions that read and write a file are for;
* `readLoop_direct`, `writeLoop_direct` : the loops on the blocks that the inode lists itself;
* `readInode_ne` : no request is refused by `read_inode`;
* `roundTrip_cases` : what a round trip needs, and what is enough.
-/

namespace MicroKernel

namespace Inode

variable {bufferAlloc : Fs → ℕ × Fs} {s s' : Fs} {tot n m off i k : ℕ}

/-- The positions of a request are in blocks that the inode lists itself. -/
def Direct (off n : ℕ) : Prop := ∀ i, off ≤ i → i < off + n → i / bsize < nDirect

/-- The index in the data of the byte that is stored at a position, if the data is taken from the
start again at each block. -/
def taken (off i : ℕ) : ℕ := i - max off (bsize * (i / bsize))

/-- The data is the same if it is taken from the start again at each block. -/
def Repeats (off : ℕ) (data : List (BitVec 8)) : Prop :=
  ∀ j < data.length, data.getD j 0 = data.getD (taken off (off + j)) 0

/-! ### Groups -/

theorem groupSize_le : groupSize tot n off ≤ n - tot := min_le_left _ _

theorem groupSize_le_block : off % bsize + groupSize tot n off ≤ bsize := by
  have hmod : off % bsize < bsize := Nat.mod_lt off (by decide)
  have hmin : groupSize tot n off ≤ bsize - off % bsize := min_le_right _ _
  omega

theorem group_position (hm : off % bsize + m ≤ bsize) (hk : k < m) :
    (off + k) / bsize = off / bsize ∧ (off + k) % bsize = off % bsize + k := by
  simp only [bsize] at hm ⊢
  omega

theorem taken_group (hm : off % bsize + m ≤ bsize) (hk : k < m) : taken off (off + k) = k := by
  simp only [taken, (group_position hm hk).1]
  simp only [bsize]
  omega

theorem taken_next (hlast : groupSize tot n off < n - tot) (hi : off + groupSize tot n off ≤ i) :
    taken (off + groupSize tot n off) i = taken off i := by
  simp only [taken, groupSize, bsize] at *
  omega

/-- The first group of a request, and the rest of it. -/
theorem Direct.group (hd : Direct off (n - tot)) (h : tot < n) :
    off / bsize < nDirect ∧
      Direct (off + groupSize tot n off) (n - (tot + groupSize tot n off)) := by
  have hm := @groupSize_le tot n off
  exact ⟨hd off le_rfl (by omega), fun i hi hlt => hd i (by omega) (by omega)⟩

theorem Direct.le (h : Direct off n) (hn : 0 < n) : off + n ≤ nDirect * bsize := by
  have := h (off + n - 1) (by omega) (by omega)
  simp only [bsize, nDirect] at *
  omega

/-! ### The loops on direct blocks -/

theorem getNthdiskBlock_direct (h : k < nDirect) :
    getNthdiskBlock bufferAlloc k s = some (s.ip.addrs k, s) := by
  simp only [getNthdiskBlock, if_pos h]
  split_ifs
  · simp only [Fs.setAddr, Function.update_eq_self]
  · rfl

theorem Fs.byteAt_direct (h : i / bsize < nDirect) :
    s.byteAt i = (s.blocks (s.ip.addrs (i / bsize))).bytes (i % bsize) := by
  rw [Fs.byteAt, Fs.blockOf, if_pos h]

theorem Fs.map_byteAt_group (hd : off / bsize < nDirect) (hm : off % bsize + m ≤ bsize) :
    (List.range' (off % bsize) m).map (s.blocks (s.ip.addrs (off / bsize))).bytes =
      (List.range' off m).map s.byteAt := by
  simp only [List.range'_eq_map_range, List.map_map]
  refine List.map_congr_left fun k hk => ?_
  obtain ⟨hdiv, hmod⟩ := group_position hm (List.mem_range.1 hk)
  simp only [Function.comp_apply]
  rw [Fs.byteAt_direct (by rwa [hdiv]), hdiv, hmod]

theorem off_next (hd : Direct off (n - tot)) (h : tot < n) :
    (off + groupSize tot n off) % 2 ^ 32 = off + groupSize tot n off := by
  have hle := hd.le (Nat.sub_pos_of_lt h)
  have hm := @groupSize_le tot n off
  refine Nat.mod_eq_of_lt ?_
  simp only [bsize, nDirect] at hle
  omega

/-- `read_inode` reads the bytes of the file. -/
theorem readLoop_direct {dst : List (BitVec 8)} (hd : Direct off (n - tot)) :
    readLoop bufferAlloc tot n off dst s =
      some (dst ++ (List.range' off (n - tot)).map s.byteAt, s) := by
  induction hk : n - tot using Nat.strong_induction_on generalizing tot off dst with
  | _ k ih =>
    subst hk
    rw [readLoop]
    split_ifs with h
    · obtain ⟨hdiv, hnext⟩ := hd.group h
      have hm := @groupSize_le tot n off
      have hpos := groupSize_pos off h
      rw [getNthdiskBlock_direct hdiv]
      simp only [Option.bind_eq_bind, Option.bind_some]
      rw [off_next hd h, ih _ (by omega) hnext rfl,
        Fs.map_byteAt_group hdiv groupSize_le_block, List.append_assoc, ← List.map_append]
      have hlen : n - tot = groupSize tot n off + (n - (tot + groupSize tot n off)) := by omega
      rw [hlen, ← List.range'_append_1]
    · rw [Nat.sub_eq_zero_of_le (not_lt.1 h), List.range'_zero, List.map_nil, List.append_nil]

/-- The blocks after data was stored at the positions of a range. -/
structure Stored (s : Fs) (off n : ℕ) (src : ℕ → BitVec 8) (s' : Fs) : Prop where
  /-- The inode is the same. -/
  ip : s'.ip = s.ip
  /-- A byte at no position of the range is kept. -/
  kept : ∀ addr k, (∀ i, off ≤ i → i < off + n →
    ¬(s.ip.addrs (i / bsize) = addr ∧ i % bsize = k)) →
    (s'.blocks addr).bytes k = (s.blocks addr).bytes k
  /-- The byte at a position of the range is the one for a position at the same place. -/
  stored : ∀ i, off ≤ i → i < off + n → ∃ j, off ≤ j ∧ j < off + n ∧
    s.ip.addrs (j / bsize) = s.ip.addrs (i / bsize) ∧ j % bsize = i % bsize ∧
    (s'.blocks (s.ip.addrs (i / bsize))).bytes (i % bsize) = src (taken off j)

theorem setBlock_self {addr : ℕ} {d : SectorData} : (s.setBlock addr d).blocks addr = d :=
  Function.update_self ..

theorem setBlock_of_ne {addr a : ℕ} {d : SectorData} (h : a ≠ addr) :
    (s.setBlock addr d).blocks a = s.blocks a := Function.update_of_ne h ..

theorem Stored.cons {src : ℕ → BitVec 8} (h : tot < n)
    (hrest : Stored (s.setBlock (s.ip.addrs (off / bsize))
        ((s.blocks (s.ip.addrs (off / bsize))).put (off % bsize) (groupSize tot n off) src))
      (off + groupSize tot n off) (n - (tot + groupSize tot n off)) src s') :
    Stored s off (n - tot) src s' := by
  have hpos := groupSize_pos off h
  have hle := @groupSize_le tot n off
  have hblock := @groupSize_le_block tot n off
  refine ⟨hrest.ip, fun addr k hk => ?_, fun i hi hlt => ?_⟩
  · rw [hrest.kept addr k fun i hi hlt => hk i (by omega) (by omega)]
    by_cases haddr : addr = s.ip.addrs (off / bsize)
    · rw [haddr, setBlock_self, SectorData.bytes_put hblock]
      refine Ram.writeBytes_of_not_mem fun hin => ?_
      obtain ⟨j, rfl⟩ := Nat.exists_eq_add_of_le hin.1
      have hj : j < groupSize tot n off := Nat.lt_of_add_lt_add_left hin.2
      obtain ⟨hdiv, hmod⟩ := group_position hblock hj
      exact hk (off + j) (by omega) (by omega) ⟨by rw [hdiv, haddr], hmod⟩
    · rw [setBlock_of_ne haddr]
  · by_cases hlater : ∃ j, off + groupSize tot n off ≤ j ∧ j < off + (n - tot) ∧
      s.ip.addrs (j / bsize) = s.ip.addrs (i / bsize) ∧ j % bsize = i % bsize
    · obtain ⟨j, hj, hjlt, haddr, hmod⟩ := hlater
      obtain ⟨j', hj', hjlt', haddr', hmod', heq⟩ := hrest.stored j hj (by omega)
      refine ⟨j', by omega, by omega, haddr'.trans haddr, hmod'.trans hmod, ?_⟩
      rw [← haddr, ← hmod, ← taken_next (by omega) hj']
      exact heq
    · have hfirst : i < off + groupSize tot n off := by
        refine lt_of_not_ge fun hge => hlater ⟨i, hge, hlt, rfl, rfl⟩
      obtain ⟨j, rfl⟩ := Nat.exists_eq_add_of_le hi
      have hj : j < groupSize tot n off := Nat.lt_of_add_lt_add_left hfirst
      obtain ⟨hdiv, hmod⟩ := group_position hblock hj
      refine ⟨off + j, hi, hlt, rfl, rfl, ?_⟩
      rw [hrest.kept _ _ fun j' hj' hlt' heq => hlater ⟨j', hj', by omega, heq⟩, hdiv, hmod,
        setBlock_self, SectorData.bytes_put hblock, Ram.writeBytes_add hj, taken_group hblock hj]

theorem Stored.refl {src : ℕ → BitVec 8} : Stored s off 0 src s :=
  ⟨rfl, fun _ _ _ => rfl, fun _ hi hlt => absurd hlt (not_lt.2 hi)⟩

/-- `write_inode` stores the data, taken from the start again at each block. -/
theorem writeLoop_direct {src : ℕ → BitVec 8} (hd : Direct off (n - tot)) :
    ∃ s', writeLoop bufferAlloc tot n off src s = some (off + (n - tot), s') ∧
      Stored s off (n - tot) src s' := by
  induction hk : n - tot using Nat.strong_induction_on generalizing tot off s with
  | _ k ih =>
    subst hk
    rw [writeLoop]
    split_ifs with h
    · obtain ⟨hdiv, hnext⟩ := hd.group h
      have hm := @groupSize_le tot n off
      have hpos := groupSize_pos off h
      rw [getNthdiskBlock_direct hdiv]
      simp only [Option.bind_eq_bind, Option.bind_some]
      rw [off_next hd h]
      obtain ⟨s', heq, hst⟩ := ih _ (by omega) hnext rfl
      refine ⟨s', heq.trans ?_, hst.cons h⟩
      rw [show off + groupSize tot n off + (n - (tot + groupSize tot n off)) = off + (n - tot) by
        omega]
    · rw [Nat.sub_eq_zero_of_le (not_lt.1 h)]
      exact ⟨s, rfl, Stored.refl⟩

/-! ### Requests -/

section Requests

variable (bufferAlloc)

/-- What the functions are for: data that was written is read back, the rest of the file is as
before, and a request that starts behind the file or wraps around is refused. -/
structure RoundTrip (s : Fs) (off : ℕ) (data : List (BitVec 8)) : Prop where
  /-- A request in the file. -/
  valid : off ≤ s.ip.size → off + data.length ≤ maxFile * bsize →
    ∃ r s', writeInode bufferAlloc off data s = some (r, s') ∧
      (∃ r' s'', readInode bufferAlloc off data.length s' = some (r', data, s'')) ∧
      (∀ i < s.ip.size, i ∉ Set.Ico off (off + data.length) → s'.byteAt i = s.byteAt i) ∧
      s'.ip.size = max s.ip.size (off + data.length)
  /-- A request that is refused. -/
  refused : s.ip.size < off ∨ 2 ^ 32 ≤ off + data.length →
    writeInode bufferAlloc off data s = some (-1, s) ∧
      readInode bufferAlloc off data.length s = some (-1, [], s)

end Requests

theorem Stored.byteAt (hs : s.WellFormed) (hoff : off ≤ s.ip.size) (hd : Direct off n)
    {src : ℕ → BitVec 8} (h : Stored s off n src s') (hi : off ≤ i) (hlt : i < off + n) :
    s'.byteAt i = src (taken off i) := by
  obtain ⟨j, hj, hjlt, haddr, hmod, heq⟩ := h.stored i hi hlt
  have hdi := hd i hi hlt
  have hdj := hd j hj hjlt
  have hblocki : s.blockOf i = s.ip.addrs (i / bsize) := if_pos hdi
  have hblockj : s.blockOf j = s.ip.addrs (j / bsize) := if_pos hdj
  rw [Fs.byteAt_direct hdi, h.ip, heq]
  by_cases hzero : s.ip.addrs (i / bsize) = 0
  · -- both positions are in blocks that are not there, which are behind the end of the file
    have hfresh : ∀ j, s.ip.addrs (j / bsize) = 0 → j / bsize < nDirect →
        taken off j = j % bsize := fun j hz hdj => by
      have hstart : s.ip.size ≤ bsize * (j / bsize) := by
        by_contra hlt
        have hdiv : bsize * (j / bsize) / bsize = j / bsize :=
          Nat.mul_div_cancel_left _ (by decide)
        refine hs.allocated _ (lt_of_not_ge hlt) ?_
        rw [Fs.blockOf, if_pos (by rwa [hdiv]), hdiv, hz]
      rw [taken, max_eq_right (hoff.trans hstart), Nat.mod_eq_sub]
    rw [hfresh i hzero hdi, hfresh j (haddr.trans hzero) hdj, hmod]
  · have hdiv : i / bsize = j / bsize :=
      hs.distinct i j hdi (by rwa [hblocki]) (by rw [hblocki, hblockj, haddr]) (Or.inl hdj)
    have hsame : j = i := by
      rw [← Nat.div_add_mod j bsize, ← Nat.div_add_mod i bsize, hdiv, hmod]
    rw [hsame]

theorem Stored.byteAt_kept (hs : s.WellFormed) (hd : Direct off n) {src : ℕ → BitVec 8}
    (h : Stored s off n src s') (hi : i < s.ip.size) (hout : i ∉ Set.Ico off (off + n)) :
    s'.byteAt i = s.byteAt i := by
  have hkeep : (s'.blocks (s.blockOf i)).bytes (i % bsize) =
      (s.blocks (s.blockOf i)).bytes (i % bsize) := by
    refine h.kept _ _ fun j hj hjlt heq => ?_
    have hdj := hd j hj hjlt
    have hblockj : s.blockOf j = s.ip.addrs (j / bsize) := if_pos hdj
    have hsame : s.blockOf j = s.blockOf i := hblockj.trans heq.1
    have hdiv := hs.distinct j i hdj (hsame ▸ hs.allocated i hi) hsame (Or.inr hi)
    have : j = i := by
      rw [← Nat.div_add_mod j bsize, ← Nat.div_add_mod i bsize, hdiv, heq.2]
    exact hout (this ▸ ⟨hj, hjlt⟩)
  have hblock : s'.blockOf i = s.blockOf i := by
    by_cases hdi : i / bsize < nDirect
    · rw [Fs.blockOf, Fs.blockOf, if_pos hdi, if_pos hdi, h.ip]
    · rw [Fs.blockOf, Fs.blockOf, if_neg hdi, if_neg hdi, h.ip]
      refine Ram.readLe_congr 4 fun k _ => h.kept _ _ fun j hj hjlt heq => ?_
      have hdj := hd j hj hjlt
      have hblockj : s.blockOf j = s.ip.addrs (j / bsize) := if_pos hdj
      refine hs.indirect j hdj ?_ (hblockj.trans heq.1)
      simp only [bsize, nDirect] at hdi ⊢
      omega
  rw [Fs.byteAt, Fs.byteAt, hblock, hkeep]

theorem writeInode_direct {data : List (BitVec 8)} (hs : s.WellFormed) (hoff : off ≤ s.ip.size)
    (hd : Direct off data.length) (hle : off + data.length ≤ maxFile * bsize) :
    ∃ s', writeInode bufferAlloc off data s = some (toInt32 data.length, s') ∧
      (∀ i, off ≤ i → i < off + data.length → s'.byteAt i = data.getD (taken off i) 0) ∧
      (∀ i < s.ip.size, i ∉ Set.Ico off (off + data.length) → s'.byteAt i = s.byteAt i) ∧
      s'.ip.size = max s.ip.size (off + data.length) := by
  obtain ⟨s', heq, hst⟩ :=
    @writeLoop_direct bufferAlloc s 0 data.length off (data.getD · 0) hd
  rw [Nat.sub_zero] at heq hst
  have hmod : (off + data.length) % 2 ^ 32 = off + data.length := by
    refine Nat.mod_eq_of_lt (hle.trans_lt ?_)
    decide
  rw [writeInode]
  simp only [hmod]
  rw [if_neg (not_lt.2 hle), heq]
  simp only [Option.bind_eq_bind, Option.bind_some]
  refine ⟨_, rfl, fun i hi hlt => ?_, fun i hi hout => ?_, ?_⟩
  · rw [← hst.byteAt hs hoff hd hi hlt]
    split_ifs <;> rfl
  · rw [← hst.byteAt_kept hs hd hi hout]
    split_ifs <;> rfl
  · rw [hst.ip]
    split_ifs with hgrow
    · exact (max_eq_right hgrow.2.le).symm
    · rw [hst.ip]
      omega

theorem readInode_direct (hd : Direct off n) (hsize : off + n ≤ s.ip.size)
    (hle : off + n ≤ maxFile * bsize) :
    readInode bufferAlloc off n s = some (toInt32 n, (List.range' off n).map s.byteAt, s) := by
  have hmod : (off + n) % 2 ^ 32 = off + n := by
    refine Nat.mod_eq_of_lt (hle.trans_lt ?_)
    decide
  rw [readInode]
  simp only [hmod]
  rw [if_neg (not_lt.2 hsize), readLoop_direct hd]
  rfl

/-! ### Requests that are to be refused -/

theorem getNthdiskBlock_none (h : maxFile ≤ k) : getNthdiskBlock bufferAlloc k s = none := by
  have hlarge : ¬k < nDirect ∧ ¬k - nDirect < nIndirect := by
    simp only [maxFile, nDirect, nIndirect, bsize] at h ⊢
    omega
  rw [getNthdiskBlock, if_neg hlarge.1]
  exact if_neg hlarge.2

theorem group_le_maxFile (h : off / bsize < maxFile) :
    off + groupSize tot n off ≤ maxFile * bsize := by
  have hm := @groupSize_le_block tot n off
  simp only [maxFile, nDirect, nIndirect, bsize] at *
  omega

/-- The loop does not get behind the blocks that an inode can list. -/
theorem readLoop_none {dst : List (BitVec 8)} (h : tot < n)
    (hlarge : maxFile * bsize < off + (n - tot)) :
    readLoop bufferAlloc tot n off dst s = none := by
  induction hk : n - tot using Nat.strong_induction_on generalizing tot off dst s with
  | _ k ih =>
    subst hk
    rw [readLoop, dif_pos h]
    rcases hblock : getNthdiskBlock bufferAlloc (off / bsize) s with _ | ⟨addr, s'⟩
    · rfl
    · have hoff : off / bsize < maxFile := by
        by_contra hge
        rw [getNthdiskBlock_none (not_lt.1 hge)] at hblock
        exact absurd hblock (Option.some_ne_none _).symm
      have hle := @group_le_maxFile tot n off hoff
      have hpos := groupSize_pos off h
      have hmod : (off + groupSize tot n off) % 2 ^ 32 = off + groupSize tot n off := by
        refine Nat.mod_eq_of_lt (hle.trans_lt ?_)
        decide
      simp only [Option.bind_eq_bind, Option.bind_some]
      rw [hmod]
      exact ih _ (by omega) (by omega) (by omega) rfl

/-- `read_inode` does not return `-1`. -/
theorem readInode_ne {dst : List (BitVec 8)} (hs : s.WellFormed) (hn : n < 2 ^ 32)
    (h : s.ip.size < off ∨ 2 ^ 32 ≤ off + n) :
    readInode bufferAlloc off n s ≠ some (-1, dst, s') := by
  have hsize := hs.size
  rw [readInode]
  dsimp only
  generalize hn' : (if (off + n) % 2 ^ 32 > s.ip.size then (s.ip.size + 2 ^ 32 - off) % 2 ^ 32
    else n) = n'
  have hcases : 0 < n' ∧ maxFile * bsize < off + n' ∨ n' ≤ maxFile * bsize := by
    simp only [maxFile, nDirect, nIndirect, bsize] at hsize ⊢
    rcases h with h | h <;> split_ifs at hn' <;> omega
  rcases hcases with ⟨hpos, hlarge⟩ | hle
  · rw [readLoop_none hpos (by omega)]
    exact (Option.some_ne_none _).symm
  · rcases readLoop bufferAlloc 0 n' off [] s with _ | ⟨dst', s''⟩
    · exact (Option.some_ne_none _).symm
    · simp only [Option.bind_eq_bind, Option.bind_some, ne_eq, Option.some.injEq, Prod.mk.injEq]
      refine fun heq => absurd heq.1 ?_
      have hsmall : n' < 2 ^ 31 := hle.trans_lt (by decide)
      rw [toInt32, if_pos hsmall]
      omega

/-! ### When there is a round trip -/

theorem RoundTrip.accepted {data : List (BitVec 8)} (hs : s.WellFormed)
    (hdata : data.length < 2 ^ 32) (h : RoundTrip bufferAlloc s off data) :
    off ≤ s.ip.size ∧ off + data.length < 2 ^ 32 := by
  have hnot : ¬(s.ip.size < off ∨ 2 ^ 32 ≤ off + data.length) := fun hbad =>
    readInode_ne hs hdata hbad (h.refused hbad).2
  rwa [not_or, not_lt, not_le] at hnot

/-- What is read is the data taken from the start again at each block. -/
theorem RoundTrip.repeats {data : List (BitVec 8)} (hs : s.WellFormed) (hoff : off ≤ s.ip.size)
    (hd : Direct off data.length) (h : RoundTrip bufferAlloc s off data) : Repeats off data := by
  intro j hj
  have hle : off + data.length ≤ maxFile * bsize :=
    (hd.le (Nat.zero_lt_of_lt hj)).trans (Nat.mul_le_mul_right _ (Nat.le_add_right _ _))
  obtain ⟨r, s₁, hwrite, ⟨r', s₂, hread⟩, -, -⟩ := h.valid hoff hle
  obtain ⟨s', heq, hbyte, -, hsize⟩ := @writeInode_direct bufferAlloc _ _ _ hs hoff hd hle
  obtain rfl : s₁ = s' := congrArg Prod.snd (Option.some.inj (hwrite.symm.trans heq))
  rw [readInode_direct hd (hsize.symm ▸ le_max_right _ _) hle] at hread
  have hlist : (List.range' off data.length).map s₁.byteAt = data :=
    congrArg (fun r : ℤ × List (BitVec 8) × Fs => r.2.1) (Option.some.inj hread)
  rw [← hbyte (off + j) (Nat.le_add_right _ _) (Nat.add_lt_add_left hj _)]
  conv_lhs => rw [← hlist]
  simp [List.getD_eq_getElem?_getD, hj]

/-- The data comes back if it is the same when taken from the start again at each block. -/
theorem roundTrip_of_repeats {data : List (BitVec 8)} (hs : s.WellFormed)
    (hoff : off ≤ s.ip.size) (hlt : off + data.length < 2 ^ 32)
    (hvalid : off + data.length ≤ maxFile * bsize → Direct off data.length ∧ Repeats off data) :
    RoundTrip bufferAlloc s off data := by
  refine ⟨fun _ hle => ?_, fun hbad => ?_⟩
  · obtain ⟨hd, hrep⟩ := hvalid hle
    obtain ⟨s', heq, hbyte, hkept, hsize⟩ :=
      @writeInode_direct bufferAlloc _ _ _ hs hoff hd hle
    refine ⟨_, s', heq, ⟨toInt32 data.length, s', ?_⟩, hkept, hsize⟩
    rw [readInode_direct hd (hsize.symm ▸ le_max_right _ _) hle]
    have hlist : (List.range' off data.length).map s'.byteAt = data := by
      refine List.ext_getElem (by simp) fun j _ hj => ?_
      rw [List.getElem_map, List.getElem_range', Nat.one_mul,
        hbyte _ (Nat.le_add_right _ _) (Nat.add_lt_add_left hj _), ← hrep j hj,
        List.getD_eq_getElem _ _ hj]
    rw [hlist]
  · omega

/-- A round trip needs a request that starts in the file and does not wrap around, and data that is
the same when taken from the start again at each block; that is enough for a request in the blocks
that the inode lists itself. -/
theorem roundTrip_cases (bufferAlloc : Fs → ℕ × Fs) (s : Fs) (off : ℕ) (data : List (BitVec 8))
    (hs : s.WellFormed) (hdata : data.length < 2 ^ 32) :
    (off ≤ s.ip.size ∧ off + data.length < 2 ^ 32 ∧
        (off + data.length ≤ maxFile * bsize → Direct off data.length ∧ Repeats off data) →
      RoundTrip bufferAlloc s off data) ∧
    (RoundTrip bufferAlloc s off data →
      off ≤ s.ip.size ∧ off + data.length < 2 ^ 32 ∧
        (Direct off data.length → Repeats off data)) := by
  refine ⟨fun h => roundTrip_of_repeats hs h.1 h.2.1 h.2.2, fun h => ?_⟩
  obtain ⟨hle, hlt⟩ := h.accepted hs hdata
  exact ⟨hle, hlt, fun hd => h.repeats hs hle hd⟩

/-- A file of two blocks. -/
def twoBlocks : Fs :=
  { blocks := fun _ _ => 0
    ip := ⟨1024, fun i => if i < 2 then i + 5 else 0⟩
    dip := ⟨1024, fun i => if i < 2 then i + 5 else 0⟩ }

theorem twoBlocks_wellFormed : twoBlocks.WellFormed := by
  have hdirect : ∀ i, i / bsize < nDirect →
      twoBlocks.blockOf i = if i / bsize < 2 then i / bsize + 5 else 0 := fun i hi => if_pos hi
  have hsize : twoBlocks.ip.size = 1024 := rfl
  refine ⟨?_, fun i hi => ?_, fun i j hi hne heq hj => ?_, fun i _ hlt => ?_⟩
  · rw [hsize]
    decide
  · have hdiv : i / bsize < 2 := by
      simp only [hsize, bsize] at hi ⊢
      omega
    rw [hdirect i (hdiv.trans (by decide)), if_pos hdiv]
    exact Nat.succ_ne_zero _
  · have hj' : j / bsize < nDirect := by
      simp only [hsize, bsize, nDirect] at hj ⊢
      omega
    rw [hdirect i hi] at hne heq
    rw [hdirect j hj'] at heq
    split_ifs at hne heq <;> omega
  · simp only [hsize, bsize, nDirect] at hlt
    omega

theorem direct_twoBlocks : Direct 511 2 := fun i _ hlt => by
  simp only [bsize, nDirect]
  omega

theorem roundTrip_cases_twoBlocks : RoundTrip (fun s => (7, s)) twoBlocks 511 [9, 9] :=
  (roundTrip_cases (fun s => (7, s)) twoBlocks 511 [9, 9] twoBlocks_wellFormed (by decide)).1
    ⟨by decide, by decide, fun _ => ⟨direct_twoBlocks, by unfold Repeats; decide⟩⟩

/-- The second of two bytes in different blocks is lost. -/
theorem not_roundTrip : ¬RoundTrip (fun s => (7, s)) twoBlocks 511 [1, 2] := fun h =>
  absurd (h.repeats twoBlocks_wellFormed (by decide) direct_twoBlocks 1 (by decide)) (by decide)

end Inode

end MicroKernel
