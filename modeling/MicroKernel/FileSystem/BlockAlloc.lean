import MicroKernel.Bitmap.Basic
import MicroKernel.FileSystem.Log
import MicroKernel.Pool.Basic

/-!
# Allocation of disk blocks

Which blocks are in use is kept in a bitmap on the disk.

* `SuperBlock.blockAlloc`, `SuperBlock.blockFree` : the functions of the file system;
* `SuperBlock.blockAlloc_eq` : the first block that is not in use is marked and zeroed;
* `SuperBlock.run_refines` : calls in any order act as on a pool of blocks.
-/

namespace MicroKernel

/-! ### Bits of a sector -/

/-- `BPB`. -/
def bpb : ℕ := bsize * 8

/-- `IPB`, with the 64 bytes of a `struct DINode`. -/
def ipb : ℕ := bsize / 64

namespace SectorData

/-- `data[bi/8] |= m`. -/
def mark (d : SectorData) (bi : ℕ) : SectorData := fun i =>
  if i.val = bi / 8 then d i ||| Bitmap.mask 8 bi else d i

/-- `data[bi/8] &= ~m`. -/
def clear (d : SectorData) (bi : ℕ) : SectorData := fun i =>
  if i.val = bi / 8 then d i &&& ~~~Bitmap.mask 8 bi else d i

variable {d : SectorData} {bi : ℕ}

theorem bytes_mark (h : bi < bpb) : (d.mark bi).bytes = Bitmap.mark d.bytes bi := by
  have hbi : bi / 8 < bsize := Nat.div_lt_of_lt_mul (by rwa [Nat.mul_comm])
  funext a
  rw [Bitmap.mark, Function.update_apply]
  split_ifs with ha
  · simp [bytes, mark, ha, hbi]
  · simp [bytes, mark, ha]

theorem bytes_clear (h : bi < bpb) : (d.clear bi).bytes = Bitmap.clear d.bytes bi := by
  have hbi : bi / 8 < bsize := Nat.div_lt_of_lt_mul (by rwa [Nat.mul_comm])
  funext a
  rw [Bitmap.clear, Function.update_apply]
  split_ifs with ha
  · simp [bytes, clear, ha, hbi]
  · simp [bytes, clear, ha]

end SectorData

/-! ### The code -/

/-- The super block, which `read_superblock` copies to a variable that is not declared. -/
structure SuperBlock where
  /-- `size`, which the declaration does not have. -/
  size : ℕ
  /-- `nINodes`. -/
  nINodes : BitVec 16
  /-- The numbers of blocks are in the range of `i32`. -/
  size_le : size + bpb ≤ 2 ^ 31

/-- The blocks as they are in the buffers, and the calls of `log_write`. -/
structure BlockState where
  /-- The contents of the blocks. -/
  blocks : Disk SectorData
  /-- What was logged. -/
  logged : List (Disk.Write SectorData)

namespace BlockState

/-- The buffer of a block is changed, and given to `log_write`. -/
def logWrite (s : BlockState) (bno : ℕ) (d : SectorData) : BlockState :=
  ⟨Function.update s.blocks bno d, s.logged ++ [⟨bno, d⟩]⟩

/-- `block_zero`. -/
def blockZero (s : BlockState) (bno : ℕ) : BlockState := s.logWrite bno fun _ => 0

end BlockState

namespace SuperBlock

open BlockState

variable (sb : SuperBlock)

/-- `BBLOCK(b, nINodes)`. -/
def bBlock (b : ℕ) : ℕ := b / bpb + sb.nINodes.toNat / ipb + 3

/-- The inner loop of `block_alloc`, from `bi` on. -/
def scanBits (b bi : ℕ) (s : BlockState) : Option (ℕ × BlockState) :=
  if _h : bi < bpb ∧ b + bi < sb.size then
    let data := s.blocks (sb.bBlock b)
    if data.bytes (bi / 8) &&& Bitmap.mask 8 bi = 0 then
      let s := s.logWrite (sb.bBlock b) (data.mark bi)
      some (b + bi, s.blockZero (b + bi))
    else scanBits b (bi + 1) s
  else none
termination_by bpb - bi

/-- The outer loop of `block_alloc`, from `b` on. -/
def scanBlocks (b : ℕ) (s : BlockState) : Option (ℕ × BlockState) :=
  if _h : b < sb.size then
    (sb.scanBits b 0 s).or (scanBlocks (b + bpb) s)
  else none
termination_by sb.size - b
decreasing_by
  have : 0 < bpb := by decide
  omega

/-- `block_alloc`, which has no result if no block is free. -/
def blockAlloc (s : BlockState) : Option (ℕ × BlockState) := sb.scanBlocks 0 s

/-- `block_free`.  The check has an empty body. -/
def blockFree (b : ℕ) (s : BlockState) : BlockState :=
  let data := s.blocks (sb.bBlock b)
  s.logWrite (sb.bBlock b) (data.clear (b % bpb))

/-! ### The bitmap on the disk -/

/-- The bit of a block. -/
def used (blocks : Disk SectorData) (b : ℕ) : Bool :=
  Bitmap.bit (blocks (sb.bBlock b)).bytes (b % bpb)

variable {sb : SuperBlock} {s s' : BlockState} {blocks blocks' : Disk SectorData} {b j bi : ℕ}
  {d : SectorData}

theorem bpb_pos : 0 < bpb := by decide

theorem bBlock_eq_iff : sb.bBlock j = sb.bBlock b ↔ j / bpb = b / bpb := by
  unfold bBlock
  omega

theorem used_mark : sb.used (Function.update blocks (sb.bBlock b)
    ((blocks (sb.bBlock b)).mark (b % bpb))) j = (decide (j = b) || sb.used blocks j) := by
  rw [used, used]
  by_cases hblock : sb.bBlock j = sb.bBlock b
  · have hdiv := bBlock_eq_iff.1 hblock
    rw [hblock, Function.update_self, SectorData.bytes_mark (Nat.mod_lt b bpb_pos),
      Bitmap.bit_mark (by decide)]
    simp only [Bitmap.eq_iff (w := bpb) (i := b), hdiv, true_and]
  · have hne : j ≠ b := fun h => hblock (by rw [h])
    rw [Function.update_of_ne hblock, decide_eq_false hne, Bool.false_or]

theorem used_clear : sb.used (Function.update blocks (sb.bBlock b)
    ((blocks (sb.bBlock b)).clear (b % bpb))) j = (!decide (j = b) && sb.used blocks j) := by
  rw [used, used]
  by_cases hblock : sb.bBlock j = sb.bBlock b
  · have hdiv := bBlock_eq_iff.1 hblock
    rw [hblock, Function.update_self, SectorData.bytes_clear (Nat.mod_lt b bpb_pos),
      Bitmap.bit_clear (by decide)]
    simp only [Bitmap.eq_iff (w := bpb) (i := b), hdiv, true_and]
  · have hne : j ≠ b := fun h => hblock (by rw [h])
    rw [Function.update_of_ne hblock, decide_eq_false hne, Bool.not_false, Bool.true_and]

theorem used_update (h : sb.bBlock j ≠ b) : sb.used (Function.update blocks b d) j =
    sb.used blocks j := by
  rw [used, used, Function.update_of_ne h]

/-! ### The loops -/

/-- The state after a block was handed out. -/
def take (sb : SuperBlock) (s : BlockState) (b : ℕ) : BlockState :=
  (s.logWrite (sb.bBlock b) ((s.blocks (sb.bBlock b)).mark (b % bpb))).blockZero b

/-- The inner loop looks at the blocks of one block of the bitmap. -/
theorem scanBits_eq (hb : b % bpb = 0) (n : ℕ) (hn : n = min bpb (sb.size - b) - bi) :
    sb.scanBits b bi s = ((List.range' (b + bi) n).find? fun j => !sb.used s.blocks j).map
      fun j => (j, sb.take s j) := by
  induction n generalizing bi with
  | zero =>
    rw [scanBits, dif_neg (by omega)]
    rfl
  | succ n ih =>
    have hbi : bi < bpb := by omega
    have hmod : (b + bi) % bpb = bi := by
      rw [Nat.add_mod, hb, Nat.zero_add, Nat.mod_mod, Nat.mod_eq_of_lt hbi]
    have hblock : sb.bBlock (b + bi) = sb.bBlock b := by
      refine bBlock_eq_iff.2 ?_
      have hdvd := Nat.dvd_of_mod_eq_zero hb
      rw [Nat.add_div_of_dvd_right hdvd, Nat.div_eq_of_lt hbi, Nat.add_zero]
    have hbit : sb.used s.blocks (b + bi) = Bitmap.bit (s.blocks (sb.bBlock b)).bytes bi := by
      rw [used, hblock, hmod]
    rw [scanBits, dif_pos (by omega), List.range'_succ, List.find?_cons, hbit]
    simp only [Bitmap.and_mask_eq_zero (Nat.succ_pos 7)]
    cases hused : Bitmap.bit (s.blocks (sb.bBlock b)).bytes bi with
    | false => simp [take, hblock, hmod]
    | true => simpa [Nat.add_assoc] using ih (by omega)

theorem range'_split (b m n : ℕ) : List.range' b (n - b) =
    List.range' b (min m (n - b)) ++ List.range' (b + m) (n - (b + m)) := by
  rcases le_total m (n - b) with hle | hle
  · have hsum : n - b = m + (n - (b + m)) := by omega
    rw [min_eq_left hle, List.range'_append_1, ← hsum]
  · rw [min_eq_right hle, Nat.sub_eq_zero_of_le (by omega : n ≤ b + m), List.range'_zero,
      List.append_nil]

/-- The outer loop looks at the blocks from its position on. -/
theorem scanBlocks_eq (hb : b % bpb = 0) : sb.scanBlocks b s =
    ((List.range' b (sb.size - b)).find? fun j => !sb.used s.blocks j).map
      fun j => (j, sb.take s j) := by
  induction hn : sb.size - b using Nat.strong_induction_on generalizing b with
  | _ n ih =>
    subst hn
    rw [scanBlocks]
    split_ifs with h
    · have hpos := bpb_pos
      have hinner : sb.scanBits b 0 s =
          ((List.range' b (min bpb (sb.size - b))).find? fun j => !sb.used s.blocks j).map
            fun j => (j, sb.take s j) := scanBits_eq hb _ (Nat.sub_zero _).symm
      have hnext := ih (sb.size - (b + bpb)) (by omega)
        (by rw [Nat.add_mod_right]; exact hb) rfl
      rw [hinner, hnext]
      rw [range'_split b bpb, List.find?_append, Option.map_or]
    · rw [Nat.sub_eq_zero_of_le (not_lt.1 h)]
      rfl

/-- `block_alloc` takes the first block that is not in use. -/
theorem blockAlloc_eq : sb.blockAlloc s =
    ((List.range sb.size).find? fun j => !sb.used s.blocks j).map fun j => (j, sb.take s j) := by
  rw [blockAlloc, scanBlocks_eq (Nat.zero_mod bpb), Nat.sub_zero, List.range_eq_range']

/-! ### Runs -/

/-- A call, and the block that was returned. -/
abbrev Call := Pool.Event ℕ SectorData

variable (sb) in
/-- A call of `block_alloc`, which returns a block or comes to its end, a call of `block_free`, or a
block that is changed and logged. -/
inductive Step : BlockState → Call → BlockState → Prop where
  | alloc {s s' : BlockState} {b : ℕ} : sb.blockAlloc s = some (b, s') →
      Step s (.alloc (some b)) s'
  | full {s : BlockState} : sb.blockAlloc s = none → Step s (.alloc none) s
  | free {s : BlockState} {b : ℕ} : Step s (.free b) (sb.blockFree b s)
  | write {s : BlockState} {b : ℕ} {d : SectorData} : Step s (.write b d) (s.logWrite b d)

variable (sb) in
/-- The calls in any order. -/
def system : System BlockState Call := ⟨sb.Step⟩

variable (sb) in
/-- The blocks that are handed out: they do not hold the bitmap. -/
structure Places (places : Set ℕ) : Prop where
  /-- The bitmap has bits for them. -/
  lt : ∀ b ∈ places, b < sb.size
  /-- They do not hold the bitmap. -/
  bitmap : ∀ j < sb.size, sb.bBlock j ∉ places

variable (sb) in
/-- The blocks in use are those that are never handed out and those that are held. -/
structure Refines (places : Set ℕ) (p : Pool ℕ SectorData) (blocks : Disk SectorData) : Prop where
  /-- The bitmap. -/
  used : ∀ b < sb.size, sb.used blocks b = true ↔ b ∉ places ∨ b ∈ p.held
  /-- Other blocks are not held. -/
  held : p.held ⊆ places
  /-- The contents. -/
  content : ∀ b ∈ p.held, blocks b = p.content b

variable (sb) in
/-- What is freed or written was handed out. -/
def Proper (places : Set ℕ) (x : System.Step BlockState Call) : Prop :=
  match x.ev with
  | .alloc _ => True
  | .free b => b ∈ places ∧ sb.used x.pre.blocks b = true
  | .write b _ => b ∈ places ∧ sb.used x.pre.blocks b = true

variable {places : Set ℕ} {p : Pool ℕ SectorData} {e : Call}

theorem Refines.mem_held (h : sb.Refines places p blocks) (hl : sb.Places places)
    (hb : b ∈ places ∧ sb.used blocks b = true) : b ∈ p.held :=
  ((h.used b (hl.lt b hb.1)).1 hb.2).resolve_left (not_not.2 hb.1)

theorem Refines.take (h : sb.Refines places p s.blocks) (hl : sb.Places places)
    (hb : b ∈ places) : sb.Refines places
      ⟨insert b p.held, Function.update p.content b fun _ => 0⟩ (sb.take s b).blocks := by
  have hne : ∀ j < sb.size, sb.bBlock j ≠ b := fun j hj heq => hl.bitmap j hj (heq ▸ hb)
  refine ⟨fun j hj => ?_, Set.insert_subset hb h.held, fun c hc => ?_⟩
  · have hbits : sb.used (sb.take s b).blocks j = (decide (j = b) || sb.used s.blocks j) :=
      (used_update (hne j hj)).trans used_mark
    rw [hbits, Bool.or_eq_true, decide_eq_true_eq, h.used j hj, Set.mem_insert_iff, or_left_comm]
  · show Function.update (Function.update s.blocks _ _) b _ c = Function.update p.content b _ c
    by_cases hcb : c = b
    · rw [hcb, Function.update_self, Function.update_self]
    · have hheld := Set.mem_of_mem_insert_of_ne hc hcb
      have hblock : c ≠ sb.bBlock b := fun heq =>
        hl.bitmap b (hl.lt b hb) (heq ▸ h.held hheld)
      rw [Function.update_of_ne hcb, Function.update_of_ne hblock, Function.update_of_ne hcb]
      exact h.content c hheld

theorem Refines.free (h : sb.Refines places p s.blocks) (hl : sb.Places places)
    (hb : b ∈ places) : sb.Refines places ⟨p.held \ {b}, p.content⟩ (sb.blockFree b s).blocks := by
  refine ⟨fun j hj => ?_, Set.sdiff_subset.trans h.held, fun c hc => ?_⟩
  · have hbits : sb.used (sb.blockFree b s).blocks j = (!decide (j = b) && sb.used s.blocks j) :=
      used_clear
    rw [hbits, Bool.and_eq_true, Bool.not_eq_true', decide_eq_false_iff_not, h.used j hj]
    constructor
    · rintro ⟨hjb, hj | hj⟩
      · exact Or.inl hj
      · exact Or.inr ⟨hj, hjb⟩
    · rintro (hj | ⟨hj, hjb⟩)
      · exact ⟨fun heq => hj (heq ▸ hb), Or.inl hj⟩
      · exact ⟨hjb, Or.inr hj⟩
  · have hblock : c ≠ sb.bBlock b := fun heq => hl.bitmap b (hl.lt b hb) (heq ▸ h.held hc.1)
    exact (Function.update_of_ne hblock ..).trans (h.content c hc.1)

theorem Refines.write (h : sb.Refines places p s.blocks) (hl : sb.Places places)
    (hb : b ∈ places) : sb.Refines places ⟨p.held, Function.update p.content b d⟩
      (s.logWrite b d).blocks := by
  refine ⟨fun j hj => ?_, h.held, fun c hc => ?_⟩
  · have hne : sb.bBlock j ≠ b := fun heq => hl.bitmap j hj (heq ▸ hb)
    exact (used_update hne).symm ▸ h.used j hj
  · show Function.update s.blocks b d c = Function.update p.content b d c
    by_cases hcb : c = b
    · rw [hcb, Function.update_self, Function.update_self]
    · rw [Function.update_of_ne hcb, Function.update_of_ne hcb]
      exact h.content c hc

/-- A call acts as on the pool. -/
theorem Refines.step (h : sb.Refines places p s.blocks) (hl : sb.Places places)
    (hstep : sb.Step s e s') (hproper : sb.Proper places ⟨s, e, s'⟩) :
    ∃ p', Pool.Step places (fun _ => 0) p e p' ∧ sb.Refines places p' s'.blocks := by
  cases hstep with
  | alloc halloc =>
    rw [blockAlloc_eq, Option.map_eq_some_iff] at halloc
    obtain ⟨b', hfind, heq⟩ := halloc
    obtain ⟨rfl, rfl⟩ := Prod.mk.inj heq
    obtain ⟨hfree, hmem, hbefore⟩ := List.find?_range_eq_some.1 hfind
    have hlt := List.mem_range.1 hmem
    obtain ⟨hplaces, hheld⟩ : b' ∈ places ∧ b' ∉ p.held := by
      have hnot := mt (h.used b' hlt).2 (by simpa using hfree)
      exact ⟨not_not.1 fun hout => hnot (Or.inl hout), fun hin => hnot (Or.inr hin)⟩
    refine ⟨_, .alloc ⟨⟨hplaces, hheld⟩, fun j hj => ?_⟩, h.take hl hplaces⟩
    refine not_lt.1 fun hjb => ?_
    have hused := (h.used j (hjb.trans hlt)).1 (by simpa using hbefore j hjb)
    exact hused.elim (fun hout => hout hj.1) hj.2
  | full halloc =>
    rw [blockAlloc_eq, Option.map_eq_none_iff] at halloc
    refine ⟨p, .full fun j hj => ?_, h⟩
    have hlt := hl.lt j hj
    have hused := List.find?_eq_none.1 halloc j (List.mem_range.2 hlt)
    exact h.mem_held hl ⟨hj, by simpa using hused⟩
  | free => exact ⟨_, .free (h.mem_held hl hproper), h.free hl hproper.1⟩
  | write => exact ⟨_, .write (h.mem_held hl hproper), h.write hl hproper.1⟩

variable (sb) in
/-- What changed was logged, and is in the bitmap or was handed out. -/
structure Logs (places : Set ℕ) (s s' : BlockState) (ws : List (Disk.Write SectorData)) : Prop where
  /-- The calls of `log_write`. -/
  logged : s'.logged = s.logged ++ ws
  /-- The contents of the blocks. -/
  blocks : s'.blocks = s.blocks.applyAll ws
  /-- The blocks that were logged. -/
  sector : ∀ w ∈ ws, w.sector ∈ places ∨ ∃ j < sb.size, w.sector = sb.bBlock j

theorem Logs.append {s'' : BlockState} {ws ws' : List (Disk.Write SectorData)}
    (h : sb.Logs places s s' ws) (h' : sb.Logs places s' s'' ws') :
    sb.Logs places s s'' (ws ++ ws') := by
  refine ⟨?_, ?_, fun w hw => ?_⟩
  · rw [h'.logged, h.logged, List.append_assoc]
  · rw [h'.blocks, h.blocks, Disk.applyAll_append]
  · exact (List.mem_append.1 hw).elim (h.sector w) (h'.sector w)

theorem logs_logWrite (h : b ∈ places ∨ ∃ j < sb.size, b = sb.bBlock j) :
    sb.Logs places s (s.logWrite b d) [⟨b, d⟩] := by
  refine ⟨rfl, rfl, fun w hw => ?_⟩
  obtain rfl := List.mem_singleton.1 hw
  exact h

/-- A call logs what it changes. -/
theorem Step.logs (hl : sb.Places places) (hstep : sb.Step s e s')
    (hproper : sb.Proper places ⟨s, e, s'⟩)
    (hmarked : ∀ b < sb.size, b ∉ places → sb.used s.blocks b = true) :
    ∃ ws, sb.Logs places s s' ws := by
  cases hstep with
  | alloc halloc =>
    rw [blockAlloc_eq, Option.map_eq_some_iff] at halloc
    obtain ⟨b, hfind, heq⟩ := halloc
    obtain ⟨rfl, rfl⟩ := Prod.mk.inj heq
    obtain ⟨hfree, hmem, -⟩ := List.find?_range_eq_some.1 hfind
    have hlt := List.mem_range.1 hmem
    have hb : b ∈ places := by
      by_contra hout
      simp [hmarked b hlt hout] at hfree
    exact ⟨_, (logs_logWrite (Or.inr ⟨b, hlt, rfl⟩)).append (logs_logWrite (Or.inl hb))⟩
  | full => exact ⟨[], List.append_nil _ |>.symm, rfl, by simp⟩
  | free => exact ⟨_, logs_logWrite (Or.inr ⟨_, hl.lt _ hproper.1, rfl⟩)⟩
  | write => exact ⟨_, logs_logWrite (Or.inl hproper.1)⟩

/-- Calls in any order act as on the pool, and log what they change. -/
theorem Refines.run {tr : List (System.Step BlockState Call)} (h : sb.Refines places p s.blocks)
    (hl : sb.Places places) (hrun : sb.system.Run s tr s')
    (hproper : ∀ x ∈ tr, sb.Proper places x) :
    ∃ tr' p' ws, (Pool.system places fun _ => 0).Run p tr' p' ∧
      tr'.map (·.ev) = tr.map (·.ev) ∧ sb.Refines places p' s'.blocks ∧
        sb.Logs places s s' ws := by
  induction hrun with
  | nil => exact ⟨[], p, [], .nil p, rfl, h, (List.append_nil _).symm, rfl, by simp⟩
  | @snoc s₁ s₂ tr e _ hstep ih =>
    obtain ⟨tr', p', ws, hpool, hev, href, hlogs⟩ :=
      ih fun x hx => hproper x (List.mem_append_left _ hx)
    have hlast := hproper ⟨s₁, e, s₂⟩ (by simp)
    obtain ⟨p'', hstep', href'⟩ := href.step hl hstep hlast
    obtain ⟨ws', hlogs'⟩ := hstep.logs hl hlast fun b hb hout => (href.used b hb).2 (Or.inl hout)
    refine ⟨_, p'', _, hpool.snoc hstep', ?_, href', hlogs.append hlogs'⟩
    rw [List.map_append, List.map_append, hev]
    rfl

variable (sb) in
/-- The pool that a disk describes. -/
def pool (places : Set ℕ) (blocks : Disk SectorData) : Pool ℕ SectorData :=
  ⟨{b ∈ places | sb.used blocks b = true}, blocks⟩

/-- The bitmap describes a pool if the blocks that are never handed out are marked. -/
theorem refines_pool
    (hmarked : ∀ b < sb.size, b ∉ places → sb.used blocks b = true) :
    sb.Refines places (sb.pool places blocks) blocks := by
  refine ⟨fun b hb => ⟨fun hused => ?_, fun h => ?_⟩, fun b hb => hb.1, fun b _ => rfl⟩
  · exact or_iff_not_imp_left.2 fun hin => ⟨not_not.1 hin, hused⟩
  · exact h.elim (hmarked b hb) fun hheld => hheld.2

/-- On a disk on which all blocks are marked that are never to be handed out, calls in any order act
as on the pool of the others, if only blocks that are held are freed and written: the least free
block is handed out, filled with zeros, it keeps what is written until it is freed, and blocks that
are neither in the pool nor in the bitmap are not touched. -/
theorem run_refines {tr : List (System.Step BlockState Call)} (hl : sb.Places places)
    (hmarked : ∀ b < sb.size, b ∉ places → sb.used s.blocks b = true)
    (hrun : sb.system.Run s tr s') (hproper : ∀ x ∈ tr, sb.Proper places x) :
    ∃ tr' p', (Pool.system places fun _ => 0).Run (sb.pool places s.blocks) tr' p' ∧
      tr'.map (·.ev) = tr.map (·.ev) ∧ sb.Refines places p' s'.blocks ∧
        ∀ i ∉ places, (∀ j < sb.size, i ≠ sb.bBlock j) → s'.blocks i = s.blocks i := by
  obtain ⟨tr', p', ws, hpool, hev, href, hlogs⟩ := (refines_pool hmarked).run hl hrun hproper
  refine ⟨tr', p', hpool, hev, href, fun i hi hbitmap => ?_⟩
  rw [hlogs.blocks]
  refine Disk.applyAll_of_not_mem fun w hw heq => ?_
  rcases hlogs.sector w hw with hin | ⟨j, hj, hblock⟩
  · exact hi (heq ▸ hin)
  · exact hbitmap j hj (heq.symm.trans hblock)

/-- A disk of 8 blocks, with the bitmap in block 3. -/
def eightBlocks : SuperBlock := ⟨8, 0, by decide⟩

/-- Blocks 5 and 6 are free. -/
def twoFree : BlockState := ⟨fun i _ => if i = 3 then 0x9F else 0, []⟩

theorem eightBlocks_places : eightBlocks.Places {5, 6} := by
  refine ⟨fun b hb => ?_, fun j hj => ?_⟩
  · rcases hb with rfl | rfl <;> decide
  · have hblock : ∀ j < eightBlocks.size, eightBlocks.bBlock j = 3 := by decide
    rw [hblock j hj]
    decide

theorem twoFree_marked : ∀ b < eightBlocks.size, b ∉ ({5, 6} : Set ℕ) →
    eightBlocks.used twoFree.blocks b = true := by
  have hused : ∀ b < 8, b ≠ 5 → b ≠ 6 → eightBlocks.used twoFree.blocks b = true := by decide
  intro b hb hout
  exact hused b hb (fun h => hout (Or.inl h)) fun h => hout (Or.inr h)

theorem twoFree_run : eightBlocks.system.Run twoFree
    [⟨twoFree, .alloc (some 5), eightBlocks.take twoFree 5⟩] (eightBlocks.take twoFree 5) := by
  refine .single (.alloc ?_)
  rw [blockAlloc_eq]
  have hfind : ((List.range eightBlocks.size).find? fun j =>
      !eightBlocks.used twoFree.blocks j) = some 5 := by decide
  rw [hfind]
  rfl

/-- Block 5 is handed out. -/
theorem run_refines_twoFree :
    ∃ tr' p', (Pool.system {5, 6} fun _ => 0).Run (eightBlocks.pool {5, 6} twoFree.blocks) tr' p' ∧
      tr'.map (·.ev) = [.alloc (some 5)] ∧
        eightBlocks.Refines {5, 6} p' (eightBlocks.take twoFree 5).blocks ∧
          ∀ i ∉ ({5, 6} : Set ℕ), (∀ j < eightBlocks.size, i ≠ eightBlocks.bBlock j) →
            (eightBlocks.take twoFree 5).blocks i = twoFree.blocks i :=
  run_refines eightBlocks_places twoFree_marked twoFree_run (by simp [Proper])

end SuperBlock

end MicroKernel
