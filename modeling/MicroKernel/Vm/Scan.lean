import MicroKernel.System.While
import MicroKernel.Vm.Load

/-!
# The search for plugins

`load_plugin` finds the plugins on the disk by the magic number of their first sectors: one loop
reads sectors to the start of a buffer until one is an ELF header, a second one reads the following
sectors behind it until the next header.

* `search` : the two loops of one iteration;
* `Buffered` : the buffer holds consecutive sectors of the disk;
* `search_ends`, `search_returns` : where a search ends, and when it does;
* `searches_safe_iff` : when all searches end and read to the buffer only.
-/

namespace MicroKernel

/-! ### Reading sectors -/

/-- `SECTSIZE`. -/
def sectsize : ℕ := 512

/-- `pluginNum`. -/
def pluginNum : ℕ := 2

/-- What the search uses and changes. -/
structure Scan where
  /-- The memory. -/
  ram : Ram
  /-- The global variable, a `u32`. -/
  pluginSector : ℕ
  /-- The number of sectors read, an `int`. -/
  blockSize : ℕ
  /-- `elf.magic`, and `elfTmp.magic` in the second loop. -/
  magic : ℕ
  /-- The arguments `dst` of the calls of `read_sect`. -/
  reads : List ℕ

/-- `read_sect`: the number of the sector has 28 bits for the controller. -/
def readSect (disk : Ram) (dst offset : ℕ) (s : Scan) : Scan where
  ram := s.ram.writeBytes dst sectsize fun i => disk (sectsize * (offset % 2 ^ 28) + i)
  pluginSector := s.pluginSector
  blockSize := s.blockSize
  magic := s.magic
  reads := s.reads ++ [dst]

/-- The loop of `read_seg`.  A `u32` wraps around; a pointer must not. -/
def readSegLoop (disk : Ram) (epa pa offset : ℕ) (s : Scan) : Scan :=
  if pa < epa then
    readSegLoop disk epa (pa + sectsize) ((offset + 1) % 2 ^ 32) (readSect disk pa offset s)
  else s
termination_by epa - pa
decreasing_by
  rw [sectsize]
  omega

/-- `read_seg`. -/
def readSeg (disk : Ram) (pa count offset : ℕ) (s : Scan) : Scan :=
  readSegLoop disk (pa + count) (pa - offset % sectsize) (offset / sectsize + 1) s

/-- `read_seg((u8*)pluginElf + block*512, 512, pluginSector*512)`, and the magic number is read from
`pluginElf + block*128`, where `pluginElf` points to `u32`s. -/
def readBlock (disk : Ram) (pluginElf block : ℕ) (s : Scan) : Scan :=
  let s := readSeg disk (pluginElf + block * 512) 512 (s.pluginSector * 512 % 2 ^ 32) s
  { s with magic := s.ram.readLe (pluginElf + 4 * (block * 128)) 4 }

/-- `pluginSector++`. -/
def Scan.advance (s : Scan) : Scan := { s with pluginSector := (s.pluginSector + 1) % 2 ^ 32 }

/-- `blockSize++`. -/
def Scan.grow (s : Scan) : Scan := { s with blockSize := s.blockSize + 1 }

/-- The body of the loop that looks for a header. -/
def nextHeader (disk : Ram) (pluginElf : ℕ) (s : Scan) : Scan :=
  readBlock disk pluginElf 0 s.advance

/-- The body of the loop that reads the rest. -/
def nextBlock (disk : Ram) (pluginElf : ℕ) (s : Scan) : Scan :=
  readBlock disk pluginElf (s.blockSize + 1) s.advance.grow

/-- The search of one iteration. -/
def search (disk : Ram) (pluginElf fuel : ℕ) (s : Scan) : Option Scan := do
  let s := readBlock disk pluginElf 0 { s with blockSize := 1 }
  let s ← whileLoop (fun s => s.magic ≠ elfMagic) (nextHeader disk pluginElf) fuel s
  let s := readBlock disk pluginElf s.blockSize s.advance
  whileLoop (fun s => s.magic ≠ elfMagic) (nextBlock disk pluginElf) fuel s

/-- The state after the searches of the first iterations, where `rest i` is what the memory becomes
until the search of the iteration `i`. -/
def searches (disk : Ram) (pluginElf : ℕ) (rest : ℕ → Ram → Ram) (ram : Ram) (fuel : ℕ) :
    ℕ → Option Scan
  | 0 => some ⟨ram, 0, 0, 0, []⟩
  | i + 1 => do
    let s ← searches disk pluginElf rest ram fuel i
    search disk pluginElf fuel { s with ram := rest i s.ram }

/-! ### One sector -/

/-- Where the sector is on the disk that is read for a value of `pluginSector`. -/
def sectorAddr (k : ℕ) : ℕ := sectsize * (k % 2 ^ 23 + 1)

/-- The sector that is read for a value of `pluginSector` begins with the magic number. -/
def Header (disk : Ram) (k : ℕ) : Prop := disk.readLe (sectorAddr k) 4 = elfMagic

section Sectors

variable {disk : Ram} {pluginElf p b k m block fuel : ℕ} {s s' : Scan}

theorem readSeg_sector (pa : ℕ) :
    readSeg disk pa 512 (k * 512 % 2 ^ 32) s = readSect disk pa (k % 2 ^ 23 + 1) s := by
  have hoffset : k * 512 % 2 ^ 32 = k % 2 ^ 23 * 512 := Nat.mul_mod_mul_right 512 k (2 ^ 23)
  have hmod : k % 2 ^ 23 * 512 % 512 = 0 := Nat.mul_mod_left _ _
  have hdiv : k % 2 ^ 23 * 512 / 512 = k % 2 ^ 23 := Nat.mul_div_cancel _ (by decide)
  rw [readSeg, hoffset, sectsize, hmod, hdiv, Nat.sub_zero, readSegLoop, if_pos (by omega),
    readSegLoop, if_neg (by rw [sectsize]; omega)]

theorem readBlock_eq : readBlock disk pluginElf block s =
    { ram := s.ram.writeBytes (pluginElf + 512 * block) 512 fun i =>
        disk (sectorAddr s.pluginSector + i)
      pluginSector := s.pluginSector
      blockSize := s.blockSize
      magic := disk.readLe (sectorAddr s.pluginSector) 4
      reads := s.reads ++ [pluginElf + 512 * block] } := by
  have hlba : (s.pluginSector % 2 ^ 23 + 1) % 2 ^ 28 = s.pluginSector % 2 ^ 23 + 1 := by omega
  have hmagic : (s.ram.writeBytes (pluginElf + 512 * block) 512 fun i =>
      disk (sectorAddr s.pluginSector + i)).readLe (pluginElf + 512 * block) 4 =
        disk.readLe (sectorAddr s.pluginSector) 4 :=
    Ram.readLe_eq_of_bytes 4 fun i hi => Ram.writeBytes_add (by omega)
  have hblock : 4 * (block * 128) = 512 * block := by omega
  rw [sectorAddr] at hmagic ⊢
  simp only [readBlock, readSeg_sector, readSect, hlba, hblock, Nat.mul_comm block 512]
  rw [← hmagic]
  rfl

theorem sectorAddr_mod (k : ℕ) : sectorAddr (k % 2 ^ 32) = sectorAddr k := by
  rw [sectorAddr, sectorAddr, Nat.mod_mod_of_dvd k (by decide)]

theorem readBlock_ram_new {i : ℕ} (hi : i < 512) :
    (readBlock disk pluginElf block s).ram (pluginElf + 512 * block + i) =
      disk (sectorAddr s.pluginSector + i) := by
  rw [readBlock_eq]
  dsimp only
  exact Ram.writeBytes_add hi

theorem readBlock_ram_old {i t : ℕ} (ht : t < block) (hi : i < 512) :
    (readBlock disk pluginElf block s).ram (pluginElf + 512 * t + i) =
      s.ram (pluginElf + 512 * t + i) := by
  rw [readBlock_eq]
  dsimp only
  refine Ram.writeBytes_of_not_mem fun hin => ?_
  have hle := hin.1
  omega

theorem readBlock_blockSize : (readBlock disk pluginElf block s).blockSize = s.blockSize := by
  rw [readBlock_eq]

/-! ### Consecutive sectors -/

/-- The buffer holds the sectors from `p` to `p + b`, the variables are those of the last of them,
and `old` are the reads before. -/
structure Buffered (disk : Ram) (pluginElf : ℕ) (old : List ℕ) (p b : ℕ) (s : Scan) : Prop where
  /-- The global variable. -/
  pluginSector : s.pluginSector = (p + b) % 2 ^ 32
  /-- The magic number. -/
  magic : s.magic = disk.readLe (sectorAddr (p + b)) 4
  /-- The bytes. -/
  held : ∀ t ≤ b, ∀ i < 512, s.ram (pluginElf + 512 * t + i) = disk (sectorAddr (p + t) + i)
  /-- The reads. -/
  reads : ∀ dst, dst ∈ s.reads ↔ dst ∈ old ∨ ∃ t ≤ b, dst = pluginElf + 512 * t

variable {old : List ℕ}

theorem Buffered.magic_ne_iff (h : Buffered disk pluginElf old p b s) :
    s.magic ≠ elfMagic ↔ ¬Header disk (p + b) := by
  rw [h.magic, Header]

theorem buffered_first (disk : Ram) (pluginElf : ℕ) (hp : s.pluginSector = p % 2 ^ 32) :
    Buffered disk pluginElf s.reads p 0 (readBlock disk pluginElf 0 s) where
  pluginSector := by rw [readBlock_eq, hp, Nat.add_zero]
  magic := by rw [readBlock_eq, hp, sectorAddr_mod, Nat.add_zero p]
  held := fun t ht i hi => by
    rw [Nat.le_zero.1 ht, readBlock_ram_new hi, hp, sectorAddr_mod, Nat.add_zero]
  reads := fun dst => by simp [readBlock_eq]

theorem Buffered.nextHeader (h : Buffered disk pluginElf old p 0 s) :
    Buffered disk pluginElf old (p + 1) 0 (nextHeader disk pluginElf s) := by
  have hp : s.advance.pluginSector = (p + 1) % 2 ^ 32 := by
    rw [Scan.advance, h.pluginSector, Nat.add_zero, Nat.mod_add_mod]
  have hfirst := buffered_first disk pluginElf hp
  refine ⟨hfirst.pluginSector, hfirst.magic, hfirst.held, fun dst => (hfirst.reads dst).trans ?_⟩
  rw [show s.advance.reads = s.reads from rfl, h.reads, or_assoc, or_self]

theorem Buffered.readBlock (h : Buffered disk pluginElf old p b s)
    (hp : s'.pluginSector = (p + (b + 1)) % 2 ^ 32) (hram : s'.ram = s.ram)
    (hreads : s'.reads = s.reads) :
    Buffered disk pluginElf old p (b + 1) (readBlock disk pluginElf (b + 1) s') where
  pluginSector := by rw [readBlock_eq, hp]
  magic := by rw [readBlock_eq, hp, sectorAddr_mod]
  held := fun t ht i hi => by
    rcases Nat.lt_or_eq_of_le ht with hlt | rfl
    · rw [readBlock_ram_old hlt hi, hram, h.held t (Nat.le_of_lt_succ hlt) i hi]
    · rw [readBlock_ram_new hi, hp, sectorAddr_mod]
  reads := fun dst => by
    rw [readBlock_eq, hreads, List.mem_append, h.reads, List.mem_singleton, or_assoc]
    refine or_congr_right ⟨?_, ?_⟩
    · rintro (⟨t, ht, hdst⟩ | hdst)
      · exact ⟨t, Nat.le_succ_of_le ht, hdst⟩
      · exact ⟨b + 1, le_rfl, hdst⟩
    · rintro ⟨t, ht, hdst⟩
      rcases Nat.lt_or_eq_of_le ht with hlt | rfl
      · exact Or.inl ⟨t, Nat.le_of_lt_succ hlt, hdst⟩
      · exact Or.inr hdst

theorem advance_pluginSector (h : Buffered disk pluginElf old p b s) :
    s.advance.pluginSector = (p + (b + 1)) % 2 ^ 32 := by
  rw [Scan.advance, h.pluginSector, Nat.mod_add_mod, Nat.add_assoc]

theorem Buffered.nextHeader_iterate (h : Buffered disk pluginElf old p 0 s) (j : ℕ) :
    Buffered disk pluginElf old (p + j) 0 ((MicroKernel.nextHeader disk pluginElf)^[j] s) ∧
      ((MicroKernel.nextHeader disk pluginElf)^[j] s).blockSize = s.blockSize := by
  induction j with
  | zero => exact ⟨h, rfl⟩
  | succ j ih =>
    rw [Function.iterate_succ_apply']
    exact ⟨ih.1.nextHeader, readBlock_blockSize.trans ih.2⟩

theorem Buffered.nextBlock_iterate (h : Buffered disk pluginElf old p b s) (hb : s.blockSize = b)
    (j : ℕ) : Buffered disk pluginElf old p (b + j) ((nextBlock disk pluginElf)^[j] s) ∧
      ((nextBlock disk pluginElf)^[j] s).blockSize = b + j := by
  induction j with
  | zero => exact ⟨h, hb⟩
  | succ j ih =>
    rw [Function.iterate_succ_apply', nextBlock, ih.2]
    refine ⟨ih.1.readBlock (advance_pluginSector ih.1) rfl rfl, ?_⟩
    rw [readBlock_blockSize]
    exact congrArg (· + 1) ih.2

/-! ### The search -/

/-- The first loop goes to the first header. -/
theorem nextHeader_loop (h : Buffered disk pluginElf old p 0 s) :
    (∃ n, whileLoop (fun s => s.magic ≠ elfMagic) (nextHeader disk pluginElf) n s = some s') ↔
      ∃ k, FirstFrom (Header disk) p k ∧ (nextHeader disk pluginElf)^[k - p] s = s' :=
  whileLoop_search fun j => (h.nextHeader_iterate j).1.magic_ne_iff

/-- The second loop goes to the next header. -/
theorem nextBlock_loop (h : Buffered disk pluginElf old k 1 s) (hb : s.blockSize = 1) :
    (∃ n, whileLoop (fun s => s.magic ≠ elfMagic) (nextBlock disk pluginElf) n s = some s') ↔
      ∃ m, FirstFrom (Header disk) (k + 1) m ∧ (nextBlock disk pluginElf)^[m - (k + 1)] s = s' :=
  whileLoop_search fun j => by
    rw [Nat.add_assoc]
    exact (h.nextBlock_iterate hb j).1.magic_ne_iff

theorem buffered_start (disk : Ram) (pluginElf : ℕ) (hp : s.pluginSector = p % 2 ^ 32) :
    Buffered disk pluginElf s.reads p 0 (readBlock disk pluginElf 0 { s with blockSize := 1 }) :=
  buffered_first (s := { s with blockSize := 1 }) disk pluginElf hp

/-- What the buffer holds when the first header is found and the sector behind it is read. -/
theorem buffered_header (disk : Ram) (pluginElf : ℕ) (hp : s.pluginSector = p % 2 ^ 32)
    (hk : p ≤ k) :
    let s₁ := (nextHeader disk pluginElf)^[k - p]
      (readBlock disk pluginElf 0 { s with blockSize := 1 })
    Buffered disk pluginElf s.reads k 1 (readBlock disk pluginElf s₁.blockSize s₁.advance) ∧
      (readBlock disk pluginElf s₁.blockSize s₁.advance).blockSize = 1 := by
  intro s₁
  obtain ⟨hs₁, hb⟩ := (buffered_start disk pluginElf hp).nextHeader_iterate (k - p)
  rw [Nat.add_sub_cancel' hk] at hs₁
  have hone : s₁.blockSize = 1 := hb.trans readBlock_blockSize
  rw [hone]
  exact ⟨hs₁.readBlock (advance_pluginSector hs₁) rfl rfl, readBlock_blockSize.trans hone⟩

/-- A search that ends has found a header and the next one, and read all sectors between them. -/
theorem search_ends (hp : s.pluginSector = p % 2 ^ 32)
    (h : search disk pluginElf fuel s = some s') :
    ∃ k m, FirstFrom (Header disk) p k ∧ FirstFrom (Header disk) (k + 1) m ∧
      Buffered disk pluginElf s.reads k (m - k) s' := by
  rw [search, Option.bind_eq_bind, Option.bind_eq_some_iff] at h
  obtain ⟨s₁, hloop, hloop'⟩ := h
  obtain ⟨k, hk, rfl⟩ := (nextHeader_loop (buffered_start disk pluginElf hp)).1 ⟨fuel, hloop⟩
  obtain ⟨hs₂, hb⟩ := buffered_header disk pluginElf hp hk.le
  obtain ⟨m, hm, rfl⟩ := (nextBlock_loop hs₂ hb).1 ⟨fuel, hloop'⟩
  have hlt := hm.le
  have hs' := (hs₂.nextBlock_iterate hb (m - (k + 1))).1
  rw [show 1 + (m - (k + 1)) = m - k by omega] at hs'
  exact ⟨k, m, hk, hm, hs'⟩

/-- A search ends if there are two headers, with the sectors from the first to the second in the
buffer. -/
theorem search_returns (pluginElf : ℕ) (hp : s.pluginSector = p % 2 ^ 32)
    (hk : FirstFrom (Header disk) p k) (hm : FirstFrom (Header disk) (k + 1) m) :
    ∃ fuel s', search disk pluginElf fuel s = some s' ∧
      Buffered disk pluginElf s.reads k (m - k) s' := by
  obtain ⟨n, hloop⟩ := (nextHeader_loop (buffered_start disk pluginElf hp)).2 ⟨k, hk, rfl⟩
  obtain ⟨hs₂, hb⟩ := buffered_header disk pluginElf hp hk.le
  obtain ⟨n', hloop'⟩ := (nextBlock_loop hs₂ hb).2 ⟨m, hm, rfl⟩
  have hsearch : search disk pluginElf (max n n') s = some _ := Option.bind_eq_some_iff.2
    ⟨_, whileLoop_mono (le_max_left n n') hloop, whileLoop_mono (le_max_right n n') hloop'⟩
  obtain ⟨k', m', hk', hm', hbuf⟩ := search_ends hp hsearch
  obtain rfl := hk.unique hk'
  obtain rfl := hm.unique hm'
  exact ⟨_, _, hsearch, hbuf⟩

theorem search_mono {fuel' : ℕ} (hle : fuel ≤ fuel') (h : search disk pluginElf fuel s = some s') :
    search disk pluginElf fuel' s = some s' := by
  rw [search, Option.bind_eq_bind, Option.bind_eq_some_iff] at h ⊢
  obtain ⟨s₁, hloop, hloop'⟩ := h
  exact ⟨s₁, whileLoop_mono hle hloop, whileLoop_mono hle hloop'⟩

end Sectors

/-! ### All disks -/

/-- The 512 bytes at `dst` are in the buffer. -/
def InBuffer (pluginElf dst : ℕ) : Prop :=
  pluginElf ≤ dst ∧ dst + sectsize ≤ pluginElf + bufferSize

/-- From `p` on there is a header, and the next one, at `m`, is at most 127 sectors behind it. -/
def SearchFits (disk : Ram) (p m : ℕ) : Prop :=
  ∃ k, FirstFrom (Header disk) p k ∧ FirstFrom (Header disk) (k + 1) m ∧ m ≤ k + 127

/-- The searches of the first iterations all fit, and the last of them ends at `m`. -/
def SearchesFit (disk : Ram) : ℕ → ℕ → Prop
  | 0, m => m = 0
  | n + 1, m => ∃ p, SearchesFit disk n p ∧ SearchFits disk p m

/-- The first header on the disk and the one behind it are each followed by another one within 127
sectors, where the sector 1 follows the sector `2 ^ 23`. -/
def PluginsFit (disk : Ram) : Prop :=
  ∃ k₀ k₁ k₂, FirstFrom (Header disk) 0 k₀ ∧ FirstFrom (Header disk) (k₀ + 1) k₁ ∧
    FirstFrom (Header disk) (k₁ + 1) k₂ ∧ k₁ ≤ k₀ + 127 ∧ k₂ ≤ k₁ + 127

section Safety

variable {disk : Ram} {pluginElf p b k m n fuel : ℕ} {rest : ℕ → Ram → Ram} {ram : Ram}
  {s s' : Scan} {old : List ℕ}

theorem inBuffer_iff {t : ℕ} : InBuffer pluginElf (pluginElf + 512 * t) ↔ t ≤ 127 := by
  rw [InBuffer, sectsize, show bufferSize = 65536 from rfl]
  omega

/-- The sectors between two headers are read to the buffer if and only if there are few enough. -/
theorem Buffered.reads_inBuffer_iff (h : Buffered disk pluginElf old p b s) :
    (∀ dst ∈ s.reads, InBuffer pluginElf dst) ↔
      (∀ dst ∈ old, InBuffer pluginElf dst) ∧ b ≤ 127 := by
  constructor
  · intro hall
    refine ⟨fun dst hdst => hall dst ((h.reads dst).2 (Or.inl hdst)), ?_⟩
    exact inBuffer_iff.1 (hall _ ((h.reads _).2 (Or.inr ⟨b, le_rfl, rfl⟩)))
  · rintro ⟨hold, hb⟩ dst hdst
    rcases (h.reads dst).1 hdst with hin | ⟨t, ht, rfl⟩
    · exact hold dst hin
    · exact inBuffer_iff.2 (ht.trans hb)

theorem searches_mono {fuel' : ℕ} (hle : fuel ≤ fuel') : ∀ {n : ℕ} {s : Scan},
    searches disk pluginElf rest ram fuel n = some s →
      searches disk pluginElf rest ram fuel' n = some s := by
  intro n
  induction n with
  | zero => exact id
  | succ n ih =>
    intro s h
    rw [searches, Option.bind_eq_bind, Option.bind_eq_some_iff] at h ⊢
    obtain ⟨s₁, hbefore, hsearch⟩ := h
    exact ⟨s₁, ih hbefore, search_mono hle hsearch⟩

theorem searches_succ (h : searches disk pluginElf rest ram fuel n = some s)
    (hsearch : ∃ fuel, search disk pluginElf fuel { s with ram := rest n s.ram } = some s') :
    ∃ fuel, searches disk pluginElf rest ram fuel (n + 1) = some s' := by
  obtain ⟨fuel', hsearch⟩ := hsearch
  exact ⟨max fuel fuel', Option.bind_eq_some_iff.2
    ⟨s, searches_mono (le_max_left fuel fuel') h, search_mono (le_max_right fuel fuel') hsearch⟩⟩

/-- Searches that end fit if they read to the buffer only. -/
theorem searches_ends : ∀ {n : ℕ} {s : Scan}, searches disk pluginElf rest ram fuel n = some s →
    ∃ m, s.pluginSector = m % 2 ^ 32 ∧
      ((∀ dst ∈ s.reads, InBuffer pluginElf dst) → SearchesFit disk n m) := by
  intro n
  induction n with
  | zero =>
    intro s h
    obtain rfl := Option.some_inj.1 h
    exact ⟨0, rfl, fun _ => rfl⟩
  | succ n ih =>
    intro s h
    rw [searches, Option.bind_eq_bind, Option.bind_eq_some_iff] at h
    obtain ⟨s₁, hbefore, hsearch⟩ := h
    obtain ⟨p, hp, hfit⟩ := ih hbefore
    obtain ⟨k, m, hk, hm, hbuf⟩ := search_ends (s := { s₁ with ram := rest n s₁.ram }) hp hsearch
    have hlt := hm.le
    refine ⟨m, ?_, fun hreads => ?_⟩
    · rw [hbuf.pluginSector, Nat.add_sub_cancel' (by omega)]
    · obtain ⟨hold, hb⟩ := hbuf.reads_inBuffer_iff.1 hreads
      exact ⟨p, hfit hold, k, hk, hm, by omega⟩

/-- Searches that fit end, and read to the buffer only. -/
theorem safe_of_searchesFit (pluginElf : ℕ) (rest : ℕ → Ram → Ram) (ram : Ram) :
    ∀ {n m : ℕ}, SearchesFit disk n m → ∃ fuel s,
      searches disk pluginElf rest ram fuel n = some s ∧ s.pluginSector = m % 2 ^ 32 ∧
        ∀ dst ∈ s.reads, InBuffer pluginElf dst := by
  intro n
  induction n with
  | zero =>
    rintro _ rfl
    exact ⟨0, _, rfl, rfl, fun _ hdst => absurd hdst List.not_mem_nil⟩
  | succ n ih =>
    rintro m ⟨p, hbefore, k, hk, hm, hle⟩
    obtain ⟨fuel, s, hs, hp, hreads⟩ := ih hbefore
    obtain ⟨fuel', s', hsearch, hbuf⟩ := search_returns pluginElf
      (s := { s with ram := rest n s.ram }) hp hk hm
    obtain ⟨fuel'', hs'⟩ := searches_succ hs ⟨fuel', hsearch⟩
    have hlt := hm.le
    refine ⟨fuel'', s', hs', ?_, hbuf.reads_inBuffer_iff.2 ⟨hreads, by omega⟩⟩
    rw [hbuf.pluginSector, Nat.add_sub_cancel' (by omega)]

theorem exists_searchesFit_iff : (∃ m, SearchesFit disk pluginNum m) ↔ PluginsFit disk := by
  constructor
  · rintro ⟨k₂, k₁, ⟨_, rfl, k₀, hk₀, hk₁, hle₁⟩, k, hk, hk₂, hle₂⟩
    obtain rfl := hk.unique (.self hk₁.hit_self)
    exact ⟨k₀, k, k₂, hk₀, hk₁, hk₂, hle₁, hle₂⟩
  · rintro ⟨k₀, k₁, k₂, hk₀, hk₁, hk₂, hle₁, hle₂⟩
    exact ⟨k₂, k₁, ⟨0, rfl, k₀, hk₀, hk₁, hle₁⟩, k₁, .self hk₁.hit_self, hk₂, hle₂⟩

/-- Whatever the disk and the memory hold, the searches of all iterations end and read to the buffer
only if and only if the first header and the one behind it are each followed by another one within
127 sectors. -/
theorem searches_safe_iff (disk : Ram) (pluginElf : ℕ) (rest : ℕ → Ram → Ram) (ram : Ram) :
    (∃ fuel s, searches disk pluginElf rest ram fuel pluginNum = some s ∧
      ∀ dst ∈ s.reads, InBuffer pluginElf dst) ↔ PluginsFit disk := by
  rw [← exists_searchesFit_iff]
  constructor
  · rintro ⟨fuel, s, hs, hreads⟩
    obtain ⟨m, -, hfit⟩ := searches_ends hs
    exact ⟨m, hfit hreads⟩
  · rintro ⟨m, hfit⟩
    obtain ⟨fuel, s, hs, -, hreads⟩ := safe_of_searchesFit pluginElf rest ram hfit
    exact ⟨fuel, s, hs, hreads⟩

/-- A disk with one header, in the first sector that is read. -/
def oneFile : Ram := Ram.writeLe (fun _ => 0) sectsize 4 elfMagic

/-- The end of the only file is looked for beyond the end of the buffer. -/
theorem not_searches_safe :
    ¬∀ (disk : Ram) (pluginElf : ℕ) (rest : ℕ → Ram → Ram) (ram : Ram),
      ∃ fuel s, searches disk pluginElf rest ram fuel pluginNum = some s ∧
        ∀ dst ∈ s.reads, InBuffer pluginElf dst := by
  intro hall
  obtain ⟨fuel, s, hs, hreads⟩ := hall oneFile 0xFFFFFFFF806ED000 (fun _ ram => ram) fun _ => 0
  obtain ⟨m, -, hfit⟩ := searches_ends hs
  obtain ⟨k₀, k₁, -, hk₀, hk₁, -, hle, -⟩ := exists_searchesFit_iff.1 ⟨m, hfit hreads⟩
  have hfirst : oneFile.readLe sectsize 4 = elfMagic := Ram.readLe_writeLe (by decide)
  obtain rfl := hk₀.unique (.self hfirst)
  have hzero : oneFile.readLe (sectorAddr k₁) 4 = 0 := by
    have hlow := hk₁.le
    rw [oneFile, Ram.readLe_writeLe_of_disjoint (Or.inr ?_)]
    · exact Ram.readLe_of_bytes 4 (by decide) fun i _ => by simp
    · rw [sectorAddr, sectsize]
      omega
  have hhit : oneFile.readLe (sectorAddr k₁) 4 = elfMagic := hk₁.hit_self
  rw [hzero] at hhit
  exact absurd hhit (by decide)

end Safety

end MicroKernel
