import Mathlib.Algebra.Order.BigOperators.Group.List
import MicroKernel.Vm.Scan

/-!
# The plugins on the disk

The script `movePlugin.py` copies the files of the plugins to the disk image, one behind the other,
and then all of them a second time, so that each of them is followed by the header of another file.

* `moveElf` : one file is copied;
* `movePlugins` : the image;
* `movePlugins_bytes` : where the files are;
* `searches_file` : each search finds the next file.
-/

namespace MicroKernel

/-! ### The script -/

/-- `blockSize` of the script. -/
def fsBlock : ℕ := 512

/-- The disk image and the variable `nblocks`. -/
structure FsImage where
  /-- The first sector that is free. -/
  nblocks : ℕ
  /-- The bytes of `fs.img`, zeros behind its end. -/
  bytes : Ram

/-- The number of sectors of a file, as `move_elf` computes it. -/
def blocknum (size : ℕ) : ℕ := if size % fsBlock ≠ 0 then size / fsBlock + 1 else size / fsBlock

/-- `dd bs=512 seek=seek count=count`: the blocks of a file are copied and the image ends behind
them. -/
def dd (file : List (BitVec 8)) (img : Ram) (seek count : ℕ) : Ram := fun a =>
  if a < fsBlock * seek then img a else (file.take (fsBlock * count)).getD (a - fsBlock * seek) 0

/-- `move_elf`. -/
def moveElf (img : FsImage) (file : List (BitVec 8)) : FsImage :=
  ⟨img.nblocks + blocknum file.length,
    dd file img.bytes img.nblocks (blocknum file.length)⟩

/-- The script, for the files as they are listed, and an image that may be there. -/
def movePlugins (files : List (List (BitVec 8))) (old : Ram) : FsImage :=
  files.foldl moveElf (files.foldl moveElf ⟨1, old⟩)

/-! ### Where the files are -/

/-- The bytes of a file, filled up with zeros. -/
def padded (file : List (BitVec 8)) : Ram := fun a => file.getD a 0

/-- The number of sectors of the first `i` files. -/
def sectorsBefore (files : List (List (BitVec 8))) (i : ℕ) : ℕ :=
  ((files.take i).map fun file => blocknum file.length).sum

section Image

variable {file : List (BitVec 8)} {files : List (List (BitVec 8))} {img : FsImage} {old : Ram}
  {a i : ℕ}

theorem length_le_blocknum (size : ℕ) : size ≤ fsBlock * blocknum size := by
  rw [blocknum, fsBlock]
  split_ifs <;> omega

theorem moveElf_bytes_before (ha : a < fsBlock * img.nblocks) :
    (moveElf img file).bytes a = img.bytes a := if_pos ha

theorem moveElf_bytes (a : ℕ) :
    (moveElf img file).bytes (fsBlock * img.nblocks + a) = padded file a := by
  rw [moveElf]
  dsimp only
  rw [dd, if_neg (Nat.not_lt.2 (Nat.le_add_right _ a)), Nat.add_sub_cancel_left,
    List.take_of_length_le (length_le_blocknum file.length), padded]

theorem foldl_moveElf_nblocks : ∀ {img : FsImage},
    (files.foldl moveElf img).nblocks = img.nblocks + sectorsBefore files files.length := by
  induction files with
  | nil => exact fun {_} => rfl
  | cons file files ih =>
    intro img
    rw [List.foldl_cons, ih, moveElf, sectorsBefore, sectorsBefore, List.take_length,
      List.take_length,
      List.map_cons, List.sum_cons, Nat.add_assoc]

theorem foldl_moveElf_before : ∀ {img : FsImage}, a < fsBlock * img.nblocks →
    (files.foldl moveElf img).bytes a = img.bytes a := by
  induction files with
  | nil => exact fun _ => rfl
  | cons file files ih =>
    intro img ha
    have hle : fsBlock * img.nblocks ≤ fsBlock * (moveElf img file).nblocks :=
      Nat.mul_le_mul_left _ (Nat.le_add_right _ _)
    rw [List.foldl_cons, ih (ha.trans_le hle), moveElf_bytes_before ha]

theorem foldl_moveElf_bytes : ∀ {img : FsImage} {i : ℕ} (hi : i < files.length),
    a < fsBlock * blocknum files[i].length →
      (files.foldl moveElf img).bytes (fsBlock * (img.nblocks + sectorsBefore files i) + a) =
        padded files[i] a := by
  induction files with
  | nil => exact fun hi => absurd hi (Nat.not_lt_zero _)
  | cons file files ih =>
    intro img i hi ha
    rw [List.foldl_cons]
    cases i with
    | zero =>
      have hlt : fsBlock * img.nblocks + a < fsBlock * (moveElf img file).nblocks := by
        rw [moveElf, Nat.mul_add]
        exact Nat.add_lt_add_left ha _
      rw [show sectorsBefore (file :: files) 0 = 0 from rfl, Nat.add_zero, foldl_moveElf_before hlt,
        moveElf_bytes, List.getElem_cons_zero]
    | succ i =>
      have hbefore : img.nblocks + sectorsBefore (file :: files) (i + 1) =
          (moveElf img file).nblocks + sectorsBefore files i := by
        rw [sectorsBefore, List.take_succ_cons, List.map_cons, List.sum_cons, ← Nat.add_assoc]
        rfl
      rw [hbefore]
      exact ih (Nat.lt_of_succ_lt_succ hi) ha

theorem sectorsBefore_succ (hi : i < files.length) :
    sectorsBefore files (i + 1) = sectorsBefore files i + blocknum files[i].length := by
  rw [sectorsBefore, List.take_add_one, List.getElem?_eq_getElem hi, List.map_append,
    List.sum_append]
  rfl

theorem sectorsBefore_mono {j : ℕ} (hij : i ≤ j) : sectorsBefore files i ≤ sectorsBefore files j :=
  ((List.take_sublist_take_left hij).map _).sum_le_sum fun _ _ => Nat.zero_le _

theorem sectorsBefore_append {files' : List (List (BitVec 8))} (hi : i ≤ files.length) :
    sectorsBefore (files ++ files') i = sectorsBefore files i := by
  rw [sectorsBefore, List.take_append_of_le_length hi, sectorsBefore]

/-- The files are copied twice. -/
theorem movePlugins_eq (files : List (List (BitVec 8))) (old : Ram) :
    movePlugins files old = (files ++ files).foldl moveElf ⟨1, old⟩ := (List.foldl_append).symm

/-- The bytes of all copies. -/
theorem movePlugins_bytes (hi : i < (files ++ files).length)
    (ha : a < fsBlock * blocknum (files ++ files)[i].length) :
    (movePlugins files old).bytes (fsBlock * (sectorsBefore (files ++ files) i + 1) + a) =
      padded (files ++ files)[i] a := by
  rw [movePlugins_eq, Nat.add_comm _ 1]
  exact foldl_moveElf_bytes hi ha

end Image

/-! ### The searches -/

/-- A file of 1 to 127 sectors, of which the first and no other begins with the magic number. -/
structure ElfFile (file : List (BitVec 8)) : Prop where
  /-- It is not empty. -/
  one_le : 1 ≤ blocknum file.length
  /-- It fits into the buffer, with one more sector. -/
  le : blocknum file.length ≤ 127
  /-- The magic number. -/
  magic_iff : ∀ j < blocknum file.length, (padded file).readLe (fsBlock * j) 4 = elfMagic ↔ j = 0

/-- A disk with the image at its start. -/
def HoldsImage (disk : Ram) (img : FsImage) : Prop :=
  ∀ a < fsBlock * img.nblocks, disk a = img.bytes a

section Files

variable {disk : Ram} {files : List (List (BitVec 8))} {old : Ram} {pluginElf i j : ℕ} {s : Scan}

theorem HoldsImage.bytes (hdisk : HoldsImage disk (movePlugins files old))
    (hi : i < (files ++ files).length) {a : ℕ}
    (ha : a < fsBlock * blocknum (files ++ files)[i].length) :
    disk (fsBlock * (sectorsBefore (files ++ files) i + 1) + a) = padded (files ++ files)[i] a := by
  rw [hdisk _ ?_, movePlugins_bytes hi ha]
  have hle : sectorsBefore (files ++ files) (i + 1) ≤
      sectorsBefore (files ++ files) (files ++ files).length := sectorsBefore_mono hi
  rw [sectorsBefore_succ hi] at hle
  rw [movePlugins_eq, foldl_moveElf_nblocks]
  rw [fsBlock] at ha ⊢
  dsimp only
  omega

theorem HoldsImage.header_iff (hdisk : HoldsImage disk (movePlugins files old))
    (hi : i < (files ++ files).length) (hfile : ElfFile (files ++ files)[i])
    (hj : j < blocknum (files ++ files)[i].length)
    (hlt : sectorsBefore (files ++ files) i + j < 2 ^ 23) :
    Header disk (sectorsBefore (files ++ files) i + j) ↔ j = 0 := by
  rw [← hfile.magic_iff j hj, Header, Ram.readLe_eq_of_bytes 4 fun t ht => ?_]
  rw [sectorAddr, Nat.mod_eq_of_lt hlt, sectsize,
    ← hdisk.bytes hi (show fsBlock * j + t < _ by rw [fsBlock]; omega), fsBlock]
  congr 1
  omega

theorem HoldsImage.header (hdisk : HoldsImage disk (movePlugins files old))
    (hi : i < (files ++ files).length) (hfile : ElfFile (files ++ files)[i])
    (hlt : sectorsBefore (files ++ files) i < 2 ^ 23) :
    Header disk (sectorsBefore (files ++ files) i) :=
  (hdisk.header_iff (j := 0) hi hfile hfile.one_le hlt).2 rfl

/-- The search for a file ends at the next one, and reads all of it. -/
theorem search_file (hdisk : HoldsImage disk (movePlugins files old))
    (hfiles : ∀ file ∈ files, ElfFile file) (hi : i < files.length)
    (hlt : sectorsBefore files (i + 1) < 2 ^ 23) (pluginElf : ℕ)
    (hp : s.pluginSector = sectorsBefore files i % 2 ^ 32) :
    ∃ fuel s', search disk pluginElf fuel s = some s' ∧
      Buffered disk pluginElf s.reads (sectorsBefore files i) (blocknum files[i].length) s' := by
  have hall : ∀ j (hj : j < (files ++ files).length), ElfFile (files ++ files)[j] := fun j hj =>
    (List.mem_append.1 (List.getElem_mem hj)).elim (hfiles _) (hfiles _)
  have hi₀ : i < (files ++ files).length := by rw [List.length_append]; omega
  have hi₁ : i + 1 < (files ++ files).length := by rw [List.length_append]; omega
  have hget : (files ++ files)[i] = files[i] := List.getElem_append_left hi
  have hbefore : sectorsBefore (files ++ files) i = sectorsBefore files i :=
    sectorsBefore_append hi.le
  have hnext : sectorsBefore (files ++ files) (i + 1) = sectorsBefore files (i + 1) :=
    sectorsBefore_append hi
  have hsucc := sectorsBefore_succ hi
  have hfile := hall i hi₀
  have hk : FirstFrom (Header disk) (sectorsBefore files i) (sectorsBefore files i) := by
    refine .self ?_
    rw [← hbefore]
    exact hdisk.header hi₀ hfile (by omega)
  have hm : FirstFrom (Header disk) (sectorsBefore files i + 1) (sectorsBefore files (i + 1)) := by
    have hone := hfile.one_le
    rw [hget] at hone
    refine .of_not_hit (by omega) ?_ fun x hx hxlt hheader => ?_
    · rw [← hnext]
      exact hdisk.header hi₁ (hall (i + 1) hi₁) (hnext ▸ hlt)
    · -- a sector of the file that is not its first
      obtain ⟨j, rfl⟩ := Nat.exists_eq_add_of_le (Nat.le_of_succ_le hx)
      rw [← hbefore, hdisk.header_iff hi₀ hfile (by rw [hget]; omega) (by omega)] at hheader
      omega
  obtain ⟨fuel, s', hsearch, hbuf⟩ := search_returns pluginElf hp hk hm
  rw [hsucc, Nat.add_sub_cancel_left] at hbuf
  exact ⟨fuel, s', hsearch, hbuf⟩

/-- The searches for the first files. -/
theorem searches_file (hdisk : HoldsImage disk (movePlugins files old))
    (hfiles : ∀ file ∈ files, ElfFile file) (hlt : sectorsBefore files files.length < 2 ^ 23)
    (pluginElf : ℕ) (rest : ℕ → Ram → Ram) (ram : Ram) (hi : i ≤ files.length) :
    ∃ fuel s, searches disk pluginElf rest ram fuel i = some s ∧
      s.pluginSector = sectorsBefore files i % 2 ^ 32 ∧
        ∀ dst ∈ s.reads, InBuffer pluginElf dst := by
  induction i with
  | zero => exact ⟨0, _, rfl, rfl, fun _ hdst => absurd hdst List.not_mem_nil⟩
  | succ i ih =>
    obtain ⟨fuel, s, hs, hp, hreads⟩ := ih (Nat.le_of_succ_le hi)
    obtain ⟨fuel', s', hsearch, hbuf⟩ :=
      search_file (s := { s with ram := rest i s.ram }) hdisk hfiles
      hi ((sectorsBefore_mono hi).trans_lt hlt) pluginElf hp
    obtain ⟨fuel'', hs'⟩ := searches_succ hs ⟨fuel', hsearch⟩
    refine ⟨fuel'', s', hs', ?_, hbuf.reads_inBuffer_iff.2
      ⟨hreads, (hfiles _ (List.getElem_mem hi)).le⟩⟩
    rw [hbuf.pluginSector, sectorsBefore_succ hi]

theorem Buffered.holds_file (hdisk : HoldsImage disk (movePlugins files old))
    (hi : i < files.length)
    (hlt : sectorsBefore files (i + 1) < 2 ^ 23) {old' : List ℕ}
    (h : Buffered disk pluginElf old' (sectorsBefore files i) (blocknum files[i].length) s) {a : ℕ}
    (ha : a < fsBlock * blocknum files[i].length) : s.ram (pluginElf + a) = padded files[i] a := by
  have hi₀ : i < (files ++ files).length := by rw [List.length_append]; omega
  have hget : (files ++ files)[i] = files[i] := List.getElem_append_left hi
  have hbefore : sectorsBefore (files ++ files) i = sectorsBefore files i :=
    sectorsBefore_append hi.le
  have hsucc := sectorsBefore_succ hi
  have hbyte := hdisk.bytes hi₀ (a := a) (by rwa [hget])
  rw [hget, hbefore] at hbyte
  rw [fsBlock] at ha hbyte
  have hsector : sectorAddr (sectorsBefore files i + a / 512) + a % 512 =
      512 * (sectorsBefore files i + 1) + a := by
    rw [sectorAddr, sectsize, Nat.mod_eq_of_lt (by omega)]
    omega
  have hheld := h.held (a / 512) (by omega) (a % 512) (Nat.mod_lt a (by decide))
  rw [hsector, hbyte, Nat.add_assoc, Nat.div_add_mod] at hheld
  exact hheld

/-- The search of each iteration ends with the sectors of the file of that number in the buffer,
complete and in order, and `pluginSector` counts the sectors of all files up to this one, so that
the next sector to be read is the first one of the next file. -/
theorem searches_finds_files (hdisk : HoldsImage disk (movePlugins files old))
    (hfiles : ∀ file ∈ files, ElfFile file) (hnum : pluginNum ≤ files.length)
    (hsize : fsBlock * sectorsBefore files files.length < 2 ^ 32) (pluginElf : ℕ)
    (rest : ℕ → Ram → Ram) (ram : Ram) {i : ℕ} (hi : i < pluginNum) :
    ∃ fuel s, searches disk pluginElf rest ram fuel (i + 1) = some s ∧
      (∀ a < fsBlock * blocknum files[i].length, s.ram (pluginElf + a) = padded files[i] a) ∧
      s.pluginSector = sectorsBefore files (i + 1) ∧ ∀ dst ∈ s.reads, InBuffer pluginElf dst := by
  have hlt : sectorsBefore files files.length < 2 ^ 23 := by rw [fsBlock] at hsize; omega
  have hlen : i < files.length := hi.trans_le hnum
  have hnext : sectorsBefore files (i + 1) < 2 ^ 23 := (sectorsBefore_mono hlen).trans_lt hlt
  obtain ⟨fuel, s, hs, hp, hreads⟩ :=
    searches_file hdisk hfiles hlt pluginElf rest ram hlen.le
  obtain ⟨fuel', s', hsearch, hbuf⟩ :=
    search_file (s := { s with ram := rest i s.ram }) hdisk hfiles
    hlen hnext pluginElf hp
  obtain ⟨fuel'', hs'⟩ := searches_succ hs ⟨fuel', hsearch⟩
  refine ⟨fuel'', s', hs', fun a ha => hbuf.holds_file hdisk hlen hnext ha, ?_,
    hbuf.reads_inBuffer_iff.2 ⟨hreads, (hfiles _ (List.getElem_mem hlen)).le⟩⟩
  rw [hbuf.pluginSector, ← sectorsBefore_succ hlen]
  omega

/-- A file of two sectors, the second of which it does not fill. -/
def twoSectorFile : List (BitVec 8) := [0x7F, 0x45, 0x4C, 0x46] ++ List.replicate 600 1

/-- A file of three sectors. -/
def threeSectorFile : List (BitVec 8) := [0x7F, 0x45, 0x4C, 0x46] ++ List.replicate 1400 2

theorem elfFile_twoSectorFile : ElfFile twoSectorFile :=
  ⟨by decide +kernel, by decide +kernel, by decide +kernel⟩

theorem elfFile_threeSectorFile : ElfFile threeSectorFile :=
  ⟨by decide +kernel, by decide +kernel, by decide +kernel⟩

/-- Two such files: the search for the second one ends behind five sectors, with its last byte in
the buffer. -/
theorem searches_finds_files_sectors : ∃ fuel s,
    searches (movePlugins [twoSectorFile, threeSectorFile] fun _ => 0).bytes 0xFFFFFFFF806ED000
        (fun _ ram => ram) (fun _ => 0) fuel 2 = some s ∧
      s.ram 0xFFFFFFFF806ED000 = 0x7F ∧ s.ram (0xFFFFFFFF806ED000 + 1403) = 2 ∧
      s.pluginSector = 5 := by
  have hdisk : HoldsImage (movePlugins [twoSectorFile, threeSectorFile] fun _ => 0).bytes
      (movePlugins [twoSectorFile, threeSectorFile] fun _ => 0) := fun _ _ => rfl
  have hfiles : ∀ file ∈ [twoSectorFile, threeSectorFile], ElfFile file := by
    simpa using ⟨elfFile_twoSectorFile, elfFile_threeSectorFile⟩
  obtain ⟨fuel, s, hs, hbytes, hp, -⟩ := searches_finds_files hdisk hfiles (by decide)
    (by decide +kernel) 0xFFFFFFFF806ED000 (fun _ ram => ram) (fun _ => 0) (i := 1) (by decide)
  refine ⟨fuel, s, hs, (hbytes 0 (by decide +kernel)).trans (by decide +kernel),
    (hbytes 1403 (by decide +kernel)).trans (by decide +kernel), hp.trans (by decide +kernel)⟩

end Files

end MicroKernel
