import MicroKernel.FileSystem.InodeCache
import Mathlib.Data.Finset.Card
import Mathlib.Data.Fintype.Basic

/-!
# The file table

An open file has a reference to its inode, which is dropped when the file is closed for the last
time.

* `FileTable.fileAlloc`, `FileTable.fileDup`, `FileTable.fileClose` : the functions of the table;
* `FileTable.Sound` : the references to inodes are those of processes and of open files;
* `FileTable.sound_run` : an open file keeps its inode until it is closed.
-/

namespace MicroKernel

namespace FileTable

open InodeCache (Cached oneCached cached_oneCached)
open SuperBlock (eightBlocks)

/-! ### The code -/

/-- The type of a file. -/
inductive FileType where
  /-- `FD_NONE`. -/
  | none
  /-- `FD_PIPE`. -/
  | pipe
  /-- `FD_INODE`. -/
  | inode
  deriving DecidableEq

/-- The fields of `struct File` that these functions use. -/
structure File where
  /-- `type`. -/
  type : FileType
  /-- `refCount`. -/
  refCount : BitVec 32
  /-- `ip`. -/
  ip : InodeCache.Ptr

/-- The file is for an inode. -/
def File.attach (i : InodeCache.Ptr) (x : File) : File := { x with type := .inode, ip := i }

/-- The file is not used. -/
def File.reset (x : File) : File := { x with refCount := 0, type := .none }

-- `NFILE` is not defined
variable {nFile : ℕ}

/-- The file table, and the inode cache. -/
structure State (nFile : ℕ) where
  /-- `fTable.file`. -/
  file : Fin nFile → File
  /-- The references to files. -/
  handles : List (Fin nFile)
  /-- The inode cache. -/
  cache : InodeCache.State
  /-- The references to inodes that processes hold. -/
  owned : List InodeCache.Ptr

/-- Change a file. -/
def State.modify (s : State nFile) (f : Fin nFile) (g : File → File) : State nFile :=
  { s with file := Function.update s.file f (g (s.file f)) }

/-- The references to files after a call. -/
def State.setHandles (s : State nFile) (handles : List (Fin nFile)) : State nFile :=
  { s with handles := handles }

/-- The inode cache and the references of processes to inodes after a call. -/
def State.setCache (s : State nFile) (cache : InodeCache.State) (owned : List InodeCache.Ptr) :
    State nFile :=
  { s with cache := cache, owned := owned }

/-- The loop of `file_alloc`. -/
def allocLoop (s : State nFile) : List (Fin nFile) → Option (Fin nFile × State nFile)
  | [] => none
  | f :: fs =>
    if (s.file f).refCount = 0 then some (f, s.modify f fun x => { x with refCount := 1 })
    else allocLoop s fs

/-- `file_alloc`. -/
def fileAlloc (s : State nFile) : Option (Fin nFile × State nFile) :=
  allocLoop s (List.finRange nFile)

/-- `file_dup`.  The panic has an empty body. -/
def fileDup (f : Fin nFile) (s : State nFile) : State nFile :=
  s.modify f fun x => { x with refCount := x.refCount + 1 }

/-- `inode_put`, which takes a reference away. -/
def putRef (sb : SuperBlock) (i : InodeCache.Ptr) (c : InodeCache.State) : InodeCache.State :=
  (InodeCache.inodePut sb i c).setRefs (c.refs.erase i)

/-- `file_close`.  The panic has an empty body, and so has the case of a pipe. -/
def fileClose (sb : SuperBlock) (f : Fin nFile) (s : State nFile) : State nFile :=
  let s := s.modify f fun x => { x with refCount := x.refCount - 1 }
  if 0 < (s.file f).refCount.toInt then s
  else
    let ff := s.file f
    let s := s.modify f File.reset
    if ff.type = .inode then s.setCache (putRef sb ff.ip s.cache) s.owned else s

/-! ### Runs -/

/-- A call on a file or on an inode. -/
inductive Event (nFile : ℕ) where
  /-- `file_alloc()`, which returned `r`. -/
  | alloc (r : Option (Fin nFile))
  /-- A file is opened for an inode. -/
  | attach (f : Fin nFile) (i : InodeCache.Ptr)
  /-- `file_dup(f)`. -/
  | dup (f : Fin nFile)
  /-- `file_close(f)`. -/
  | close (f : Fin nFile)
  /-- A call on inodes by a process. -/
  | inode (e : InodeCache.Event)

/-- The references of processes to inodes after a call, if they have those that the call needs. -/
def ownedAfter (owned : List InodeCache.Ptr) : InodeCache.Event → Option (List InodeCache.Ptr)
  | .get _ _ r => some (r.toList ++ owned)
  | .dup i => if i ∈ owned then some (i :: owned) else none
  | .put i => if i ∈ owned then some (owned.erase i) else none
  | .change .. => some owned

/-- A call, for a reference that is held. -/
inductive Step (sb : SuperBlock) : State nFile → Event nFile → State nFile → Prop where
  | alloc {s s' : State nFile} {f : Fin nFile} : fileAlloc s = some (f, s') →
      Step sb s (.alloc (some f)) (s'.setHandles (f :: s.handles))
  | full {s : State nFile} : fileAlloc s = none → Step sb s (.alloc none) s
  | attach {s : State nFile} {f : Fin nFile} {i : InodeCache.Ptr} : f ∈ s.handles →
      (s.file f).type ≠ .inode → i ∈ s.owned →
        Step sb s (.attach f i)
          ((s.modify f (File.attach i)).setCache s.cache
            (s.owned.erase i))
  | dup {s : State nFile} {f : Fin nFile} : f ∈ s.handles →
      Step sb s (.dup f) ((fileDup f s).setHandles (f :: s.handles))
  | close {s : State nFile} {f : Fin nFile} : f ∈ s.handles →
      Step sb s (.close f) ((fileClose sb f s).setHandles (s.handles.erase f))
  | inode {s : State nFile} {e : InodeCache.Event} {c : InodeCache.State}
      {owned : List InodeCache.Ptr} : InodeCache.Step sb s.cache e c →
        ownedAfter s.owned e = some owned →
          Step sb s (.inode e) (s.setCache c owned)

/-- The calls in any order. -/
def system (nFile : ℕ) (sb : SuperBlock) : System (State nFile) (Event nFile) := ⟨Step sb⟩

/-- The files that are open for an inode. -/
def openFor (s : State nFile) (i : InodeCache.Ptr) : Finset (Fin nFile) :=
  Finset.univ.filter fun f => (s.file f).type = .inode ∧ (s.file f).ip = i

/-- The counts are those of the references, and the references to inodes are those of processes and
of open files. -/
structure Sound (s : State nFile) : Prop where
  /-- The counts of the files. -/
  counted : RefCount.Counted (fun f => (s.file f).refCount) s.handles
  /-- A file that is not open has no inode. -/
  closed : ∀ f ∉ s.handles, (s.file f).type ≠ .inode
  /-- The inode cache. -/
  cached : Cached s.cache
  /-- The references to inodes. -/
  refs : ∀ i, s.cache.refs.count i = s.owned.count i + (openFor s i).card

/-- An open file keeps its inode, and the inode keeps its entry, until the last reference to the
file is closed; a file that is handed out is not open, and all files are open if none is. -/
def Kept (x : System.Step (State nFile) (Event nFile)) : Prop :=
  (∀ f, (x.pre.file f).type = .inode →
    (x.pre.file f).ip ∈ x.pre.cache.refs ∧
      ((x.post.file f).type = .inode ∧ (x.post.file f).ip = (x.pre.file f).ip ∧
          (x.post.cache.iNode (x.pre.file f).ip).key =
            (x.pre.cache.iNode (x.pre.file f).ip).key ∨
        x.ev = .close f ∧ x.pre.handles.count f = 1)) ∧
    match x.ev with
    | .alloc (some f) => f ∉ x.pre.handles
    | .alloc none => ∀ f, f ∈ x.pre.handles
    | _ => True

/-- The counts do not overflow. -/
def Few (x : System.Step (State nFile) (Event nFile)) : Prop :=
  2 * x.pre.handles.length < 2 ^ 32 ∧ 2 * x.pre.cache.refs.length < 2 ^ 32

/-! ### What the functions do -/

variable {sb : SuperBlock} {s s' : State nFile} {f g : Fin nFile} {i j : InodeCache.Ptr}

@[simp] theorem modify_self (u : File → File) : (s.modify f u).file f = u (s.file f) :=
  Function.update_self ..

theorem modify_of_ne (u : File → File) (h : g ≠ f) : (s.modify f u).file g = s.file g :=
  Function.update_of_ne h ..

theorem counts_modify (u : File → File) : (fun g => ((s.modify f u).file g).refCount) =
    Function.update (fun g => (s.file g).refCount) f (u (s.file f)).refCount := by
  funext g
  rw [Function.update_apply]
  by_cases hg : g = f
  · rw [if_pos hg, hg, modify_self]
  · rw [if_neg hg, modify_of_ne _ hg]

theorem modify_same {u : File → File} (hu : ∀ x, (u x).type = x.type ∧ (u x).ip = x.ip) :
    ((s.modify f u).file g).type = (s.file g).type ∧
      ((s.modify f u).file g).ip = (s.file g).ip := by
  by_cases hg : g = f
  · rw [hg, modify_self]
    exact hu _
  · rw [modify_of_ne _ hg]
    exact ⟨rfl, rfl⟩

theorem mem_openFor : f ∈ openFor s i ↔ (s.file f).type = .inode ∧ (s.file f).ip = i := by
  simp [openFor]

theorem openFor_congr (h : ∀ g, (s'.file g).type = (s.file g).type ∧
    (s'.file g).ip = (s.file g).ip) : openFor s' i = openFor s i := by
  ext g
  rw [mem_openFor, mem_openFor, (h g).1, (h g).2]

theorem allocLoop_eq (fs : List (Fin nFile)) : allocLoop s fs =
    (fs.find? fun f => (s.file f).refCount = 0).map fun f =>
      (f, s.modify f fun x => { x with refCount := 1 }) := by
  induction fs with
  | nil => rfl
  | cons f fs ih =>
    rw [allocLoop, List.find?_cons]
    by_cases hfree : (s.file f).refCount = 0
    · rw [if_pos hfree, decide_eq_true hfree]
      rfl
    · rw [if_neg hfree, decide_eq_false hfree, ih]

theorem card_openFor_attach (hf : (s.file f).type ≠ .inode) :
    (openFor (s.modify f (File.attach i)) j).card =
      (openFor s j).card + if j = i then 1 else 0 := by
  have hnot : f ∉ openFor s j := fun hmem => hf (mem_openFor.1 hmem).1
  split_ifs with hj
  · rw [← Finset.card_insert_of_notMem hnot]
    refine congrArg Finset.card (Finset.ext fun g => ?_)
    rw [Finset.mem_insert, mem_openFor, mem_openFor]
    by_cases hg : g = f
    · rw [hg, modify_self]
      simp [File.attach, hj]
    · rw [modify_of_ne _ hg]
      simp [hg]
  · rw [Nat.add_zero]
    refine congrArg Finset.card (Finset.ext fun g => ?_)
    rw [mem_openFor, mem_openFor]
    by_cases hg : g = f
    · rw [hg, modify_self]
      simp [File.attach, hf, Ne.symm hj]
    · rw [modify_of_ne _ hg]

theorem card_openFor_close {u : File → File} (hu : (u (s.file f)).type ≠ .inode) :
    (openFor (s.modify f u) j).card +
        (if (s.file f).type = .inode ∧ (s.file f).ip = j then 1 else 0) =
      (openFor s j).card := by
  have hother : ∀ g, g ≠ f → (g ∈ openFor (s.modify f u) j ↔ g ∈ openFor s j) := by
    intro g hg
    rw [mem_openFor, mem_openFor, modify_of_ne _ hg]
  have hnot : f ∉ openFor (s.modify f u) j := by
    rw [mem_openFor, modify_self]
    exact fun h => hu h.1
  split_ifs with hopen
  · rw [← Finset.card_insert_of_notMem hnot]
    refine congrArg Finset.card (Finset.ext fun g => ?_)
    rw [Finset.mem_insert]
    by_cases hg : g = f
    · rw [hg]
      exact iff_of_true (Or.inl rfl) (mem_openFor.2 hopen)
    · rw [hother g hg]
      exact or_iff_right hg
  · rw [Nat.add_zero]
    refine congrArg Finset.card (Finset.ext fun g => ?_)
    by_cases hg : g = f
    · rw [hg]
      exact iff_of_false hnot fun hmem => hopen (mem_openFor.1 hmem)
    · exact hother g hg

theorem count_erase_add {α : Type*} [DecidableEq α] {l l' : List α} {n : ℕ} {a b : α}
    (hmem : a ∈ l') (h : l.count b = l'.count b + n) :
    (l.erase a).count b = (l'.erase a).count b + n := by
  by_cases hb : b = a
  · have hpos := List.count_pos_iff.2 hmem
    subst hb
    rw [List.count_erase_self, List.count_erase_self]
    omega
  · rw [List.count_erase_of_ne hb, List.count_erase_of_ne hb, h]

/-- A call on inodes changes the references of processes only. -/
theorem count_refs_inode {c c' : InodeCache.State} {e : InodeCache.Event}
    {owned owned' : List InodeCache.Ptr} {n : InodeCache.Ptr → ℕ}
    (hstep : InodeCache.Step sb c e c') (howned : ownedAfter owned e = some owned')
    (h : ∀ i, c.refs.count i = owned.count i + n i) (j : InodeCache.Ptr) :
    c'.refs.count j = owned'.count j + n j := by
  cases hstep with
  | @get _ _ _ i _ =>
    obtain rfl := Option.some.inj howned
    show (i :: c.refs).count j = (i :: owned).count j + n j
    rw [List.count_cons, List.count_cons, h j]
    omega
  | full =>
    obtain rfl := Option.some.inj howned
    exact h j
  | @dup i _ =>
    rw [ownedAfter, Option.ite_none_right_eq_some] at howned
    obtain rfl := Option.some.inj howned.2
    show (i :: c.refs).count j = (i :: owned).count j + n j
    rw [List.count_cons, List.count_cons, h j]
    omega
  | put _ =>
    rw [ownedAfter, Option.ite_none_right_eq_some] at howned
    obtain rfl := Option.some.inj howned.2
    exact count_erase_add howned.1 (h j)
  | change _ =>
    obtain rfl := Option.some.inj howned
    exact h j

/-! ### Steps -/

theorem key_putRef : ((putRef sb i s.cache).iNode j).key = (s.cache.iNode j).key :=
  InodeCache.key_inodePut

section Steps

variable {e : Event nFile} (h : Sound s)
include h

theorem Sound.ip_mem (hf : (s.file f).type = .inode) : (s.file f).ip ∈ s.cache.refs := by
  have hcard : 0 < (openFor s (s.file f).ip).card :=
    Finset.card_pos.2 ⟨f, mem_openFor.2 ⟨hf, rfl⟩⟩
  refine List.count_pos_iff.1 ?_
  rw [h.refs]
  omega

theorem Sound.recount {u : File → File} {handles : List (Fin nFile)}
    (hu : ∀ x, (u x).type = x.type ∧ (u x).ip = x.ip)
    (hcounted : RefCount.Counted (fun g => ((s.modify f u).file g).refCount) handles)
    (hopen : ∀ g ∈ s.handles, g ∈ handles) : Sound ((s.modify f u).setHandles handles) := by
  refine ⟨hcounted, fun g hg => ?_, h.cached, fun i => ?_⟩
  · show ((s.modify f u).file g).type ≠ .inode
    rw [(modify_same hu).1]
    exact h.closed g fun hmem => hg (hopen g hmem)
  · have hopenFor : openFor ((s.modify f u).setHandles handles) i = openFor s i :=
      openFor_congr fun g => modify_same hu
    rw [hopenFor]
    exact h.refs i

theorem Sound.attach (hf : f ∈ s.handles) (htype : (s.file f).type ≠ .inode) (hi : i ∈ s.owned) :
    Sound ((s.modify f (File.attach i)).setCache s.cache
      (s.owned.erase i)) := by
  refine ⟨?_, fun g hg => ?_, h.cached, fun j => ?_⟩
  · have hcounts := counts_modify (s := s) (f := f) (File.attach i)
    rw [File.attach, Function.update_eq_self] at hcounts
    show RefCount.Counted (fun g => ((s.modify f (File.attach i)).file g).refCount) s.handles
    rw [hcounts]
    exact h.counted
  · have hne : g ≠ f := fun heq => hg (heq ▸ hf)
    show ((s.modify f (File.attach i)).file g).type ≠ .inode
    rw [modify_of_ne _ hne]
    exact h.closed g hg
  · have hcard := card_openFor_attach (i := i) (j := j) htype
    show s.cache.refs.count j = (s.owned.erase i).count j +
      (openFor (s.modify f (File.attach i)) j).card
    have hrefs := h.refs j
    rw [hcard]
    by_cases hj : j = i
    · have hpos := List.count_pos_iff.2 hi
      subst hj
      rw [if_pos rfl, List.count_erase_self]
      omega
    · rw [if_neg hj, List.count_erase_of_ne hj]
      omega

variable (hfew : 2 * s.handles.length < 2 ^ 32)
include hfew

theorem Sound.fileAlloc_some (halloc : fileAlloc s = some (f, s')) :
    f ∉ s.handles ∧ s' = s.modify f fun x => { x with refCount := 1 } := by
  rw [fileAlloc, allocLoop_eq, Option.map_eq_some_iff] at halloc
  obtain ⟨g, hfind, heq⟩ := halloc
  obtain ⟨rfl, rfl⟩ := Prod.mk.inj heq
  have hzero : (s.file g).refCount = 0 := by simpa using List.find?_some hfind
  exact ⟨(h.counted.eq_zero_iff (by omega)).1 hzero, rfl⟩

theorem Sound.fileAlloc_none (halloc : fileAlloc s = none) (f : Fin nFile) : f ∈ s.handles := by
  rw [fileAlloc, allocLoop_eq, Option.map_eq_none_iff] at halloc
  have hnot := List.find?_eq_none.1 halloc f (List.mem_finRange f)
  by_contra hout
  exact hnot (decide_eq_true ((h.counted.eq_zero_iff (by omega)).2 hout))

variable (sb) in
theorem Sound.fileClose_eq (hf : f ∈ s.handles) :
    (f ∈ s.handles.erase f ∧
        fileClose sb f s = s.modify f fun x => { x with refCount := x.refCount - 1 }) ∨
      (f ∉ s.handles.erase f ∧ fileClose sb f s =
        if (s.file f).type = .inode then
          (s.modify f File.reset).setCache
            (putRef sb (s.file f).ip s.cache) s.owned
        else s.modify f File.reset) := by
  have hcounted : RefCount.Counted
      (fun g => ((s.modify f fun x => { x with refCount := x.refCount - 1 }).file g).refCount)
      (s.handles.erase f) := by
    rw [counts_modify]
    exact h.counted.erase hf
  have hlen : (s.handles.erase f).length ≤ s.handles.length := List.length_erase_le
  have hpos := hcounted.toInt_pos_iff (i := f) (by omega)
  by_cases hmem : f ∈ s.handles.erase f
  · exact Or.inl ⟨hmem, if_pos (hpos.2 hmem)⟩
  · refine Or.inr ⟨hmem, ?_⟩
    rw [fileClose, if_neg fun hgt => hmem (hpos.1 hgt)]
    simp only [State.modify, Function.update_self, Function.update_idem, State.setCache, File.reset]

theorem Sound.reset (hf : f ∈ s.handles) (hlast : f ∉ s.handles.erase f)
    {cache : InodeCache.State} (hcached : Cached cache)
    (hcache : ∀ j, cache.refs.count j +
      (if (s.file f).type = .inode ∧ (s.file f).ip = j then 1 else 0) = s.cache.refs.count j) :
    Sound (((s.modify f File.reset).setCache cache s.owned).setHandles (s.handles.erase f)) := by
  have hcount : (s.file f).refCount - 1 = 0 := by
    have hcounted := h.counted.erase hf
    have hlen : (s.handles.erase f).length ≤ s.handles.length := List.length_erase_le
    have hzero := (hcounted.eq_zero_iff (i := f) (by omega)).2 hlast
    rwa [Function.update_self] at hzero
  refine ⟨?_, fun g hg => ?_, hcached, fun j => ?_⟩
  · show RefCount.Counted (fun g => ((s.modify f File.reset).file g).refCount) (s.handles.erase f)
    have hcounted := h.counted.erase hf
    rw [hcount] at hcounted
    rw [counts_modify]
    exact hcounted
  · show ((s.modify f File.reset).file g).type ≠ .inode
    by_cases hgf : g = f
    · rw [hgf, modify_self]
      exact FileType.noConfusion
    · rw [modify_of_ne _ hgf]
      exact h.closed g fun hmem => hg ((List.mem_erase_of_ne hgf).2 hmem)
  · show cache.refs.count j = s.owned.count j + (openFor (s.modify f File.reset) j).card
    have hcard := card_openFor_close (s := s) (f := f) (j := j) (u := File.reset)
      FileType.noConfusion
    have hsum := hcache j
    have hrefs := h.refs j
    omega

variable (hcache : 2 * s.cache.refs.length < 2 ^ 32)
include hcache

/-- The invariant is kept. -/
theorem Sound.step (hstep : Step sb s e s') : Sound s' := by
  cases hstep with
  | @alloc _ f halloc =>
    obtain ⟨hf, rfl⟩ := h.fileAlloc_some hfew halloc
    refine h.recount (fun _ => ⟨rfl, rfl⟩) ?_ fun g hg => List.mem_cons_of_mem _ hg
    have hzero := (h.counted.eq_zero_iff (by omega)).2 hf
    have hcons := h.counted.cons (i := f)
    rw [hzero] at hcons
    rw [counts_modify]
    exact hcons
  | full => exact h
  | attach hf htype hi => exact h.attach hf htype hi
  | dup hf =>
    refine h.recount (fun _ => ⟨rfl, rfl⟩) ?_ fun g hg => List.mem_cons_of_mem _ hg
    rw [counts_modify]
    exact h.counted.cons
  | @close f hf =>
    rcases h.fileClose_eq sb hfew hf with ⟨hmore, heq⟩ | ⟨hlast, heq⟩
    · rw [heq]
      refine h.recount (fun _ => ⟨rfl, rfl⟩) ?_ fun g hg => ?_
      · rw [counts_modify]
        exact h.counted.erase hf
      · by_cases hgf : g = f
        · exact hgf ▸ hmore
        · exact (List.mem_erase_of_ne hgf).2 hg
    · rw [heq]
      split_ifs with hinode
      · have hip := h.ip_mem hinode
        refine h.reset hfew hf hlast (h.cached.inodePut hip) fun j => ?_
        show (s.cache.refs.erase (s.file f).ip).count j + _ = _
        by_cases hj : (s.file f).ip = j
        · have hpos := List.count_pos_iff.2 hip
          rw [if_pos ⟨hinode, hj⟩, ← hj, List.count_erase_self]
          omega
        · rw [if_neg fun hand => hj hand.2, List.count_erase_of_ne (Ne.symm hj), Nat.add_zero]
      · refine h.reset hfew hf hlast h.cached fun j => ?_
        rw [if_neg fun hand => hinode hand.1, Nat.add_zero]
  | inode hstep howned =>
    exact ⟨h.counted, h.closed, h.cached.step hcache hstep, count_refs_inode hstep howned h.refs⟩

theorem Sound.kept (hstep : Step sb s e s') : Kept ⟨s, e, s'⟩ := by
  refine ⟨fun f hf => ⟨h.ip_mem hf, ?_⟩, ?_⟩
  · dsimp only at hf ⊢
    have hopen : f ∈ s.handles := by
      by_contra hout
      exact h.closed f hout hf
    cases hstep with
    | @alloc _ g halloc =>
      obtain ⟨hg, rfl⟩ := h.fileAlloc_some hfew halloc
      have hne : f ≠ g := fun heq => hg (heq ▸ hopen)
      have hfile := modify_of_ne (s := s) (fun x => { x with refCount := 1 }) hne
      exact Or.inl ⟨(congrArg File.type hfile).trans hf, congrArg File.ip hfile, rfl⟩
    | full => exact Or.inl ⟨hf, rfl, rfl⟩
    | @attach g i hg htype hi =>
      have hne : f ≠ g := fun heq => htype (heq ▸ hf)
      have hfile := modify_of_ne (s := s) (File.attach i) hne
      exact Or.inl ⟨(congrArg File.type hfile).trans hf, congrArg File.ip hfile, rfl⟩
    | @dup g hg =>
      obtain ⟨htype, hip⟩ := modify_same (s := s) (f := g) (g := f)
        (u := fun x => { x with refCount := x.refCount + 1 }) fun _ => ⟨rfl, rfl⟩
      exact Or.inl ⟨htype.trans hf, hip, rfl⟩
    | @close g hg =>
      rcases h.fileClose_eq sb hfew hg with ⟨hmore, heq⟩ | ⟨hlast, heq⟩
      · obtain ⟨htype, hip⟩ := modify_same (s := s) (f := g) (g := f)
          (u := fun x => { x with refCount := x.refCount - 1 }) fun _ => ⟨rfl, rfl⟩
        rw [heq]
        exact Or.inl ⟨htype.trans hf, hip, rfl⟩
      · by_cases hfg : f = g
        · subst hfg
          have hpos := List.count_pos_iff.2 hopen
          have hzero := List.count_eq_zero.2 hlast
          rw [List.count_erase_self] at hzero
          exact Or.inr ⟨rfl, by omega⟩
        · have hfile := modify_of_ne (s := s) File.reset hfg
          rw [heq]
          split_ifs with hinode
          · exact Or.inl ⟨(congrArg File.type hfile).trans hf, congrArg File.ip hfile, key_putRef⟩
          · exact Or.inl ⟨(congrArg File.type hfile).trans hf, congrArg File.ip hfile, rfl⟩
    | inode hstep howned =>
      have hserved := h.cached.served hcache hstep
      exact Or.inl ⟨hf, rfl, hserved.1 _ (h.ip_mem hf)⟩
  · cases hstep with
    | alloc halloc => exact (h.fileAlloc_some hfew halloc).1
    | full halloc => exact h.fileAlloc_none hfew halloc
    | attach => trivial
    | dup => trivial
    | close => trivial
    | inode => trivial

end Steps

/-- Over any run in which files and inodes are released only by those who hold them, and in which
fewer than 2^31 references are held at a time: the inode of an open file is referenced, and its
entry is not given to another inode until the last reference to the file is closed; a file that is
handed out is not open, and if none is handed out all are open; the references to inodes are those
of processes and one for each open file. -/
theorem sound_run {tr : List (System.Step (State nFile) (Event nFile))} (h : Sound s)
    (hrun : (system nFile sb).Run s tr s') (hfew : ∀ x ∈ tr, Few x) :
    Sound s' ∧ ∀ x ∈ tr, Kept x := by
  have hinv := hrun.invariant (I := Sound) (C := Few) h
    (fun x hstep hx hpre => hpre.step hx.1 hx.2 hstep) hfew
  refine ⟨hinv.1, fun x hx => ?_⟩
  exact (hinv.2 x hx).1.kept (hfew x hx).1 (hfew x hx).2 (hrun.step_of_mem x hx)

/-- Two files that are not open, and a process with a reference to an inode. -/
def twoFiles : State 2 where
  file _ := ⟨.none, 0, 0⟩
  handles := []
  cache := oneCached
  owned := [0]

/-- A file was handed out. -/
def allocated : State 2 := (twoFiles.modify 0 fun x => { x with refCount := 1 }).setHandles [0]

/-- It was opened for the inode. -/
def attached : State 2 := (allocated.modify 0 (File.attach 0)).setCache oneCached []

/-- It was closed. -/
def closed : State 2 := (fileClose eightBlocks 0 attached).setHandles []

theorem sound_twoFiles : Sound twoFiles := by
  refine ⟨fun _ => rfl, fun _ _ => FileType.noConfusion, cached_oneCached, fun i => ?_⟩
  have hnone : openFor twoFiles i = ∅ := by simp [openFor, twoFiles]
  rw [hnone]
  rfl

theorem twoFiles_run : (system 2 eightBlocks).Run twoFiles
    [⟨twoFiles, .alloc (some 0), allocated⟩, ⟨allocated, .attach 0 0, attached⟩,
      ⟨attached, .close 0, closed⟩] closed :=
  .cons (.alloc rfl) (.cons (.attach (List.mem_singleton.2 rfl) FileType.noConfusion
    (List.mem_singleton.2 rfl)) (.single (.close (List.mem_singleton.2 rfl))))

/-- The reference to the inode is dropped. -/
theorem sound_run_twoFiles : Sound closed ∧
    ∀ x ∈ [⟨twoFiles, .alloc (some 0), allocated⟩, ⟨allocated, .attach 0 0, attached⟩,
      ⟨attached, .close 0, closed⟩], Kept x :=
  sound_run sound_twoFiles twoFiles_run (by
    simp [Few, twoFiles, allocated, attached, State.setHandles, State.setCache, State.modify,
      oneCached, InodeCache.State.setRefs])

end FileTable

end MicroKernel
