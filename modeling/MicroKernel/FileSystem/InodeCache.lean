import MicroKernel.FileSystem.Truncate
import MicroKernel.RefCount.Basic

/-!
# The inode cache

The inodes that are in use are kept in memory, each with the number of the references to it.  An
entry that no reference is to can be recycled for another inode.

* `InodeCache.inodeGet`, `InodeCache.inodePut` : the functions of the cache;
* `InodeCache.Cached` : the counts are right, and no inode is cached twice;
* `InodeCache.Served` : what a call does;
* `InodeCache.cached_run` : every call of a run is served.
-/

namespace MicroKernel

namespace InodeCache

open SuperBlock (eightBlocks oneFree oneBlockFile)

/-! ### The code -/

/-- `NINODE`. -/
def nInode : ℕ := 50

instance : NeZero nInode := ⟨by decide⟩

/-- `I_BUSY`. -/
def iBusy : BitVec 32 := 0x1

/-- `I_VALID`. -/
def iValid : BitVec 32 := 0x2

/-- A pointer to an entry of the cache. -/
abbrev Ptr := Fin nInode

/-- `struct INode`. -/
structure INode extends DINode where
  /-- `dev`. -/
  dev : BitVec 32
  /-- `iNodeNum`. -/
  iNodeNum : BitVec 32
  /-- `refCount`. -/
  refCount : BitVec 32
  /-- `flags`. -/
  flags : BitVec 32

/-- The inode that an entry is for. -/
def INode.key (ip : INode) : BitVec 32 × BitVec 32 := (ip.dev, ip.iNodeNum)

/-- The cache and the disk. -/
structure State where
  /-- `iCache.inode`. -/
  iNode : Ptr → INode
  /-- The blocks of the disk. -/
  blocks : BlockState
  /-- The inodes on the disk. -/
  dINode : BitVec 32 × BitVec 32 → DINode
  /-- The references that were returned and not dropped. -/
  refs : List Ptr

namespace State

/-- Change an entry. -/
def modify (s : State) (i : Ptr) (f : INode → INode) : State :=
  { s with iNode := Function.update s.iNode i (f (s.iNode i)) }

/-- `inode_update`. -/
def inodeUpdate (s : State) (i : Ptr) : State :=
  { s with dINode := Function.update s.dINode (s.iNode i).key (s.iNode i).toDINode }

end State

/-- The entry is in use, for this inode. -/
def Hit (dev iNodeNum : BitVec 32) (s : State) (i : Ptr) : Prop :=
  0 < (s.iNode i).refCount.toInt ∧ (s.iNode i).dev = dev ∧ (s.iNode i).iNodeNum = iNodeNum

instance (dev iNodeNum : BitVec 32) (s : State) : DecidablePred (Hit dev iNodeNum s) :=
  fun _ => inferInstanceAs (Decidable (_ ∧ _))

/-- The entry is taken for an inode. -/
def recycle (dev iNodeNum : BitVec 32) (s : State) (i : Ptr) : State :=
  s.modify i fun ip =>
    { ip with
      dev := dev
      iNodeNum := iNodeNum
      refCount := 1
      flags := 0 }

/-- `inode_dup`. -/
def inodeDup (i : Ptr) (s : State) : State :=
  s.modify i fun ip => { ip with refCount := ip.refCount + 1 }

/-- The loop of `inode_get` over the entries, with the free entry that was seen first, and what
follows the loop.  The panic has an empty body. -/
def getLoop (dev iNodeNum : BitVec 32) (s : State) : List Ptr → Option Ptr → Option (Ptr × State)
  | [], empty => empty.map fun i => (i, recycle dev iNodeNum s i)
  | i :: is, empty =>
    if Hit dev iNodeNum s i then some (i, inodeDup i s)
    else
      let empty := if empty = none ∧ (s.iNode i).refCount = 0 then some i else empty
      getLoop dev iNodeNum s is empty

/-- `inode_get`, which has no result if no entry is free. -/
def inodeGet (dev iNodeNum : BitVec 32) (s : State) : Option (Ptr × State) :=
  getLoop dev iNodeNum s (List.finRange nInode) none

/-- `inode_truncate`. -/
def inodeTruncate (sb : SuperBlock) (i : Ptr) (s : State) : State :=
  let r := sb.inodeTruncate (s.iNode i).toDINode s.blocks
  let s := { s with blocks := r.2 }.modify i fun ip => { ip with toDINode := r.1 }
  s.inodeUpdate i

/-- The inode is discarded when its last reference is dropped. -/
def Discards (s : State) (i : Ptr) : Prop :=
  (s.iNode i).refCount = 1 ∧ (s.iNode i).flags &&& iValid ≠ 0 ∧ (s.iNode i).nlink = 0

instance (s : State) (i : Ptr) : Decidable (Discards s i) := inferInstanceAs (Decidable (_ ∧ _))

/-- The body of the condition in `inode_put`.  The panic has an empty body. -/
def discard (sb : SuperBlock) (i : Ptr) (s : State) : State :=
  let s := s.modify i fun ip => { ip with flags := ip.flags ||| iBusy }
  let s := inodeTruncate sb i s
  let s := s.modify i fun ip => { ip with type := 0 }
  let s := s.inodeUpdate i
  s.modify i fun ip => { ip with flags := 0 }

/-- `inode_put`. -/
def inodePut (sb : SuperBlock) (i : Ptr) (s : State) : State :=
  let s := if Discards s i then discard sb i s else s
  s.modify i fun ip => { ip with refCount := ip.refCount - 1 }

/-! ### What the functions do -/

variable {sb : SuperBlock} {s s' : State} {i j : Ptr} {dev iNodeNum : BitVec 32}

@[simp] theorem modify_self (f : INode → INode) : (s.modify i f).iNode i = f (s.iNode i) :=
  Function.update_self ..

theorem modify_of_ne (f : INode → INode) (h : j ≠ i) : (s.modify i f).iNode j = s.iNode j :=
  Function.update_of_ne h ..

@[simp] theorem blocks_modify (f : INode → INode) : (s.modify i f).blocks = s.blocks := rfl

@[simp] theorem dINode_modify (f : INode → INode) : (s.modify i f).dINode = s.dINode := rfl

/-- The loop returns the entry for the inode, if there is one, and else takes the first free one. -/
theorem getLoop_eq (is : List Ptr) (empty : Option Ptr) : getLoop dev iNodeNum s is empty =
    ((is.find? (Hit dev iNodeNum s ·)).map fun i => (i, inodeDup i s)).or
      ((empty.or (is.find? fun i => (s.iNode i).refCount = 0)).map fun i =>
        (i, recycle dev iNodeNum s i)) := by
  induction is generalizing empty with
  | nil => rw [getLoop, List.find?_nil, List.find?_nil, Option.map_none, Option.none_or,
      Option.or_none]
  | cons i is ih =>
    rw [getLoop, List.find?_cons, List.find?_cons]
    by_cases hhit : Hit dev iNodeNum s i
    · simp only [hhit, if_true, decide_true, Option.map_some, Option.some_or]
    · rw [if_neg hhit, ih]
      simp only [hhit, decide_false]
      congr 1
      cases empty with
      | some j => simp
      | none =>
        by_cases hfree : (s.iNode i).refCount = 0
        · rw [if_pos ⟨rfl, hfree⟩, decide_eq_true hfree]
          rfl
        · rw [if_neg fun h => hfree h.2, decide_eq_false hfree]

theorem inodeGet_eq : inodeGet dev iNodeNum s =
    (((List.finRange nInode).find? (Hit dev iNodeNum s ·)).map fun i => (i, inodeDup i s)).or
      (((List.finRange nInode).find? fun i => (s.iNode i).refCount = 0).map fun i =>
        (i, recycle dev iNodeNum s i)) := by
  rw [inodeGet, getLoop_eq, Option.none_or]

/-! ### Putting an inode -/

/-- What is left of an inode that is discarded. -/
def discarded (sb : SuperBlock) (s : State) (i : Ptr) : DINode :=
  { (sb.inodeTruncate (s.iNode i).toDINode s.blocks).1 with type := 0 }

theorem discard_eq : discard sb i s =
    { s with
      iNode := Function.update s.iNode i
        { s.iNode i with
          toDINode := discarded sb s i
          flags := 0 }
      blocks := (sb.inodeTruncate (s.iNode i).toDINode s.blocks).2
      dINode := Function.update s.dINode (s.iNode i).key (discarded sb s i) } := by
  simp [discard, inodeTruncate, State.inodeUpdate, State.modify, INode.key, discarded]

/-- The blocks and the inodes on the disk are the same. -/
structure SameDisk (s s' : State) : Prop where
  /-- The blocks. -/
  blocks : s'.blocks = s.blocks
  /-- The inodes. -/
  dINode : s'.dINode = s.dINode

theorem sameDisk_inodePut (h : ¬Discards s i) : SameDisk s (inodePut sb i s) := by
  rw [inodePut, if_neg h]
  exact ⟨rfl, rfl⟩

theorem inodePut_discards (h : Discards s i) :
    (inodePut sb i s).blocks = (sb.inodeTruncate (s.iNode i).toDINode s.blocks).2 ∧
      (inodePut sb i s).dINode = Function.update s.dINode (s.iNode i).key (discarded sb s i) := by
  simp only [inodePut, if_pos h, discard_eq, blocks_modify, dINode_modify, and_self]

variable (sb s i) in
theorem iNode_inodePut : ∃ d flags, (inodePut sb i s).iNode = Function.update s.iNode i
    { s.iNode i with
      toDINode := d
      flags := flags
      refCount := (s.iNode i).refCount - 1 } := by
  rw [inodePut]
  split_ifs with h
  · rw [discard_eq]
    exact ⟨discarded sb s i, 0, by simp [State.modify]⟩
  · exact ⟨_, _, rfl⟩

/-! ### Runs -/

/-- A call, or a change of the fields that no function of the cache looks at, but `inode_put`. -/
inductive Event where
  /-- `inode_get(dev, iNodeNum)`, which returned `r`. -/
  | get (dev iNodeNum : BitVec 32) (r : Option Ptr)
  /-- `inode_dup(ip)`. -/
  | dup (i : Ptr)
  /-- `inode_put(ip)`. -/
  | put (i : Ptr)
  /-- The holder of a reference changes the inode. -/
  | change (i : Ptr) (flags : BitVec 32) (d : DINode)

/-- The references after a call. -/
def State.setRefs (s : State) (refs : List Ptr) : State := { s with refs := refs }

/-- The fields that have no part in the cache are changed. -/
def State.change (s : State) (i : Ptr) (flags : BitVec 32) (d : DINode) : State :=
  s.modify i fun ip => { ip with toDINode := d, flags := flags }

/-- A call, for a reference that is held if it takes one. -/
inductive Step (sb : SuperBlock) : State → Event → State → Prop where
  | get {s s' : State} {dev iNodeNum : BitVec 32} {i : Ptr} :
      inodeGet dev iNodeNum s = some (i, s') →
        Step sb s (.get dev iNodeNum (some i)) (s'.setRefs (i :: s.refs))
  /-- Without a free entry the source goes on and writes through the null pointer (the comment says
  `panic`).  The model stops the call there, with the state unchanged. -/
  | full {s : State} {dev iNodeNum : BitVec 32} : inodeGet dev iNodeNum s = none →
      Step sb s (.get dev iNodeNum none) s
  | dup {s : State} {i : Ptr} : i ∈ s.refs →
      Step sb s (.dup i) ((inodeDup i s).setRefs (i :: s.refs))
  | put {s : State} {i : Ptr} : i ∈ s.refs →
      Step sb s (.put i) ((inodePut sb i s).setRefs (s.refs.erase i))
  | change {s : State} {i : Ptr} {flags : BitVec 32} {d : DINode} : i ∈ s.refs →
      Step sb s (.change i flags d) (s.change i flags d)

/-- The calls in any order. -/
def system (sb : SuperBlock) : System State Event := ⟨Step sb⟩

/-- The counts are those of the references, and no inode has two entries. -/
structure Cached (s : State) : Prop where
  /-- The counts. -/
  counted : RefCount.Counted (fun i => (s.iNode i).refCount) s.refs
  /-- The entries. -/
  unique : ∀ i ∈ s.refs, ∀ j ∈ s.refs, (s.iNode i).key = (s.iNode j).key → i = j

/-- What a call does. -/
def Served (sb : SuperBlock) (x : System.Step State Event) : Prop :=
  (∀ i ∈ x.pre.refs, (x.post.iNode i).key = (x.pre.iNode i).key) ∧
    match x.ev with
    | .get dev iNodeNum (some i) =>
      (x.post.iNode i).key = (dev, iNodeNum) ∧ SameDisk x.pre x.post
    | .get dev iNodeNum none =>
      (∀ i, i ∈ x.pre.refs ∧ (x.pre.iNode i).key ≠ (dev, iNodeNum)) ∧ SameDisk x.pre x.post
    | .put i =>
      if x.pre.refs.count i = 1 ∧ (x.pre.iNode i).flags &&& iValid ≠ 0 ∧
          (x.pre.iNode i).nlink = 0 then
        x.post.blocks = (sb.inodeTruncate (x.pre.iNode i).toDINode x.pre.blocks).2 ∧
          x.post.dINode =
            Function.update x.pre.dINode (x.pre.iNode i).key (discarded sb x.pre i)
      else SameDisk x.pre x.post
    | .dup _ => SameDisk x.pre x.post
    | .change .. => SameDisk x.pre x.post

/-- The counts do not overflow. -/
def Few (x : System.Step State Event) : Prop := 2 * x.pre.refs.length < 2 ^ 32

section Invariant

variable {e : Event} (h : Cached s) (hfew : 2 * s.refs.length < 2 ^ 32)
include h hfew

theorem Cached.hit_iff : Hit dev iNodeNum s i ↔ i ∈ s.refs ∧ (s.iNode i).key = (dev, iNodeNum) := by
  rw [Hit, h.counted.toInt_pos_iff hfew, INode.key, Prod.mk.injEq]

theorem Cached.free_iff : (s.iNode i).refCount = 0 ↔ i ∉ s.refs :=
  h.counted.eq_zero_iff (by omega)

theorem Cached.discards_iff : Discards s i ↔ s.refs.count i = 1 ∧
    (s.iNode i).flags &&& iValid ≠ 0 ∧ (s.iNode i).nlink = 0 := by
  have hcount := h.counted.toNat_eq (i := i) (by omega)
  rw [Discards, ← BitVec.toNat_inj, hcount]
  rfl

end Invariant

/-! ### Steps -/

theorem counts_modify (f : INode → INode) : (fun j => ((s.modify i f).iNode j).refCount) =
    Function.update (fun j => (s.iNode j).refCount) i (f (s.iNode i)).refCount := by
  funext j
  rw [Function.update_apply]
  by_cases hj : j = i
  · subst hj
    rw [if_pos rfl, modify_self]
  · rw [if_neg hj, modify_of_ne _ hj]

theorem key_modify {f : INode → INode} (hf : (f (s.iNode i)).key = (s.iNode i).key) :
    ((s.modify i f).iNode j).key = (s.iNode j).key := by
  by_cases hj : j = i
  · subst hj
    rw [modify_self, hf]
  · rw [modify_of_ne _ hj]

theorem key_inodeDup : ((inodeDup i s).iNode j).key = (s.iNode j).key := key_modify rfl

theorem key_change {flags : BitVec 32} {d : DINode} :
    ((s.change i flags d).iNode j).key = (s.iNode j).key := key_modify rfl

theorem key_recycle_self : ((recycle dev iNodeNum s i).iNode i).key = (dev, iNodeNum) :=
  congrArg INode.key (modify_self _)

theorem key_recycle_of_ne (h : j ≠ i) :
    ((recycle dev iNodeNum s i).iNode j).key = (s.iNode j).key :=
  congrArg INode.key (modify_of_ne _ h)

theorem key_inodePut : ((inodePut sb i s).iNode j).key = (s.iNode j).key := by
  obtain ⟨d, flags, hput⟩ := iNode_inodePut sb s i
  rw [hput, Function.update_apply]
  split_ifs with hj
  · rw [hj]
    rfl
  · rfl

theorem counts_inodePut : (fun j => ((inodePut sb i s).iNode j).refCount) =
    Function.update (fun j => (s.iNode j).refCount) i ((s.iNode i).refCount - 1) := by
  obtain ⟨d, flags, hput⟩ := iNode_inodePut sb s i
  funext j
  rw [hput, Function.update_apply, Function.update_apply]
  split_ifs <;> rfl

section Steps

variable {e : Event} (h : Cached s)
include h

theorem Cached.inodeDup (hi : i ∈ s.refs) :
    Cached ((InodeCache.inodeDup i s).setRefs (i :: s.refs)) := by
  refine ⟨?_, fun j hj k hk heq => ?_⟩
  · show RefCount.Counted (fun j => ((InodeCache.inodeDup i s).iNode j).refCount) _
    rw [InodeCache.inodeDup, counts_modify]
    exact h.counted.cons
  · have heq' : (s.iNode j).key = (s.iNode k).key :=
      key_inodeDup.symm.trans (heq.trans key_inodeDup)
    refine h.unique j ?_ k ?_ heq'
    · exact (List.mem_cons.1 hj).elim (fun h => h ▸ hi) id
    · exact (List.mem_cons.1 hk).elim (fun h => h ▸ hi) id

/-- One reference less. -/
theorem Cached.inodePut (hi : i ∈ s.refs) :
    Cached ((InodeCache.inodePut sb i s).setRefs (s.refs.erase i)) := by
  refine ⟨?_, fun j hj k hk heq => ?_⟩
  · show RefCount.Counted (fun j => ((InodeCache.inodePut sb i s).iNode j).refCount) _
    rw [counts_inodePut]
    exact h.counted.erase hi
  · have heq' : (s.iNode j).key = (s.iNode k).key :=
      key_inodePut.symm.trans (heq.trans key_inodePut)
    exact h.unique j (List.mem_of_mem_erase hj) k (List.mem_of_mem_erase hk) heq'

variable (hfew : 2 * s.refs.length < 2 ^ 32)
include hfew

theorem Cached.recycle (hi : i ∉ s.refs)
    (hnew : ∀ j ∈ s.refs, (s.iNode j).key ≠ (dev, iNodeNum)) :
    Cached ((InodeCache.recycle dev iNodeNum s i).setRefs (i :: s.refs)) := by
  have hother : ∀ j ∈ s.refs,
      ((InodeCache.recycle dev iNodeNum s i).iNode j).key = (s.iNode j).key :=
    fun j hj => key_recycle_of_ne fun heq => hi (heq ▸ hj)
  refine ⟨?_, fun j hj k hk heq => ?_⟩
  · show RefCount.Counted (fun j => ((InodeCache.recycle dev iNodeNum s i).iNode j).refCount) _
    have hzero : (s.iNode i).refCount + 1 = 1 := by
      rw [(h.free_iff hfew).2 hi]
      rfl
    have hcons := h.counted.cons (i := i)
    rw [hzero] at hcons
    rw [InodeCache.recycle, counts_modify]
    exact hcons
  · change ((InodeCache.recycle dev iNodeNum s i).iNode j).key =
      ((InodeCache.recycle dev iNodeNum s i).iNode k).key at heq
    rcases List.mem_cons.1 hj with hji | hjs <;> rcases List.mem_cons.1 hk with hki | hks
    · exact hji.trans hki.symm
    · rw [hji, key_recycle_self, hother k hks] at heq
      exact absurd heq.symm (hnew k hks)
    · rw [hki, key_recycle_self, hother j hjs] at heq
      exact absurd heq (hnew j hjs)
    · rw [hother j hjs, hother k hks] at heq
      exact h.unique j hjs k hks heq

theorem Cached.inodeGet_some (hget : inodeGet dev iNodeNum s = some (i, s')) :
    (i ∈ s.refs ∧ (s.iNode i).key = (dev, iNodeNum) ∧ s' = InodeCache.inodeDup i s) ∨
      (i ∉ s.refs ∧ (∀ j ∈ s.refs, (s.iNode j).key ≠ (dev, iNodeNum)) ∧
        s' = InodeCache.recycle dev iNodeNum s i) := by
  rw [inodeGet_eq] at hget
  cases hhit : (List.finRange nInode).find? (Hit dev iNodeNum s ·) with
  | some j =>
    rw [hhit] at hget
    obtain ⟨rfl, rfl⟩ := Prod.mk.inj (Option.some.inj hget)
    have hj : Hit dev iNodeNum s j := by simpa using List.find?_some hhit
    obtain ⟨hmem, hkey⟩ := (h.hit_iff hfew).1 hj
    exact Or.inl ⟨hmem, hkey, rfl⟩
  | none =>
    rw [hhit, Option.map_none, Option.none_or, Option.map_eq_some_iff] at hget
    obtain ⟨j, hfree, heq⟩ := hget
    obtain ⟨rfl, rfl⟩ := Prod.mk.inj heq
    refine Or.inr ⟨(h.free_iff hfew).1 (by simpa using List.find?_some hfree), ?_, rfl⟩
    intro k hk hkey
    have hnot := List.find?_eq_none.1 hhit k (List.mem_finRange k)
    exact hnot (decide_eq_true ((h.hit_iff hfew).2 ⟨hk, hkey⟩))

theorem Cached.inodeGet_none (hget : inodeGet dev iNodeNum s = none) (i : Ptr) :
    i ∈ s.refs ∧ (s.iNode i).key ≠ (dev, iNodeNum) := by
  rw [inodeGet_eq, Option.or_eq_none_iff, Option.map_eq_none_iff, Option.map_eq_none_iff] at hget
  have hfree := List.find?_eq_none.1 hget.2 i (List.mem_finRange i)
  have hmem : i ∈ s.refs := by
    by_contra hout
    exact hfree (decide_eq_true ((h.free_iff hfew).2 hout))
  have hhit := List.find?_eq_none.1 hget.1 i (List.mem_finRange i)
  exact ⟨hmem, fun hkey => hhit (decide_eq_true ((h.hit_iff hfew).2 ⟨hmem, hkey⟩))⟩

/-- The invariant is kept. -/
theorem Cached.step (hstep : Step sb s e s') : Cached s' := by
  cases hstep with
  | get hget =>
    rcases h.inodeGet_some hfew hget with ⟨hi, -, rfl⟩ | ⟨hi, hnew, rfl⟩
    · exact h.inodeDup hi
    · exact h.recycle hfew hi hnew
  | full => exact h
  | dup hi => exact h.inodeDup hi
  | put hi => exact h.inodePut hi
  | @change i flags d hi =>
    refine ⟨?_, fun j hj k hk heq => h.unique j hj k hk ?_⟩
    · have hcounts := counts_modify (s := s) (i := i) fun ip =>
        { ip with toDINode := d, flags := flags }
      rw [Function.update_eq_self] at hcounts
      rw [State.change, hcounts]
      exact h.counted
    · exact key_change.symm.trans (heq.trans key_change)

/-- The call is served. -/
theorem Cached.served (hstep : Step sb s e s') : Served sb ⟨s, e, s'⟩ := by
  cases hstep with
  | get hget =>
    rcases h.inodeGet_some hfew hget with ⟨hi, hkey, rfl⟩ | ⟨hi, hnew, rfl⟩
    · exact ⟨fun j _ => key_inodeDup, key_inodeDup.trans hkey, rfl, rfl⟩
    · exact ⟨fun j hj => key_recycle_of_ne fun heq => hi (heq ▸ hj), key_recycle_self, rfl, rfl⟩
  | full hget => exact ⟨fun j _ => rfl, h.inodeGet_none hfew hget, rfl, rfl⟩
  | dup hi => exact ⟨fun j _ => key_inodeDup, rfl, rfl⟩
  | put hi =>
    refine ⟨fun j _ => key_inodePut, ?_⟩
    dsimp only
    split_ifs with hlast
    · exact inodePut_discards ((h.discards_iff hfew).2 hlast)
    · have hsame : SameDisk s (InodeCache.inodePut sb _ s) :=
        sameDisk_inodePut fun hdis => hlast ((h.discards_iff hfew).1 hdis)
      exact ⟨hsame.blocks, hsame.dINode⟩
  | change hi => exact ⟨fun j _ => key_change, rfl, rfl⟩

end Steps

/-- Over any run in which references are dropped only by those who hold them, and in which fewer
than 2^31 are held at a time: the count of an entry is the number of references to it and no inode
has two entries; `inode_get` returns the entry of the inode that was asked for, and none only if all
entries are held for other inodes; no entry that is held is given to another inode; and nothing on
the disk changes, unless the last reference to an inode without links is dropped. -/
theorem cached_run {tr : List (System.Step State Event)} (h : Cached s)
    (hrun : (system sb).Run s tr s') (hfew : ∀ x ∈ tr, Few x) :
    Cached s' ∧ ∀ x ∈ tr, Served sb x := by
  have hinv := hrun.invariant (I := Cached) (C := Few) h
    (fun x hstep hx hpre => hpre.step hx hstep) hfew
  exact ⟨hinv.1, fun x hx => (hinv.2 x hx).1.served (hfew x hx) (hrun.step_of_mem x hx)⟩

/-- A cache without inodes. -/
def emptyCache : State where
  iNode _ := ⟨⟨0, 0, 0, 0, 0, fun _ => 0⟩, 0, 0, 0, 0⟩
  blocks := oneFree
  dINode _ := oneBlockFile
  refs := []

/-- The cache with inode 1 of device 1. -/
def oneCached : State := (recycle 1 1 emptyCache 0).setRefs [0]

theorem cached_emptyCache : Cached emptyCache :=
  ⟨fun _ => rfl, fun _ hi => absurd hi List.not_mem_nil⟩

theorem inodeGet_emptyCache : inodeGet 1 1 emptyCache = some (0, recycle 1 1 emptyCache 0) := by
  have hhit : (List.finRange nInode).find? (Hit 1 1 emptyCache ·) = none := by decide
  have hfree : ((List.finRange nInode).find? fun i => (emptyCache.iNode i).refCount = 0) =
      some 0 := by decide
  rw [inodeGet_eq, hhit, hfree]
  rfl

theorem cached_oneCached : Cached oneCached := by
  have hstep : Step eightBlocks emptyCache (.get 1 1 (some 0)) oneCached := .get inodeGet_emptyCache
  exact cached_emptyCache.step (by decide) hstep

theorem emptyCache_run : (system eightBlocks).Run emptyCache
    [⟨emptyCache, .get 1 1 (some 0), oneCached⟩,
      ⟨oneCached, .put 0, (inodePut eightBlocks 0 oneCached).setRefs []⟩]
    ((inodePut eightBlocks 0 oneCached).setRefs []) :=
  .cons (.get inodeGet_emptyCache) (.single (.put (List.mem_singleton.2 rfl)))

/-- The entry is free again. -/
theorem cached_run_emptyCache :
    Cached ((inodePut eightBlocks 0 oneCached).setRefs []) ∧
      ∀ x ∈ [⟨emptyCache, .get 1 1 (some 0), oneCached⟩,
        ⟨oneCached, .put 0, (inodePut eightBlocks 0 oneCached).setRefs []⟩],
        Served eightBlocks x :=
  cached_run cached_emptyCache emptyCache_run (by simp [Few, emptyCache, oneCached, State.setRefs])

end InodeCache

end MicroKernel
