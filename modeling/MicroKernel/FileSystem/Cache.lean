import MicroKernel.DList.Basic
import MicroKernel.System.Run

/-!
# The buffer cache

The file system keeps blocks of the disk in 30 buffers, which are in a circular list in the order of
their last use, with the list head behind the last buffer in memory.

* `bufferInit`, `bufferGet`, `bufferRelease` : the functions of the cache;
* `CacheOk` : what the cache is for;
* `bufferGet_uncached` : `buffer_get` does not return for a sector that is not cached, whatever the
  list is;
* `bufferInit_empty` : `buffer_init` leaves the list empty;
* `not_cacheOk` : the cache is never what it is for.
-/

namespace MicroKernel

namespace BufferCache

/-! ### The code -/

/-- A pointer to one of the buffers of `struct BCache`, by its position in it. -/
abbrev Ptr := ℕ

/-- `NBUF`. -/
def nBuf : ℕ := 30

/-- `&bCache.head`, which is `bCache.buf + NBUF`. -/
def head : Ptr := nBuf

/-- `B_DIRTY`. -/
def bDirty : BitVec 32 := 0x4

/-- The fields of `struct Buf` that the cache uses. -/
structure Buf where
  /-- `flags`. -/
  flags : BitVec 32
  /-- `dev`. -/
  dev : BitVec 32
  /-- `sector`, which the declaration calls `blockNo`. -/
  sector : BitVec 32
  /-- The buffer that was used before. -/
  prev : Ptr
  /-- The buffer that was used after. -/
  next : Ptr

/-- The cache. -/
structure Cache where
  /-- The buffers, and the list head. -/
  bufs : Ptr → Buf
  /-- The buffers that were returned and not released. -/
  held : List Ptr

namespace Cache

/-- Change a buffer. -/
def modify (s : Cache) (p : Ptr) (f : Buf → Buf) : Cache :=
  { s with bufs := Function.update s.bufs p (f (s.bufs p)) }

/-- `p.next = q`. -/
def setNext (s : Cache) (p q : Ptr) : Cache := s.modify p fun b => { b with next := q }

/-- `p.prev = q`. -/
def setPrev (s : Cache) (p q : Ptr) : Cache := s.modify p fun b => { b with prev := q }

end Cache

/-- One iteration of the loop of `buffer_init`. -/
def initBuf (s : Cache) (b : Ptr) : Cache :=
  let s := s.setNext b (s.bufs head).next
  let s := s.setPrev b head
  let s := s.modify b fun x => { x with dev := -1 }
  let s := s.setPrev (s.bufs head).next b
  s.setNext head b

/-- `buffer_init`.  The last value of `b` in the loop is `bCache.buf + NBUF`. -/
def bufferInit (s : Cache) : Cache :=
  let s := { s with held := [] }
  let s := s.setPrev head head
  let s := s.setNext head head
  (List.range (nBuf + 1)).foldl initBuf s

section Code

-- `B_BUSY` is not defined
variable (bBusy : BitVec 32)

/-- The first loop over the list, from a buffer on: the buffer that is returned, if one is. -/
def searchFrom (dev sector : BitVec 32) (s : Cache) : ℕ → Ptr → Option (Option Ptr)
  | 0, _ => none
  | n + 1, b =>
    if b = head then some none
    else if (s.bufs b).dev = dev ∧ (s.bufs b).sector = sector ∧ (s.bufs b).flags &&& bBusy = 0 then
      some (some b)
    else searchFrom dev sector s n (s.bufs b).next

/-- The `loop` of `buffer_get`, which is left by returning only. -/
def lookup (dev sector : BitVec 32) (s : Cache) : ℕ → Option (Option (Ptr × Cache))
  | 0 => none
  | n + 1 =>
    match searchFrom bBusy dev sector s n (s.bufs head).next with
    | none => none
    | some (some b) => some (some (b, s.modify b fun x => { x with flags := x.flags ||| bBusy }))
    | some none => lookup dev sector s n

/-- The second loop over the list, from a buffer on: the buffer to recycle. -/
def recycleFrom (s : Cache) : ℕ → Ptr → Option (Option Ptr)
  | 0, _ => none
  | n + 1, b =>
    if b = head then some none
    else if (s.bufs b).flags &&& bBusy = 0 ∧ (s.bufs b).flags &&& bDirty = 0 then some (some b)
    else recycleFrom s n (s.bufs b).prev

/-- `buffer_get`, if its loops make no more than `n` steps. -/
def bufferGet (n : ℕ) (dev sector : BitVec 32) (s : Cache) : Option (Ptr × Cache) := do
  match ← lookup bBusy dev sector s n with
  | some r => some r
  | none =>
    match ← recycleFrom bBusy s n (s.bufs head).prev with
    | some b =>
      some (b, s.modify b fun x =>
        { x with
          dev := dev
          sector := sector
          flags := bBusy })
    | none => none

/-- `buffer_release`. -/
def bufferRelease (b : Ptr) (s : Cache) : Cache :=
  let s := s.setPrev (s.bufs b).next (s.bufs b).prev
  let s := s.setNext (s.bufs b).prev (s.bufs b).next
  let s := s.setNext b (s.bufs head).next
  let s := s.setPrev b head
  let s := s.setPrev (s.bufs head).next b
  let s := s.setNext head b
  s.modify b fun x => { x with flags := x.flags &&& ~~~bBusy }

/-! ### Runs -/

/-- A call. -/
inductive Event where
  /-- `buffer_get(dev, sector)`, which returned `b`. -/
  | get (dev sector : BitVec 32) (b : Ptr)
  /-- `buffer_release(b)`. -/
  | release (b : Ptr)

/-- A call of `buffer_get` that returns, or a call of `buffer_release` for a buffer that was
returned. -/
inductive Step : Cache → Event → Cache → Prop where
  | get {s s' : Cache} {dev sector : BitVec 32} {b : Ptr} {n : ℕ} :
      bufferGet bBusy n dev sector s = some (b, s') →
      Step s (.get dev sector b) { s' with held := b :: s'.held }
  | release {s : Cache} {b : Ptr} : b ∈ s.held →
      Step s (.release b)
        { bufferRelease bBusy b s with held := (bufferRelease bBusy b s).held.erase b }

/-- The calls in any order. -/
def cacheSystem : System Cache Event := ⟨Step bBusy⟩

/-- The links of the list. -/
def Cache.links (s : Cache) : DList.Links Ptr where
  next p := (s.bufs p).next
  prev p := (s.bufs p).prev

/-- The list is circular, from the most recently used buffer to the least recently used one. -/
structure Mru (s : Cache) (l : List Ptr) : Prop where
  /-- It has all buffers, each once. -/
  perm : l.Perm (List.range nBuf)
  /-- It begins behind the head. -/
  first : (s.bufs head).next = l.headD head
  /-- It ends before the head. -/
  last : (s.bufs head).prev = l.getLastD head
  /-- The buffers are linked. -/
  linked : DList.Linked s.links head l head

/-- A buffer that can be recycled. -/
def Recyclable (s : Cache) (b : Ptr) : Prop :=
  (s.bufs b).flags &&& bBusy = 0 ∧ (s.bufs b).flags &&& bDirty = 0

instance (s : Cache) : DecidablePred (Recyclable bBusy s) :=
  fun _ => inferInstanceAs (Decidable (_ ∧ _))

/-- The sector is in no buffer. -/
def Uncached (s : Cache) (dev sector : BitVec 32) : Prop :=
  ∀ b < nBuf, ¬((s.bufs b).dev = dev ∧ (s.bufs b).sector = sector)

/-- The cache holds one copy of a sector, its list is well-formed, and a sector that is not cached
gets the least recently used buffer that can be recycled. -/
structure CacheOk (s : Cache) : Prop where
  /-- One copy; unused buffers have the device -1. -/
  unique : ∀ b < nBuf, ∀ b' < nBuf, (s.bufs b).dev ≠ -1 → (s.bufs b).dev = (s.bufs b').dev →
    (s.bufs b).sector = (s.bufs b').sector → b = b'
  /-- The list. -/
  mru : ∃ l, Mru s l
  /-- The calls for sectors that are not cached. -/
  get : ∀ l dev sector b, Mru s l → Uncached s dev sector →
    l.reverse.find? (Recyclable bBusy s ·) = some b →
    ∃ n s', bufferGet bBusy n dev sector s = some (b, s')

end Code

/-! ### Sectors that are not cached -/

section Uncached

variable {bBusy dev sector : BitVec 32} {s s' : Cache} {l : List Ptr} {p : Ptr} {n : ℕ}

theorem searchFrom_ne (bBusy : BitVec 32) (n : ℕ) : ∀ {l : List Ptr} {p r : Ptr},
    DList.Linked s.links p l head →
    (∀ b ∈ l, b ≠ head ∧ ¬((s.bufs b).dev = dev ∧ (s.bufs b).sector = sector)) →
    searchFrom bBusy dev sector s n (l.headD head) ≠ some (some r) := by
  induction n with
  | zero =>
    intro l p r _ _ h
    cases h
  | succ n ih =>
    intro l p r hl hnot
    cases l with
    | nil =>
      rw [List.headD_nil, searchFrom, if_pos rfl]
      intro h
      cases h
    | cons b l =>
      obtain ⟨hb, hsector⟩ := hnot b List.mem_cons_self
      have hnext : (s.bufs b).next = l.headD head := hl.2.1
      rw [List.headD_cons, searchFrom, if_neg hb, if_neg fun h => hsector ⟨h.1, h.2.1⟩, hnext]
      exact ih hl.2.2 fun c hc => hnot c (List.mem_cons_of_mem _ hc)

theorem bufferGet_none (hfirst : (s.bufs head).next = l.headD head)
    (hl : DList.Linked s.links p l head)
    (hnot : ∀ b ∈ l, b ≠ head ∧ ¬((s.bufs b).dev = dev ∧ (s.bufs b).sector = sector)) (n : ℕ) :
    bufferGet bBusy n dev sector s = none := by
  have hlookup (n : ℕ) : lookup bBusy dev sector s n = none := by
    induction n with
    | zero => rfl
    | succ n ih =>
      have hsearch (r : Ptr) := searchFrom_ne bBusy (r := r) n hl hnot
      rw [lookup, hfirst]
      cases hres : searchFrom bBusy dev sector s n (l.headD head) with
      | none => rfl
      | some res =>
        cases res with
        | none => exact ih
        | some r => exact absurd hres (hsearch r)
  rw [bufferGet, hlookup]
  rfl

/-- Whatever buffers could be recycled, `buffer_get` does not return for a sector that is not
cached. -/
theorem bufferGet_uncached (hmru : Mru s l) (h : Uncached s dev sector) (n : ℕ) :
    bufferGet bBusy n dev sector s = none :=
  bufferGet_none hmru.first hmru.linked (fun b hb => by
    have hlt : b < nBuf := List.mem_range.1 (hmru.perm.mem_iff.1 hb)
    exact ⟨Nat.ne_of_lt hlt, h b hlt⟩) n

end Uncached

/-! ### The list after the start -/

section Start

variable {bBusy dev sector : BitVec 32} {s₀ s s' : Cache} {l : List Ptr}
  {tr : List (System.Step Cache Event)}

theorem initBuf_head (s : Cache) (b : Ptr) : ((initBuf s b).bufs head).next = b := by
  rw [initBuf]
  dsimp only [Cache.setNext, Cache.modify]
  rw [Function.update_self]

theorem initBuf_held (s : Cache) (b : Ptr) : (initBuf s b).held = s.held := rfl

/-- The last iteration of the loop is for the head, which is linked to itself. -/
theorem bufferInit_empty (s : Cache) : ((bufferInit s).bufs head).next = head := by
  rw [bufferInit, List.range_succ, List.foldl_append, List.foldl_cons, List.foldl_nil]
  exact initBuf_head _ _

theorem bufferInit_held (s : Cache) : (bufferInit s).held = [] := by
  have hfold (l : List Ptr) : ∀ s, (l.foldl initBuf s).held = s.held := by
    induction l with
    | nil => exact fun _ => rfl
    | cons b l ih => exact fun s => (ih _).trans (initBuf_held s b)
  exact hfold _ _

/-- With an empty list, `buffer_get` does not return. -/
theorem bufferGet_empty (h : (s.bufs head).next = head) (n : ℕ) :
    bufferGet bBusy n dev sector s = none :=
  bufferGet_none (l := []) (p := head) h trivial (fun _ hb => absurd hb List.not_mem_nil) n

theorem run_eq (hempty : (s.bufs head).next = head) (hheld : s.held = [])
    (hrun : (cacheSystem bBusy).Run s tr s') : s' = s := by
  induction hrun with
  | nil => rfl
  | snoc _ hstep ih =>
    rw [ih] at hstep
    cases hstep with
    | get hget =>
      rw [bufferGet_empty hempty] at hget
      cases hget
    | release hmem =>
      rw [hheld] at hmem
      exact absurd hmem List.not_mem_nil

theorem not_mru (hempty : (s.bufs head).next = head) : ¬Mru s l := by
  intro hmru
  have hne : l ≠ [] := by
    rintro rfl
    exact absurd hmru.perm.length_eq (by decide)
  have hmem : head ∈ l := by
    have hfirst := hmru.first
    rw [hempty] at hfirst
    rw [hfirst]
    exact DList.headD_mem hne head
  exact Nat.lt_irrefl _ (List.mem_range.1 (hmru.perm.mem_iff.1 hmem))

/-- Whatever calls were made since the start, the cache is not what it is for. -/
theorem not_cacheOk (hrun : (cacheSystem bBusy).Run (bufferInit s₀) tr s') :
    ¬CacheOk bBusy s' := by
  rintro ⟨-, ⟨l, hmru⟩, -⟩
  cases run_eq (bufferInit_empty s₀) (bufferInit_held s₀) hrun
  exact not_mru (bufferInit_empty s₀) hmru

/-- The cache before the start. -/
def cleared : Cache := ⟨fun _ => ⟨0, 0, 0, 0, 0⟩, []⟩

theorem not_cacheOk_cleared : ¬CacheOk 1 (bufferInit cleared) := not_cacheOk (.nil _)

theorem not_run_cacheOk : ¬∀ (s₀ s' : Cache) (tr : List (System.Step Cache Event)),
    (cacheSystem 1).Run (bufferInit s₀) tr s' → CacheOk 1 s' := by
  intro hall
  obtain ⟨l, hmru⟩ := (hall cleared _ [] (.nil _)).mru
  exact not_mru (bufferInit_empty cleared) hmru

end Start

end BufferCache

end MicroKernel
