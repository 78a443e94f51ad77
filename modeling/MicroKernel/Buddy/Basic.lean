import MicroKernel.DList.Ring
import MicroKernel.Object.Structures
import Mathlib.Algebra.BigOperators.Group.Finset.Basic

/-!
# The buddy allocator

Free blocks of `2 ^ order` pages are in a circular list for each order up to 11, with a counter.  A
request for which there is no block takes a larger one and puts its parts into the lists below; but
it counts none of them.

The declaration of `zone1` is commented out, and so is that of `free_list`.  The expression
`&zone1.free_area[order].free_list->nex` is used as the address of a node.  It is the address of a
field, and that of the head if the field is its first one; it seems to be meant for the node to
which the field points.  The results are about both (`Reading`).

* `buddyAllocate` : the function;
* `found_zero` : without a block of the order, the null pointer is returned and no larger block is
  left;
* `conserves_iff` : a request is served, and no page is lost, exactly if there is no block of its
  order or a larger one, or there is one of its order and the expression is the contents of the
  field (its address is returned in place of a block);
* `buddyAllocate_config` : then the first block of the order is taken out of its list.
-/

namespace MicroKernel

namespace Buddy

/-! ### The code -/

/-- `zone1`. -/
structure Zone where
  /-- `free_area[order].nr_free`. -/
  nrFree : ℕ → ℕ
  /-- `&free_area[order].free_list`. -/
  freeList : ℕ → Ptr
  /-- The fields `nex` and `pre` in memory. -/
  links : DList.Links Ptr

/-- What `&zone1.free_area[order].free_list->nex` is. -/
inductive Reading where
  /-- The address of the field. -/
  | address
  /-- The contents of the field. -/
  | contents
  deriving DecidableEq

namespace Zone

/-- `nr_free--`. -/
def take (z : Zone) (order : ℕ) : Zone :=
  { z with nrFree := Function.update z.nrFree order (z.nrFree order - 1) }

/-- `p->nex`, which faults at `NULL`. -/
def nex (z : Zone) (p : Ptr) : Option Ptr := if p = NULL then none else some (z.links.next p)

/-- `p->pre`. -/
def pre (z : Zone) (p : Ptr) : Option Ptr := if p = NULL then none else some (z.links.prev p)

/-- `p->nex = q`. -/
def setNex (z : Zone) (p q : Ptr) : Option Zone :=
  if p = NULL then none else some { z with links := z.links.setNext p q }

/-- `p->pre = q`. -/
def setPre (z : Zone) (p q : Ptr) : Option Zone :=
  if p = NULL then none else some { z with links := z.links.setPrev p q }

/-- `&zone1.free_area[order].free_list->nex`. -/
def node (z : Zone) : Reading → ℕ → Ptr
  | .address, order => z.freeList order
  | .contents, order => z.links.next (z.freeList order)

end Zone

/-- `add_list`. -/
def addList (order : ℕ) (list : Ptr) (z : Zone) : Option Zone := do
  let z ← z.setPre list (z.freeList order)
  let first ← z.nex (z.freeList order)
  let z ← z.setNex list first
  let nex ← z.nex list
  let z ← z.setPre nex list
  z.setNex (z.freeList order) list

/-- `delete_list`. -/
def deleteList (list : Ptr) (z : Zone) : Option Zone := do
  let pre ← z.pre list
  let nex ← z.nex list
  let z ← z.setNex pre nex
  let nex ← z.nex list
  let pre ← z.pre list
  let z ← z.setPre nex pre
  let z ← z.setPre list NULL
  z.setNex list NULL

/-- `expand_buudy`, from `order_now` down to `order`; a `struct list_head` has 16 bytes. -/
def expandBuudy (order : ℕ) : ℕ → Ptr → Zone → Option Zone
  | 0, _, z => if order = 0 then some z else none
  | now + 1, list, z =>
    if order = now + 1 then some z
    else addList now (list + BitVec.ofNat 64 (16 * 2 ^ now)) z >>= expandBuudy order now list

/-- The code of `buddy_allocate` from the label `found` on, with at most `n` times through it. -/
def found (r : Reading) (order : ℕ) : ℕ → Zone → Option (Ptr × Zone)
  | 0, _ => none
  | n + 1, z =>
    if z.nrFree order ≠ 0 then do
      let rtPage := (z.take order).node r order
      let z ← deleteList rtPage (z.take order)
      some (rtPage, z)
    else
      match (List.range' (order + 1) (11 - order)).find? fun i => z.nrFree i ≠ 0 with
      | none => some (NULL, z)
      | some i => do
        let z ← expandBuudy order i ((z.take i).node r order) (z.take i)
        let z ← deleteList (z.node r order) z
        found r order n z

/-- `buddy_allocate`. -/
def buddyAllocate (r : Reading) (n order : ℕ) (z : Zone) : Option (Ptr × Zone) :=
  if order > 11 then some (NULL, z) else found r order n z

/-! ### The counters -/

section Counters

variable {z z' : Zone} {r : Reading} {order n i : ℕ} {list p q : Ptr}

theorem setNex_nrFree (h : z.setNex p q = some z') : z'.nrFree = z.nrFree := by
  rw [Zone.setNex] at h
  split_ifs at h
  rw [← Option.some.inj h]

theorem setPre_nrFree (h : z.setPre p q = some z') : z'.nrFree = z.nrFree := by
  rw [Zone.setPre] at h
  split_ifs at h
  rw [← Option.some.inj h]

theorem addList_nrFree (h : addList order list z = some z') : z'.nrFree = z.nrFree := by
  obtain ⟨z₁, h₁, h⟩ := Option.bind_eq_some_iff.1 h
  obtain ⟨first, -, h⟩ := Option.bind_eq_some_iff.1 h
  obtain ⟨z₂, h₂, h⟩ := Option.bind_eq_some_iff.1 h
  obtain ⟨nex, -, h⟩ := Option.bind_eq_some_iff.1 h
  obtain ⟨z₃, h₃, h⟩ := Option.bind_eq_some_iff.1 h
  rw [setNex_nrFree h, setPre_nrFree h₃, setNex_nrFree h₂, setPre_nrFree h₁]

theorem deleteList_nrFree (h : deleteList list z = some z') : z'.nrFree = z.nrFree := by
  obtain ⟨pre, -, h⟩ := Option.bind_eq_some_iff.1 h
  obtain ⟨nex, -, h⟩ := Option.bind_eq_some_iff.1 h
  obtain ⟨z₁, h₁, h⟩ := Option.bind_eq_some_iff.1 h
  obtain ⟨nex', -, h⟩ := Option.bind_eq_some_iff.1 h
  obtain ⟨pre', -, h⟩ := Option.bind_eq_some_iff.1 h
  obtain ⟨z₂, h₂, h⟩ := Option.bind_eq_some_iff.1 h
  obtain ⟨z₃, h₃, h⟩ := Option.bind_eq_some_iff.1 h
  rw [setNex_nrFree h, setPre_nrFree h₃, setPre_nrFree h₂, setNex_nrFree h₁]

theorem expandBuudy_nrFree {now : ℕ} (h : expandBuudy order now list z = some z') :
    z'.nrFree = z.nrFree := by
  induction now generalizing z with
  | zero =>
    rw [expandBuudy] at h
    split_ifs at h
    rw [Option.some.inj h]
  | succ now ih =>
    rw [expandBuudy] at h
    split_ifs at h
    · rw [Option.some.inj h]
    · obtain ⟨z₁, h₁, h⟩ := Option.bind_eq_some_iff.1 h
      rw [ih h, addList_nrFree h₁]

@[simp] theorem take_self : (z.take i).nrFree i = z.nrFree i - 1 := by simp [Zone.take]

@[simp] theorem take_of_ne {j : ℕ} (h : j ≠ i) : (z.take i).nrFree j = z.nrFree j := by
  simp [Zone.take, h]

/-- Without a block of the order, a call that returns has taken all larger blocks off the counters
and returns the null pointer. -/
theorem found_zero (hzero : z.nrFree order = 0) (h : found r order n z = some (p, z')) :
    p = NULL ∧ ∀ i, order < i → i ≤ 11 → z'.nrFree i = 0 := by
  induction n generalizing z with
  | zero => exact absurd h.symm (Option.some_ne_none _)
  | succ n ih =>
    rw [found, if_neg (not_not.2 hzero)] at h
    cases hfind : (List.range' (order + 1) (11 - order)).find? fun i => z.nrFree i ≠ 0 with
    | none =>
      rw [hfind] at h
      obtain ⟨rfl, rfl⟩ := Prod.mk.inj (Option.some.inj h)
      refine ⟨rfl, fun i hlow hhigh => ?_⟩
      have hi := List.find?_eq_none.1 hfind i (List.mem_range'_1.2 (by omega))
      simpa using hi
    | some i =>
      rw [hfind] at h
      obtain ⟨z₁, h₁, h⟩ := Option.bind_eq_some_iff.1 h
      obtain ⟨z₂, h₂, h⟩ := Option.bind_eq_some_iff.1 h
      -- the counter of the order is neither read nor written by the split
      have hi := List.mem_range'_1.1 (List.mem_of_find?_eq_some hfind)
      refine ih ?_ h
      rw [deleteList_nrFree h₂, expandBuudy_nrFree h₁, take_of_ne (by omega), hzero]

theorem node_take : (z.take i).node r order = z.node r order := by cases r <;> rfl

theorem found_of_ne (hfree : z.nrFree order ≠ 0) (h : found r order n z = some (p, z')) :
    p = z.node r order ∧ z'.nrFree = (z.take order).nrFree := by
  cases n with
  | zero => exact absurd h.symm (Option.some_ne_none _)
  | succ n =>
    rw [found, if_pos hfree] at h
    obtain ⟨z₁, h₁, h⟩ := Option.bind_eq_some_iff.1 h
    obtain ⟨rfl, rfl⟩ := Prod.mk.inj (Option.some.inj h)
    exact ⟨node_take, deleteList_nrFree h₁⟩

/-- The pages of the free blocks, by the counters. -/
def pages (z : Zone) : ℕ := ∑ i ∈ Finset.range 12, z.nrFree i * 2 ^ i

theorem pages_take (hi : i ≤ 11) (hfree : z.nrFree i ≠ 0) :
    pages (z.take i) + 2 ^ i = pages z := by
  have hmem : i ∈ Finset.range 12 := Finset.mem_range.2 (by omega)
  rw [pages, pages, ← Finset.add_sum_erase _ _ hmem, ← Finset.add_sum_erase _ _ hmem, take_self,
    Finset.sum_congr rfl fun j hj => by rw [take_of_ne (Finset.ne_of_mem_erase hj)]]
  obtain ⟨k, hk⟩ := Nat.exists_eq_succ_of_ne_zero hfree
  rw [hk, Nat.succ_sub_one, Nat.succ_mul]
  omega

end Counters

/-! ### The lists -/

section Lists

variable {z z' : Zone} {blocks : ℕ → List Ptr} {r : Reading} {order n : ℕ} {list x : Ptr}

/-- A configuration of free blocks: for each order the blocks of a ring, with their number. -/
structure Config (z : Zone) (blocks : ℕ → List Ptr) : Prop where
  /-- The counters. -/
  count : ∀ i ≤ 11, z.nrFree i = (blocks i).length
  /-- The lists. -/
  ring : ∀ i ≤ 11, DList.Ring z.links (z.freeList i) (blocks i)
  /-- No head and no block is `NULL`. -/
  null : ∀ i ≤ 11, NULL ∉ z.freeList i :: blocks i
  /-- The lists have no node in common. -/
  apart : ∀ i ≤ 11, ∀ j ≤ 11, i ≠ j → ∀ y ∈ z.freeList i :: blocks i, y ∉ z.freeList j :: blocks j

/-- The neighbours of the node are linked to each other, and its own fields are cleared. -/
def detached (x : Ptr) (L : DList.Links Ptr) : DList.Links Ptr :=
  ((DList.unlink x L).setPrev x NULL).setNext x NULL

theorem next_detached {y : Ptr} {L : DList.Links Ptr} (hy : y ≠ x) :
    (detached x L).next y = (DList.unlink x L).next y :=
  DList.Links.next_setNext_of_ne _ hy

theorem prev_detached {y : Ptr} {L : DList.Links Ptr} (hy : y ≠ x) :
    (detached x L).prev y = (DList.unlink x L).prev y :=
  DList.Links.prev_setPrev_of_ne _ hy

theorem deleteList_eq (hx : x ≠ NULL) (hprev : z.links.prev x ≠ NULL)
    (hnext : z.links.next x ≠ NULL) :
    deleteList x z = some { z with links := detached x z.links } := by
  -- the first write may be to the field `nex` of the node itself, but does not change it then
  have hself : (z.links.setNext (z.links.prev x) (z.links.next x)).next x = z.links.next x := by
    rcases eq_or_ne x (z.links.prev x) with heq | hne
    · rw [← heq, DList.Links.next_setNext_self]
    · exact DList.Links.next_setNext_of_ne _ hne
  simp only [deleteList, Zone.pre, Zone.nex, Zone.setNex, Zone.setPre, if_neg hx, if_neg hprev,
    Option.bind_eq_bind, Option.bind_some, hself, DList.Links.prev_setNext, if_neg hnext]
  rfl

section Ring

variable {L : DList.Links Ptr} {head head' y : Ptr} {l l' : List Ptr}

theorem ring_detached (hring : DList.Ring L head (x :: l)) :
    DList.Ring (detached x L) head l := by
  have hx := hring.first_not_mem
  exact hring.unlink_first.congr (fun y hy => next_detached fun heq => hx (heq ▸ hy))
    fun y hy => prev_detached fun heq => hx (heq ▸ hy)

theorem ring_detached_of_apart (hring : DList.Ring L head (x :: l))
    (hring' : DList.Ring L head' l') (hapart : ∀ y ∈ head' :: l', y ∉ head :: x :: l) :
    DList.Ring (detached x L) head' l' := by
  obtain ⟨-, hprev, hnext⟩ := hring.next_prev_first
  have hyx : ∀ y ∈ head' :: l', y ≠ x := fun y hy heq =>
    hapart y hy (heq ▸ List.mem_cons_of_mem _ List.mem_cons_self)
  refine hring'.congr (fun y hy => ?_) fun y hy => ?_
  · refine (next_detached (hyx y hy)).trans (DList.next_unlink_of_ne fun heq => hapart y hy ?_)
    exact heq ▸ hprev ▸ List.mem_cons_self
  · refine (prev_detached (hyx y hy)).trans (DList.prev_unlink_of_ne fun heq => hapart y hy ?_)
    exact heq ▸ DList.mem_cons_of_mem_tail hnext

end Ring

namespace Config

variable (h : Config z blocks) (ho : order ≤ 11)

include h ho

theorem ne_null : z.freeList order ≠ NULL ∧ z.links.prev (z.freeList order) ≠ NULL ∧
    z.links.next (z.freeList order) ≠ NULL := by
  have hnull := h.null order ho
  have hring := h.ring order ho
  exact ⟨fun heq => hnull (heq ▸ List.mem_cons_self), fun heq => hnull (heq ▸ hring.prev_mem),
    fun heq => hnull (heq ▸ hring.next_mem)⟩

theorem blocks_ne_nil (hfree : z.nrFree order ≠ 0) : ∃ x l, blocks order = x :: l := by
  rw [h.count order ho] at hfree
  exact List.exists_cons_of_length_pos (Nat.pos_of_ne_zero hfree)

/-- With a block of the order, the function returns the node that the expression is. -/
theorem buddyAllocate_eq (hfree : z.nrFree order ≠ 0) (r : Reading) :
    z.node r order ≠ NULL ∧ buddyAllocate r 1 order z = some (z.node r order,
      { z.take order with links := detached (z.node r order) z.links }) := by
  obtain ⟨x, l, hblocks⟩ := h.blocks_ne_nil ho hfree
  have hnull := h.null order ho
  have hring := h.ring order ho
  rw [hblocks] at hnull hring
  obtain ⟨hfirst, hprev, hnext⟩ := hring.next_prev_first
  obtain ⟨hhead, hpre, hnex⟩ := h.ne_null ho
  have hdelete : z.node r order ≠ NULL ∧ deleteList (z.node r order) (z.take order) =
      some { z.take order with links := detached (z.node r order) z.links } := by
    cases r with
    | address => exact ⟨hhead, deleteList_eq (z := z.take order) hhead hpre hnex⟩
    | contents =>
      have hx : z.links.prev x ≠ NULL ∧ z.links.next x ≠ NULL :=
        ⟨hprev ▸ hhead, fun heq => hnull (heq ▸ DList.mem_cons_of_mem_tail hnext)⟩
      rw [Zone.node, hfirst]
      have hne : x ≠ NULL := hfirst ▸ hnex
      exact ⟨hne, deleteList_eq (z := z.take order) hne hx.1 hx.2⟩
  refine ⟨hdelete.1, ?_⟩
  rw [buddyAllocate, if_neg (by omega), found, if_pos hfree, node_take]
  dsimp only
  rw [hdelete.2]
  rfl

/-- The first block of the order is returned, and the others stay free. -/
theorem buddyAllocate_config (hfree : z.nrFree order ≠ 0) : ∃ x l z', blocks order = x :: l ∧
    buddyAllocate .contents 1 order z = some (x, z') ∧
      Config z' (Function.update blocks order l) := by
  obtain ⟨x, l, hblocks⟩ := h.blocks_ne_nil ho hfree
  obtain ⟨-, halloc⟩ := h.buddyAllocate_eq ho hfree .contents
  have hring := h.ring order ho
  rw [hblocks] at hring
  have hnode : z.node .contents order = x := hring.next_prev_first.1
  rw [hnode] at halloc
  -- the lists have no new nodes
  have hsub : ∀ k, ∀ y ∈ z.freeList k :: Function.update blocks order l k,
      y ∈ z.freeList k :: blocks k := by
    intro k y hy
    rcases eq_or_ne k order with rfl | hne
    · rw [Function.update_self] at hy
      exact hblocks ▸ DList.mem_cons_of_mem_tail hy
    · rwa [Function.update_of_ne hne] at hy
  refine ⟨x, l, _, hblocks, halloc, ⟨fun i hi => ?_, fun i hi => ?_, fun i hi hnull => ?_,
    fun i hi j hj hij y hy hy' => ?_⟩⟩
  · rcases eq_or_ne i order with rfl | hne
    · have hcount := h.count i hi
      rw [hblocks, List.length_cons] at hcount
      rw [Function.update_self]
      exact take_self.trans (by omega)
    · rw [Function.update_of_ne hne]
      exact (take_of_ne hne).trans (h.count i hi)
  · rcases eq_or_ne i order with rfl | hne
    · rw [Function.update_self]
      exact ring_detached hring
    · rw [Function.update_of_ne hne]
      exact ring_detached_of_apart hring (h.ring i hi) fun y hy =>
        hblocks ▸ h.apart i hi order ho hne y hy
  · exact h.null i hi (hsub i _ hnull)
  · exact h.apart i hi j hj hij y (hsub i y hy) (hsub j y hy')

end Config

/-- A block that may be returned: one of the order or a larger one. -/
def Block (blocks : ℕ → List Ptr) (order : ℕ) (p : Ptr) : Prop :=
  p ≠ NULL ∧ ∃ i, order ≤ i ∧ i ≤ 11 ∧ p ∈ blocks i

/-- What a call is to do: it returns a block if there is one of the order or a larger one, and the
counters then have the pages of the block less. -/
structure Conserves (r : Reading) (order : ℕ) (z : Zone) (blocks : ℕ → List Ptr) : Prop where
  /-- A block is returned. -/
  returns : (∃ i, order ≤ i ∧ i ≤ 11 ∧ z.nrFree i ≠ 0) →
    ∃ n p z', buddyAllocate r n order z = some (p, z') ∧ Block blocks order p
  /-- No page is lost. -/
  pages_eq : ∀ n p z', buddyAllocate r n order z = some (p, z') → p ≠ NULL →
    pages z' + 2 ^ order = pages z

/-- Without a block of the order, a call does not what it is to do if there is a larger one. -/
theorem not_conserves {i : ℕ} (hzero : z.nrFree order = 0) (hi : order < i) (hi' : i ≤ 11)
    (hfree : z.nrFree i ≠ 0) : ¬Conserves r order z blocks := by
  intro hc
  obtain ⟨n, p, z', halloc, hp⟩ := hc.returns ⟨i, hi.le, hi', hfree⟩
  rw [buddyAllocate, if_neg (by omega)] at halloc
  exact hp.1 (found_zero hzero halloc).1

theorem Config.not_block_freeList (h : Config z blocks) (ho : order ≤ 11) :
    ¬Block blocks order (z.freeList order) := by
  rintro ⟨-, i, -, hi, hmem⟩
  rcases eq_or_ne i order with rfl | hne
  · exact (List.nodup_cons.1 (h.ring i hi).nodup).1 hmem
  · exact h.apart i hi order ho hne _ (List.mem_cons_of_mem _ hmem) List.mem_cons_self

/-- With a block of the order, the address of the field, which is the head of the list, is returned
in its place. -/
theorem Config.not_conserves_address (h : Config z blocks) (ho : order ≤ 11)
    (hfree : z.nrFree order ≠ 0) : ¬Conserves .address order z blocks := by
  intro hc
  obtain ⟨n, p, z', halloc, hp⟩ := hc.returns ⟨order, le_rfl, ho, hfree⟩
  rw [buddyAllocate, if_neg (by omega)] at halloc
  rw [(found_of_ne hfree halloc).1] at hp
  exact h.not_block_freeList ho hp

/-- A call that returns something other than the null pointer has taken one block off its
counter. -/
theorem pages_buddyAllocate {n : ℕ} {p : Ptr} (halloc : buddyAllocate r n order z = some (p, z'))
    (hp : p ≠ NULL) : pages z' + 2 ^ order = pages z := by
  rw [buddyAllocate] at halloc
  split_ifs at halloc with hbig
  · exact absurd (Prod.mk.inj (Option.some.inj halloc)).1.symm hp
  · have hfree : z.nrFree order ≠ 0 := fun hzero => hp (found_zero hzero halloc).1
    rw [pages, (found_of_ne hfree halloc).2]
    exact pages_take (by omega) hfree

/-- A call does what it is to do exactly if there is nothing to return, or there is a block of the
order and the expression is the contents of the field. -/
theorem conserves_iff (r : Reading) (order : ℕ) (h : Config z blocks) :
    Conserves r order z blocks ↔
      (r = .contents ∧ z.nrFree order ≠ 0) ∨ ∀ i, order ≤ i → i ≤ 11 → z.nrFree i = 0 := by
  constructor
  · intro hc
    by_contra hcond
    obtain ⟨hcontents, hsome⟩ := not_or.1 hcond
    refine hsome fun i hi hi' => ?_
    by_contra hfree
    by_cases hzero : z.nrFree order = 0
    · have hne : order ≠ i := fun heq => hfree (heq ▸ hzero)
      exact not_conserves hzero (Nat.lt_of_le_of_ne hi hne) hi' hfree hc
    · cases r with
      | address => exact h.not_conserves_address (hi.trans hi') hzero hc
      | contents => exact hcontents ⟨rfl, hzero⟩
  · rintro (⟨rfl, hfree⟩ | hnone)
    · refine ⟨?_, fun n p z' => pages_buddyAllocate⟩
      rintro ⟨i, hi, hi', -⟩
      have ho := hi.trans hi'
      obtain ⟨hne, halloc⟩ := h.buddyAllocate_eq ho hfree .contents
      obtain ⟨x, l, hblocks⟩ := h.blocks_ne_nil ho hfree
      have hfirst : z.node .contents order = x := (hblocks ▸ h.ring order ho).next_eq
      exact ⟨1, _, _, halloc, hne, order, le_rfl, ho, hfirst ▸ hblocks ▸ List.mem_cons_self⟩
    · refine ⟨?_, fun n p z' => pages_buddyAllocate⟩
      rintro ⟨i, hi, hi', hfree⟩
      exact absurd (hnone i hi hi') hfree

end Lists

/-! ### One block of two pages -/

/-- The heads are the elements of an array; the block is at 1 MB. -/
def oneFree : Zone where
  nrFree i := if i = 1 then 1 else 0
  freeList i := BitVec.ofNat 64 (0x1000 + 24 * i)
  links :=
    { next := fun p => if p = 0x1018 then 0x100000 else if p = 0x100000 then 0x1018 else p
      prev := fun p => if p = 0x1018 then 0x100000 else if p = 0x100000 then 0x1018 else p }

/-- Its blocks. -/
def oneFreeBlocks (i : ℕ) : List Ptr := if i = 1 then [0x100000] else []

theorem toNat_of_mem_oneFree {i : ℕ} {y : Ptr} (hi : i ≤ 11)
    (hy : y ∈ oneFree.freeList i :: oneFreeBlocks i) :
    y.toNat = 0x1000 + 24 * i ∨ i = 1 ∧ y.toNat = 0x100000 := by
  rcases List.mem_cons.1 hy with rfl | hblock
  · exact Or.inl (Nat.mod_eq_of_lt (by omega))
  · rw [oneFreeBlocks] at hblock
    split_ifs at hblock with hone
    · exact Or.inr ⟨hone, by rw [List.mem_singleton.1 hblock]; rfl⟩
    · exact absurd hblock List.not_mem_nil

theorem ring_oneFree {i : ℕ} (hi : i ≤ 11) :
    DList.Ring oneFree.links (oneFree.freeList i) (oneFreeBlocks i) := by
  rcases eq_or_ne i 1 with rfl | hne
  · exact ⟨by decide, ⟨by decide, by decide, trivial⟩, by decide, by decide⟩
  · have hself : ∀ i ≤ 11, i ≠ 1 → oneFree.links.next (oneFree.freeList i) = oneFree.freeList i ∧
        oneFree.links.prev (oneFree.freeList i) = oneFree.freeList i := by decide
    rw [oneFreeBlocks, if_neg hne]
    exact ⟨by simp, trivial, (hself i hi hne).1, (hself i hi hne).2⟩

theorem config_oneFree : Config oneFree oneFreeBlocks := by
  refine ⟨by decide, fun i hi => ring_oneFree hi, fun i hi hnull => ?_,
    fun i hi j hj hij y hy hy' => ?_⟩
  · have hnat := toNat_of_mem_oneFree hi hnull
    rw [show NULL.toNat = 0 from rfl] at hnat
    omega
  · have hnat := toNat_of_mem_oneFree hi hy
    have hnat' := toNat_of_mem_oneFree hj hy'
    omega

/-- The request for two pages, in both readings. -/
theorem conserves_iff_oneFree : Conserves .contents 1 oneFree oneFreeBlocks ∧
    ¬Conserves .address 1 oneFree oneFreeBlocks :=
  ⟨(conserves_iff .contents 1 config_oneFree).2 (by decide),
    fun hc => absurd ((conserves_iff .address 1 config_oneFree).1 hc) (by decide)⟩

/-- The request for one page: the null pointer is returned, and no page is left. -/
theorem not_conserves_oneFree : Config oneFree oneFreeBlocks ∧
    (buddyAllocate .address 2 0 oneFree).map (fun out => (out.1, pages out.2)) = some (NULL, 0) ∧
    (buddyAllocate .contents 2 0 oneFree).map (fun out => (out.1, pages out.2)) = some (NULL, 0) ∧
    pages oneFree = 2 ∧ ¬Conserves .address 0 oneFree oneFreeBlocks ∧
      ¬Conserves .contents 0 oneFree oneFreeBlocks :=
  ⟨config_oneFree, by decide, by decide, by decide,
    not_conserves (i := 1) (by decide) (by decide) (by decide) (by decide),
    not_conserves (i := 1) (by decide) (by decide) (by decide) (by decide)⟩

end Buddy

end MicroKernel
