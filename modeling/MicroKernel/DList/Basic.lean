import Mathlib.Data.List.Basic
import Mathlib.Data.List.Nodup
import Mathlib.Data.Set.Insert
import Mathlib.Logic.Function.Basic

/-!
# Intrusive doubly linked lists

A list threaded through the nodes themselves: every node has a `next` and a `prev` field, and a
queue is a pair of pointers to its first and its last node, both `null` when it is empty.  The
nodes are addresses of an arbitrary type; the fields are total functions, so that a node outside
every list has some fields too.

* `Repr null L q l` : with the fields `L`, the queue `q` holds the nodes `l`, in this order;
* `Repr.pushFront`, `Repr.pushBack`, `Repr.remove` : the operations on the fields do to the list
  what their names say;
* `Repr.congr`, `Repr.pushBack_frame`, `Repr.remove_frame`, … : an operation writes only fields of
  the node it is about and of nodes of its own list, so other lists stay as they are;
* `detachable_iff` : when taking out a node that is in no list changes no list;
* `NextChain`, `Reaches` : the nodes found by following `next`, also where the fields do not form
  a well-formed list;
* `Closed.pushBack`, `Closed.remove` : a set of nodes that `next` does not leave stays one.
-/

namespace MicroKernel.DList

variable {α : Type*}

/-- The link fields of all nodes. -/
@[ext]
structure Links (α : Type*) where
  /-- The node after. -/
  next : α → α
  /-- The node before. -/
  prev : α → α

/-- A queue: its first and its last node. -/
@[ext]
structure Queue (α : Type*) where
  /-- The first node. -/
  head : α
  /-- The last node. -/
  tail : α
  deriving DecidableEq

/-! ### Linked segments -/

/-- The nodes of `l` are linked to each other in this order; before the first one is `p`, after
the last one `n`. -/
def Linked (L : Links α) : α → List α → α → Prop
  | _, [], _ => True
  | p, x :: l, n => L.prev x = p ∧ L.next x = l.headD n ∧ Linked L x l n

variable {null : α} {L L' : Links α} {q : Queue α} {l l₁ l₂ : List α} {p n x y : α}

theorem headD_append (l₁ l₂ : List α) (n : α) : (l₁ ++ l₂).headD n = l₁.headD (l₂.headD n) := by
  cases l₁ <;> rfl

theorem getLastD_append (l₁ l₂ : List α) (p : α) :
    (l₁ ++ l₂).getLastD p = l₂.getLastD (l₁.getLastD p) := by
  induction l₁ generalizing p with
  | nil => rfl
  | cons x l₁ ih => simp only [List.cons_append, List.getLastD_cons, ih]

theorem getLastD_of_ne_nil (h : l ≠ []) (p p' : α) : l.getLastD p = l.getLastD p' := by
  cases l with
  | nil => exact absurd rfl h
  | cons x l => simp only [List.getLastD_cons]

theorem headD_of_ne_nil (h : l ≠ []) (n n' : α) : l.headD n = l.headD n' := by
  cases l with
  | nil => exact absurd rfl h
  | cons x l => rfl

theorem getLastD_mem (h : l ≠ []) (p : α) : l.getLastD p ∈ l := by
  rw [List.getLastD_eq_getLast?, List.getLast?_eq_some_getLast h]
  exact List.getLast_mem h

theorem headD_mem (h : l ≠ []) (n : α) : l.headD n ∈ l := by
  cases l with
  | nil => exact absurd rfl h
  | cons x l => exact List.mem_cons_self

theorem linked_append :
    Linked L p (l₁ ++ l₂) n ↔ Linked L p l₁ (l₂.headD n) ∧ Linked L (l₁.getLastD p) l₂ n := by
  induction l₁ generalizing p with
  | nil => simp [Linked]
  | cons x l₁ ih => simp only [List.cons_append, Linked, ih, headD_append, List.getLastD_cons,
    and_assoc]

/-- Only the fields of the nodes themselves matter. -/
theorem Linked.congr (h : Linked L p l n) (hn : ∀ y ∈ l, L'.next y = L.next y)
    (hp : ∀ y ∈ l, L'.prev y = L.prev y) : Linked L' p l n := by
  induction l generalizing p with
  | nil => trivial
  | cons x l ih =>
    simp only [List.mem_cons, forall_eq_or_imp] at hn hp
    exact ⟨hp.1.trans h.1, hn.1.trans h.2.1, ih h.2.2 hn.2 hp.2⟩

/-- The fields of the nodes are determined by their order. -/
theorem Linked.unique (h : Linked L p l n) (h' : Linked L' p l n) :
    ∀ y ∈ l, L'.next y = L.next y ∧ L'.prev y = L.prev y := by
  induction l generalizing p with
  | nil => exact fun y hy => absurd hy List.not_mem_nil
  | cons x l ih =>
    refine List.forall_mem_cons.2 ⟨⟨h'.2.1.trans h.2.1.symm, h'.1.trans h.1.symm⟩, ?_⟩
    exact ih h.2.2 h'.2.2

/-! ### Queues -/

variable (null) in
/-- With the fields `L`, the queue `q` holds the nodes `l`. -/
structure Repr (L : Links α) (q : Queue α) (l : List α) : Prop where
  /-- No node is `null`. -/
  null_notMem : null ∉ l
  /-- No node occurs twice. -/
  nodup : l.Nodup
  /-- The fields link the nodes in order. -/
  linked : Linked L null l null
  /-- The first node. -/
  head_eq : q.head = l.headD null
  /-- The last node. -/
  tail_eq : q.tail = l.getLastD null

namespace Repr

theorem nil : Repr null L ⟨null, null⟩ [] := ⟨by simp, by simp, trivial, rfl, rfl⟩

theorem congr (h : Repr null L q l) (hn : ∀ y ∈ l, L'.next y = L.next y)
    (hp : ∀ y ∈ l, L'.prev y = L.prev y) : Repr null L' q l :=
  { h with linked := h.linked.congr hn hp }

theorem ne_null (h : Repr null L q l) (hx : x ∈ l) : x ≠ null := fun heq =>
  h.null_notMem (heq ▸ hx)

theorem head_eq_null_iff (h : Repr null L q l) : q.head = null ↔ l = [] := by
  rw [h.head_eq]
  refine ⟨fun hn => ?_, fun hn => by rw [hn]; rfl⟩
  by_contra hl
  exact h.null_notMem (hn ▸ headD_mem hl null)

theorem head_mem (h : Repr null L q l) (hq : q.head ≠ null) : q.head ∈ l := by
  rw [h.head_eq]
  exact headD_mem (fun hl => hq (h.head_eq_null_iff.2 hl)) null

theorem tail_mem (h : Repr null L q l) (hq : q.head ≠ null) : q.tail ∈ l := by
  rw [h.tail_eq]
  exact getLastD_mem (fun hl => hq (h.head_eq_null_iff.2 hl)) null

theorem tail_eq_head_iff (h : Repr null L q l) : q.tail = q.head ↔ l.length ≤ 1 := by
  rw [h.head_eq, h.tail_eq]
  match l, h.nodup with
  | [], _ => simp
  | [x], _ => simp
  | x :: y :: l, hnodup =>
    refine iff_of_false (fun heq => (List.nodup_cons.1 hnodup).1 ?_) (by simp)
    rw [List.getLastD_cons, List.headD_cons,
      getLastD_of_ne_nil (List.cons_ne_nil y l) x null] at heq
    exact heq ▸ getLastD_mem (List.cons_ne_nil y l) null

/-- A list and its first and last node determine each other, and the fields of the nodes. -/
theorem unique {q' : Queue α} (h : Repr null L q l) (h' : Repr null L' q' l) :
    q' = q ∧ ∀ y ∈ l, L'.next y = L.next y ∧ L'.prev y = L.prev y :=
  ⟨Queue.ext (h'.head_eq.trans h.head_eq.symm) (h'.tail_eq.trans h.tail_eq.symm),
    h.linked.unique h'.linked⟩

theorem prev_next_eq (h : Repr null L q (l₁ ++ x :: l₂)) :
    L.prev x = l₁.getLastD null ∧ L.next x = l₂.headD null := by
  obtain ⟨-, hprev, hnext, -⟩ := linked_append.1 h.linked
  exact ⟨hprev, hnext⟩

/-- On the nodes of a list the two fields are inverse to each other. -/
theorem next_eq_iff (h : Repr null L q l) (hx : x ∈ l) (hy : y ∈ l) :
    L.next x = y ↔ L.prev y = x := by
  constructor
  · intro hnext
    obtain ⟨l₁, l₂, rfl⟩ := List.append_of_mem hx
    cases l₂ with
    | nil => exact absurd (hnext.symm.trans h.prev_next_eq.2) (h.ne_null hy)
    | cons z l₂ =>
      obtain rfl : z = y := h.prev_next_eq.2.symm.trans hnext
      rw [List.append_cons] at h
      simpa using h.prev_next_eq.1
  · intro hprev
    obtain ⟨l₁, l₂, rfl⟩ := List.append_of_mem hy
    rcases l₁.eq_nil_or_concat with rfl | ⟨l₁, z, rfl⟩
    · exact absurd (hprev.symm.trans h.prev_next_eq.1) (h.ne_null hx)
    · obtain rfl : z = x := by simpa using h.prev_next_eq.1.symm.trans hprev
      rw [List.concat_eq_append, List.append_assoc] at h
      exact h.prev_next_eq.2

theorem eq_getLastD (h : Repr null L q l) (hx : x ∈ l) (hnext : L.next x = null) :
    x = l.getLastD null := by
  obtain ⟨l₁, l₂, rfl⟩ := List.append_of_mem hx
  have hl₂ : l₂ = [] := by
    by_contra hne
    refine h.null_notMem (List.mem_append_right _ (List.mem_cons_of_mem _ ?_))
    rw [← hnext, h.prev_next_eq.2]
    exact headD_mem hne null
  simp [hl₂]

end Repr

/-! ### Following the `next` fields -/

variable (null) in
/-- From `h` the `next` fields lead through the nodes of `l` to `null`. -/
def NextChain (L : Links α) : α → List α → Prop
  | h, [] => h = null
  | h, x :: l => h = x ∧ x ≠ null ∧ NextChain L (L.next x) l

variable (null) in
/-- From `h` the `next` fields lead to the node `x`. -/
inductive Reaches (L : Links α) : α → α → Prop
  | refl {x : α} : x ≠ null → Reaches L x x
  | next {h x : α} : h ≠ null → Reaches L (L.next h) x → Reaches L h x

/-- There is one way to follow the fields. -/
theorem NextChain.unique {h : α} (hl : NextChain null L h l₁) (hl' : NextChain null L h l₂) :
    l₁ = l₂ := by
  induction l₁ generalizing h l₂ with
  | nil =>
    cases l₂ with
    | nil => rfl
    | cons y l₂ => exact absurd (hl'.1.symm.trans hl) hl'.2.1
  | cons x l₁ ih =>
    cases l₂ with
    | nil => exact absurd (hl.1.symm.trans hl') hl.2.1
    | cons y l₂ =>
      obtain rfl : x = y := hl.1.symm.trans hl'.1
      rw [ih hl.2.2 hl'.2.2]

theorem NextChain.reaches_iff {h x : α} (hl : NextChain null L h l) :
    Reaches null L h x ↔ x ∈ l := by
  constructor
  · intro hx
    induction hx generalizing l with
    | refl hne =>
      cases l with
      | nil => exact absurd hl hne
      | cons y l => exact hl.1 ▸ List.mem_cons_self
    | next hne _ ih =>
      cases l with
      | nil => exact absurd hl hne
      | cons y l =>
        obtain ⟨rfl, -, hl⟩ := hl
        exact List.mem_cons_of_mem _ (ih hl)
  · intro hx
    induction l generalizing h with
    | nil => exact absurd hx List.not_mem_nil
    | cons y l ih =>
      obtain ⟨rfl, hne, hl⟩ := hl
      rcases List.mem_cons.1 hx with rfl | hx
      · exact .refl hne
      · exact .next hne (ih hl hx)

theorem not_reaches_null {x : α} : ¬Reaches null L null x := fun h => by
  cases h with
  | refl hne => exact hne rfl
  | next hne _ => exact hne rfl

theorem Reaches.eq_head {h x : α} (hx : Reaches null L h x) (hnext : L.next h = null) : x = h := by
  cases hx with
  | refl _ => rfl
  | next _ hx => exact absurd (hnext ▸ hx) not_reaches_null

variable (null) in
/-- The `next` fields of the nodes in `S` do not lead out of `S`. -/
def Closed (L : Links α) (S : Set α) : Prop := ∀ y ∈ S, L.next y = null ∨ L.next y ∈ S

theorem Closed.mem_of_reaches {S : Set α} (hS : Closed null L S) {h x : α}
    (hh : h = null ∨ h ∈ S) (hx : Reaches null L h x) : x ∈ S := by
  induction hx with
  | refl hne => exact hh.resolve_left hne
  | next hne _ ih => exact ih (hS _ (hh.resolve_left hne))

theorem Reaches.snoc {h x : α} (hx : Reaches null L h x) (hne : L.next x ≠ null) :
    Reaches null L h (L.next x) := by
  induction hx with
  | refl hne' => exact .next hne' (.refl hne)
  | next hne' _ ih => exact .next hne' (ih hne)

theorem closed_reaches (H : Set α) : Closed null L {x | ∃ h ∈ H, Reaches null L h x} := by
  rintro x ⟨h, hh, hx⟩
  exact or_iff_not_imp_left.2 fun hne => ⟨h, hh, hx.snoc hne⟩

theorem Linked.nextChain (h : Linked L p l null) (hnull : null ∉ l) :
    NextChain null L (l.headD null) l := by
  induction l generalizing p with
  | nil => rfl
  | cons x l ih =>
    simp only [List.mem_cons, not_or] at hnull
    refine ⟨rfl, fun heq => hnull.1 heq.symm, ?_⟩
    rw [h.2.1]
    exact ih h.2.2 hnull.2

theorem Repr.nextChain (h : Repr null L q l) : NextChain null L q.head l := by
  rw [h.head_eq]
  exact h.linked.nextChain h.null_notMem

/-! ### Operations -/

section Operations

variable [DecidableEq α]

namespace Links

/-- Write the `next` field of `x`. -/
def setNext (L : Links α) (x y : α) : Links α := { L with next := Function.update L.next x y }

/-- Write the `prev` field of `x`. -/
def setPrev (L : Links α) (x y : α) : Links α := { L with prev := Function.update L.prev x y }

variable (L : Links α) {x y z : α}

@[simp] theorem next_setNext_self : (L.setNext x y).next x = y := by simp [setNext]

@[simp] theorem next_setNext_of_ne (h : z ≠ x) : (L.setNext x y).next z = L.next z := by
  simp [setNext, h]

@[simp] theorem prev_setNext : (L.setNext x y).prev = L.prev := rfl

@[simp] theorem prev_setPrev_self : (L.setPrev x y).prev x = y := by simp [setPrev]

@[simp] theorem prev_setPrev_of_ne (h : z ≠ x) : (L.setPrev x y).prev z = L.prev z := by
  simp [setPrev, h]

@[simp] theorem next_setPrev : (L.setPrev x y).next = L.next := rfl

/-! The fields as parts of records. -/

section Records

variable {β : Type*} (next prev : β → α) {f : α → β} {b : β}

/-- The link fields of all records. -/
def of (f : α → β) : Links α := ⟨next ∘ f, prev ∘ f⟩

theorem of_update_next (h : prev b = prev (f x)) :
    of next prev (Function.update f x b) = (of next prev f).setNext x (next b) := by
  refine Links.ext (Function.comp_update next f x b) ?_
  change prev ∘ Function.update f x b = prev ∘ f
  rw [Function.comp_update, h]
  exact Function.update_eq_self x (prev ∘ f)

theorem of_update_prev (h : next b = next (f x)) :
    of next prev (Function.update f x b) = (of next prev f).setPrev x (prev b) := by
  refine Links.ext ?_ (Function.comp_update prev f x b)
  change next ∘ Function.update f x b = next ∘ f
  rw [Function.comp_update, h]
  exact Function.update_eq_self x (next ∘ f)

theorem of_update : of next prev (Function.update f x b) =
    ((of next prev f).setNext x (next b)).setPrev x (prev b) :=
  Links.ext (Function.comp_update next f x b) (Function.comp_update prev f x b)

end Records

end Links

variable (null)

/-- Put `x` before the first node. -/
def pushFront (x : α) (L : Links α) (q : Queue α) : Links α × Queue α :=
  let L := if q.head = null then L else L.setPrev q.head x
  ((L.setPrev x null).setNext x q.head, ⟨x, if q.head = null then x else q.tail⟩)

/-- Put `x` after the last node. -/
def pushBack (x : α) (L : Links α) (q : Queue α) : Links α × Queue α :=
  let L := if q.head = null then L else L.setNext q.tail x
  ((L.setPrev x q.tail).setNext x null, ⟨if q.head = null then x else q.head, x⟩)

/-- Take the node `x` out. -/
def remove (x : α) (L : Links α) (q : Queue α) : Links α × Queue α :=
  let (L, q) :=
    if L.prev x ≠ null then (L.setNext (L.prev x) (L.next x), q)
    else (L, { q with head := L.next x })
  if L.next x ≠ null then (L.setPrev (L.next x) (L.prev x), q) else (L, { q with tail := L.prev x })

variable {null}

theorem Linked.setNext_last (h : Linked L p l n) (hnd : l.Nodup) (n' : α) :
    Linked (L.setNext (l.getLastD p) n') p l n' := by
  induction l generalizing p with
  | nil => trivial
  | cons x l ih =>
    obtain ⟨hx, hnd⟩ := List.nodup_cons.1 hnd
    rw [List.getLastD_cons]
    refine ⟨h.1, ?_, ih h.2.2 hnd⟩
    rcases eq_or_ne l [] with rfl | hl
    · simp
    · have hne : x ≠ l.getLastD x := fun heq => hx (heq.symm ▸ getLastD_mem hl x)
      rw [Links.next_setNext_of_ne _ hne, h.2.1]
      exact headD_of_ne_nil hl _ _

theorem Linked.setPrev_head (h : Linked L p l n) (hnd : l.Nodup) (p' : α) :
    Linked (L.setPrev (l.headD n) p') p' l n := by
  cases l with
  | nil => trivial
  | cons x l =>
    obtain ⟨hx, hnd⟩ := List.nodup_cons.1 hnd
    refine ⟨by simp, h.2.1, h.2.2.congr (fun y _ => rfl) fun y hy => ?_⟩
    have hne : y ≠ x := fun heq => hx (heq ▸ hy)
    exact Links.prev_setPrev_of_ne _ hne

theorem next_pushBack (y : α) : (pushBack null x L q).1.next y =
    if y = x then null else if q.head ≠ null ∧ y = q.tail then x else L.next y := by
  by_cases hyx : y = x
  · simp [pushBack, hyx]
  · by_cases hq : q.head = null
    · simp [pushBack, hyx, hq]
    · by_cases hy : y = q.tail
      · subst hy
        simp [pushBack, hyx, hq]
      · simp [pushBack, hyx, hq, hy]

/-- The fields of `x` read before and after the first write are the same. -/
theorem remove_eq : remove null x L q =
    (if L.next x ≠ null then
        (if L.prev x ≠ null then L.setNext (L.prev x) (L.next x) else L).setPrev (L.next x)
          (L.prev x)
      else if L.prev x ≠ null then L.setNext (L.prev x) (L.next x) else L,
      ⟨if L.prev x ≠ null then q.head else L.next x,
        if L.next x ≠ null then q.tail else L.prev x⟩) := by
  have hnext : (L.setNext (L.prev x) (L.next x)).next x = L.next x := by
    by_cases heq : x = L.prev x
    · rw [← heq]
      exact Links.next_setNext_self L
    · exact Links.next_setNext_of_ne _ heq
  simp only [remove]
  by_cases h₁ : L.prev x ≠ null <;> by_cases h₂ : L.next x ≠ null <;> simp [h₁, h₂, hnext]

theorem next_remove (y : α) : (remove null x L q).1.next y =
    if L.prev x ≠ null ∧ y = L.prev x then L.next x else L.next y := by
  rw [remove_eq]
  have hsplit : (if L.next x ≠ null then
        (if L.prev x ≠ null then L.setNext (L.prev x) (L.next x) else L).setPrev (L.next x)
          (L.prev x)
      else if L.prev x ≠ null then L.setNext (L.prev x) (L.next x) else L).next y =
      (if L.prev x ≠ null then L.setNext (L.prev x) (L.next x) else L).next y := by
    split_ifs <;> rfl
  rw [hsplit]
  by_cases hp : L.prev x = null
  · simp [hp]
  · by_cases hy : y = L.prev x <;> simp [hp, hy]

theorem prev_remove (y : α) : (remove null x L q).1.prev y =
    if L.next x ≠ null ∧ y = L.next x then L.prev x else L.prev y := by
  rw [remove_eq]
  have hfirst : (if L.prev x ≠ null then L.setNext (L.prev x) (L.next x) else L).prev = L.prev := by
    split_ifs <;> rfl
  by_cases hn : L.next x ≠ null
  · rw [if_pos hn]
    by_cases hy : y = L.next x
    · simp [hn, hy]
    · rw [Links.prev_setPrev_of_ne _ hy, hfirst, if_neg fun h => hy h.2]
  · rw [if_neg hn, hfirst, if_neg fun h => hn h.1]

theorem head_remove : (remove null x L q).2.head =
    if L.prev x ≠ null then q.head else L.next x := by
  rw [remove_eq]

theorem tail_remove : (remove null x L q).2.tail =
    if L.next x ≠ null then q.tail else L.prev x := by
  rw [remove_eq]

/-- Without a first node there is no last one, unless there was no first one before. -/
theorem tail_remove_of_head (hq : q.head ≠ null) (h : (remove null x L q).2.head = null) :
    (remove null x L q).2.tail = null := by
  rw [head_remove] at h
  have hprev : L.prev x = null := by
    by_contra hne
    rw [if_pos hne] at h
    exact hq h
  rw [if_neg (not_not.2 hprev)] at h
  rw [tail_remove, if_neg (not_not.2 h), hprev]

/-- What is written to the nodes does not depend on the queue. -/
theorem remove_fst (q q' : Queue α) : (remove null x L q).1 = (remove null x L q').1 := by
  simp only [remove]
  split_ifs <;> rfl

/-- Appending a node to whatever queue. -/
theorem Closed.pushBack {S : Set α} (hS : Closed null L S) :
    Closed null (DList.pushBack null x L q).1 (insert x S) := by
  intro y hy
  rw [next_pushBack]
  split_ifs with hyx
  · exact Or.inl rfl
  · exact Or.inr (Set.mem_insert x S)
  · exact (hS y (hy.resolve_left hyx)).imp_right (Set.mem_insert_of_mem x)

/-- Taking out a node of a closed set, from whatever queue. -/
theorem Closed.remove {S : Set α} (hS : Closed null L S) (hx : x ∈ S) :
    Closed null (DList.remove null x L q).1 S := by
  intro y hy
  rw [next_remove]
  split_ifs
  · exact hS x hx
  · exact hS y hy

namespace Repr

theorem pushFront (h : Repr null L q l) (hx : x ∉ l) (hne : x ≠ null) :
    Repr null (DList.pushFront null x L q).1 (DList.pushFront null x L q).2 (x :: l) := by
  have hlinked : Linked (if q.head = null then L else L.setPrev q.head x) x l null := by
    split_ifs with hq
    · rw [h.head_eq_null_iff.1 hq]
      trivial
    · rw [h.head_eq]
      exact h.linked.setPrev_head h.nodup x
  have hyx : ∀ y ∈ l, y ≠ x := fun y hy heq => hx (heq ▸ hy)
  refine ⟨by simp [h.null_notMem, hne.symm], List.nodup_cons.2 ⟨hx, h.nodup⟩,
    ⟨by simp [DList.pushFront], by simp [DList.pushFront, h.head_eq], hlinked.congr
      (fun y hy => ?_) fun y hy => ?_⟩, rfl, ?_⟩
  · simp [DList.pushFront, hyx y hy]
  · simp [DList.pushFront, hyx y hy]
  · simp only [DList.pushFront, List.getLastD_cons]
    split_ifs with hq
    · rw [h.head_eq_null_iff.1 hq]
      rfl
    · rw [h.tail_eq]
      exact getLastD_of_ne_nil (fun hl => hq (h.head_eq_null_iff.2 hl)) _ _

theorem pushBack (h : Repr null L q l) (hx : x ∉ l) (hne : x ≠ null) :
    Repr null (DList.pushBack null x L q).1 (DList.pushBack null x L q).2 (l ++ [x]) := by
  have hlinked : Linked (if q.head = null then L else L.setNext q.tail x) null l x := by
    split_ifs with hq
    · rw [h.head_eq_null_iff.1 hq]
      trivial
    · rw [h.tail_eq]
      exact h.linked.setNext_last h.nodup x
  have hyx : ∀ y ∈ l, y ≠ x := fun y hy heq => hx (heq ▸ hy)
  refine ⟨by simp [h.null_notMem, hne.symm], ?_, linked_append.2 ⟨hlinked.congr (fun y hy => ?_)
    fun y hy => ?_, ?_⟩, ?_, ?_⟩
  · exact List.nodup_append.2 ⟨h.nodup, by simp, fun a ha b hb => by
      rw [List.mem_singleton.1 hb]; exact hyx a ha⟩
  · simp [DList.pushBack, hyx y hy]
  · simp [DList.pushBack, hyx y hy]
  · exact ⟨by simp [DList.pushBack, h.tail_eq], by simp [DList.pushBack], trivial⟩
  · simp only [DList.pushBack, headD_append, List.headD_cons]
    split_ifs with hq
    · rw [h.head_eq_null_iff.1 hq]
      rfl
    · rw [h.head_eq]
      exact headD_of_ne_nil (fun hl => hq (h.head_eq_null_iff.2 hl)) _ _
  · simp [DList.pushBack]

/-- Taking out a node from the middle of a linked segment. -/
theorem remove_middle (h : Repr null L q (l₁ ++ x :: l₂)) :
    Repr null (DList.remove null x L q).1 (DList.remove null x L q).2 (l₁ ++ l₂) := by
  obtain ⟨hprev, hnext⟩ := h.prev_next_eq
  rw [remove_eq, hprev, hnext]
  obtain ⟨hnull, hnd, hlinked, hhead, htail⟩ := h
  obtain ⟨h₁, -, -, h₂⟩ := linked_append.1 hlinked
  simp only [List.mem_append, List.mem_cons, not_or] at hnull
  obtain ⟨hn₁, -, hn₂⟩ := hnull
  obtain ⟨hnd₁, hnd₂, hdisj⟩ := List.nodup_append.1 hnd
  obtain ⟨-, hnd₂⟩ := List.nodup_cons.1 hnd₂
  have hne : ∀ a ∈ l₁, ∀ b ∈ l₂, a ≠ b := fun a ha b hb => hdisj a ha b (List.mem_cons_of_mem _ hb)
  have hlast : l₁.getLastD null ≠ null ↔ l₁ ≠ [] :=
    ⟨fun hp hl => hp (by rw [hl]; rfl), fun hl heq => hn₁ (heq ▸ getLastD_mem hl null)⟩
  have hfirst : l₂.headD null ≠ null ↔ l₂ ≠ [] :=
    ⟨fun hp hl => hp (by rw [hl]; rfl), fun hl heq => hn₂ (heq ▸ headD_mem hl null)⟩
  simp only [hlast, hfirst]
  -- after the first write the segments `l₁` and `l₂` are linked to the right nodes
  have hseg : Linked (if l₁ ≠ [] then L.setNext (l₁.getLastD null) (l₂.headD null) else L) null l₁
      (l₂.headD null) ∧
      Linked (if l₁ ≠ [] then L.setNext (l₁.getLastD null) (l₂.headD null) else L) x l₂ null := by
    split_ifs with hl
    · refine ⟨h₁.setNext_last hnd₁ _, h₂.congr (fun y hy => ?_) fun y _ => rfl⟩
      exact Links.next_setNext_of_ne _ (hne _ (getLastD_mem hl null) y hy).symm
    · obtain rfl := not_not.1 hl
      exact ⟨trivial, h₂⟩
  generalize (if l₁ ≠ [] then L.setNext (l₁.getLastD null) (l₂.headD null) else L) = L₁ at hseg ⊢
  refine ⟨by simp [hn₁, hn₂], List.nodup_append.2 ⟨hnd₁, hnd₂, hne⟩, linked_append.2 ?_, ?_, ?_⟩
  · split_ifs with hl₂
    · refine ⟨hseg.1.congr (fun y _ => rfl) fun y hy => ?_, hseg.2.setPrev_head hnd₂ _⟩
      exact Links.prev_setPrev_of_ne _ (hne y hy _ (headD_mem hl₂ null))
    · obtain rfl := not_not.1 hl₂
      exact ⟨hseg.1, trivial⟩
  · rw [headD_append]
    dsimp only
    split_ifs with hl
    · rw [hhead, headD_append]
      exact headD_of_ne_nil hl _ _
    · obtain rfl := not_not.1 hl
      rfl
  · rw [getLastD_append]
    dsimp only
    split_ifs with hl
    · rw [htail, getLastD_append, List.getLastD_cons]
      exact getLastD_of_ne_nil hl _ _
    · obtain rfl := not_not.1 hl
      rfl

theorem remove (h : Repr null L q l) (hx : x ∈ l) :
    Repr null (DList.remove null x L q).1 (DList.remove null x L q).2 (l.erase x) := by
  obtain ⟨l₁, l₂, rfl⟩ := List.append_of_mem hx
  have hx₁ : x ∉ l₁ := fun hmem =>
    (List.nodup_append.1 h.nodup).2.2 x hmem x List.mem_cons_self rfl
  rw [List.erase_append_right _ hx₁, List.erase_cons_head]
  exact h.remove_middle

omit [DecidableEq α] in
/-- Of several lists, with no node in common, one is changed. -/
theorem update {ι : Type*} [DecidableEq ι] {L' : Links α} (queue queue' : ι → Queue α)
    {Q : ι → List α} {i : ι} (h : ∀ j, Repr null L (queue j) (Q j))
    (hself : Repr null L' (queue' i) l) (hother : ∀ j ≠ i, queue' j = queue j)
    (hframe : ∀ j ≠ i, ∀ y ∈ Q j, L'.next y = L.next y ∧ L'.prev y = L.prev y) (j : ι) :
    Repr null L' (queue' j) (Function.update Q i l j) := by
  by_cases hj : j = i
  · subst hj
    rw [Function.update_self]
    exact hself
  · rw [Function.update_of_ne hj, hother j hj]
    exact (h j).congr (fun y hy => (hframe j hj y hy).1) fun y hy => (hframe j hj y hy).2

omit [DecidableEq α] in
/-- Lists stay as they are exactly if the queue and the fields of their nodes do. -/
theorem forall_iff {ι : Type*} {L' : Links α} {queue queue' : ι → Queue α} {Q : ι → List α}
    (h : ∀ j, Repr null L (queue j) (Q j)) : (∀ j, Repr null L' (queue' j) (Q j)) ↔
      queue' = queue ∧ ∀ j, ∀ y ∈ Q j, L'.next y = L.next y ∧ L'.prev y = L.prev y := by
  constructor
  · intro h'
    exact ⟨funext fun j => ((h j).unique (h' j)).1, fun j => ((h j).unique (h' j)).2⟩
  · rintro ⟨rfl, hfields⟩ j
    exact (h j).congr (fun y hy => (hfields j y hy).1) fun y hy => (hfields j y hy).2

/-! ### What an operation leaves unchanged -/

variable (h : Repr null L q l) (hy : y ∉ l)

include h hy

theorem pushBack_frame (hyx : y ≠ x) : (DList.pushBack null x L q).1.next y = L.next y ∧
    (DList.pushBack null x L q).1.prev y = L.prev y := by
  simp only [DList.pushBack]
  split_ifs with hq
  · simp [hyx]
  · have : y ≠ q.tail := fun heq => hy (heq ▸ h.tail_mem hq)
    simp [hyx, this]

theorem remove_frame (hx : x ∈ l) : (DList.remove null x L q).1.next y = L.next y ∧
    (DList.remove null x L q).1.prev y = L.prev y := by
  obtain ⟨l₁, l₂, rfl⟩ := List.append_of_mem hx
  obtain ⟨hprev, hnext⟩ := h.prev_next_eq
  rw [remove_eq]
  simp only [List.mem_append, List.mem_cons, not_or] at hy
  have hyp : L.prev x ≠ null → y ≠ L.prev x := fun hp heq => by
    rw [hprev] at hp heq
    exact hy.1 (heq ▸ getLastD_mem (fun hl => hp (by rw [hl]; rfl)) null)
  have hyn : L.next x ≠ null → y ≠ L.next x := fun hn heq => by
    rw [hnext] at hn heq
    exact hy.2.2 (heq ▸ headD_mem (fun hl => hn (by rw [hl]; rfl)) null)
  by_cases h₁ : L.prev x ≠ null <;> by_cases h₂ : L.next x ≠ null <;> simp [h₁, h₂, hyp, hyn]

end Repr

/-! ### Taking out a node that is in no list -/

variable (null) in
/-- The fields of `x` lead where taking it out of the queue `q` changes nothing for the nodes of
`S`. -/
structure Detachable (L : Links α) (q : Queue α) (S : Set α) (x : α) : Prop where
  /-- The head that is stored is the old one. -/
  head : L.prev x = null → L.next x = q.head
  /-- The tail that is stored is the old one. -/
  tail : L.next x = null → L.prev x = q.tail
  /-- The node before keeps its successor. -/
  next : L.prev x ≠ null → L.prev x ∈ S → L.next (L.prev x) = L.next x
  /-- The node after keeps its predecessor. -/
  prev : L.next x ≠ null → L.next x ∈ S → L.prev (L.next x) = L.prev x

theorem detachable_iff {S : Set α} : Detachable null L q S x ↔
    (remove null x L q).2 = q ∧ ∀ y ∈ S, (remove null x L q).1.next y = L.next y ∧
      (remove null x L q).1.prev y = L.prev y := by
  simp only [Queue.ext_iff, head_remove, tail_remove, next_remove, prev_remove]
  constructor
  · intro h
    refine ⟨⟨?_, ?_⟩, fun y hy => ⟨?_, ?_⟩⟩
    · split_ifs with hp
      · rfl
      · exact h.head (not_not.1 hp)
    · split_ifs with hn
      · rfl
      · exact h.tail (not_not.1 hn)
    · split_ifs with hp
      · rw [hp.2, h.next hp.1 (hp.2 ▸ hy)]
      · rfl
    · split_ifs with hn
      · rw [hn.2, h.prev hn.1 (hn.2 ▸ hy)]
      · rfl
  · rintro ⟨⟨hhead, htail⟩, hfields⟩
    refine ⟨fun hp => ?_, fun hn => ?_, fun hp hy => ?_, fun hn hy => ?_⟩
    · rwa [if_neg (not_not.2 hp)] at hhead
    · rwa [if_neg (not_not.2 hn)] at htail
    · have hnext := (hfields _ hy).1
      rw [if_pos ⟨hp, rfl⟩] at hnext
      exact hnext.symm
    · have hprev := (hfields _ hy).2
      rw [if_pos ⟨hn, rfl⟩] at hprev
      exact hprev.symm

end Operations

end MicroKernel.DList
