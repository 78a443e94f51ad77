import MicroKernel.CSpace.Lookup
import MicroKernel.DList.Insert
import MicroKernel.System.Run

/-!
# The list of derivations

The capabilities that were derived from others are kept in a list through the nodes of their slots.
`cte_insert` links a slot in behind the one that its capability was derived from.

* `DerivationList` : the nodes form a list from the root on;
* `mdbLinks_cteInsert` : what the assignments of `cte_insert` do to the links;
* `DerivationList.insert` : a fresh slot comes directly behind its source;
* `cdtSystem_consistent` : after any insertions the list has every slot once, in the order that the
  insertions one by one give.
-/

namespace MicroKernel

open DList

/-! ### The list -/

/-- The links of all slots. -/
def KState.mdbLinks (s : KState) : DList.Links Ptr where
  next p := (s.ctes p).cteMdbNode.mdbNext
  prev p := (s.ctes p).cteMdbNode.mdbPrev

/-- From `root` the links lead through the slots `l`, each of them once, to the end, and back. -/
structure DerivationList (s : KState) (root : Ptr) (l : List Ptr) : Prop where
  /-- Forwards. -/
  chain : NextChain NULL s.mdbLinks root l
  /-- No slot occurs twice. -/
  nodup : l.Nodup
  /-- `mdbPrev` is the inverse of `mdbNext`. -/
  inverse : ∀ p ∈ l, ∀ q ∈ l,
    (s.ctes p).cteMdbNode.mdbNext = q ↔ (s.ctes q).cteMdbNode.mdbPrev = p
  /-- No slot is before the root. -/
  first : (s.ctes root).cteMdbNode.mdbPrev = NULL

section Links

variable {s : KState} {p v : Ptr}

theorem mdbLinks_setSlot (c : Cte) : (s.modCte p fun _ => c).mdbLinks =
    (s.mdbLinks.setNext p c.cteMdbNode.mdbNext).setPrev p c.cteMdbNode.mdbPrev :=
  Links.of_update (fun c : Cte => c.cteMdbNode.mdbNext) (fun c => c.cteMdbNode.mdbPrev)

theorem mdbLinks_setMdbNext :
    (s.modCte p fun c => { c with cteMdbNode := { c.cteMdbNode with mdbNext := v } }).mdbLinks =
      s.mdbLinks.setNext p v :=
  Links.of_update_next (fun c : Cte => c.cteMdbNode.mdbNext) (fun c => c.cteMdbNode.mdbPrev) rfl

theorem mdbLinks_setMdbPrev :
    (s.modCte p fun c => { c with cteMdbNode := { c.cteMdbNode with mdbPrev := v } }).mdbLinks =
      s.mdbLinks.setPrev p v :=
  Links.of_update_prev (fun c : Cte => c.cteMdbNode.mdbNext) (fun c => c.cteMdbNode.mdbPrev) rfl

/-- The copy of the node of the source, the two links of the new slot and the link back are an
insertion behind the source. -/
theorem mdbLinks_cteInsert (newCap : Cap) (srcSlot destSlot : Ptr) :
    (cteInsert .recoverable newCap srcSlot destSlot s).mdbLinks =
      insertAfter NULL srcSlot destSlot s.mdbLinks := by
  have hlinks := mdbLinks_setMdbNext (p := srcSlot) (v := destSlot)
    (s := s.modCte destSlot fun _ =>
      ⟨newCap, ⟨(s.ctes srcSlot).cteMdbNode.mdbNext, false, false, srcSlot⟩⟩)
  rw [mdbLinks_setSlot] at hlinks
  simp only [cteInsert, insertAfter, Packing.recoverable, id]
  split_ifs with hnext hnext' hnext'
  · rw [mdbLinks_setMdbPrev, hlinks]
    rfl
  · exact absurd hnext hnext'
  · exact absurd hnext' hnext
  · rw [hlinks]
    rfl

end Links

/-! ### Insertions -/

/-- A call of `cte_insert`. -/
structure InsertCall where
  /-- The capability. -/
  newCap : Cap
  /-- The slot it is derived from. -/
  srcSlot : Ptr
  /-- Its own slot. -/
  destSlot : Ptr

/-- Insertions of derived capabilities: the source is in the list, the new slot is not. -/
def cdtSystem (root : Ptr) : System KState InsertCall where
  step s c s' :=
    Reaches NULL s.mdbLinks root c.srcSlot ∧ ¬Reaches NULL s.mdbLinks root c.destSlot ∧
      c.destSlot ≠ NULL ∧ s' = cteInsert .recoverable c.newCap c.srcSlot c.destSlot s

/-- In the step the new slot comes directly behind the source, and the other slots stay in order. -/
def InsertsBehind (root : Ptr) (x : System.Step KState InsertCall) : Prop :=
  ∃ l₁ l₂, DerivationList x.pre root (l₁ ++ x.ev.srcSlot :: l₂) ∧
    DerivationList x.post root (l₁ ++ x.ev.srcSlot :: x.ev.destSlot :: l₂)

section Insertions

variable {s s' : KState} {root tail : Ptr} {l : List Ptr}

theorem DerivationList.of_repr (h : Repr NULL s.mdbLinks ⟨root, tail⟩ l) (hroot : root ≠ NULL) :
    DerivationList s root l := by
  refine ⟨h.nextChain, h.nodup, fun p hp q hq => h.next_eq_iff hp hq, ?_⟩
  cases l with
  | nil => exact absurd h.head_eq hroot
  | cons x l =>
    obtain rfl : root = x := h.head_eq
    exact h.linked.1

/-- A call links the new slot in behind the source. -/
theorem insertStep_repr {c : InsertCall} (h : Repr NULL s.mdbLinks ⟨root, tail⟩ l)
    (hstep : (cdtSystem root).step s c s') :
    ∃ l₁ l₂ tail', l = l₁ ++ c.srcSlot :: l₂ ∧
      Repr NULL s'.mdbLinks ⟨root, tail'⟩ (l₁ ++ c.srcSlot :: c.destSlot :: l₂) := by
  obtain ⟨hsrc, hdest, hne, rfl⟩ := hstep
  rw [h.nextChain.reaches_iff] at hsrc hdest
  obtain ⟨l₁, l₂, rfl⟩ := List.append_of_mem hsrc
  have hrepr := h.insertAfter hdest hne
  rw [← mdbLinks_cteInsert c.newCap] at hrepr
  exact ⟨l₁, l₂, _, rfl, hrepr⟩

/-- The nodes form a list after a run, and each step has put the new slot behind its source. -/
theorem insertRun_repr {tr : List (System.Step KState InsertCall)} (hroot : root ≠ NULL)
    (h : Repr NULL s.mdbLinks ⟨root, root⟩ [root]) (hrun : (cdtSystem root).Run s tr s') :
    (∃ l tail, Repr NULL s'.mdbLinks ⟨root, tail⟩ l ∧
      l.Perm (root :: tr.map fun x => x.ev.destSlot)) ∧ ∀ x ∈ tr, InsertsBehind root x := by
  induction hrun with
  | nil => exact ⟨⟨[root], root, h, List.Perm.refl _⟩, by simp⟩
  | @snoc s₁ s₂ tr c hrun hst ih =>
    obtain ⟨⟨l, tail, hrepr, hperm⟩, hbehind⟩ := ih
    obtain ⟨l₁, l₂, tail', rfl, hrepr'⟩ := insertStep_repr hrepr hst
    refine ⟨⟨_, tail', hrepr', ?_⟩, fun x hx => ?_⟩
    · -- the new slot is moved to the front of the one list and to the end of the other
      have hfront : (l₁ ++ c.srcSlot :: c.destSlot :: l₂).Perm
          (c.destSlot :: (l₁ ++ c.srcSlot :: l₂)) := by
        rw [List.append_cons, List.append_cons l₁ c.srcSlot l₂]
        exact List.perm_middle
      rw [List.map_append, List.map_singleton, ← List.cons_append]
      exact (hfront.trans (hperm.cons _)).trans (List.perm_append_singleton _ _).symm
    · rcases List.mem_append.1 hx with hx | hx
      · exact hbehind x hx
      · obtain rfl := List.mem_singleton.1 hx
        exact ⟨l₁, l₂, .of_repr hrepr hroot, .of_repr hrepr' hroot⟩

end Insertions

/-- After any insertions that start from a single slot the links lead through the root and all
inserted slots, each of them once, and end; `mdbPrev` leads back; and each insertion put the new
slot directly behind its source and left the order of all others as it was. -/
theorem cdtSystem_consistent {s s' : KState} {root : Ptr}
    {tr : List (System.Step KState InsertCall)} (hroot : root ≠ NULL)
    (hnext : (s.ctes root).cteMdbNode.mdbNext = NULL)
    (hprev : (s.ctes root).cteMdbNode.mdbPrev = NULL) (hrun : (cdtSystem root).Run s tr s') :
    (∃ l, DerivationList s' root l ∧ l.Perm (root :: tr.map fun x => x.ev.destSlot)) ∧
      ∀ x ∈ tr, InsertsBehind root x := by
  have hlinked : Linked s.mdbLinks NULL [root] NULL := ⟨hprev, hnext, trivial⟩
  have hstart : Repr NULL s.mdbLinks ⟨root, root⟩ [root] :=
    ⟨by simpa using hroot.symm, by simp, hlinked, rfl, rfl⟩
  obtain ⟨⟨l, tail, hrepr, hperm⟩, hbehind⟩ := insertRun_repr hroot hstart hrun
  exact ⟨⟨l, .of_repr hrepr hroot, hperm⟩, hbehind⟩

/-- Two capabilities are derived from the one in the slot `0x1000`. -/
theorem cdtSystem_consistent_two :
    ∃ s' l, DerivationList s' 0x1000 l ∧ l.Perm [0x1000, 0x2000, 0x3000] := by
  have hchain : NextChain NULL KState.zero.mdbLinks 0x1000 [0x1000] :=
    ⟨rfl, by decide, rfl⟩
  have hchain' : NextChain NULL
      (cteInsert .recoverable ⟨0, 0, 0⟩ 0x1000 0x2000 KState.zero).mdbLinks 0x1000
      [0x1000, 0x2000] := ⟨rfl, by decide, by decide, by decide, rfl⟩
  have hstep : (cdtSystem 0x1000).step KState.zero ⟨⟨0, 0, 0⟩, 0x1000, 0x2000⟩
      (cteInsert .recoverable ⟨0, 0, 0⟩ 0x1000 0x2000 KState.zero) :=
    ⟨hchain.reaches_iff.2 (by decide), fun h => absurd (hchain.reaches_iff.1 h) (by decide),
      by decide, rfl⟩
  have hstep' : (cdtSystem 0x1000).step
      (cteInsert .recoverable ⟨0, 0, 0⟩ 0x1000 0x2000 KState.zero) ⟨⟨0, 0, 0⟩, 0x1000, 0x3000⟩
      (cteInsert .recoverable ⟨0, 0, 0⟩ 0x1000 0x3000
        (cteInsert .recoverable ⟨0, 0, 0⟩ 0x1000 0x2000 KState.zero)) :=
    ⟨hchain'.reaches_iff.2 (by decide), fun h => absurd (hchain'.reaches_iff.1 h) (by decide),
      by decide, rfl⟩
  obtain ⟨⟨l, hlist, hperm⟩, -⟩ := cdtSystem_consistent (s := KState.zero) (by decide) rfl rfl
    ((System.Run.single hstep).snoc hstep')
  exact ⟨_, l, hlist, hperm⟩

end MicroKernel
