import MicroKernel.Ipc.Authority
import MicroKernel.Kernel.Exit
import MicroKernel.Memblock.Safety
import MicroKernel.Object.Layout
import MicroKernel.Object.References
import MicroKernel.Vm.KernelMap

/-!
# The objects of the test

`main` calls `ipc_test` after `vm_init`.  It makes two threads with a CNode each, and a capability
for one endpoint in both CNodes.  All of this is in pages of its own, and `memblock_alloc_kernel`
clears a page when it hands it out: this faults unless the page is in the 512 MB that `vm_init` has
mapped.

* `ipcTest` : the objects and capabilities that are made;
* `Stage` : the kernel while `ipc_test` works;
* `ipcTest_prepares` : both threads are ready, and both reach the endpoint.
-/

namespace MicroKernel

open DList

/-! ### The code -/

/-- The address is in the page at `p`. -/
def InPage (p q : Ptr) : Prop := (q - p).toNat < pgsize

instance (p q : Ptr) : Decidable (InPage p q) := inferInstanceAs (Decidable (_ < _))

/-- The objects that begin in the page at `p` are cleared. -/
def KState.clearPage (p : Ptr) (s : KState) : KState :=
  { s with
    tcbs := fun q => if InPage p q then Tcb.zero else s.tcbs q
    endpoints := fun q => if InPage p q then ⟨NULL, NULL, .idle⟩ else s.endpoints q
    notifications := fun q => if InPage p q then ⟨0, 0, 0, 0, .idle⟩ else s.notifications q
    ctes := fun q => if InPage p q then ⟨⟨0, 0, 0⟩, ⟨0, false, false, 0⟩⟩ else s.ctes q
    ipcBuffers := fun q => if InPage p q then fun _ => 0 else s.ipcBuffers q }

/-- `memblock_alloc_kernel(PGSIZE, PGSIZE)`, which clears the page. -/
def allocPage (s : KState) : Except Fault (KState × Ptr) := do
  let (memblock, v) ← memblockAllocKernel s.memblock pgsize pgsize
  if v2p v + pgsize ≤ kernelMapped then
    return (({ s with memblock } : KState).clearPage (BitVec.ofNat 64 v), BitVec.ofNat 64 v)
  else throw .unmapped

/-- The kernel after `ipc_test`, and the memory that it has allocated. -/
structure IpcTest where
  /-- The kernel. -/
  kernel : KState
  /-- `tcbObject0`. -/
  tcbObject0 : Ptr
  /-- `tcbObject1`. -/
  tcbObject1 : Ptr
  /-- `cteRoot`. -/
  cteRoot : Ptr
  /-- The memory of `untypedCap`. -/
  untyped : Ptr
  /-- The CNode of the first thread. -/
  cnode0 : Ptr
  /-- The CNode of the second thread. -/
  cnode1 : Ptr
  /-- `endpointTest`. -/
  endpointTest : Ptr

/-- `tcbPlugin0`. -/
def IpcTest.tcbPlugin0 (r : IpcTest) : Ptr := r.tcbObject0 + tcbOffset

/-- `tcbPlugin1`. -/
def IpcTest.tcbPlugin1 (r : IpcTest) : Ptr := r.tcbObject1 + tcbOffset

/-- The capability of `cteRoot`: its old one, for other memory; `w2` lies behind the variable. -/
def rootCap (w2 : U64) (cap : Cap) (untyped : Ptr) : Cap :=
  UntypedCap.toCap { cap.untypedCap with capPtr := untyped }
    (cap.w0.extractLsb' 48 9) (cap.w1.extractLsb' 5 11) w2

/-- `ipc_test`; `g` is what the variables hold that are read before they are written. -/
def ipcTest (g : ℕ → Cap) (s : KState) : Except Fault IpcTest := do
  let (s, tcbObject0) ← allocPage s
  let (s, tcbObject1) ← allocPage s
  let tcbPlugin0 := tcbObject0 + tcbOffset
  let tcbPlugin1 := tcbObject1 + tcbOffset
  let s := tcbSchedAppend tcbPlugin0 s
  let s := tcbSchedAppend tcbPlugin1 s
  let (s, cteRoot) ← allocPage s
  let cap := (s.ctes cteRoot).cap
  let (s, untyped) ← allocPage s
  let s := s.modCte cteRoot fun c =>
    ⟨rootCap (g 0).w2 cap untyped, { c.cteMdbNode with mdbPrev := NULL, mdbNext := NULL }⟩
  let (s, cnode0) ← allocPage s
  let s := s.modCte tcbObject0 fun c =>
    { c with cap := createObject (g 1) .capTable (cnode0 >>> 1) 0 false }
  let (s, cnode1) ← allocPage s
  let s := s.modCte tcbObject1 fun c =>
    { c with cap := createObject (g 2) .capTable (cnode1 >>> 1) 0 false }
  let (s, endpointTest) ← allocPage s
  let s := s.modEndpoint endpointTest fun e => { e with state := .idle }
  let capTest := createObject (g 3) .endpoint endpointTest 0 false
  let s := insertNewCap (lookupSlot tcbPlugin0 0 s) capTest s
  let s := insertNewCap (lookupSlot tcbPlugin1 0 s) capTest s
  return ⟨s, tcbObject0, tcbObject1, cteRoot, untyped, cnode0, cnode1, endpointTest⟩

/-! ### Pages -/

/-- The pages `l` were handed out from the usable memory `U`. -/
structure Served (U : Set ℕ) (m : Memblock) (l : List Ptr) : Prop where
  /-- The memory. -/
  memory : Represents m.memory U
  /-- The pages are reserved. -/
  reserved : ∃ R, Represents m.reserved R ∧ ∀ p ∈ l, v2p p.toNat ∈ R
  /-- They are pages of the kernel. -/
  pages : ∀ p ∈ l, kernBase ≤ p ∧ pgsize ∣ p.toNat
  /-- They are different. -/
  nodup : l.Nodup

section Pages

variable {U : Set ℕ} {s s' : KState} {p q t : Ptr} {l : List Ptr}

/-- A page is new, and it is cleared. -/
theorem allocPage_spec (h : Served U s.memblock l) (hok : allocPage s = .ok (s', p)) :
    Served U s'.memblock (p :: l) ∧
      s' = ({ s with memblock := s'.memblock } : KState).clearPage p := by
  obtain ⟨⟨m, v⟩, hkernel, hpair⟩ := bind_eq_ok hok
  obtain ⟨⟨m', a⟩, hbase, hv⟩ := bind_eq_ok hkernel
  obtain ⟨rfl, rfl⟩ : m' = m ∧ p2v a = v := by simpa using Except.ok.inj hv
  obtain ⟨R, hres, hpages⟩ := h.reserved
  obtain ⟨hdvd, -, hfree, hmemory, hreserved⟩ :=
    memblockAllocBase_spec (k := 12) h.memory hres (by decide) (by decide) hbase
  obtain ⟨hin, hout⟩ := hfree a ⟨Nat.le_refl a, Nat.lt_add_of_pos_right (by decide)⟩
  have hlt := h.memory.lt_of_mem a hin
  have hback : v2p (p2v a) = a := AllocInv.v2p_p2v (by omega)
  dsimp only at hpair
  rw [hback] at hpair
  split_ifs at hpair with hmapped
  obtain ⟨rfl, rfl⟩ := Prod.mk.inj (Except.ok.inj hpair)
  have hlow : a < 2 ^ 29 := by
    unfold kernelMapped pgsize at hmapped
    omega
  have hp : (BitVec.ofNat 64 (p2v a)).toNat = a + kernbase := by
    rw [BitVec.toNat_ofNat, p2v, add64, Nat.mod_mod]
    exact Nat.mod_eq_of_lt (by unfold kernbase; omega)
  have hphys : v2p (BitVec.ofNat 64 (p2v a)).toNat = a := by
    rw [hp]
    unfold v2p sub64 kernbase
    omega
  refine ⟨⟨hmemory ▸ h.memory, ⟨_, hreserved, ?_⟩, ?_, ?_⟩, rfl⟩
  · rw [List.forall_mem_cons, hphys]
    exact ⟨.inr ⟨Nat.le_refl a, Nat.lt_add_of_pos_right (by decide)⟩,
      fun q hq => .inl (hpages q hq)⟩
  · refine List.forall_mem_cons.2 ⟨⟨?_, ?_⟩, h.pages⟩
    · rw [BitVec.le_def, hp]
      exact Nat.le_add_left _ _
    · rw [hp]
      exact (Nat.dvd_add_right hdvd).2 (by decide)
  · refine List.nodup_cons.2 ⟨fun hmem => hout ?_, h.nodup⟩
    rw [← hphys]
    exact hpages _ hmem

theorem not_inPage {n : ℕ} (hp : pgsize ∣ p.toNat) (hq : pgsize ∣ q.toNat) (hne : p ≠ q)
    (hn : n < pgsize) : ¬InPage p (q + BitVec.ofNat 64 n) := by
  have hne' : p.toNat ≠ q.toNat := fun h => hne (BitVec.eq_of_toNat_eq h)
  have hp' := p.isLt
  have hq' := q.isLt
  obtain ⟨i, hi⟩ := hp
  obtain ⟨j, hj⟩ := hq
  rw [InPage, BitVec.toNat_sub, BitVec.toNat_add, BitVec.toNat_ofNat]
  unfold pgsize at *
  omega

theorem toNat_tcb (hp : pgsize ∣ p.toNat) : (p + tcbOffset).toNat = p.toNat + 0x400 := by
  have hlt := p.isLt
  obtain ⟨i, hi⟩ := hp
  rw [tcbOffset, BitVec.toNat_add]
  exact Nat.mod_eq_of_lt (show p.toNat + 0x400 < 2 ^ 64 by unfold pgsize at hi; omega)

theorem isThread_tcb (hp : kernBase ≤ p ∧ pgsize ∣ p.toNat) : IsThread (p + tcbOffset) := by
  have haddr := toNat_tcb hp.2
  refine ⟨fun h => ?_, fun h => ?_⟩
  · rw [h] at haddr
    exact absurd haddr (Nat.ne_of_lt (Nat.add_pos_right _ (by decide)))
  · rw [h] at haddr
    have hone : chooseNewThread.toNat = 1 := rfl
    omega

end Pages

/-! ### Clearing a page -/

section Clear

variable {s : KState} {p t : Ptr} {l : List Ptr}

theorem ReadyQueue.clearPage (h : ReadyQueue s l) (hl : ∀ t ∈ l, ¬InPage p t) :
    ReadyQueue (s.clearPage p) l where
  repr := by
    have hkeep (t : Ptr) (ht : t ∈ l) : (s.clearPage p).tcbs t = s.tcbs t := if_neg (hl t ht)
    refine h.repr.congr (fun t ht => ?_) fun t ht => ?_
    · exact congrArg Tcb.tcbSchedNext (hkeep t ht)
    · exact congrArg Tcb.tcbSchedPrev (hkeep t ht)
  queued_iff t := by
    by_cases ht : InPage p t
    · have hzero : (s.clearPage p).tcbs t = Tcb.zero := if_pos ht
      rw [hzero]
      exact iff_of_false Bool.false_ne_true fun hmem => hl t hmem ht
    · have hkeep : (s.clearPage p).tcbs t = s.tcbs t := if_neg ht
      rw [hkeep]
      exact h.queued_iff t

theorem IpcBoot.clearPage (h : IpcBoot s) (p : Ptr) : IpcBoot (s.clearPage p) where
  endpoint e := by
    simp only [KState.clearPage]
    split_ifs
    · rfl
    · exact h.endpoint e
  notBlocked t := by
    simp only [KState.clearPage]
    split_ifs
    · exact nofun
    · exact h.notBlocked t

theorem IpcBoot.of_eraseSched {s' : KState} (h : IpcBoot s)
    (heq : s'.eraseSched = s.eraseSched) : IpcBoot s' where
  endpoint e := (congrFun (SameIpc.of_eraseSched heq).endpoints e).trans (h.endpoint e)
  notBlocked t := by
    rw [(SameIpc.of_eraseSched heq).tsType]
    exact h.notBlocked t

theorem eraseSched_tcbSchedAppend : (tcbSchedAppend t s).eraseSched = s.eraseSched := by
  simp only [tcbSchedAppend]
  split_ifs <;> simp [eraseSched_setQueued]

end Clear

/-! ### Capabilities -/

/-- The slots in `L` hold these capabilities, all others are empty. -/
structure Slots (s : KState) (L : List (Ptr × Cap)) : Prop where
  /-- The capabilities. -/
  holds : ∀ x ∈ L, (s.ctes x.1).cap = x.2
  /-- The other slots. -/
  empty : ∀ slot, (∀ x ∈ L, x.1 ≠ slot) → (s.ctes slot).cap.capType = capNullCap

section Caps

variable {s : KState} {p slot : Ptr} {L : List (Ptr × Cap)} {g c : Cap}

theorem Slots.clearPage (h : Slots s L) (hL : ∀ x ∈ L, ¬InPage p x.1) :
    Slots (s.clearPage p) L where
  holds x hx := by
    have hkeep : (s.clearPage p).ctes x.1 = s.ctes x.1 := if_neg (hL x hx)
    rw [hkeep]
    exact h.holds x hx
  empty slot hslot := by
    simp only [KState.clearPage]
    split_ifs
    · rfl
    · exact h.empty slot hslot

theorem Slots.modCte {f : Cte → Cte} (h : Slots s L) (hL : ∀ x ∈ L, x.1 ≠ slot)
    (hf : (f (s.ctes slot)).cap = c) : Slots (s.modCte slot f) ((slot, c) :: L) where
  holds := by
    refine List.forall_mem_cons.2 ⟨?_, fun x hx => ?_⟩
    · simp only [KState.modCte, Function.update_self, hf]
    · simp only [KState.modCte, Function.update_of_ne (hL x hx)]
      exact h.holds x hx
  empty q hq := by
    obtain ⟨hne, hrest⟩ := List.forall_mem_cons.1 hq
    simp only [KState.modCte, Function.update_of_ne (Ne.symm hne)]
    exact h.empty q hrest

theorem endpointCap_createObject (g : Cap) (p : Ptr) :
    (createObject g .endpoint p 0 false).endpointCap =
      ⟨0, capEndpointCap, true, true, true, true, (p.setWidth 48).setWidth 64⟩ := by
  have hptr := capEPPtr_toCap g.w2
    ⟨0, capEndpointCap, true, true, true, true, p⟩ (g.w1.extractLsb' 9 7)
  have htag : bits (createObject g .endpoint p 0 false).w1 0 5 = capEndpointCap :=
    SpecificCap.bits_tag
      (.endpoint ⟨0, capEndpointCap, true, true, true, true, p⟩ (g.w1.extractLsb' 9 7)) g.w2
  have hright (i : ℕ) (hi : i ∈ [5, 6, 7, 8]) :
      (createObject g .endpoint p 0 false).w1.getLsbD i = true := by
    simp only [List.mem_cons, List.not_mem_nil, or_false] at hi
    simp only [createObject, EndpointCap.toCap, BitVec.getLsbD_append]
    rcases hi with rfl | rfl | rfl | rfl <;> rfl
  rw [Cap.endpointCap, htag, hright 5 (by decide), hright 6 (by decide), hright 7 (by decide),
    hright 8 (by decide)]
  exact congrArg (EndpointCap.mk 0 capEndpointCap true true true true) hptr

/-- The capability for a CNode, taken for one to an endpoint. -/
theorem names_capTable (h : kernBase ≤ p) (heven : p.toNat % 2 = 0) (g : Cap) :
    (createObject g .capTable (p >>> 1) 0 false).Names p := by
  have hmask : ∀ i < 64, (0xFFFF000000000000 : U64).getLsbD i = decide (48 ≤ i) := by decide
  rw [Cap.Names]
  refine BitVec.eq_of_getLsbD_eq fun i hi => ?_
  rw [epAddr, BitVec.getLsbD_or, hmask i hi]
  by_cases h48 : i < 48
  · -- the field begins with a bit of the radix, which is 0
    have hbit : (createObject g .capTable (p >>> 1) 0 false).endpointCap.capEPPtr.getLsbD i =
        p.getLsbD i := by
      simp only [Cap.endpointCap, createObject, CNodeCap.toCap, bits, BitVec.getLsbD_setWidth,
        BitVec.getLsbD_extractLsb', BitVec.getLsbD_append, BitVec.getLsbD_ushiftRight]
      rw [if_neg (by omega), if_neg (by omega)]
      cases i with
      | zero =>
        have heven' : p.getLsbD 0 = false := by
          rw [BitVec.getLsbD, Nat.testBit_zero]
          simp [heven]
        rw [heven']
        rfl
      | succ i =>
        have hidx : 1 + (16 + (i + 1) - 5 - 6 - 6) = i + 1 := by omega
        have hlt : 16 + (i + 1) - 5 - 6 - 6 < 47 := by omega
        rw [if_neg (by omega), hidx]
        simp [hi, h48, hlt]
    rw [hbit]
    simp [Nat.not_le.2 h48]
  · simp [Nat.not_lt.1 h48, getLsbD_of_kernBase_le h (i := i) (by omega) hi]

theorem names_rootCap (h : kernBase ≤ p) (w2 : U64) (cap : Cap) : (rootCap w2 cap p).Names p := by
  have hfield : bits (rootCap w2 cap p).w1 16 48 = (p.setWidth 48).setWidth 64 := by
    simp only [rootCap, UntypedCap.toCap, bits]
    simp (disch := omega) only [BitVec.extractLsb'_append_eq_of_le]
    congr 1
    exact BitVec.extractLsb'_eq_self
  rw [Cap.Names, Cap.endpointCap, hfield]
  exact epAddr_setWidth h

end Caps

/-! ### What `ipc_test` builds -/

/-- The kernel while `ipc_test` works: the pages `l` were handed out, the threads `q` are in the
ready queue, and the slots are as given by `L`. -/
structure Stage (U : Set ℕ) (s : KState) (l q : List Ptr) (L : List (Ptr × Cap)) : Prop where
  /-- The pages. -/
  served : Served U s.memblock l
  /-- The ready queue. -/
  ready : ReadyQueue s q
  /-- Its threads. -/
  threads : ∀ t ∈ q, ∃ p ∈ l, t = p + tcbOffset
  /-- No message is under way. -/
  boot : IpcBoot s
  /-- The slots. -/
  slots : Slots s L
  /-- They are at the beginning of pages. -/
  named : ∀ x ∈ L, x.1 ∈ l

namespace Stage

variable {U : Set ℕ} {s s' : KState} {p t : Ptr} {l q : List Ptr} {L : List (Ptr × Cap)} {c : Cap}

theorem congr (h : Stage U s l q L) (hserved : Served U s'.memblock l) (htcbs : s'.tcbs = s.tcbs)
    (hqueue : s'.ksReadyQueues = s.ksReadyQueues) (hendpoints : s'.endpoints = s.endpoints)
    (hctes : s'.ctes = s.ctes) : Stage U s' l q L where
  served := hserved
  ready := h.ready.congr htcbs hqueue
  threads := h.threads
  boot := ⟨hendpoints ▸ h.boot.endpoint, htcbs ▸ h.boot.notBlocked⟩
  slots := ⟨hctes ▸ h.slots.holds, hctes ▸ h.slots.empty⟩
  named := h.named

theorem alloc (h : Stage U s l q L) (hok : allocPage s = .ok (s', p)) :
    Stage U s' (p :: l) q L := by
  obtain ⟨hserved, hs'⟩ := allocPage_spec h.served hok
  obtain ⟨hp, hpages⟩ := List.forall_mem_cons.1 hserved.pages
  have hnew : p ∉ l := (List.nodup_cons.1 hserved.nodup).1
  have hother (a : Ptr) (ha : a ∈ l) (n : ℕ) (hn : n < pgsize) :
      ¬InPage p (a + BitVec.ofNat 64 n) :=
    not_inPage hp.2 (hpages a ha).2 (fun heq => hnew (heq ▸ ha)) hn
  refine ⟨hserved, ?_, fun t ht => ?_, ?_, ?_, fun x hx => List.mem_cons_of_mem p (h.named x hx)⟩
  · have hready : ReadyQueue { s with memblock := s'.memblock } q := h.ready.congr rfl rfl
    rw [hs']
    refine hready.clearPage fun t ht => ?_
    obtain ⟨a, ha, rfl⟩ := h.threads t ht
    exact hother a ha 0x400 (by decide)
  · obtain ⟨a, ha, rfl⟩ := h.threads t ht
    exact ⟨a, List.mem_cons_of_mem p ha, rfl⟩
  · have hboot : IpcBoot { s with memblock := s'.memblock } :=
      ⟨h.boot.endpoint, h.boot.notBlocked⟩
    rw [hs']
    exact hboot.clearPage p
  · have hslots : Slots { s with memblock := s'.memblock } L := ⟨h.slots.holds, h.slots.empty⟩
    rw [hs']
    refine hslots.clearPage fun x hx => ?_
    have hslot := hother x.1 (h.named x hx) 0 (by decide)
    rwa [BitVec.add_zero] at hslot

theorem append (h : Stage U s l q L) (hp : p ∈ l) (hq : p + tcbOffset ∉ q) :
    Stage U (tcbSchedAppend (p + tcbOffset) s) l (q ++ [p + tcbOffset]) L := by
  have hne : p + tcbOffset ≠ NULL := (isThread_tcb (h.served.pages p hp)).1
  have herase : (tcbSchedAppend (p + tcbOffset) s).eraseSched = s.eraseSched :=
    eraseSched_tcbSchedAppend
  have hctes := ctes_of_eraseSched herase
  have hmem : (tcbSchedAppend (p + tcbOffset) s).memblock = s.memblock :=
    KState.eq_of_eraseSched herase KState.memblock fun _ => rfl
  refine ⟨hmem ▸ h.served, h.ready.append hq hne, ?_, h.boot.of_eraseSched herase, ?_, h.named⟩
  · intro t ht
    rcases List.mem_append.1 ht with ht | ht
    · exact h.threads t ht
    · exact ⟨p, hp, List.mem_singleton.1 ht⟩
  · exact ⟨fun x hx => by rw [hctes]; exact h.slots.holds x hx,
      fun slot hslot => by rw [hctes]; exact h.slots.empty slot hslot⟩

theorem modCte {f : Cte → Cte} (h : Stage U s l q L) (hp : p ∈ l) (hL : ∀ x ∈ L, x.1 ≠ p)
    (hf : (f (s.ctes p)).cap = c) : Stage U (s.modCte p f) l q ((p, c) :: L) where
  served := h.served
  ready := h.ready.congr rfl rfl
  threads := h.threads
  boot := ⟨h.boot.endpoint, h.boot.notBlocked⟩
  slots := h.slots.modCte hL hf
  named := List.forall_mem_cons.2 ⟨hp, h.named⟩

theorem modEndpoint (h : Stage U s l q L) :
    Stage U (s.modEndpoint p fun e => { e with state := .idle }) l q L where
  served := h.served
  ready := h.ready.congr rfl rfl
  threads := h.threads
  boot := by
    refine ⟨fun e => ?_, h.boot.notBlocked⟩
    by_cases he : e = p
    · subst he
      simp only [KState.modEndpoint, Function.update_self, h.boot.endpoint]
    · simp only [KState.modEndpoint, Function.update_of_ne he]
      exact h.boot.endpoint e
  slots := ⟨h.slots.holds, h.slots.empty⟩
  named := h.named

theorem modTcb {f : Tcb → Tcb} (h : Stage U s l q L)
    (hnext : ∀ t, (f t).tcbSchedNext = t.tcbSchedNext)
    (hprev : ∀ t, (f t).tcbSchedPrev = t.tcbSchedPrev)
    (hstate : ∀ t, (f t).tcbState = t.tcbState) : Stage U (s.modTcb t f) l q L where
  served := h.served
  ready := h.ready.of_sameSched (.modTcb s t hnext hprev fun tcb => by rw [hstate])
  threads := h.threads
  boot := by
    refine ⟨h.boot.endpoint, fun t' => ?_⟩
    rw [s.field_modTcb Tcb.tcbState hstate]
    exact h.boot.notBlocked t'
  slots := ⟨h.slots.holds, h.slots.empty⟩
  named := h.named

theorem load {memblock : Memblock} (h : Stage U s l q L)
    (hmemory : Represents memblock.memory U) (hreserved : ∀ Q, Represents s.memblock.reserved Q →
      ∃ Q', Represents memblock.reserved Q' ∧ Q ⊆ Q') : Stage U { s with memblock } l q L := by
  refine h.congr ?_ rfl rfl rfl rfl
  obtain ⟨R, hR, hpages⟩ := h.served.reserved
  obtain ⟨R', hR', hsub⟩ := hreserved R hR
  exact ⟨hmemory, ⟨R', hR', fun p hp => hsub (hpages p hp)⟩, h.served.pages, h.served.nodup⟩

theorem setCurThread (h : Stage U s l q L) (t : Ptr) :
    Stage U { s with ksCurThread := t } l q L :=
  h.congr h.served rfl rfl rfl rfl

/-- The table of capabilities of a thread is the capability in the first slot of its page. -/
theorem table_eq (h : Stage U s l q L) (hp : p ∈ l) (hc : (p, c) ∈ L) :
    (s.ctes (tcbPtrCtePtr (p + tcbOffset) tcbCTable)).cap = c := by
  obtain ⟨-, hdvd⟩ := h.served.pages p hp
  have htable : tcbPtrCtePtr (p + tcbOffset) tcbCTable = p :=
    tcbPtrCtePtr_objectAddr (Nat.mod_eq_zero_of_dvd (Nat.dvd_trans (by decide) hdvd))
  rw [htable]
  exact h.slots.holds _ hc

theorem even (h : Stage U s l q L) (hp : p ∈ l) : p.toNat % 2 = 0 :=
  Nat.mod_eq_zero_of_dvd (Nat.dvd_trans (by decide) (h.served.pages p hp).2)

theorem names_cnode (h : Stage U s l q L) (hp : p ∈ l) (g : Cap) :
    (createObject g .capTable (p >>> 1) 0 false).Names p :=
  names_capTable (h.served.pages p hp).1 (h.even hp) g

/-- The first slot of a thread is the first one of its CNode. -/
theorem lookupSlot_eq (h : Stage U s l q L) {g : Cap} {a : Ptr} (hp : p ∈ l) (ha : a ∈ l)
    (hcap : (p, createObject g .capTable (a >>> 1) 0 false) ∈ L) :
    lookupSlot (p + tcbOffset) 0 s = a := by
  have haddr := (cnodeAddr_half_iff (h.served.pages a ha).1 g 0 false).2 (h.even ha)
  rw [lookupSlot, h.table_eq hp hcap]
  exact (BitVec.add_zero _).trans haddr

end Stage

section IpcTest

variable {U R : Set ℕ} {g : ℕ → Cap} {s : KState} {r : IpcTest}

/-- What `main` finds before it calls `ipc_test`: no thread in the ready queue, no message under
way, no capability. -/
structure BeforeTest (U R : Set ℕ) (s : KState) : Prop where
  /-- The memory table. -/
  memory : Represents s.memblock.memory U
  /-- The reserved memory. -/
  reserved : Represents s.memblock.reserved R
  /-- `ksReadyQueues` was cleared. -/
  queue : s.ksReadyQueues = ⟨NULL, NULL⟩
  /-- No thread is marked. -/
  flags : ∀ t, (s.tcbs t).tcbState.tcbQueued = false
  /-- No message is under way. -/
  boot : IpcBoot s
  /-- The slots are empty. -/
  empty : ∀ slot, (s.ctes slot).cap.capType = capNullCap

theorem BeforeTest.stage (h : BeforeTest U R s) : Stage U s [] [] [] where
  served := ⟨h.memory, ⟨R, h.reserved, by simp⟩, by simp, List.nodup_nil⟩
  ready := .nil h.queue h.flags
  threads := by simp
  boot := h.boot
  slots := ⟨by simp, fun slot _ => h.empty slot⟩
  named := by simp

/-- The capability of the endpoint. -/
def IpcTest.capTest (r : IpcTest) (g : ℕ → Cap) : Cap :=
  createObject (g 3) .endpoint r.endpointTest 0 false

/-- The slots that `ipc_test` fills. -/
def IpcTest.slots (r : IpcTest) (g : ℕ → Cap) (cap : Cap) : List (Ptr × Cap) :=
  [(r.cnode1, r.capTest g), (r.cnode0, r.capTest g),
    (r.tcbObject1, createObject (g 2) .capTable (r.cnode1 >>> 1) 0 false),
    (r.tcbObject0, createObject (g 1) .capTable (r.cnode0 >>> 1) 0 false),
    (r.cteRoot, rootCap (g 0).w2 cap r.untyped)]

/-- What `ipc_test` builds. -/
theorem ipcTest_stage (h₀ : BeforeTest U R s) (h : ipcTest g s = .ok r) :
    ∃ cap, Stage U r.kernel [r.endpointTest, r.cnode1, r.cnode0, r.untyped, r.cteRoot,
      r.tcbObject1, r.tcbObject0] [r.tcbPlugin0, r.tcbPlugin1] (r.slots g cap) := by
  obtain ⟨⟨s₁, p₀⟩, h₁, h⟩ := bind_eq_ok h
  obtain ⟨⟨s₂, p₁⟩, h₂, h⟩ := bind_eq_ok h
  obtain ⟨⟨s₃, p₂⟩, h₃, h⟩ := bind_eq_ok h
  obtain ⟨⟨s₄, p₃⟩, h₄, h⟩ := bind_eq_ok h
  obtain ⟨⟨s₅, p₄⟩, h₅, h⟩ := bind_eq_ok h
  obtain ⟨⟨s₆, p₅⟩, h₆, h⟩ := bind_eq_ok h
  obtain ⟨⟨s₇, p₆⟩, h₇, h⟩ := bind_eq_ok h
  have st₂ := (h₀.stage.alloc h₁).alloc h₂
  have hne : p₀ + tcbOffset ≠ p₁ + tcbOffset := fun heq => by
    have hnodup := st₂.served.nodup
    simp [(BitVec.add_left_inj _).1 heq] at hnodup
  have st₃ := ((st₂.append (p := p₀) (by simp) (by simp)).append (p := p₁) (by simp)
    (by simpa using hne.symm)).alloc h₃
  obtain ⟨⟨h₂₁, h₂₀⟩, h₁₀⟩ : (p₂ ≠ p₁ ∧ p₂ ≠ p₀) ∧ p₁ ≠ p₀ := by
    simpa using st₃.served.nodup
  have st₅ := ((st₃.alloc h₄).modCte (p := p₂) (by simp) (by simp) rfl).alloc h₅
  have st₆ := (st₅.modCte (p := p₀) (by simp) (by simp [h₂₀]) rfl).alloc h₆
  have st₇ := (st₆.modCte (p := p₁) (by simp) (by simp [h₂₁, h₁₀.symm]) rfl).alloc h₇
  have st₈ := st₇.modEndpoint (p := p₆)
  have hnodup := st₈.served.nodup
  simp only [List.nodup_cons, List.mem_cons, List.not_mem_nil, or_false, not_or] at hnodup
  obtain ⟨-, ⟨h₅₄, -, h₅₂, h₅₁, h₅₀⟩, ⟨-, h₄₂, h₄₁, h₄₀⟩, -⟩ := hnodup
  have hslot₀ := st₈.lookupSlot_eq (p := p₀) (a := p₄) (g := g 1) (by simp) (by simp) (by simp)
  have st₉ : Stage U (insertNewCap p₄ (createObject (g 3) .endpoint p₆ 0 false) _) _ _ _ :=
    st₈.modCte (by simp) (by simp [Ne.symm h₄₂, Ne.symm h₄₁, Ne.symm h₄₀]) rfl
  have hslot₁ := st₉.lookupSlot_eq (p := p₁) (a := p₅) (g := g 2) (by simp) (by simp) (by simp)
  have st₁₀ : Stage U (insertNewCap p₅ (createObject (g 3) .endpoint p₆ 0 false) _) _ _ _ :=
    st₉.modCte (by simp) (by
      simp [Ne.symm h₅₄, Ne.symm h₅₂, Ne.symm h₅₁, Ne.symm h₅₀]) rfl
  obtain rfl := Except.ok.inj h
  dsimp only
  rw [hslot₀, hslot₁]
  exact ⟨_, st₁₀⟩

/-- The first CPtr of the thread leads to a capability for the endpoint, with all rights. -/
structure LeadsTo (s : KState) (t e : Ptr) : Prop where
  /-- The thread has a table of capabilities. -/
  table : (s.ctes (tcbPtrCtePtr t tcbCTable)).cap.capType ≠ capNullCap
  /-- It leads to a capability for an endpoint. -/
  type : (s.ctes (lookupSlot t 0 s)).cap.endpointCap.capType = capEndpointCap
  /-- It is one for this endpoint. -/
  names : (s.ctes (lookupSlot t 0 s)).cap.Names e
  /-- The thread may send. -/
  send : (s.ctes (lookupSlot t 0 s)).cap.endpointCap.capCanSend = true
  /-- The thread may receive. -/
  receive : (s.ctes (lookupSlot t 0 s)).cap.endpointCap.capCanReceive = true
  /-- The thread may grant. -/
  grant : (s.ctes (lookupSlot t 0 s)).cap.endpointCap.capCanGrant = true

/-- The capabilities for endpoints that the slots hold, whatever they are meant for. -/
def NamesOnly (E : List Ptr) (s : KState) : Prop :=
  ∀ slot e, kernBase ≤ e → (s.ctes slot).cap.Names e → e ∈ E

/-- The slots of the two CNodes. -/
def IpcTest.cnodeSlots (r : IpcTest) : Set Ptr :=
  MicroKernel.cnodeSlots r.cnode0 ∪ MicroKernel.cnodeSlots r.cnode1

/-- What `ipc_test` leaves to the scheduling loop. -/
structure AfterTest (r : IpcTest) (s : KState) : Prop where
  /-- The threads are different, and their addresses are addresses of threads. -/
  threads : r.tcbPlugin0 ≠ r.tcbPlugin1 ∧ IsThread r.tcbPlugin0 ∧ IsThread r.tcbPlugin1
  /-- They are in the ready queue, in this order, and nothing else is. -/
  ready : ReadyQueue s [r.tcbPlugin0, r.tcbPlugin1]
  /-- All endpoints are idle, and no thread is blocked. -/
  boot : IpcBoot s
  /-- The endpoint is in the kernel. -/
  endpoint : kernBase ≤ r.endpointTest
  /-- Both threads reach it. -/
  leads : LeadsTo s r.tcbPlugin0 r.endpointTest ∧ LeadsTo s r.tcbPlugin1 r.endpointTest
  /-- Each thread has its CNode. -/
  cnodes : lookupSlot r.tcbPlugin0 0 s = r.cnode0 ∧ lookupSlot r.tcbPlugin1 0 s = r.cnode1
  /-- An endpoint of the kernel that a slot of the CNodes names is this one. -/
  reached : ∀ slot ∈ r.cnodeSlots, ∀ e, kernBase ≤ e → (s.ctes slot).cap.Names e →
    e = r.endpointTest
  /-- If any slot names it, it is this one, or the memory of the untyped capability or of a CNode is
  taken for it. -/
  named : NamesOnly [r.endpointTest, r.untyped, r.cnode0, r.cnode1] s

namespace Stage

variable {l : List Ptr} {cap : Cap}

theorem names_capTest (h : Stage U s l [r.tcbPlugin0, r.tcbPlugin1] (r.slots g cap))
    (he : r.endpointTest ∈ l) : (r.capTest g).Names r.endpointTest := by
  rw [Cap.Names, IpcTest.capTest, endpointCap_createObject]
  exact epAddr_setWidth (h.served.pages _ he).1

/-- A thread leads to what is in the first slot of its CNode. -/
theorem leadsTo {p a : Ptr} {c : Cap} (h : Stage U s l [r.tcbPlugin0, r.tcbPlugin1] (r.slots g cap))
    (he : r.endpointTest ∈ l) (hp : p ∈ l) (ha : a ∈ l)
    (htable : (p, createObject c .capTable (a >>> 1) 0 false) ∈ r.slots g cap)
    (hcap : (a, r.capTest g) ∈ r.slots g cap) : LeadsTo s (p + tcbOffset) r.endpointTest := by
  have hslot : (s.ctes (lookupSlot (p + tcbOffset) 0 s)).cap = r.capTest g := by
    rw [h.lookupSlot_eq hp ha htable]
    exact h.slots.holds _ hcap
  have hrights := endpointCap_createObject (g 3) r.endpointTest
  refine ⟨fun hnull => ?_, ?_, ?_, ?_, ?_, ?_⟩
  · rw [h.table_eq hp htable] at hnull
    exact Cap.not_names hnull (h.served.pages a ha).1 (h.names_cnode ha c)
  · rw [hslot, IpcTest.capTest, hrights]
  · rw [hslot]
    exact h.names_capTest he
  · rw [hslot, IpcTest.capTest, hrights]
  · rw [hslot, IpcTest.capTest, hrights]
  · rw [hslot, IpcTest.capTest, hrights]

/-- Nothing else is named. -/
theorem namesOnly (h : Stage U s l [r.tcbPlugin0, r.tcbPlugin1] (r.slots g cap))
    (hl : ∀ p ∈ [r.endpointTest, r.untyped, r.cnode0, r.cnode1], p ∈ l) :
    NamesOnly [r.endpointTest, r.untyped, r.cnode0, r.cnode1] s := by
  intro slot e he hnames
  by_cases hslot : ∃ x ∈ r.slots g cap, x.1 = slot
  · obtain ⟨x, hx, rfl⟩ := hslot
    rw [h.slots.holds x hx] at hnames
    have hend := h.names_capTest (hl _ (by simp))
    simp only [IpcTest.slots, List.mem_cons, List.not_mem_nil, or_false] at hx
    rcases hx with rfl | rfl | rfl | rfl | rfl
    · simp [hnames.symm.trans hend]
    · simp [hnames.symm.trans hend]
    · simp [hnames.symm.trans (h.names_cnode (hl r.cnode1 (by simp)) (g 2))]
    · simp [hnames.symm.trans (h.names_cnode (hl r.cnode0 (by simp)) (g 1))]
    · have huntyped := (h.served.pages _ (hl r.untyped (by simp))).1
      simp [hnames.symm.trans (names_rootCap huntyped (g 0).w2 cap)]
  · have hempty := h.slots.empty slot fun x hx heq => hslot ⟨x, hx, heq⟩
    exact absurd hnames (Cap.not_names hempty he)

/-- A slot of a CNode is empty or holds the capability for the endpoint. -/
theorem reached {a slot e : Ptr} (h : Stage U s l [r.tcbPlugin0, r.tcbPlugin1] (r.slots g cap))
    (he : r.endpointTest ∈ l) (ha : a ∈ l) (hcap : (a, r.capTest g) ∈ r.slots g cap)
    (hslot : slot ∈ MicroKernel.cnodeSlots a) (hbase : kernBase ≤ e)
    (hnames : (s.ctes slot).cap.Names e) : e = r.endpointTest := by
  obtain ⟨i, hi, rfl⟩ := hslot
  by_cases hfull : ∃ x ∈ r.slots g cap, x.1 = a + BitVec.ofNat 64 (40 * i)
  · obtain ⟨x, hx, heq⟩ := hfull
    -- a page that begins in the page of the CNode is this page
    have hxa : x.1 = a := by
      by_contra hne
      refine not_inPage (h.served.pages _ (h.named x hx)).2 (h.served.pages a ha).2 hne
        (show 40 * i < pgsize by omega) ?_
      rw [← heq, InPage, BitVec.sub_self]
      decide
    rw [← heq, hxa, h.slots.holds _ hcap] at hnames
    exact hnames.symm.trans (h.names_capTest he)
  · have hempty := h.slots.empty _ fun x hx heq => hfull ⟨x, hx, heq⟩
    exact absurd hnames (Cap.not_names hempty hbase)

theorem afterTest (h : Stage U s l [r.tcbPlugin0, r.tcbPlugin1] (r.slots g cap))
    (hl : ∀ p ∈ [r.endpointTest, r.cnode1, r.cnode0, r.untyped, r.cteRoot, r.tcbObject1,
      r.tcbObject0], p ∈ l) : AfterTest r s where
  threads := by
    refine ⟨?_, isThread_tcb (h.served.pages _ (hl _ (by simp))),
      isThread_tcb (h.served.pages _ (hl _ (by simp)))⟩
    exact (List.nodup_cons.1 h.ready.repr.nodup).1 ∘ List.mem_singleton.2
  ready := h.ready
  boot := h.boot
  endpoint := (h.served.pages _ (hl _ (by simp))).1
  leads := by
    refine ⟨?_, ?_⟩
    · exact h.leadsTo (a := r.cnode0) (c := g 1) (hl _ (by simp)) (hl _ (by simp)) (hl _ (by simp))
        (by simp [IpcTest.slots]) (by simp [IpcTest.slots])
    · exact h.leadsTo (a := r.cnode1) (c := g 2) (hl _ (by simp)) (hl _ (by simp)) (hl _ (by simp))
        (by simp [IpcTest.slots]) (by simp [IpcTest.slots])
  cnodes := by
    refine ⟨?_, ?_⟩
    · exact h.lookupSlot_eq (g := g 1) (hl _ (by simp)) (hl _ (by simp)) (by simp [IpcTest.slots])
    · exact h.lookupSlot_eq (g := g 2) (hl _ (by simp)) (hl _ (by simp)) (by simp [IpcTest.slots])
  reached := by
    rintro slot (hslot | hslot) e hbase hnames
    · exact h.reached (hl _ (by simp)) (hl _ (by simp)) (by simp [IpcTest.slots]) hslot hbase hnames
    · exact h.reached (hl _ (by simp)) (hl _ (by simp)) (by simp [IpcTest.slots]) hslot hbase hnames
  named := by
    refine h.namesOnly fun p hp => hl p ?_
    simp only [List.mem_cons, List.not_mem_nil, or_false] at hp ⊢
    tauto

end Stage

/-- Whatever the memory map, the reserved memory and the values of variables that are not set: if
`ipc_test` finds its pages, all of them in the window of the kernel, it makes two ready threads that
both reach one idle endpoint. -/
theorem ipcTest_prepares (h₀ : BeforeTest U R s) (h : ipcTest g s = .ok r) :
    AfterTest r r.kernel := by
  obtain ⟨cap, hstage⟩ := ipcTest_stage h₀ h
  exact hstage.afterTest fun _ => id

/-- The kernel with the tables of a small machine, before anything is allocated. -/
def testStart : KState := { KState.zero with memblock := bootTables [⟨0, 0⟩] 0 }

theorem beforeTest_testStart : BeforeTest (usableMemory bootMap) ∅ testStart := by
  have hinit : memblockInit bootMap = .ok testStart.memblock := by decide
  obtain ⟨hmemory, hreserved⟩ := memblockInit_spec (by decide) hinit
  exact ⟨hmemory, hreserved, rfl, fun _ => rfl, ⟨fun _ => rfl, fun _ => nofun⟩,
    fun _ => (by decide : Cap.capType ⟨0, 0, 0⟩ = capNullCap)⟩

theorem exists_ipcTest : ∃ r, ipcTest (fun _ => ⟨0, 0, 0⟩) testStart = .ok r := by
  have hok : (ipcTest (fun _ => ⟨0, 0, 0⟩) testStart).isOk = true := by decide +kernel
  cases h : ipcTest (fun _ => ⟨0, 0, 0⟩) testStart with
  | error _ => rw [h] at hok; cases hok
  | ok r => exact ⟨r, rfl⟩

/-- The objects are made on a small machine. -/
theorem ipcTest_prepares_boot :
    ∃ r, ipcTest (fun _ => ⟨0, 0, 0⟩) testStart = .ok r ∧ AfterTest r r.kernel := by
  obtain ⟨r, hr⟩ := exists_ipcTest
  exact ⟨r, hr, ipcTest_prepares beforeTest_testStart hr⟩

end IpcTest

end MicroKernel
