import MicroKernel.Ipc.Grant

/-!
# Capabilities in a message

`transfer_caps` goes through the list of extra capabilities.  For a capability to the endpoint of
the message the receiver gets the badge; any other capability should be derived and inserted into
the receive slot, but what is inserted is `dcRet.cap`, which nothing sets.

* `Unwraps` : what the rounds for capabilities to the endpoint do;
* `transferCapsLoop_unwraps` : the loop up to the first other capability;
* `CapsFaithful` : badges and copies of the listed capabilities, and nothing else, are handed over;
* `transferCaps_faithful_iff` : when that is so.
-/

namespace MicroKernel

/-! ### What a capability is for -/

/-- `capType`, the kind of a capability in all views but the one of `struct _Cap`. -/
def Cap.kind (c : Cap) : U64 := bits c.w1 0 5

/-- The field for the object, which depends on the kind. -/
def Cap.object (c : Cap) : U64 :=
  if c.kind = capNullCap then 0
  else if c.kind = capCnodeCap then c.cnodeCap.capCNodePtr
  else if c.kind ∈ [2, 4, 6, 12] then bits c.w1 16 48  -- untyped, endpoint, notification, thread
  else if c.kind ∈ [1, 3, 7, 9] then bits c.w0 16 48  -- frames, page table, page directory
  else c.w0

/-- The same type and the same object. -/
def IsCopy (c c' : Cap) : Prop := c.kind = c'.kind ∧ c.object = c'.object

/-- A capability to the endpoint at this address, of which it has the low 48 bits. -/
def RefersTo (endpoint : Ptr) (c : Cap) : Prop :=
  c.endpointCap.capType = capEndpointCap ∧ c.endpointCap.capEPPtr = bits endpoint 0 48

/-- `transfer_caps` takes it for a capability to this endpoint. -/
def Matches (endpoint : Ptr) (c : Cap) : Prop :=
  c.endpointCap.capType = capEndpointCap ∧ c.endpointCap.capEPPtr = endpoint

section Views

variable {endpoint : Ptr} {c c' : Cap}

theorem IsCopy.matches (h : IsCopy c c') (hm : Matches endpoint c) : Matches endpoint c' := by
  obtain ⟨hkind, hobject⟩ := h
  obtain ⟨htype, hptr⟩ := hm
  have hc : c.kind = capEndpointCap := htype
  have hc' : c'.kind = capEndpointCap := hkind ▸ hc
  -- the object of a capability of this kind
  have hobj : ∀ d : Cap, d.kind = capEndpointCap → d.object = d.endpointCap.capEPPtr := by
    intro d hd
    simp [Cap.object, hd, capEndpointCap, capNullCap, capCnodeCap, Cap.endpointCap]
  rw [hobj c hc, hobj c' hc'] at hobject
  exact ⟨hc', hobject ▸ hptr⟩

theorem Matches.refersTo (h : Matches endpoint c) : RefersTo endpoint c := by
  obtain ⟨htype, hptr⟩ := h
  refine ⟨htype, ?_⟩
  have hlow : bits (bits c.w1 16 48) 0 48 = bits c.w1 16 48 := by
    simp only [bits]
    refine BitVec.eq_of_getLsbD_eq fun i hi => ?_
    simp only [BitVec.getLsbD_setWidth, BitVec.getLsbD_extractLsb', Nat.zero_add]
    by_cases h48 : i < 48 <;> simp [h48, hi]
  rw [← hptr]
  exact hlow.symm

end Views

/-! ### Rounds that unwrap -/

/-- The capability in the entry `i` of the list. -/
def listedCap (s : KState) (i : ℕ) : Cap := (s.ctes (s.excaprefs i)).cap

/-- From `s` to `s'`, the capabilities `i`, …, `j - 1` were unwrapped: their badges were written and
their bits were set. -/
structure Unwraps (endpoint receiveBuffer : Ptr) (i j : ℕ) (unwrapped : BitVec 3) (s : KState)
    (unwrapped' : BitVec 3) (s' : KState) : Prop where
  /-- The slots. -/
  ctes : s'.ctes = s.ctes
  /-- The list. -/
  excaprefs : s'.excaprefs = s.excaprefs
  /-- They are in the list. -/
  listed : ∀ k, i ≤ k → k < j → s.excaprefs k ≠ NULL ∧ Matches endpoint (listedCap s k)
  /-- The badges. -/
  badge : ∀ k, i ≤ k → k < j →
    s'.ipcBuffers receiveBuffer (osMsgMaxLength + 2 + k) = (listedCap s k).w0
  /-- The words before and behind them. -/
  rest : ∀ k, k < i ∨ j ≤ k → s'.ipcBuffers receiveBuffer (osMsgMaxLength + 2 + k) =
    s.ipcBuffers receiveBuffer (osMsgMaxLength + 2 + k)
  /-- The bits. -/
  bit : ∀ k < 3, unwrapped'.getLsbD k = true ↔ unwrapped.getLsbD k = true ∨ i ≤ k ∧ k < j

namespace Unwraps

variable {endpoint receiveBuffer : Ptr} {i j : ℕ} {unwrapped unwrapped' : BitVec 3} {s s' : KState}

theorem refl (i : ℕ) (unwrapped : BitVec 3) (s : KState) :
    Unwraps endpoint receiveBuffer i i unwrapped s unwrapped s where
  ctes := rfl
  excaprefs := rfl
  listed k h h' := by omega
  badge k h h' := by omega
  rest _ _ := rfl
  bit k _ := by
    have : ¬(i ≤ k ∧ k < i) := by omega
    simp [this]

theorem of_keeps {k : KState} (h : Unwraps endpoint receiveBuffer i j unwrapped k unwrapped' s')
    (hctes : k.ctes = s.ctes) (hrefs : k.excaprefs = s.excaprefs)
    (hbuffers : k.ipcBuffers = s.ipcBuffers) :
    Unwraps endpoint receiveBuffer i j unwrapped s unwrapped' s' := by
  have hlisted : ∀ i, listedCap k i = listedCap s i := fun i => by
    rw [listedCap, listedCap, hctes, hrefs]
  exact ⟨h.ctes.trans hctes, h.excaprefs.trans hrefs,
    fun l hl hlt => hrefs ▸ hlisted l ▸ h.listed l hl hlt,
    fun l hl hlt => hlisted l ▸ h.badge l hl hlt, fun l hl => hbuffers ▸ h.rest l hl, h.bit⟩

theorem cons (hslot : s.excaprefs i ≠ NULL) (hmatch : Matches endpoint (listedCap s i))
    (hij : i < j)
    (h : Unwraps endpoint receiveBuffer (i + 1) j (unwrapped ||| (1 <<< i))
      (setExtraBadge receiveBuffer (listedCap s i).w0 i s) unwrapped' s') :
    Unwraps endpoint receiveBuffer i j unwrapped s unwrapped' s' where
  ctes := h.ctes
  excaprefs := h.excaprefs
  listed k hk hkj := by
    rcases Nat.eq_or_lt_of_le hk with rfl | hk
    · exact ⟨hslot, hmatch⟩
    · exact h.listed k hk hkj
  badge k hk hkj := by
    rcases Nat.eq_or_lt_of_le hk with rfl | hk
    · rw [h.rest i (Or.inl (Nat.lt_succ_self i)), setExtraBadge, ipcBuffers_setBufferWord,
        if_pos ⟨rfl, rfl⟩]
    · exact h.badge k hk hkj
  rest k hk := by
    rw [h.rest k (by omega), setExtraBadge, ipcBuffers_setBufferWord, if_neg (by omega)]
  bit k hk := by
    have hone : ((unwrapped ||| (1 <<< i)) : BitVec 3).getLsbD k = true ↔
        unwrapped.getLsbD k = true ∨ k = i := by
      rw [BitVec.getLsbD_or, Bool.or_eq_true]
      refine or_congr_right ?_
      rw [BitVec.natCast_eq_ofNat, BitVec.getLsbD_ofNat, Nat.one_shiftLeft, Nat.testBit_two_pow]
      simp [hk, eq_comm]
    rw [h.bit k hk, hone, or_assoc]
    refine or_congr_right ?_
    omega

end Unwraps

section Loop

variable {P : Packing} {u : Undef} {endpoint receiveBuffer : Ptr}

/-- `dcRet` happens to be a success with a null capability in round `i`. -/
def Derived (u : Undef) (i : ℕ) : Prop :=
  (u.dcRet i).1 = exceptionNone ∧ (u.dcRet i).2.capType = capNullCap

variable (P u endpoint receiveBuffer) in
/-- The loop unwraps the capabilities in front of the first one that is not to the endpoint. -/
theorem transferCapsLoop_unwraps (n : ℕ) :
    ∀ (i : ℕ) (destSlot : Ptr) (unwrapped : BitVec 3) (s : KState),
      ∃ j unwrapped' s', i ≤ j ∧ j ≤ i + n ∧
        Unwraps endpoint receiveBuffer i j unwrapped s unwrapped' s' ∧
        (j < i + n → s.excaprefs j ≠ NULL → ¬Matches endpoint (listedCap s j)) ∧
        transferCapsLoop P u endpoint receiveBuffer n i destSlot unwrapped s =
          transferCapsLoop P u endpoint receiveBuffer (i + n - j) j destSlot unwrapped' s' := by
  induction n with
  | zero =>
    intro i destSlot unwrapped s
    refine ⟨i, unwrapped, s, le_rfl, le_rfl, Unwraps.refl i unwrapped s, fun h => by omega, ?_⟩
    rw [Nat.add_zero, Nat.sub_self]
  | succ n ih =>
    intro i destSlot unwrapped s
    by_cases h : s.excaprefs i ≠ NULL ∧ Matches endpoint (listedCap s i)
    · obtain ⟨hslot, hmatch⟩ := h
      obtain ⟨j, unwrapped', s', hij, hj, hunwraps, hstop, hloop⟩ := ih (i + 1) destSlot
        (unwrapped ||| (1 <<< i)) (setExtraBadge receiveBuffer (listedCap s i).w0 i s)
      refine ⟨j, unwrapped', s', by omega, by omega, hunwraps.cons hslot hmatch (by omega),
        fun hlt => hstop (by omega), ?_⟩
      have hmatch' : (s.ctes (s.excaprefs i)).cap.endpointCap.capType = capEndpointCap ∧
        (s.ctes (s.excaprefs i)).cap.endpointCap.capEPPtr = endpoint := hmatch
      rw [show i + (n + 1) - j = i + 1 + n - j by omega, ← hloop]
      simp only [transferCapsLoop, if_neg hslot, if_pos hmatch', listedCap]
    · refine ⟨i, unwrapped, s, le_rfl, by omega, Unwraps.refl i unwrapped s,
        fun _ hslot hmatch => h ⟨hslot, hmatch⟩, ?_⟩
      rw [Nat.add_sub_cancel_left]

variable {i : ℕ} {destSlot : Ptr} {unwrapped : BitVec 3} {s : KState}

theorem transferCapsLoop_stop (n : ℕ) (h : 0 < n → s.excaprefs i ≠ NULL →
    ¬Matches endpoint (listedCap s i) ∧ (destSlot = NULL ∨ ¬Derived u i)) :
    transferCapsLoop P u endpoint receiveBuffer n i destSlot unwrapped s = (s, i, unwrapped) := by
  cases n with
  | zero => rfl
  | succ n =>
    replace h := h n.succ_pos
    simp only [transferCapsLoop]
    split_ifs with hslot hmatch hdest hstatus htype
    · rfl
    · exact absurd hmatch (h hslot).1
    · rfl
    · rfl
    · rfl
    · exact absurd ⟨not_not.1 hstatus, not_not.1 htype⟩ ((h hslot).2.resolve_left hdest)

variable (P receiveBuffer unwrapped) in
/-- Where the loop does not stop, `dcRet.cap` is inserted, and no slot is left. -/
theorem transferCapsLoop_insert (n : ℕ) (hslot : s.excaprefs i ≠ NULL)
    (hmatch : ¬Matches endpoint (listedCap s i)) (hdest : destSlot ≠ NULL)
    (hderived : Derived u i) :
    transferCapsLoop P u endpoint receiveBuffer (n + 1) i destSlot unwrapped s =
      transferCapsLoop P u endpoint receiveBuffer n (i + 1) NULL unwrapped
        (cteInsert P (u.dcRet i).2 (s.excaprefs i) destSlot s) := by
  have hmatch' : ¬((s.ctes (s.excaprefs i)).cap.endpointCap.capType = capEndpointCap ∧
    (s.ctes (s.excaprefs i)).cap.endpointCap.capEPPtr = endpoint) := hmatch
  simp only [transferCapsLoop, if_neg hslot, if_neg hmatch', if_neg hdest,
    if_neg (not_not.2 hderived.1), if_neg (not_not.2 hderived.2)]

theorem cap_cteInsert (newCap : Cap) (srcSlot slot : Ptr) :
    ((cteInsert P newCap srcSlot destSlot s).ctes slot).cap =
      if slot = destSlot then newCap else (s.ctes slot).cap := by
  -- nodes of the derivation tree change, capabilities do not
  have hmdb : ∀ (k : KState) (p q : Ptr) (f : MdbNode → MdbNode),
      ((k.modCte p fun c => { c with cteMdbNode := f c.cteMdbNode }).ctes q).cap =
        (k.ctes q).cap := by
    intro k p q f
    by_cases h : q = p
    · subst h
      simp [KState.modCte]
    · simp [KState.modCte, h]
  have hnew : ((s.modCte destSlot fun _ => ⟨newCap, { (s.ctes srcSlot).cteMdbNode with
      mdbPrev := srcSlot, mdbRevocable := false, mdbFirstBadged := false }⟩).ctes slot).cap =
        if slot = destSlot then newCap else (s.ctes slot).cap := by
    by_cases h : slot = destSlot
    · subst h
      simp [KState.modCte]
    · simp [KState.modCte, h]
  have hsrc := hmdb (s.modCte destSlot fun _ => ⟨newCap, { (s.ctes srcSlot).cteMdbNode with
    mdbPrev := srcSlot, mdbRevocable := false, mdbFirstBadged := false }⟩) srcSlot slot
    fun m => { m with mdbNext := P.mdbNext destSlot }
  simp only [cteInsert]
  by_cases hnext : (s.ctes srcSlot).cteMdbNode.mdbNext ≠ 0
  · rw [if_pos hnext]
    exact (hmdb _ _ _ fun m => { m with mdbPrev := destSlot }).trans (hsrc.trans hnew)
  · rw [if_neg hnext]
    exact hsrc.trans hnew

variable (P u endpoint receiveBuffer unwrapped s) in
/-- What the loop does with a receive slot: it unwraps the capabilities `0`, …, `j - 1`, and stops
there or inserts `dcRet.cap` for the next one and unwraps those behind it. -/
theorem transferCapsLoop_outcome (hdest : destSlot ≠ NULL) (n : ℕ) :
    ∃ j unwrapped₁ s₁, j ≤ n ∧ Unwraps endpoint receiveBuffer 0 j unwrapped s unwrapped₁ s₁ ∧
      (((j < n → s.excaprefs j ≠ NULL → ¬Matches endpoint (listedCap s j) ∧ ¬Derived u j) ∧
          transferCapsLoop P u endpoint receiveBuffer n 0 destSlot unwrapped s =
            (s₁, j, unwrapped₁)) ∨
        (s.excaprefs j ≠ NULL ∧ ¬Matches endpoint (listedCap s j) ∧ Derived u j ∧ j < n ∧
          ∃ c unwrapped' s', j + 1 ≤ c ∧ c ≤ n ∧
            Unwraps endpoint receiveBuffer (j + 1) c unwrapped₁
              (cteInsert P (u.dcRet j).2 (s.excaprefs j) destSlot s₁) unwrapped' s' ∧
            transferCapsLoop P u endpoint receiveBuffer n 0 destSlot unwrapped s =
              (s', c, unwrapped'))) := by
  obtain ⟨j, unwrapped₁, s₁, -, hj, hunwraps, hstop, hloop⟩ :=
    transferCapsLoop_unwraps P u endpoint receiveBuffer n 0 destSlot unwrapped s
  rw [Nat.zero_add] at hj hstop hloop
  have hrefs := hunwraps.excaprefs
  have hcap : listedCap s₁ j = listedCap s j := by
    rw [listedCap, listedCap, hunwraps.ctes, hrefs]
  refine ⟨j, unwrapped₁, s₁, hj, hunwraps, ?_⟩
  by_cases hinsert : j < n ∧ s.excaprefs j ≠ NULL ∧ Derived u j
  · obtain ⟨hlt, hslot, hderived⟩ := hinsert
    have hmatch := hstop hlt hslot
    obtain ⟨c, unwrapped', s', hc, hcn, hunwraps', hstop', hloop'⟩ :=
      transferCapsLoop_unwraps P u endpoint receiveBuffer (n - j - 1) (j + 1) NULL unwrapped₁
        (cteInsert P (u.dcRet j).2 (s.excaprefs j) destSlot s₁)
    refine Or.inr ⟨hslot, hmatch, hderived, hlt, c, unwrapped', s', hc, by omega, hunwraps', ?_⟩
    have hstep := transferCapsLoop_insert P receiveBuffer unwrapped₁ (n - j - 1)
      (show s₁.excaprefs j ≠ NULL from hrefs ▸ hslot) (hcap ▸ hmatch) hdest hderived
    rw [hloop, show n - j = n - j - 1 + 1 by omega, hstep, hrefs, hloop']
    refine transferCapsLoop_stop _ fun hpos hslot' => ⟨?_, Or.inl rfl⟩
    rw [hunwraps'.excaprefs] at hslot'
    rw [listedCap, hunwraps'.ctes, hunwraps'.excaprefs]
    exact hstop' (by omega) hslot'
  · have hend : j < n → s.excaprefs j ≠ NULL → ¬Matches endpoint (listedCap s j) ∧ ¬Derived u j :=
      fun hlt hslot => ⟨hstop hlt hslot, fun hderived => hinsert ⟨hlt, hslot, hderived⟩⟩
    refine Or.inl ⟨hend, ?_⟩
    rw [hloop]
    refine transferCapsLoop_stop _ fun hpos hslot => ?_
    rw [hrefs] at hslot
    obtain ⟨hmatch, hderived⟩ := hend (by omega) hslot
    exact ⟨hcap ▸ hmatch, Or.inr hderived⟩

end Loop

/-! ### What is handed over -/

/-- For the listed capability `i` the receiver has got the badge. -/
def BadgeGiven (endpoint receiveBuffer : Ptr) (s s' : KState) (unwrapped : BitVec 3) (i : ℕ) :
    Prop :=
  RefersTo endpoint (listedCap s i) ∧ unwrapped.getLsbD i = true ∧
    s'.ipcBuffers receiveBuffer (osMsgMaxLength + 2 + i) = (listedCap s i).w0

/-- A copy of the listed capability `i` is in the receive slot. -/
def CopyGiven (destSlot : Ptr) (s s' : KState) (unwrapped : BitVec 3) (i : ℕ) : Prop :=
  unwrapped.getLsbD i = false ∧ IsCopy (s'.ctes destSlot).cap (listedCap s i)

/-- From `s` to `s'`, `extraCaps` capabilities of the list were handed over, as badges or, at most
one, as a copy, and nothing else was. -/
structure CapsFaithful (endpoint receiveBuffer destSlot : Ptr) (s s' : KState) (extraCaps : ℕ)
    (unwrapped : BitVec 3) : Prop where
  /-- The capabilities. -/
  handed : ∀ i < extraCaps, BadgeGiven endpoint receiveBuffer s s' unwrapped i ∨
    CopyGiven destSlot s s' unwrapped i
  /-- At most one is in the receive slot. -/
  once : ∀ i < extraCaps, ∀ j < extraCaps, CopyGiven destSlot s s' unwrapped i →
    CopyGiven destSlot s s' unwrapped j → i = j
  /-- A slot that is written holds a copy. -/
  written : ∀ slot, (s'.ctes slot).cap ≠ (s.ctes slot).cap →
    ∃ i < extraCaps, unwrapped.getLsbD i = false ∧ IsCopy (s'.ctes slot).cap (listedCap s i)
  /-- For badges no slot is written. -/
  kept : (∀ i < extraCaps, BadgeGiven endpoint receiveBuffer s s' unwrapped i) → s'.ctes = s.ctes

/-- The first listed capability that is not unwrapped, if `dcRet` is a success with a null
capability in its round, is the one that `dcRet` holds a copy of. -/
def DerivesCopy (u : Undef) (endpoint : Ptr) (s : KState) : Prop :=
  ∀ j < osMsgMaxExtraCaps, (∀ k ≤ j, s.excaprefs k ≠ NULL) →
    (∀ k < j, Matches endpoint (listedCap s k)) → ¬Matches endpoint (listedCap s j) →
      Derived u j → IsCopy (u.dcRet j).2 (listedCap s j)

section Faithful

variable {P : Packing} {u : Undef} {endpoint receiver receiveBuffer destSlot : Ptr}
  {s s' s₁ : KState}
  {unwrapped unwrapped₁ : BitVec 3} {j c : ℕ}

theorem Unwraps.badgeGiven {i : ℕ}
    (h : Unwraps endpoint receiveBuffer i j unwrapped s unwrapped₁ s₁)
    {k : ℕ} (hik : i ≤ k) (hkj : k < j) (hj : j ≤ 3) :
    BadgeGiven endpoint receiveBuffer s s₁ unwrapped₁ k :=
  ⟨(h.listed k hik hkj).2.refersTo, (h.bit k (by omega)).2 (Or.inr ⟨hik, hkj⟩), h.badge k hik hkj⟩

theorem capsFaithful_of_unwraps (h : Unwraps endpoint receiveBuffer 0 j 0 s unwrapped₁ s₁)
    (hj : j ≤ 3) : CapsFaithful endpoint receiveBuffer destSlot s s₁ j unwrapped₁ where
  handed i hi := Or.inl (h.badgeGiven (Nat.zero_le _) hi hj)
  once i hi _ _ hcopy := by
    have hbit := (h.bit i (by omega)).2 (Or.inr ⟨Nat.zero_le _, hi⟩)
    rw [hcopy.1] at hbit
    cases hbit
  written slot hne := absurd (by rw [h.ctes]) hne
  kept _ := h.ctes

/-- Badges, a capability that is inserted, and badges. -/
theorem capsFaithful_insert_iff (h₁ : Unwraps endpoint receiveBuffer 0 j 0 s unwrapped₁ s₁)
    (hmatch : ¬Matches endpoint (listedCap s j)) (hjc : j + 1 ≤ c) (hc : c ≤ 3)
    (h₂ : Unwraps endpoint receiveBuffer (j + 1) c unwrapped₁
      (cteInsert P (u.dcRet j).2 (s.excaprefs j) destSlot s₁) unwrapped s') :
    CapsFaithful endpoint receiveBuffer destSlot s s' c unwrapped ↔
      IsCopy (u.dcRet j).2 (listedCap s j) := by
  -- the bits of the capabilities in front of `j` and behind it are set
  have hbit : ∀ i < c, unwrapped.getLsbD i = true ↔ i ≠ j := by
    intro i hi
    rw [h₂.bit i (by omega), h₁.bit i (by omega)]
    have : (0 : BitVec 3).getLsbD i = false := by simp
    rw [this]
    simp only [Bool.false_eq_true, false_or]
    omega
  have hcap : ∀ slot, (s'.ctes slot).cap =
      if slot = destSlot then (u.dcRet j).2 else (s.ctes slot).cap := by
    intro slot
    rw [h₂.ctes, cap_cteInsert, h₁.ctes]
  have hdest : (s'.ctes destSlot).cap = (u.dcRet j).2 := by rw [hcap, if_pos rfl]
  have hj : unwrapped.getLsbD j = false := by
    rw [← Bool.not_eq_true, hbit j (by omega)]
    exact not_not.2 rfl
  constructor
  · intro h
    rcases h.handed j (by omega) with hbadge | hcopy
    · rw [hbadge.2.1] at hj
      cases hj
    · exact hdest ▸ hcopy.2
  · intro hcopy
    have hone : ∀ i < c, CopyGiven destSlot s s' unwrapped i → i = j := by
      intro i hi hgiven
      by_contra hne
      have := (hbit i hi).2 hne
      rw [hgiven.1] at this
      cases this
    have hgiven : CopyGiven destSlot s s' unwrapped j := ⟨hj, hdest ▸ hcopy⟩
    refine ⟨fun i hi => ?_, fun i hi k hk hi' hk' => (hone i hi hi').trans (hone k hk hk').symm,
      fun slot hne => ⟨j, by omega, hj, ?_⟩, fun hall => ?_⟩
    · rcases Nat.lt_trichotomy i j with hlt | rfl | hlt
      · refine Or.inl ⟨(h₁.listed i (Nat.zero_le _) hlt).2.refersTo, (hbit i hi).2 (by omega), ?_⟩
        rw [h₂.rest i (Or.inl (by omega)), ipcBuffers_cteInsert]
        exact h₁.badge i (Nat.zero_le _) hlt
      · exact Or.inr hgiven
      · -- the receive slot, if it is in the list, holds no capability to the endpoint
        have hnot : ¬Matches endpoint (u.dcRet j).2 := fun hm => hmatch (hcopy.matches hm)
        have hmatch' := (h₂.listed i hlt hi).2
        have hsame : listedCap (cteInsert P (u.dcRet j).2 (s.excaprefs j) destSlot s₁) i =
            listedCap s i := by
          rw [listedCap, excaprefs_cteInsert, cap_cteInsert, h₁.excaprefs] at hmatch' ⊢
          split_ifs at hmatch' ⊢
          · exact absurd hmatch' hnot
          · rw [h₁.ctes, listedCap]
        refine Or.inl ⟨?_, (hbit i hi).2 (by omega), ?_⟩
        · rw [← hsame]
          exact hmatch'.refersTo
        · rw [h₂.badge i hlt hi, hsame]
    · have hslot : slot = destSlot := by
        by_contra hno
        rw [hcap, if_neg hno] at hne
        exact hne rfl
      rw [hslot, hdest]
      exact hcopy
    · have := (hall j (by omega)).2.1
      rw [hj] at this
      cases this

/-- With a valid receive slot, badges and copies of the listed capabilities are handed over, and
nothing else is, if and only if what is inserted happens to be a copy. -/
theorem transferCaps_faithful_iff {info : OsMessageInfo}
    (hdest : (getReceiveSlots u receiver receiveBuffer s).2 ≠ NULL) :
    CapsFaithful endpoint receiveBuffer (getReceiveSlots u receiver receiveBuffer s).2 s
        (transferCaps P u info endpoint receiver receiveBuffer s).1
        (transferCaps P u info endpoint receiver receiveBuffer s).2.extraCaps.toNat
        (transferCaps P u info endpoint receiver receiveBuffer s).2.capsUnwrapped ↔
      DerivesCopy u endpoint s := by
  have hbuffer : receiveBuffer ≠ NULL := by
    rintro rfl
    exact hdest (by rw [getReceiveSlots, if_pos rfl])
  by_cases hempty : s.excaprefs 0 = NULL
  · have htransfer : transferCaps P u info endpoint receiver receiveBuffer s =
        (s, { info with extraCaps := 0, capsUnwrapped := 0 }) := if_pos (Or.inl hempty)
    rw [htransfer]
    refine iff_of_true (capsFaithful_of_unwraps (Unwraps.refl 0 0 s) (Nat.zero_le _)) ?_
    exact fun j _ hlisted => absurd hempty (hlisted 0 (Nat.zero_le _))
  -- the search for the receive slot changes neither slots nor the list nor buffers
  obtain ⟨-, hbuffers, hctes, hrefs⟩ := getReceiveSlots_frame u s receiver receiveBuffer
  have hlisted : ∀ i, listedCap (getReceiveSlots u receiver receiveBuffer s).1 i = listedCap s i :=
    fun i => by rw [listedCap, listedCap, hctes, hrefs]
  obtain ⟨j, unwrapped₁, s₁, hj, h₁, hcases⟩ :=
    transferCapsLoop_outcome P u endpoint receiveBuffer 0
    (getReceiveSlots u receiver receiveBuffer s).1 hdest osMsgMaxExtraCaps
  replace h₁ := h₁.of_keeps hctes hrefs hbuffers
  rw [hlisted, hrefs] at hcases
  have hnum : ∀ c ≤ osMsgMaxExtraCaps, (BitVec.ofNat 2 c).toNat = c := fun c hc => by
    rw [BitVec.toNat_ofNat]
    exact Nat.mod_eq_of_lt (Nat.lt_succ_of_le hc)
  simp only [transferCaps, if_neg (not_or.2 ⟨hempty, hbuffer⟩)]
  rcases hcases with ⟨hstop, hloop⟩ | ⟨hslot, hmatch, hderived, hlt, c, unwrapped', s', hc, hcn, h₂,
    hloop⟩
  · rw [hloop]
    dsimp only
    rw [hnum j hj]
    refine iff_of_true (capsFaithful_of_unwraps h₁ hj) fun i hi hlist hall hno hder => ?_
    rcases Nat.lt_trichotomy i j with hlt | rfl | hlt
    · exact absurd (h₁.listed i (Nat.zero_le _) hlt).2 hno
    · exact absurd hder (hstop hi (hlist i le_rfl)).2
    · exact absurd (hall j hlt) (hstop (hlt.trans hi) (hlist j hlt.le)).1
  · rw [hloop]
    dsimp only
    rw [hnum c hcn, capsFaithful_insert_iff h₁ hmatch hc hcn h₂]
    refine ⟨fun hcopy i _ _ hall hno _ => ?_, fun h => ?_⟩
    · rcases Nat.lt_trichotomy i j with hi | rfl | hi
      · exact absurd (h₁.listed i (Nat.zero_le _) hi).2 hno
      · exact hcopy
      · exact absurd (hall j hi) hmatch
    · refine h j hlt (fun k hk => ?_) (fun k hk =>
        (h₁.listed k (Nat.zero_le _) hk).2) hmatch hderived
      rcases Nat.eq_or_lt_of_le hk with rfl | hk
      · exact hslot
      · exact (h₁.listed k (Nat.zero_le _) hk).1

end Faithful

/-! ### A message with one capability -/

/-- The capability `cap` is listed, and the receiver has a slot for it: its root leads to a CNode at
`0xA00000000`. -/
def oneListed (cap : Cap) : KState :=
  let s := KState.zero.modCte 0xFFFF800000000000 fun c => { c with cap := ⟨0, 10 <<< 48, 0⟩ }
  let s := s.modCte 0xFFFF800000000028 fun c => { c with cap }
  (s.setBufferWord 0xFFFFFFFF9FEC6000 127 1).setExcapref 0 0xFFFF800000000028

/-- The badge of a capability to the endpoint. -/
theorem transferCaps_faithful_iff_badge :
    CapsFaithful 0x9FEC0000 0xFFFFFFFF9FEC6000
        (getReceiveSlots Undef.benign 0xFFFFFFFF9FEC5400 0xFFFFFFFF9FEC6000
          (oneListed ⟨7, 0x9FEC00000004, 0⟩)).2 (oneListed ⟨7, 0x9FEC00000004, 0⟩)
        (transferCaps .recoverable Undef.benign ⟨0, 0, 1, 0⟩ 0x9FEC0000 0xFFFFFFFF9FEC5400
          0xFFFFFFFF9FEC6000 (oneListed ⟨7, 0x9FEC00000004, 0⟩)).1
        (transferCaps .recoverable Undef.benign ⟨0, 0, 1, 0⟩ 0x9FEC0000 0xFFFFFFFF9FEC5400
          0xFFFFFFFF9FEC6000 (oneListed ⟨7, 0x9FEC00000004, 0⟩)).2.extraCaps.toNat
        (transferCaps .recoverable Undef.benign ⟨0, 0, 1, 0⟩ 0x9FEC0000 0xFFFFFFFF9FEC5400
          0xFFFFFFFF9FEC6000 (oneListed ⟨7, 0x9FEC00000004, 0⟩)).2.capsUnwrapped ↔
      DerivesCopy Undef.benign 0x9FEC0000 (oneListed ⟨7, 0x9FEC00000004, 0⟩) :=
  transferCaps_faithful_iff (by decide)

/-- In place of a capability to a notification, a null capability is inserted. -/
theorem not_transferCaps_faithful :
    ¬∀ (P : Packing) (u : Undef) (info : OsMessageInfo) (endpoint receiver receiveBuffer : Ptr)
      (s : KState), (getReceiveSlots u receiver receiveBuffer s).2 ≠ NULL →
        CapsFaithful endpoint receiveBuffer (getReceiveSlots u receiver receiveBuffer s).2 s
          (transferCaps P u info endpoint receiver receiveBuffer s).1
          (transferCaps P u info endpoint receiver receiveBuffer s).2.extraCaps.toNat
          (transferCaps P u info endpoint receiver receiveBuffer s).2.capsUnwrapped := by
  intro hall
  have h := hall .recoverable Undef.benign ⟨0, 0, 1, 0⟩ 0xFFFFFFFF9FEC0000 0xFFFFFFFF9FEC5400
    0xFFFFFFFF9FEC6000 (oneListed ⟨7, 6, 0⟩) (by decide)
  rcases h.handed 0 (by decide) with hbadge | hcopy
  · exact absurd hbadge.2.1 (by decide)
  · exact absurd hcopy.2.1 (by decide)

end MicroKernel
