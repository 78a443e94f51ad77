import MicroKernel.Ipc.Transfer
import Mathlib.Data.List.TakeWhile

/-!
# The right to grant

`do_normal_transfer` looks up the extra capabilities of the message or clears the list that
`transfer_caps` goes through, depending on `canGrant`, but the other way round.

* `tagCaps` : the extra capabilities that a message names;
* `handedCaps_lookupExtraCaps` : what `lookup_extra_caps` leaves for `transfer_caps`;
* `transferCaps_ungranted_iff` : when `transfer_caps` hands over nothing;
* `grantGated_iff` : when a transfer respects the right to grant.
-/

namespace MicroKernel

/-! ### The capabilities of a message -/

/-- The slots that `transfer_caps` goes through. -/
def handedCaps (s : KState) : List Ptr :=
  ((List.range osMsgMaxExtraCaps).map s.excaprefs).takeWhile fun slot => slot ≠ NULL

/-- The slot that the extra capability number `i` of a message names. -/
def extraSlot (sender sendBuffer : Ptr) (s : KState) (i : ℕ) : Ptr :=
  lookupSlot sender (getExtraCptr sendBuffer i s) s

/-- The extra capabilities that a message names; there are none if a lookup fails. -/
def tagCaps (u : Undef) (sender sendBuffer : Ptr) (tag : OsMessageInfo) (s : KState) : List Ptr :=
  if sendBuffer = NULL ∨ ∃ i < tag.extraCaps.toNat, u.lookupSlotStatus i ≠ exceptionNone then []
  else ((List.range tag.extraCaps.toNat).map (extraSlot sender sendBuffer s)).takeWhile
    fun slot => slot ≠ NULL

section ExtraCaps

variable {u : Undef} {sender sendBuffer : Ptr} {tag : OsMessageInfo} {s s' : KState}

theorem excaprefs_setExcapref (i j : ℕ) (slot : Ptr) :
    (s.setExcapref i slot).excaprefs j = if j = i then slot else s.excaprefs j := by
  by_cases h : j = i
  · subst h
    simp [KState.setExcapref]
  · simp [KState.setExcapref, h]

theorem extraSlot_setExcapref (i : ℕ) (slot : Ptr) :
    extraSlot sender sendBuffer (s.setExcapref i slot) = extraSlot sender sendBuffer s := rfl

variable (u sender sendBuffer) in
/-- The loop from round `i` on, with `n` rounds to go: it fails at the first lookup that fails, and
else the slots it found stand behind those found before. -/
theorem lookupExtraCapsLoop_spec (n : ℕ) : ∀ (i : ℕ) (s : KState),
    (lookupExtraCapsLoop u sender sendBuffer n i s).1.ctes = s.ctes ∧
    ((lookupExtraCapsLoop u sender sendBuffer n i s).2 = exceptionNone ↔
      ∀ j, i ≤ j → j < i + n → u.lookupSlotStatus j = exceptionNone) ∧
    ((∀ j, i ≤ j → j < i + n → u.lookupSlotStatus j = exceptionNone) → ∀ j,
      (lookupExtraCapsLoop u sender sendBuffer n i s).1.excaprefs j =
        if i ≤ j ∧ j < i + n then extraSlot sender sendBuffer s j
        else if j = i + n ∧ j < osMsgMaxExtraCaps then NULL else s.excaprefs j) := by
  induction n with
  | zero =>
    intro i s
    simp only [lookupExtraCapsLoop]
    refine ⟨by split_ifs <;> rfl, ⟨fun _ j h₁ h₂ => absurd h₂ (by omega), fun _ => trivial⟩,
      fun _ j => ?_⟩
    have hnone : ¬(i ≤ j ∧ j < i + 0) := by omega
    by_cases hi : i < osMsgMaxExtraCaps
    · simp only [if_pos hi, excaprefs_setExcapref, if_neg hnone]
      congr 1
      exact propext ⟨fun h => ⟨h, h ▸ hi⟩, fun h => h.1⟩
    · simp only [if_neg hi, if_neg hnone]
      rw [if_neg (by omega)]
  | succ n ih =>
    intro i s
    by_cases hi : u.lookupSlotStatus i = exceptionNone
    · have hstep : lookupExtraCapsLoop u sender sendBuffer (n + 1) i s =
          lookupExtraCapsLoop u sender sendBuffer n (i + 1)
            (s.setExcapref i (extraSlot sender sendBuffer s i)) := by
        simp only [lookupExtraCapsLoop, ne_eq, hi, not_true_eq_false, if_false]
        rfl
      obtain ⟨hctes, hstatus, hrefs⟩ :=
        ih (i + 1) (s.setExcapref i (extraSlot sender sendBuffer s i))
      have hall : (∀ j, i ≤ j → j < i + (n + 1) → u.lookupSlotStatus j = exceptionNone) ↔
          ∀ j, i + 1 ≤ j → j < i + 1 + n → u.lookupSlotStatus j = exceptionNone := by
        refine ⟨fun h j h₁ h₂ => h j (by omega) (by omega), fun h j h₁ h₂ => ?_⟩
        rcases Nat.eq_or_lt_of_le h₁ with rfl | hlt
        · exact hi
        · exact h j hlt (by omega)
      rw [hstep, hall]
      refine ⟨hctes, hstatus, fun h j => ?_⟩
      rw [hrefs h j, extraSlot_setExcapref, excaprefs_setExcapref]
      by_cases hj : j = i
      · subst hj
        rw [if_neg (by omega), if_neg (by omega), if_pos rfl, if_pos (by omega)]
      · simp only [if_neg hj]
        congr 1
        · exact propext (by omega)
        · congr 1
          exact propext (by omega)
    · have hstep : lookupExtraCapsLoop u sender sendBuffer (n + 1) i s =
          (s, u.lookupSlotStatus i) := by
        simp only [lookupExtraCapsLoop, ne_eq, hi, not_false_eq_true, if_true]
      rw [hstep]
      exact ⟨rfl, ⟨fun h => absurd h hi, fun h => h i le_rfl (by omega)⟩,
        fun h => absurd (h i le_rfl (by omega)) hi⟩

theorem lookupExtraCaps_ctes (u : Undef) (sender sendBuffer : Ptr) (tag : OsMessageInfo)
    (s : KState) : (lookupExtraCaps u sender sendBuffer tag s).1.ctes = s.ctes := by
  rw [lookupExtraCaps]
  split_ifs
  · rfl
  · exact (lookupExtraCapsLoop_spec u sender sendBuffer tag.extraCaps.toNat 0 s).1

theorem handedCaps_eq_nil_iff : handedCaps s = [] ↔ s.excaprefs 0 = NULL := by
  have hrange : List.range osMsgMaxExtraCaps = [0, 1, 2] := rfl
  rw [handedCaps, hrange]
  by_cases h : s.excaprefs 0 = NULL <;> simp [h]

theorem handedCaps_head {slot : Ptr} {l : List Ptr} (h : handedCaps s = slot :: l) :
    s.excaprefs 0 = slot := by
  have hrange : List.range osMsgMaxExtraCaps = [0, 1, 2] := rfl
  have hne : s.excaprefs 0 ≠ NULL := fun h₀ => by
    rw [handedCaps_eq_nil_iff.2 h₀] at h
    cases h
  rw [handedCaps, hrange] at h
  simp only [List.map_cons, List.takeWhile_cons, hne, ne_eq, not_false_eq_true, decide_true,
    if_true] at h
  exact (List.cons.inj h).1

theorem takeWhile_range {f g : ℕ → Ptr} {n m : ℕ} (hn : n ≤ m) (hfg : ∀ j < n, f j = g j)
    (hend : n < m → f n = NULL) :
    ((List.range m).map f).takeWhile (fun slot => slot ≠ NULL) =
      ((List.range n).map g).takeWhile fun slot => slot ≠ NULL := by
  obtain ⟨k, rfl⟩ := Nat.exists_eq_add_of_le hn
  have hleft : (List.range n).map f = (List.range n).map g :=
    List.map_congr_left fun j hj => hfg j (List.mem_range.1 hj)
  have hright : (((List.range k).map (n + ·)).map f).takeWhile (fun slot => slot ≠ NULL) = [] := by
    cases k with
    | zero => rfl
    | succ k => simp [List.range_succ_eq_map, hend (by omega)]
  rw [List.range_add, List.map_append, List.takeWhile_append, hleft, hright, List.append_nil]
  split_ifs with hall
  · exact (List.takeWhile_prefix _).eq_of_length hall |>.symm
  · rfl

/-- `lookup_extra_caps` and the code behind it leave the extra capabilities of the message for
`transfer_caps`. -/
theorem handedCaps_lookupExtraCaps :
    handedCaps (if (lookupExtraCaps u sender sendBuffer tag s).2 ≠ exceptionNone
      then (lookupExtraCaps u sender sendBuffer tag s).1.setExcapref 0 NULL
      else (lookupExtraCaps u sender sendBuffer tag s).1) = tagCaps u sender sendBuffer tag s := by
  by_cases hbuffer : sendBuffer = NULL
  · have hlookup : lookupExtraCaps u sender sendBuffer tag s =
        (s.setExcapref 0 NULL, exceptionNone) := if_pos hbuffer
    rw [tagCaps, if_pos (Or.inl hbuffer), hlookup, if_neg (by simp), handedCaps_eq_nil_iff]
    simp [excaprefs_setExcapref]
  have hlookup : lookupExtraCaps u sender sendBuffer tag s =
      lookupExtraCapsLoop u sender sendBuffer tag.extraCaps.toNat 0 s := if_neg hbuffer
  obtain ⟨-, hstatus, hrefs⟩ := lookupExtraCapsLoop_spec u sender sendBuffer
    tag.extraCaps.toNat 0 s
  rw [← hlookup] at hstatus hrefs
  by_cases hok : (lookupExtraCaps u sender sendBuffer tag s).2 = exceptionNone
  · have hall := hstatus.1 hok
    rw [if_neg (not_not.2 hok), tagCaps, if_neg]
    · have hlen : tag.extraCaps.toNat ≤ osMsgMaxExtraCaps := by
        have := tag.extraCaps.isLt
        unfold osMsgMaxExtraCaps
        omega
      refine takeWhile_range hlen (fun j hj => ?_) fun hlt => ?_
      · rw [hrefs hall, if_pos ⟨Nat.zero_le _, by omega⟩]
      · rw [hrefs hall, if_neg (by omega), if_pos ⟨by omega, hlt⟩]
    · rintro (h | ⟨i, hi, h⟩)
      · exact hbuffer h
      · exact h (hall i (Nat.zero_le _) (by omega))
  · rw [if_pos hok, tagCaps, if_pos, handedCaps_eq_nil_iff]
    · simp [excaprefs_setExcapref]
    · by_contra hno
      simp only [not_or, not_exists, not_and, not_not] at hno
      exact hok (hstatus.2 fun j _ hj => hno.2 j (by omega))

end ExtraCaps

theorem copyWords_keeps (sendBuffer recvBuffer : Ptr) (n : ℕ) (s : KState) :
    (copyWords sendBuffer recvBuffer n s).ctes = s.ctes ∧
      (copyWords sendBuffer recvBuffer n s).excaprefs = s.excaprefs := by
  rw [copyWords]
  induction List.range n generalizing s with
  | nil => exact ⟨rfl, rfl⟩
  | cons i is ih =>
    rw [List.foldl_cons]
    exact ih _

/-! ### Handing them over -/

section Transfer

variable {P : Packing} {u : Undef} {endpoint receiver receiveBuffer slot : Ptr} {s s' : KState}

/-- `transfer_caps` stops at the first extra capability: it does not unwrap it, and it has no slot
for it or what it finds in `dcRet` is no success with a null capability. -/
def StopsAt (u : Undef) (endpoint receiver receiveBuffer slot : Ptr) (s : KState) : Prop :=
  ¬((s.ctes slot).cap.endpointCap.capType = capEndpointCap ∧
      (s.ctes slot).cap.endpointCap.capEPPtr = endpoint) ∧
    ((getReceiveSlots u receiver receiveBuffer s).2 = NULL ∨ (u.dcRet 0).1 ≠ exceptionNone ∨
      (u.dcRet 0).2.capType ≠ capNullCap)

variable (P u endpoint receiveBuffer) in
theorem transferCapsLoop_count (n : ℕ) :
    ∀ (i : ℕ) (destSlot : Ptr) (unwrapped : BitVec 3) (s : KState),
      i ≤ (transferCapsLoop P u endpoint receiveBuffer n i destSlot unwrapped s).2.1 ∧
        (transferCapsLoop P u endpoint receiveBuffer n i destSlot unwrapped s).2.1 ≤ i + n := by
  induction n with
  | zero => exact fun i _ _ _ => ⟨le_rfl, le_rfl⟩
  | succ n ih =>
    intro i destSlot unwrapped s
    simp only [transferCapsLoop]
    split_ifs
    case pos => exact ⟨le_rfl, Nat.le_add_right _ _⟩
    case pos =>
      obtain ⟨h₁, h₂⟩ := ih (i + 1) destSlot (unwrapped ||| (1 <<< i))
        (setExtraBadge receiveBuffer (s.ctes (s.excaprefs i)).cap.w0 i s)
      exact ⟨by omega, by omega⟩
    case neg =>
      obtain ⟨h₁, h₂⟩ := ih (i + 1) NULL unwrapped
        (cteInsert P (u.dcRet i).2 (s.excaprefs i) destSlot s)
      exact ⟨by omega, by omega⟩
    all_goals exact ⟨le_rfl, Nat.le_add_right _ _⟩

theorem getReceiveSlots_congr (hctes : s'.ctes = s.ctes)
    (hbuffer : loadCapTransfer receiveBuffer s' = loadCapTransfer receiveBuffer s) :
    (getReceiveSlots u receiver receiveBuffer s').2 =
      (getReceiveSlots u receiver receiveBuffer s).2 := by
  have hcap : ∀ status cPtr, lookupCap status receiver cPtr s' = lookupCap status receiver cPtr s :=
    fun status cPtr => by simp only [lookupCap, lookupSlot, hctes]
  have hlookup : ∀ root capptr depth, (lookupTargetSlot u root capptr depth s').2 =
      (lookupTargetSlot u root capptr depth s).2 := fun root capptr depth =>
    lookupSlotForCnodeOp_snd u s false root capptr depth s'
  simp only [getReceiveSlots_snd, hbuffer, hcap, hlookup, hctes]

/-- A second round means that a capability was handed over in the first one. -/
theorem transferCapsLoop_ne_zero (n : ℕ) (destSlot : Ptr) (unwrapped : BitVec 3) (s : KState) :
    (transferCapsLoop P u endpoint receiveBuffer n (0 + 1) destSlot unwrapped s).2.1 ≠ 0 :=
  Nat.one_le_iff_ne_zero.1
    (transferCapsLoop_count P u endpoint receiveBuffer n 1 destSlot unwrapped s).1

variable (P u endpoint receiveBuffer s) in
theorem transferCapsLoop_stops_iff (n : ℕ) (destSlot : Ptr) (unwrapped : BitVec 3)
    (hslot : s.excaprefs 0 ≠ NULL) :
    (transferCapsLoop P u endpoint receiveBuffer (n + 1) 0 destSlot unwrapped s).2.1 = 0 ↔
      ¬((s.ctes (s.excaprefs 0)).cap.endpointCap.capType = capEndpointCap ∧
          (s.ctes (s.excaprefs 0)).cap.endpointCap.capEPPtr = endpoint) ∧
        (destSlot = NULL ∨ (u.dcRet 0).1 ≠ exceptionNone ∨
          (u.dcRet 0).2.capType ≠ capNullCap) := by
  rw [transferCapsLoop]
  simp only [if_neg hslot]
  by_cases hunwrap : (s.ctes (s.excaprefs 0)).cap.endpointCap.capType = capEndpointCap ∧
      (s.ctes (s.excaprefs 0)).cap.endpointCap.capEPPtr = endpoint
  · rw [if_pos hunwrap]
    exact iff_of_false (transferCapsLoop_ne_zero _ _ _ _) fun h => h.1 hunwrap
  rw [if_neg hunwrap, and_iff_right hunwrap]
  by_cases hdest : destSlot = NULL
  · rw [if_pos hdest]
    exact iff_of_true rfl (Or.inl hdest)
  by_cases hstatus : (u.dcRet 0).1 ≠ exceptionNone
  · rw [if_neg hdest, if_pos hstatus]
    exact iff_of_true rfl (Or.inr (Or.inl hstatus))
  by_cases htype : (u.dcRet 0).2.capType ≠ capNullCap
  · rw [if_neg hdest, if_neg hstatus, if_pos htype]
    exact iff_of_true rfl (Or.inr (Or.inr htype))
  · rw [if_neg hdest, if_neg hstatus, if_neg htype]
    exact iff_of_false (transferCapsLoop_ne_zero _ _ _ _)
      (not_or.2 ⟨hdest, not_or.2 ⟨hstatus, htype⟩⟩)

variable (P u endpoint receiveBuffer s) in
theorem transferCapsLoop_eq_self (n : ℕ) (destSlot : Ptr) (unwrapped : BitVec 3)
    (h : (transferCapsLoop P u endpoint receiveBuffer n 0 destSlot unwrapped s).2.1 = 0) :
    (transferCapsLoop P u endpoint receiveBuffer n 0 destSlot unwrapped s).1 = s := by
  cases n with
  | zero => rfl
  | succ n =>
    rw [transferCapsLoop] at h ⊢
    simp only at h ⊢
    split_ifs at h ⊢
    · rfl
    · exact absurd h (transferCapsLoop_ne_zero _ _ _ _)
    · rfl
    · rfl
    · rfl
    · exact absurd h (transferCapsLoop_ne_zero _ _ _ _)

variable (P u endpoint receiver receiveBuffer s) in
/-- `transfer_caps` hands over nothing if and only if it is given nothing, has nowhere to put it or
stops at the first capability; then it writes no slot. -/
theorem transferCaps_ungranted_iff (info : OsMessageInfo) :
    ((transferCaps P u info endpoint receiver receiveBuffer s).2.extraCaps = 0 ∧
        (transferCaps P u info endpoint receiver receiveBuffer s).1.ctes = s.ctes) ↔
      s.excaprefs 0 = NULL ∨ receiveBuffer = NULL ∨
        StopsAt u endpoint receiver receiveBuffer (s.excaprefs 0) s := by
  by_cases hempty : s.excaprefs 0 = NULL ∨ receiveBuffer = NULL
  · have htransfer : transferCaps P u info endpoint receiver receiveBuffer s =
        (s, { info with extraCaps := 0, capsUnwrapped := 0 }) := if_pos hempty
    rw [htransfer]
    simp only [and_self, true_iff]
    exact hempty.imp_right Or.inl
  rw [← or_assoc, or_iff_right hempty]
  obtain ⟨-, -, hctes, hrefs⟩ := getReceiveSlots_frame u s receiver receiveBuffer
  have hslot : (getReceiveSlots u receiver receiveBuffer s).1.excaprefs 0 ≠ NULL := by
    rw [hrefs]
    exact fun h => hempty (Or.inl h)
  have hstops := transferCapsLoop_stops_iff P u endpoint receiveBuffer _ 2
    (getReceiveSlots u receiver receiveBuffer s).2 0 hslot
  have hself := transferCapsLoop_eq_self P u endpoint receiveBuffer
    (getReceiveSlots u receiver receiveBuffer s).1 (2 + 1)
    (getReceiveSlots u receiver receiveBuffer s).2 0
  have hcount := (transferCapsLoop_count P u endpoint receiveBuffer (2 + 1) 0
    (getReceiveSlots u receiver receiveBuffer s).2 0
    (getReceiveSlots u receiver receiveBuffer s).1).2
  simp only [hctes, hrefs] at hstops
  rw [StopsAt, ← hstops]
  simp only [transferCaps, if_neg hempty]
  -- the field of two bits holds the count, which is at most three
  refine ⟨fun h => ?_, fun h => ⟨?_, ?_⟩⟩
  · have hcaps := congrArg BitVec.toNat h.1
    rw [BitVec.toNat_ofNat] at hcaps
    exact (Nat.mod_eq_of_lt (Nat.lt_succ_of_le hcount)).symm.trans hcaps
  · rw [show osMsgMaxExtraCaps = 2 + 1 from rfl, h]
    rfl
  · rw [show osMsgMaxExtraCaps = 2 + 1 from rfl, hself h, hctes]

end Transfer

/-! ### The gate -/

section Gate

variable {P : Packing} {u : Undef} {sender sendBuffer endpoint receiver receiveBuffer : Ptr}
  {badge : U64} {canGrant : Bool} {s s' : KState}

/-- The tag of the message that a thread sends. -/
def sentTag (sender : Ptr) (s : KState) : OsMessageInfo := messageinfoFromU64 (s.tcbs sender).tf.rsi

/-- What `do_normal_transfer` does before it copies the message: it fills or clears the list of
extra capabilities. -/
def fillExcaprefs (u : Undef) (sender sendBuffer : Ptr) (canGrant : Bool) (s : KState) : KState :=
  if canGrant = false then
    let (s', status) := lookupExtraCaps u sender sendBuffer (sentTag sender s) s
    if status ≠ exceptionNone then s'.setExcapref 0 NULL else s'
  else s.setExcapref 0 NULL

/-- The state in which `do_normal_transfer` calls `transfer_caps`. -/
def transferState (u : Undef) (sender sendBuffer : Ptr) (canGrant : Bool) (receiveBuffer : Ptr)
    (s : KState) : Option KState :=
  copyMRs sendBuffer receiveBuffer (sentTag sender s).length.toNat
    (fillExcaprefs u sender sendBuffer canGrant s)

/-- The tag of the message that a thread has received. -/
def receivedTag (receiver : Ptr) (s : KState) : OsMessageInfo :=
  messageinfoFromU64 ((s.tcbs receiver).registers msgInfoRegister)

/-- A transfer from `s` to `s'` respects the right to grant: with it, the extra capabilities that
the message names are handed to `transfer_caps`; without it, none is delivered and no slot is
written. -/
def GrantGated (u : Undef) (sender sendBuffer : Ptr) (canGrant : Bool)
    (receiver receiveBuffer : Ptr) (s s' : KState) : Prop :=
  if canGrant then
    ∃ s₂, transferState u sender sendBuffer canGrant receiveBuffer s = some s₂ ∧
      handedCaps s₂ = tagCaps u sender sendBuffer (sentTag sender s) s
  else (receivedTag receiver s').extraCaps = 0 ∧ s'.ctes = s.ctes

/-- A transfer is a call of `transfer_caps` in that state, behind which the receiver gets the tag
and the badge. -/
theorem doNormalTransfer_eq_some
    (h : doNormalTransfer P u sender sendBuffer endpoint badge canGrant receiver receiveBuffer s =
      some s') :
    ∃ s₂, transferState u sender sendBuffer canGrant receiveBuffer s = some s₂ ∧
      s'.ctes = (transferCaps P u (sentTag sender s) endpoint receiver receiveBuffer s₂).1.ctes ∧
      receivedTag receiver s' =
        { (transferCaps P u (sentTag sender s) endpoint receiver receiveBuffer s₂).2 with
          length := BitVec.ofNat 7 (min (u.copyMRs.setWidth 7).toNat osMsgMaxLength) } := by
  simp only [doNormalTransfer, bind, Option.bind_eq_some_iff, pure, Option.some.injEq] at h
  obtain ⟨s₂, hcopy, rfl⟩ := h
  refine ⟨s₂, hcopy, rfl, ?_⟩
  rw [receivedTag]
  simp only [KState.setRegister, KState.tcbs_modTcb_self]
  rw [Function.update_of_ne (by decide), Function.update_self, messageinfoFromU64_u64]
  rfl

theorem transferState_eq_some {s₂ : KState}
    (h : transferState u sender sendBuffer canGrant receiveBuffer s = some s₂) :
    s₂.ctes = s.ctes ∧
      s₂.excaprefs = (fillExcaprefs u sender sendBuffer canGrant s).excaprefs ∧
      loadCapTransfer receiveBuffer s₂ = loadCapTransfer receiveBuffer s := by
  have hfill : (fillExcaprefs u sender sendBuffer canGrant s).ctes = s.ctes ∧
      (fillExcaprefs u sender sendBuffer canGrant s).ipcBuffers = s.ipcBuffers := by
    have hframe := (lookupExtraCaps_frame (u := u) (s := s) sender sendBuffer (sentTag sender s)).2
    have hctes := lookupExtraCaps_ctes u sender sendBuffer (sentTag sender s) s
    simp only [fillExcaprefs]
    split_ifs
    · exact ⟨hctes, hframe⟩
    · exact ⟨hctes, hframe⟩
    · exact ⟨rfl, rfl⟩
  have hword : ∀ b j, 120 < j → (copyWords sendBuffer receiveBuffer
      (min (sentTag sender s).length.toNat osMsgMaxLength)
        (fillExcaprefs u sender sendBuffer canGrant s)).ipcBuffers b j = s.ipcBuffers b j := by
    intro b j hj
    have hle : min (sentTag sender s).length.toNat osMsgMaxLength ≤ 120 := min_le_right _ _
    rw [copyWords_word, if_neg fun hcopied => absurd (hcopied.2.2.trans hle) (Nat.not_le.2 hj),
      hfill.2]
  obtain ⟨hctes, hrefs⟩ := copyWords_keeps sendBuffer receiveBuffer
    (min (sentTag sender s).length.toNat osMsgMaxLength)
    (fillExcaprefs u sender sendBuffer canGrant s)
  rw [copyMRs_eq_some h]
  refine ⟨hctes.trans hfill.1, hrefs, ?_⟩
  simp only [loadCapTransfer]
  rw [hword _ _ (by decide), hword _ _ (by decide), hword _ _ (by decide)]

/-- A transfer respects the right to grant exactly in these cases.  With the right: the message
names no extra capability.  Without it: the same, or the receiver has no buffer, or `transfer_caps`
stops at the first capability. -/
theorem grantGated_iff
    (h : doNormalTransfer P u sender sendBuffer endpoint badge canGrant receiver receiveBuffer s =
      some s') :
    GrantGated u sender sendBuffer canGrant receiver receiveBuffer s s' ↔
      if canGrant then tagCaps u sender sendBuffer (sentTag sender s) s = []
      else receiveBuffer = NULL ∨
        ∀ slot ∈ (tagCaps u sender sendBuffer (sentTag sender s) s).head?,
          StopsAt u endpoint receiver receiveBuffer slot s := by
  obtain ⟨s₂, hstate, hctes', hextra⟩ := doNormalTransfer_eq_some h
  obtain ⟨hctes, hrefs, hbuffer⟩ := transferState_eq_some hstate
  have hhanded : handedCaps s₂ = handedCaps (fillExcaprefs u sender sendBuffer canGrant s) := by
    rw [handedCaps, handedCaps, hrefs]
  cases canGrant with
  | true =>
    have hnone : handedCaps s₂ = [] := by
      rw [hhanded, handedCaps_eq_nil_iff, fillExcaprefs, if_neg (by decide)]
      simp [excaprefs_setExcapref]
    simp only [GrantGated, if_true, hstate, Option.some.injEq, exists_eq_left', hnone]
    exact eq_comm
  | false =>
    have htag : handedCaps s₂ = tagCaps u sender sendBuffer (sentTag sender s) s := by
      rw [hhanded, fillExcaprefs, if_pos rfl]
      exact handedCaps_lookupExtraCaps
    have hstops : ∀ slot, StopsAt u endpoint receiver receiveBuffer slot s₂ ↔
        StopsAt u endpoint receiver receiveBuffer slot s := fun slot => by
      rw [StopsAt, StopsAt, hctes, getReceiveSlots_congr hctes hbuffer]
    have hungranted := transferCaps_ungranted_iff P u endpoint receiver receiveBuffer s₂
      (sentTag sender s)
    simp only [GrantGated, Bool.false_eq_true, if_false, hctes', hextra, ← hctes, hungranted,
      ← htag]
    rw [hstops]
    cases hcaps : handedCaps s₂ with
    | nil => simp [handedCaps_eq_nil_iff.1 hcaps]
    | cons slot rest =>
      have hne : slot ≠ NULL := fun hnull => by
        rw [handedCaps_eq_nil_iff.2 ((handedCaps_head hcaps).trans hnull)] at hcaps
        cases hcaps
      simp [hne, handedCaps_head hcaps]

end Gate

/-- A thread sends a message that names one capability, from the start of its capability space. -/
def sendWithCap : KState :=
  KState.zero.modTcb 0xFFFFFFFF9FEC1400 fun t =>
    { t with tf := { t.tf with rsi := u64FromMessageinfo ⟨0, 0, 1, 0⟩ } }

theorem doNormalTransfer_sendWithCap (canGrant : Bool) :
    (doNormalTransfer .recoverable Undef.benign 0xFFFFFFFF9FEC1400 0xFFFFFFFF9FEC3000
      0xFFFFFFFF9FEC0000 1 canGrant 0xFFFFFFFF9FEC5400 0xFFFFFFFF9FEC6000 sendWithCap).isSome := by
  cases canGrant <;> decide +kernel

/-- The receiver has no root for the slot to receive in. -/
theorem grantGated_iff_sendWithCap :
    GrantGated Undef.benign 0xFFFFFFFF9FEC1400 0xFFFFFFFF9FEC3000 false 0xFFFFFFFF9FEC5400
        0xFFFFFFFF9FEC6000 sendWithCap (Option.get _ (doNormalTransfer_sendWithCap false)) ↔
      if false then tagCaps Undef.benign 0xFFFFFFFF9FEC1400 0xFFFFFFFF9FEC3000
          (sentTag 0xFFFFFFFF9FEC1400 sendWithCap) sendWithCap = []
      else (0xFFFFFFFF9FEC6000 : Ptr) = NULL ∨
        ∀ slot ∈ (tagCaps Undef.benign 0xFFFFFFFF9FEC1400 0xFFFFFFFF9FEC3000
            (sentTag 0xFFFFFFFF9FEC1400 sendWithCap) sendWithCap).head?,
          StopsAt Undef.benign 0xFFFFFFFF9FEC0000 0xFFFFFFFF9FEC5400 0xFFFFFFFF9FEC6000 slot
            sendWithCap :=
  grantGated_iff (Option.some_get _).symm

/-- With the right to grant, the capability of the message is not handed over. -/
theorem not_grantGated :
    ¬∀ (P : Packing) (u : Undef) (sender sendBuffer endpoint : Ptr) (badge : U64) (canGrant : Bool)
      (receiver receiveBuffer : Ptr) (s s' : KState),
      doNormalTransfer P u sender sendBuffer endpoint badge canGrant receiver receiveBuffer s =
          some s' →
        GrantGated u sender sendBuffer canGrant receiver receiveBuffer s s' := by
  intro hall
  have hgated := hall _ _ _ _ _ _ true _ _ _ _
    (Option.some_get (doNormalTransfer_sendWithCap true)).symm
  obtain ⟨s₂, hstate, hhanded⟩ := hgated
  have hgiven : tagCaps Undef.benign 0xFFFFFFFF9FEC1400 0xFFFFFFFF9FEC3000
      (sentTag 0xFFFFFFFF9FEC1400 sendWithCap) sendWithCap ≠ [] := by decide +kernel
  have hnone : (transferState Undef.benign 0xFFFFFFFF9FEC1400 0xFFFFFFFF9FEC3000 true
      0xFFFFFFFF9FEC6000 sendWithCap).map handedCaps = some [] := by decide +kernel
  rw [hstate, Option.map_some, hhanded] at hnone
  exact hgiven (Option.some.inj hnone)

end MicroKernel
