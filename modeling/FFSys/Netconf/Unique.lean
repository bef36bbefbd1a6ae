import FFSys.Netconf.Interfaces
import FFSys.Netlink.Iterate

/-!
# One entry per interface

`_ffnc_ifi_read` adds an entry for each `RTM_NEWLINK` message without a look at the table, and the
socket delivers notifications of the link group together with the replies.

* `Delivery` — what one `recvmsg` delivers, in messages; `handled` — the messages up to the end of the
  second dump.
* `linkIndex` — the index in a message that adds an entry.
* `readMsgs_spec` — the indices that one datagram adds, by induction on its messages;
  `ifiReadLoop_indices` — those that a run adds, by induction on the datagrams.
* `ffncIfiRead_unique_iff` — the table has one entry per index exactly if these are different.
-/

set_option autoImplicit false

namespace FFSys.Netconf

open FFSys.Lib FFSys.Netlink

/-! ## Deliveries -/

def isDone (m : Nlmsg) : Bool := m.type.toNat == NLMSG_DONE

/-- The fixed part of the body is there. -/
def WellFormed (m : Nlmsg) : Prop :=
  (m.type.toNat = RTM_NEWLINK → ifinfomsgSize ≤ m.body.length) ∧
    (m.type.toNat = RTM_NEWADDR → ifaddrmsgSize ≤ m.body.length)

/-- A datagram of messages, or an error of `recvmsg`. -/
structure Delivery where
  msgs : Option (List Nlmsg)
  errno : Int
  deriving DecidableEq, Repr

def Delivery.recv (d : Delivery) : Recv := ⟨d.msgs.map datagram, d.errno⟩

def Delivery.WellFormed (d : Delivery) : Prop := ∀ ms ∈ d.msgs, ∀ m ∈ ms, Netconf.WellFormed m

/-- The messages of a datagram that are handled. -/
def beforeDone (ms : List Nlmsg) : List Nlmsg := ms.takeWhile fun m => !isDone m

/-- The messages that are handled until `dumps` dumps are done. -/
def handled : Nat → List Delivery → List Nlmsg
  | 0, _ => []
  | _ + 1, [] => []
  | dumps + 1, d :: ds =>
    match d.msgs with
    | none => []
    | some ms => beforeDone ms ++ handled (if ms.any isDone then dumps else dumps + 1) ds

/-- `ifi_index` of a link message; its body is read without the last 4 bytes, and a body that is then
    shorter than `struct ifinfomsg` is skipped. -/
def linkIndex (m : Nlmsg) : Option Nat :=
  if m.type.toNat = RTM_NEWLINK ∧ ifinfomsgSize + 4 ≤ m.body.length then
    some (leNat ((m.body.drop 4).take 4))
  else none

/-- The interfaces of the link messages that are handled in one call. -/
def linkIndices (ds : List Delivery) : List Nat := (handled 2 ds).filterMap linkIndex

def indices (ifs : List IfInfo) : List Nat := ifs.map IfInfo.index

/-! ## What attributes leave as it is -/

section Attributes

variable {mem : List Byte}

theorem linkAttr_keeps {type : Nat} {val : Slice} {nif nif' : IfInfo}
    (h : linkAttr mem type val nif = some nif') : nif'.index = nif.index ∧ nif'.ip = nif.ip := by
  unfold linkAttr at h
  split at h
  · obtain ⟨_, -, rfl⟩ := Option.map_eq_some_iff.mp h
    exact ⟨rfl, rfl⟩
  · split at h
    · split at h
      · obtain ⟨_, -, rfl⟩ := Option.map_eq_some_iff.mp h
        exact ⟨rfl, rfl⟩
      · cases h
        exact ⟨rfl, rfl⟩
    · cases h
      exact ⟨rfl, rfl⟩

theorem addrAttr_index {family type : Nat} {val : Slice} {nif nif' : IfInfo}
    (h : addrAttr mem family type val nif = some nif') : nif'.index = nif.index := by
  unfold addrAttr at h
  split at h
  · split at h
    · obtain ⟨_, -, rfl⟩ := Option.map_eq_some_iff.mp h
      rfl
    · split at h
      · split at h
        · obtain ⟨_, -, rfl⟩ := Option.map_eq_some_iff.mp h
          rfl
        · cases h
      · cases h
        rfl
  · cases h
    rfl

/-- What each attribute leaves as it is. -/
theorem eachAttr_keeps {β : Type} (g : IfInfo → β) {f : Nat → Slice → IfInfo → Option IfInfo}
    (hf : ∀ type val nif nif', f type val nif = some nif' → g nif' = g nif) :
    ∀ (fuel : Nat) (body : Cursor) (nif nif' : IfInfo),
      eachAttr f mem fuel body nif = some nif' → g nif' = g nif := by
  intro fuel
  induction fuel with
  | zero =>
    intro body nif nif' h
    cases h
  | succ fuel ih =>
    intro body nif nif' h
    rw [eachAttr] at h
    split at h
    · cases h
      rfl
    · cases h
    · obtain ⟨type, -, h⟩ := Option.bind_eq_some_iff.mp h
      obtain ⟨nif₁, hstep, hrest⟩ := Option.bind_eq_some_iff.mp h
      rw [ih _ _ _ hrest, hf _ _ _ _ hstep]

theorem newLink_index {body : Slice} {nif : IfInfo} (h : newLink mem body = some nif) :
    readAt mem (body.off + 4) 4 = some nif.index := by
  obtain ⟨index, hread, hattrs⟩ := Option.bind_eq_some_iff.mp h
  rw [hread, eachAttr_keeps IfInfo.index (fun _ _ _ _ h => (linkAttr_keeps h).1) _ _ _ _ hattrs]

/-- A new entry has no addresses. -/
theorem newLink_ip {body : Slice} {nif : IfInfo} (h : newLink mem body = some nif) : nif.ip = [] := by
  obtain ⟨index, -, hattrs⟩ := Option.bind_eq_some_iff.mp h
  exact eachAttr_keeps IfInfo.ip (fun _ _ _ _ h => (linkAttr_keeps h).2) _ _ _ _ hattrs

theorem newAddr_indices {body : Slice} {ifs ifs' : List IfInfo}
    (h : newAddr mem body ifs = some ifs') : indices ifs' = indices ifs := by
  obtain ⟨family, -, h⟩ := Option.bind_eq_some_iff.mp h
  obtain ⟨index, -, h⟩ := Option.bind_eq_some_iff.mp h
  split at h
  · cases h
    rfl
  · rename_i i _
    obtain ⟨nif, hget, h⟩ := Option.bind_eq_some_iff.mp h
    obtain ⟨nif', hattrs, rfl⟩ := Option.map_eq_some_iff.mp h
    have hindex := eachAttr_keeps IfInfo.index (fun _ _ _ _ => addrAttr_index) _ _ _ _ hattrs
    obtain ⟨hi, rfl⟩ := List.getElem?_eq_some_iff.mp hget
    unfold indices
    rw [List.map_set, hindex]
    apply List.ext_getElem (by simp)
    intro j hj hj'
    rw [List.getElem_set]
    split
    · subst j
      simp
    · rfl

end Attributes

/-! ## One datagram -/

/-- What a message or a datagram with the messages `ms` does to the table. -/
def ReadsTo (ms : List Nlmsg) (ifs : List IfInfo) : Handled → Prop
  | .next ifs' => ms.any isDone = false ∧
      indices ifs' = indices ifs ++ (beforeDone ms).filterMap linkIndex
  | .done ifs' => ms.any isDone = true ∧
      indices ifs' = indices ifs ++ (beforeDone ms).filterMap linkIndex
  | .error _ => True
  | .fault => True

section Datagram

variable {mem rest : List Byte} {off : Nat} {m : Nlmsg}

theorem sliceLen_eq {n : Nat} (h : 4 ≤ n) (hn : n + 16 < 2 ^ 32) : sliceLen n = n - 4 := by
  unfold sliceLen
  omega

/-- `ifi_index` in the buffer. -/
theorem read_index (hoff : off ≤ mem.length) (h : mem.drop off = m.bytes ++ rest)
    (hbody : 8 ≤ m.body.length) :
    readAt mem (off + 16 + 4) 4 = some (leNat ((m.body.drop 4).take 4)) := by
  have hinside := body_inside hoff h
  have hdrop := (message_fields hoff h).2
  rw [readAt, if_pos (by omega), ← List.drop_drop, hdrop, List.drop_append_of_le_length (by omega),
    List.take_append_of_le_length (by rw [List.length_drop]; omega)]

theorem isDone_of_type {type : Nat} (h : m.type.toNat = type) : isDone m = (type == NLMSG_DONE) := by
  rw [isDone, h]

theorem linkIndex_of_type (h : m.type.toNat ≠ RTM_NEWLINK) : linkIndex m = none := by
  unfold linkIndex
  rw [if_neg (fun hc => h hc.1)]

/-- A message that is not the last one of a dump. -/
theorem ReadsTo.next {ifs ifs' : List IfInfo} (hnot : isDone m = false)
    (h : indices ifs' = indices ifs ++ (linkIndex m).toList) : ReadsTo [m] ifs (.next ifs') := by
  have hbefore : beforeDone [m] = [m] := by simp [beforeDone, hnot]
  refine ⟨by simp [hnot], ?_⟩
  rw [hbefore, h]
  cases hl : linkIndex m with
  | none => simp [hl]
  | some i => simp [hl]

/-- A link message: too short for `struct ifinfomsg`, or it adds an entry. -/
theorem link_spec (hoff : off ≤ mem.length) (h : mem.drop off = m.bytes ++ rest)
    (body : Slice) (hbody : body.off = off + 16) (hlen : body.len = m.body.length - 4)
    (hsize : 16 ≤ m.body.length) (hlink : m.type.toNat = RTM_NEWLINK) (ifs : List IfInfo) :
    ReadsTo [m] ifs (handleMsg mem ifs m.type.toNat body) := by
  have hnot : isDone m = false := isDone_of_type hlink
  unfold handleMsg
  rw [if_pos hlink]
  split
  · rename_i hshort
    have hnone : linkIndex m = none := by
      unfold linkIndex
      rw [if_neg]
      rintro ⟨-, hlong⟩
      unfold ifinfomsgSize at hshort hlong
      omega
    apply ReadsTo.next hnot
    rw [hnone, Option.toList_none, List.append_nil]
  · rename_i hlong
    split
    · trivial
    · rename_i nif hnif
      have hread := newLink_index hnif
      rw [hbody, read_index hoff h (by omega)] at hread
      have hsome : linkIndex m = some nif.index := by
        unfold linkIndex
        rw [if_pos ⟨hlink, by unfold ifinfomsgSize at hlong ⊢; omega⟩, hread]
      apply ReadsTo.next hnot
      rw [hsome]
      simp [indices]

/-- Any other message adds no entry. -/
theorem other_spec (body : Slice) (hlink : m.type.toNat ≠ RTM_NEWLINK) (ifs : List IfInfo) :
    ReadsTo [m] ifs (handleMsg mem ifs m.type.toNat body) := by
  have hsame : ∀ ifs', indices ifs' = indices ifs →
      indices ifs' = indices ifs ++ (linkIndex m).toList := by
    intro ifs' h
    rw [h, linkIndex_of_type hlink, Option.toList_none, List.append_nil]
  unfold handleMsg
  rw [if_neg hlink]
  split
  · rename_i haddr
    have hnot : isDone m = false := isDone_of_type haddr
    split
    · exact ReadsTo.next hnot (hsame ifs rfl)
    · split
      · trivial
      · rename_i ifs' hifs'
        exact ReadsTo.next hnot (hsame ifs' (newAddr_indices hifs'))
  · split
    · split <;> trivial
    · split
      · rename_i hdone
        have hyes : isDone m = true := isDone_of_type hdone
        refine ⟨by simp [hyes], by simp [beforeDone, hyes]⟩
      · rename_i hdone
        have hnot : isDone m = false := by
          rw [isDone, beq_eq_false_iff_ne]
          exact hdone
        exact ReadsTo.next hnot (hsame ifs rfl)

theorem handleMsg_spec (hoff : off ≤ mem.length) (h : mem.drop off = m.bytes ++ rest)
    (hmem : mem.length < 2 ^ 32) (hwf : WellFormed m) (ifs : List IfInfo) :
    ReadsTo [m] ifs (handleMsg mem ifs m.type.toNat ⟨off + 16, sliceLen m.body.length⟩) := by
  have hinside := body_inside hoff h
  by_cases hlink : m.type.toNat = RTM_NEWLINK
  · have hsize : 16 ≤ m.body.length := hwf.1 hlink
    have hslice := @sliceLen_eq m.body.length (by omega) (by omega)
    exact link_spec hoff h ⟨off + 16, sliceLen m.body.length⟩ rfl hslice hsize hlink ifs
  · exact other_spec _ hlink ifs

/-- The message loop at a message. -/
theorem readMsgs_cons (hoff : off ≤ mem.length) (h : mem.drop off = m.bytes ++ rest)
    (hmem : mem.length < 2 ^ 32) (fuel : Nat) (ifs : List IfInfo) :
    readMsgs mem (fuel + 1) ⟨off, mem.length - off⟩ ifs =
      match handleMsg mem ifs m.type.toNat ⟨off + 16, sliceLen m.body.length⟩ with
      | .next ifs' => readMsgs mem fuel
          ⟨off + m.bytes.length, mem.length - (off + m.bytes.length)⟩ ifs'
      | r => r := by
  have hnext := nextRecord_nlmsg hoff h hmem
  have htype := (message_fields hoff h).1
  cases hr : handleMsg mem ifs m.type.toNat ⟨off + 16, sliceLen m.body.length⟩ <;>
    simp only [readMsgs, ffnetlinkNext, hnext, htype, hr]

end Datagram

/-- A message before others. -/
theorem ReadsTo.cons {m : Nlmsg} {ms : List Nlmsg} {ifs ifs₁ : List IfInfo} {r : Handled}
    (h : ReadsTo [m] ifs (.next ifs₁)) (hr : ReadsTo ms ifs₁ r) : ReadsTo (m :: ms) ifs r := by
  obtain ⟨hnot, hfirst⟩ := h
  have hm : isDone m = false := by simpa using hnot
  have hone : (beforeDone [m]).filterMap linkIndex ++ (beforeDone ms).filterMap linkIndex =
      (beforeDone (m :: ms)).filterMap linkIndex := by
    rw [← List.filterMap_append]
    simp [beforeDone, hm]
  cases r with
  | next ifs' => exact ⟨by simpa [hm] using hr.1, by rw [hr.2, hfirst, List.append_assoc, hone]⟩
  | done ifs' => exact ⟨by simpa [hm] using hr.1, by rw [hr.2, hfirst, List.append_assoc, hone]⟩
  | error err => trivial
  | fault => trivial

/-- Induction on the messages of a datagram. -/
theorem readMsgs_spec {mem : List Byte} (hmem : mem.length < 2 ^ 32) (ms : List Nlmsg) :
    ∀ (off fuel : Nat) (ifs : List IfInfo), off ≤ mem.length → mem.drop off = datagram ms →
      (∀ m ∈ ms, WellFormed m) → ReadsTo ms ifs (readMsgs mem fuel ⟨off, mem.length - off⟩ ifs) := by
  induction ms with
  | nil =>
    intro off fuel ifs hoff h _
    have hend : mem.length - off = 0 := by
      rw [← List.length_drop, h]
      rfl
    cases fuel with
    | zero => trivial
    | succ fuel =>
      rw [readMsgs, hend]
      exact ⟨rfl, by simp [beforeDone]⟩
  | cons m ms ih =>
    intro off fuel ifs hoff h hwf
    have h' : mem.drop off = m.bytes ++ datagram ms := h
    have hlen := length_of_drop hoff h'
    cases fuel with
    | zero => trivial
    | succ fuel =>
      rw [readMsgs_cons hoff h' hmem]
      have hfirst := handleMsg_spec hoff h' hmem (hwf m List.mem_cons_self) ifs
      split
      · rename_i ifs₁ hnext
        rw [hnext] at hfirst
        apply hfirst.cons
        apply ih _ fuel ifs₁ (by omega) (drop_of_drop h')
        intro m' hm'
        exact hwf m' (List.mem_cons_of_mem _ hm')
      · rename_i hstop
        generalize handleMsg mem ifs m.type.toNat ⟨off + 16, sliceLen m.body.length⟩ = r at hfirst hstop
        cases r with
        | next ifs₁ => exact absurd rfl (hstop ifs₁)
        | done ifs₁ =>
          have hm : isDone m = true := by simpa using hfirst.1
          refine ⟨by simp [hm], ?_⟩
          rw [hfirst.2]
          simp [beforeDone, hm]
        | error err => trivial
        | fault => trivial

theorem datagram_spec (ms : List Nlmsg) (hcap : (datagram ms).length ≤ bufCap)
    (hwf : ∀ m ∈ ms, WellFormed m) (ifs : List IfInfo) :
    ReadsTo ms ifs
      (readMsgs (datagram ms) ((datagram ms).length + 1) ⟨0, (datagram ms).length⟩ ifs) := by
  have hmem : (datagram ms).length < 2 ^ 32 := by
    unfold bufCap at hcap
    omega
  exact readMsgs_spec hmem ms 0 ((datagram ms).length + 1) ifs (by omega) rfl hwf

/-! ## Whole runs -/

/-- The dumps that are not done. -/
def dumpsLeft (state : Nat) : Nat := 2 - state % 0x80

def ValidState (state : Nat) : Prop := state = 0 ∨ state = 1 ∨ state = 0x80 ∨ state = 0x81

/-- The state in which datagrams are received. -/
theorem sendRequest_ok {send : Nat → Option Int} {state state' : Nat} (hv : ValidState state)
    (h : sendRequest send state = .ok state') :
    (state' = 0x80 ∨ state' = 0x81) ∧ dumpsLeft state' = dumpsLeft state := by
  unfold sendRequest at h
  rcases hv with rfl | rfl | rfl | rfl
  · rw [if_pos (.inl rfl)] at h
    split at h
    · cases h
    · cases h
      decide
  · rw [if_pos (.inr rfl)] at h
    split at h
    · cases h
    · cases h
      decide
  · rw [if_neg (by decide)] at h
    cases h
    decide
  · rw [if_neg (by decide)] at h
    cases h
    decide

theorem ffnetlinkRecv_ok {d : Delivery} {bytes : List Byte}
    (h : ffnetlinkRecv bufCap d.recv = .ok bytes) :
    ∃ ms, d.msgs = some ms ∧ bytes = datagram ms ∧ bytes.length ≤ bufCap := by
  unfold ffnetlinkRecv at h
  split at h
  · cases h
  · cases h
  · rename_i hdata
    obtain ⟨ms, hms, rfl⟩ := Option.map_eq_some_iff.mp hdata
    split at h
    · cases h
    · cases h
      exact ⟨ms, hms, rfl, by omega⟩

/-- Induction on the datagrams. -/
theorem ifiReadLoop_indices (send : Nat → Option Int) (ds : List Delivery) :
    ∀ (state : Nat) (ifs ifs' : List IfInfo), ValidState state → (∀ d ∈ ds, d.WellFormed) →
      ifiReadLoop send (ds.map Delivery.recv) state ifs = .success ifs' →
        indices ifs' = indices ifs ++ (handled (dumpsLeft state) ds).filterMap linkIndex := by
  induction ds with
  | nil =>
    intro state ifs ifs' _ _ h
    rw [List.map_nil, ifiReadLoop] at h
    split at h <;> cases h
  | cons d ds ih =>
    intro state ifs ifs' hv hwf h
    rw [List.map_cons, ifiReadLoop] at h
    split at h
    · cases h
    rename_i state₁ hsend
    obtain ⟨hstate, hleft⟩ := sendRequest_ok hv hsend
    split at h
    · cases h
    rename_i bytes hrecv
    obtain ⟨ms, hms, rfl, hcap⟩ := ffnetlinkRecv_ok hrecv
    have hread := datagram_spec ms hcap (hwf d List.mem_cons_self ms hms) ifs
    have hrest : ∀ d' ∈ ds, d'.WellFormed := fun d' hd' => hwf d' (List.mem_cons_of_mem _ hd')
    rw [← hleft]
    split at h
    · rename_i ifs₁ hnext
      rw [hnext] at hread
      obtain ⟨hnone, hindices⟩ := hread
      have hv₁ : ValidState state₁ := .inr (.inr hstate)
      rw [ih state₁ ifs₁ ifs' hv₁ hrest h, hindices]
      rcases hstate with rfl | rfl <;>
        simp [handled, dumpsLeft, hms, hnone]
    · cases h
    · cases h
    · rename_i ifs₁ hdone
      rw [hdone] at hread
      obtain ⟨hsome, hindices⟩ := hread
      rcases hstate with rfl | rfl
      · rw [if_neg (by decide)] at h
        have hv₁ : ValidState (nextState 0x80) := .inr (.inl (by decide))
        rw [ih _ ifs₁ ifs' hv₁ hrest h, hindices]
        have hone : dumpsLeft (nextState 0x80) = 1 := by decide
        have htwo : dumpsLeft 0x80 = 2 := by decide
        rw [hone, htwo, handled, hms]
        simp only [hsome, if_true, List.filterMap_append, List.append_assoc]
      · rw [if_pos (by decide)] at h
        cases h
        have hone : dumpsLeft 0x81 = 1 := by decide
        rw [hindices, hone, handled, hms]
        simp [hsome, handled]

/-- **One entry per interface.**  When the function returns 0, the table has at most one entry per
    index exactly if no two of the entries it had before and the link messages handled before the end
    of the second dump have the same index. -/
theorem ffncIfiRead_unique_iff (create alloc : Option Int) (send : Nat → Option Int)
    (ds : List Delivery) (ifs ifs' : List IfInfo) (hwf : ∀ d ∈ ds, d.WellFormed)
    (h : ffncIfiRead ⟨create, alloc, send, ds.map Delivery.recv⟩ ifs = .success ifs') :
    (indices ifs').Nodup ↔ (indices ifs ++ linkIndices ds).Nodup := by
  unfold ffncIfiRead at h
  split at h
  · cases h
  split at h
  · cases h
  have hrun := ifiReadLoop_indices send ds 0 ifs ifs' (.inl rfl) hwf h
  have htwo : dumpsLeft 0 = 2 := by decide
  rw [hrun, htwo, linkIndices]

/-- A link message with the attribute `IFLA_IFNAME`. -/
def loLink (index : BitVec 32) : Nlmsg :=
  ⟨16, 2, 0, 0, List.replicate 4 0 ++ leBytes 4 index.toNat ++ List.replicate 8 0 ++
    [7, 0, 3, 0, 0x6c, 0x6f, 0, 0] ++ [8, 0, 4, 0, 0, 0, 0, 0]⟩

/-- The end of a dump. -/
def endOfDump : Nlmsg := ⟨3, 2, 0, 0, List.replicate 4 0⟩

theorem loLink_wellFormed (index : BitVec 32) : WellFormed (loLink index) := by
  refine ⟨fun _ => ?_, fun _ => ?_⟩ <;> simp [loLink, ifinfomsgSize, ifaddrmsgSize]

theorem endOfDump_wellFormed : WellFormed endOfDump := by
  constructor <;> (intro h; exact absurd h (by decide))

/-- The replies to both requests, with a notification of another interface between them. -/
def twoLinks (i j : BitVec 32) : List Delivery :=
  [⟨some [loLink i, endOfDump], 0⟩, ⟨some [loLink j], 0⟩, ⟨some [endOfDump], 0⟩]

theorem twoLinks_wellFormed (i j : BitVec 32) : ∀ d ∈ twoLinks i j, d.WellFormed := by
  intro d hd ms hms m hm
  simp only [twoLinks, List.mem_cons, List.not_mem_nil, or_false] at hd
  rcases hd with rfl | rfl | rfl
  · cases hms
    rcases List.mem_pair.mp hm with rfl | rfl
    · exact loLink_wellFormed i
    · exact endOfDump_wellFormed
  · cases hms
    rw [List.mem_singleton.mp hm]
    exact loLink_wellFormed j
  · cases hms
    rw [List.mem_singleton.mp hm]
    exact endOfDump_wellFormed

def loEntry (index : Nat) : IfInfo := ⟨index, [0x6c, 0x6f, 0], List.replicate 6 0, []⟩

theorem ffncIfiRead_unique_two_links :
    ffncIfiRead ⟨none, none, fun _ => none, (twoLinks 1 2).map Delivery.recv⟩ [] =
        .success [loEntry 1, loEntry 2] ∧ (indices [loEntry 1, loEntry 2]).Nodup := by
  have hrun : ffncIfiRead ⟨none, none, fun _ => none, (twoLinks 1 2).map Delivery.recv⟩ [] =
      .success [loEntry 1, loEntry 2] := by decide +kernel
  refine ⟨hrun, ?_⟩
  apply (ffncIfiRead_unique_iff none none _ _ [] _ (twoLinks_wellFormed 1 2) hrun).mpr
  decide +kernel

/-- A notification of the interface 1 after it was in the reply. -/
theorem ffncIfiRead_duplicate :
    (∀ d ∈ twoLinks 1 1, d.WellFormed) ∧
      ffncIfiRead ⟨none, none, fun _ => none, (twoLinks 1 1).map Delivery.recv⟩ [] =
        .success [loEntry 1, loEntry 1] ∧ ¬ (indices [loEntry 1, loEntry 1]).Nodup :=
  ⟨twoLinks_wellFormed 1 1, by decide +kernel, by decide⟩

end FFSys.Netconf
