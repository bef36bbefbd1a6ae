import FFSys.Netconf.Unique
import FFSys.Netlink.Safe

/-!
# Messages of the kernel are read without faults

The body slice of a message is 4 bytes short, so the reader never gets to the last attribute: what is
left for it is less than its length.  The other attributes are all inside of the slice.

* `Attr`, `attrsBytes` — attributes as the kernel lays them out; `LaidOut` — a message made of them.
* `nextRecord_attr`, `nextRecord_last` — the call at an attribute.
* `rtattr_roundTrip` — attributes are read back as they were laid out.
* `eachAttr_isSome` — the attribute loop, by induction on the attributes.
* `ffncIfiRead_no_fault` — a run over such messages does not read outside of a datagram.
-/

set_option autoImplicit false

namespace FFSys.Netconf

open FFSys.Lib FFSys.Netlink

/-! ## Attributes -/

structure Attr where
  type : BitVec 16
  payload : List Byte
  len_lt : payload.length + 4 < 2 ^ 16

def Attr.bytes (a : Attr) : List Byte :=
  leBytes 2 (a.payload.length + 4) ++ (leBytes 2 a.type.toNat ++
    (a.payload ++ padding a.payload.length))

/-- The length with the padding. -/
def Attr.size (a : Attr) : Nat := (a.payload.length + 7) / 4 * 4

def attrsBytes (as : List Attr) : List Byte := (as.map Attr.bytes).flatten

def attrsSize (as : List Attr) : Nat := (as.map Attr.size).sum

theorem Attr.bytes_length (a : Attr) : a.bytes.length = a.size := by
  simp only [Attr.bytes, Attr.size, List.length_append, leBytes_length, padding, List.length_replicate]
  omega

theorem attrsBytes_length (as : List Attr) : (attrsBytes as).length = attrsSize as := by
  induction as with
  | nil => rfl
  | cons a as ih =>
    show (a.bytes ++ attrsBytes as).length = a.size + attrsSize as
    rw [List.length_append, a.bytes_length, ih]

theorem length_le_attrsSize (as : List Attr) : 4 * as.length ≤ attrsSize as := by
  induction as with
  | nil => decide
  | cons a as ih =>
    show 4 * (as.length + 1) ≤ a.size + attrsSize as
    unfold Attr.size
    omega

section Calls

variable {mem rest : List Byte} {off len : Nat} {a : Attr}

theorem attr_fields (hoff : off ≤ mem.length) (h : mem.drop off = a.bytes ++ rest) :
    readAt mem off 2 = some (a.payload.length + 4) ∧ readAt mem (off + 2) 2 = some a.type.toNat ∧
      off + a.size ≤ mem.length := by
  have hlen := length_of_drop hoff h
  rw [a.bytes_length] at hlen
  have h0 : mem.drop off = leBytes 2 (a.payload.length + 4) ++ (leBytes 2 a.type.toNat ++
      (a.payload ++ padding a.payload.length ++ rest)) := by
    rw [h, Attr.bytes]
    simp only [List.append_assoc]
  have h2 := drop_of_drop h0
  rw [leBytes_length] at h2
  have hread := readAt_of_drop hoff h0
  have hread2 := readAt_of_drop (by unfold Attr.size at hlen; omega) h2
  have hlenMod : (a.payload.length + 4) % 256 ^ 2 = a.payload.length + 4 := Nat.mod_eq_of_lt a.len_lt
  have htypeMod : a.type.toNat % 256 ^ 2 = a.type.toNat := Nat.mod_eq_of_lt a.type.isLt
  rw [hlenMod] at hread
  rw [htypeMod] at hread2
  exact ⟨hread, hread2, by omega⟩

/-- The call at an attribute that is inside of the slice. -/
theorem nextRecord_attr (hoff : off ≤ mem.length) (h : mem.drop off = a.bytes ++ rest)
    (hfit : a.size ≤ len) (hlen : len < 2 ^ 64) :
    ffnetlinkRtattrNext mem ⟨off, len⟩ =
      .record off ⟨off + 4, a.payload.length⟩ ⟨off + a.size, len - a.size⟩ := by
  have hread := (attr_fields hoff h).1
  have hbound := a.len_lt
  have hleast : a.payload.length + 4 ≤ a.size := by
    unfold Attr.size
    omega
  have hheads : Heads rtaKind mem ⟨off, len⟩ (a.payload.length + 4) := by
    refine ⟨?_, hread, ?_, ?_⟩
    · show 4 ≤ len
      omega
    · show 4 ≤ a.payload.length + 4
      omega
    · show a.payload.length + 4 ≤ len
      omega
  have halign : rtaKind.align (a.payload.length + 4) = roundUp (a.payload.length + 4) := by
    show (a.payload.length + 4 + 3) % 2 ^ 32 / 4 * 4 = (a.payload.length + 4 + 3) / 4 * 4
    omega
  have hpayload : rtaKind.payload (a.payload.length + 4) = a.payload.length := by
    show (a.payload.length + 4 + 2 ^ 64 - 4) % 2 ^ 64 = _
    omega
  have hadvance : rtaKind.advance ⟨off, len⟩ (a.payload.length + 4) = ⟨off + a.size, len - a.size⟩ :=
    advance_fits halign hfit hlen
  rw [ffnetlinkRtattrNext, nextRecord_record hheads, hadvance, hpayload]
  rfl

/-- The call at the last attribute: 4 bytes of it are missing. -/
theorem nextRecord_last (hoff : off ≤ mem.length) (h : mem.drop off = a.bytes ++ rest)
    (hlen : len = a.size - 4) : ffnetlinkRtattrNext mem ⟨off, len⟩ = .null := by
  obtain ⟨hread, -, hend⟩ := attr_fields hoff h
  apply nextRecord_null
  · intro n hheads
    have hmost : n ≤ len := hheads.most
    have hn : a.payload.length + 4 = n := Option.some.inj (hread.symm.trans hheads.read)
    unfold Attr.size at hlen
    omega
  · decide
  · show off + len ≤ mem.length
    omega

end Calls

/-! ## Round trip -/

/-- What the caller gets of an attribute: its type and its payload. -/
def receivedAttr (mem : List Byte) (r : Record) : Option Nat × Option (List Byte) :=
  (readAt mem (r.hdr + 2) 2, sliceAt mem r.body.off r.body.len)

/-- The cursor after the calls that returned `rs`. -/
def cursorAfter (start : Cursor) (rs : List Record) : Cursor :=
  (rs.getLast?.map Record.after).getD start

theorem cursorAfter_cons (start : Cursor) (r : Record) (rs : List Record) :
    cursorAfter start (r :: rs) = cursorAfter r.after rs := by
  cases rs with
  | nil => rfl
  | cons r' rs => rw [cursorAfter, cursorAfter, List.getLast?_cons_cons]; rfl

/-- The payload is in the buffer behind the header, without the padding. -/
theorem attr_payload {mem rest : List Byte} {off : Nat} {a : Attr} (hoff : off ≤ mem.length)
    (h : mem.drop off = a.bytes ++ rest) :
    sliceAt mem (off + 4) a.payload.length = some a.payload := by
  have hend := (attr_fields hoff h).2.2
  have h0 : mem.drop off = (leBytes 2 (a.payload.length + 4) ++ leBytes 2 a.type.toNat) ++
      (a.payload ++ (padding a.payload.length ++ rest)) := by
    rw [h, Attr.bytes]
    simp only [List.append_assoc]
  have h4 := drop_of_drop h0
  rw [List.length_append, leBytes_length, leBytes_length] at h4
  unfold Attr.size at hend
  rw [sliceAt, if_pos (by omega), h4, List.take_left]

/-- Induction on the attributes, from any position in the buffer. -/
theorem iterate_attrs {mem : List Byte} (hmem : mem.length < 2 ^ 64) (as : List Attr) :
    ∀ (off fuel : Nat), off ≤ mem.length → mem.drop off = attrsBytes as → as.length < fuel →
      ∃ rs, iterate rtaKind mem fuel ⟨off, mem.length - off⟩ = some rs ∧
        rs.map (receivedAttr mem) = as.map (fun a => (some a.type.toNat, some a.payload)) ∧
        cursorAfter ⟨off, mem.length - off⟩ rs = ⟨mem.length, 0⟩ := by
  induction as with
  | nil =>
    intro off fuel hoff h hfuel
    obtain ⟨fuel, rfl⟩ : ∃ n, fuel = n + 1 := ⟨fuel - 1, by omega⟩
    have hend : mem.length ≤ off := List.drop_eq_nil_iff.mp h
    have hzero : mem.length - off = 0 := by omega
    have hnull : nextRecord rtaKind mem ⟨off, 0⟩ = .null := rfl
    refine ⟨[], ?_, rfl, ?_⟩
    · rw [iterate, hzero, hnull]
    · rw [hzero, Nat.le_antisymm hend hoff]
      rfl
  | cons a as ih =>
    intro off fuel hoff h hfuel
    rw [List.length_cons] at hfuel
    obtain ⟨fuel, rfl⟩ : ∃ n, fuel = n + 1 := ⟨fuel - 1, by omega⟩
    have h' : mem.drop off = a.bytes ++ attrsBytes as := h
    obtain ⟨-, htype, hend⟩ := attr_fields hoff h'
    have hnext := nextRecord_attr hoff h' (by omega : a.size ≤ mem.length - off) (by omega)
    have hrest := drop_of_drop h'
    rw [a.bytes_length] at hrest
    have hcursor : mem.length - off - a.size = mem.length - (off + a.size) := by omega
    rw [hcursor] at hnext
    obtain ⟨rs, hrun, hrecs, hlast⟩ := ih (off + a.size) fuel hend hrest (by omega)
    rw [ffnetlinkRtattrNext] at hnext
    refine ⟨⟨off, ⟨off + 4, a.payload.length⟩, ⟨off, mem.length - off⟩,
      ⟨off + a.size, mem.length - (off + a.size)⟩⟩ :: rs, ?_, ?_, ?_⟩
    · rw [iterate, hnext]
      simp only [hrun]
      rfl
    · rw [List.map_cons, List.map_cons, hrecs, receivedAttr]
      rw [htype, attr_payload hoff h']
    · rw [cursorAfter_cons]
      exact hlast

/-- **Attributes are read back as they were laid out**, in order, up to the end of the buffer. -/
theorem rtattr_roundTrip (as : List Attr) (hmem : (attrsBytes as).length < 2 ^ 64) :
    ∃ rs, iterate rtaKind (attrsBytes as) (as.length + 1) ⟨0, (attrsBytes as).length⟩ = some rs ∧
      rs.map (receivedAttr (attrsBytes as)) =
        as.map (fun a => (some a.type.toNat, some a.payload)) ∧
      cursorAfter ⟨0, (attrsBytes as).length⟩ rs = ⟨(attrsBytes as).length, 0⟩ :=
  iterate_attrs hmem as 0 (as.length + 1) (Nat.zero_le _) rfl (Nat.lt_succ_self _)

/-- Two attributes, the first one with padding. -/
theorem rtattr_roundTrip_two :
    let as : List Attr := [⟨3, [108, 111, 0], by decide⟩, ⟨1, [], by decide⟩]
    (attrsBytes as).length < 2 ^ 64 ∧
      ∃ rs, iterate rtaKind (attrsBytes as) 3 ⟨0, 12⟩ = some rs ∧
        rs.map (receivedAttr (attrsBytes as)) =
          [(some 3, some [108, 111, 0]), (some 1, some [])] ∧
        cursorAfter ⟨0, 12⟩ rs = ⟨12, 0⟩ := by
  intro as
  have hlen : (attrsBytes as).length = 12 := rfl
  have hmem : (attrsBytes as).length < 2 ^ 64 := by
    rw [hlen]
    decide
  refine ⟨hmem, ?_⟩
  have h := rtattr_roundTrip as hmem
  rw [hlen] at h
  exact h

/-! ## The attribute loop -/

/-- The handler of attributes does not fail at `a`, wherever it is in the buffer. -/
def Readable (mem : List Byte) (f : Nat → Slice → IfInfo → Option IfInfo) (a : Attr) : Prop :=
  ∀ off nif, off + a.size ≤ mem.length →
    ∃ nif', f a.type.toNat ⟨off + 4, a.payload.length⟩ nif = some nif'

/-- Induction on the attributes. -/
theorem eachAttr_isSome {mem : List Byte} {f : Nat → Slice → IfInfo → Option IfInfo}
    (hmem : mem.length < 2 ^ 64) (as : List Attr) :
    ∀ (off fuel : Nat) (nif : IfInfo) (rest : List Byte), off ≤ mem.length →
      mem.drop off = attrsBytes as ++ rest → as.length < fuel → (∀ a ∈ as, Readable mem f a) →
        ∃ nif', eachAttr f mem fuel ⟨off, attrsSize as - 4⟩ nif = some nif' := by
  induction as with
  | nil =>
    intro off fuel nif rest hoff h hfuel _
    obtain ⟨fuel, rfl⟩ : ∃ n, fuel = n + 1 := ⟨fuel - 1, by omega⟩
    exact ⟨nif, rfl⟩
  | cons a as ih =>
    intro off fuel nif rest hoff h hfuel hreadable
    rw [List.length_cons] at hfuel
    obtain ⟨fuel, rfl⟩ : ∃ n, fuel = n + 1 := ⟨fuel - 1, by omega⟩
    have h' : mem.drop off = a.bytes ++ (attrsBytes as ++ rest) := by
      rw [h]
      exact List.append_assoc _ _ _
    obtain ⟨-, htype, hend⟩ := attr_fields hoff h'
    have htotal := length_of_drop hoff h
    rw [attrsBytes_length] at htotal
    have hsize : attrsSize (a :: as) = a.size + attrsSize as := rfl
    have hleast := length_le_attrsSize as
    rw [eachAttr]
    by_cases hlast : as = []
    · subst hlast
      have hnull : ffnetlinkRtattrNext mem ⟨off, attrsSize [a] - 4⟩ = .null :=
        nextRecord_last hoff h' (by rw [hsize]; rfl)
      rw [hnull]
      exact ⟨nif, rfl⟩
    · have hpos : 0 < as.length := List.length_pos_iff.mpr hlast
      have hfit : a.size ≤ attrsSize (a :: as) - 4 := by omega
      rw [nextRecord_attr hoff h' hfit (by omega)]
      obtain ⟨nif₁, hstep⟩ := hreadable a List.mem_cons_self off nif hend
      have hrest := drop_of_drop h'
      rw [a.bytes_length] at hrest
      have hcursor : attrsSize (a :: as) - 4 - a.size = attrsSize as - 4 := by omega
      obtain ⟨nif', hfinal⟩ := ih (off + a.size) fuel nif₁ rest hend hrest (by omega)
        fun a' ha' => hreadable a' (List.mem_cons_of_mem _ ha')
      refine ⟨nif', ?_⟩
      simp only [htype, Option.bind_some, hstep, hcursor, hfinal]

theorem linkAttr_readable (mem : List Byte) (a : Attr) : Readable mem (linkAttr mem) a := by
  intro off nif hend
  unfold Attr.size at hend
  unfold linkAttr
  split
  · rw [sliceAt, if_pos (by show off + 4 + min a.payload.length 63 ≤ _; omega)]
    exact ⟨_, rfl⟩
  · split
    · split
      · rename_i hsix
        have hsix' : a.payload.length = 6 := hsix
        rw [sliceAt, if_pos (by show off + 4 + 6 ≤ _; omega)]
        exact ⟨_, rfl⟩
      · exact ⟨_, rfl⟩
    · exact ⟨_, rfl⟩

/-- An address has the length of its family. -/
def AddrFits (family : Nat) (a : Attr) : Prop :=
  a.type.toNat = IFA_ADDRESS →
    (family = AF_INET → a.payload.length = 4) ∧ (family = AF_INET6 → a.payload.length = 16)

theorem addrAttr_readable (mem : List Byte) {family : Nat} {a : Attr} (ha : AddrFits family a) :
    Readable mem (addrAttr mem family) a := by
  intro off nif hend
  unfold Attr.size at hend
  unfold addrAttr
  split
  · rename_i htype
    split
    · rename_i hinet
      have hfour := (ha htype).1 hinet
      rw [sliceAt, if_pos (by show off + 4 + 4 ≤ _; omega)]
      exact ⟨_, rfl⟩
    · split
      · rename_i hinet6
        have hsixteen := (ha htype).2 hinet6
        rw [if_pos (by show a.payload.length ≤ 16; omega), sliceAt,
          if_pos (by show off + 4 + a.payload.length ≤ _; omega)]
        exact ⟨_, rfl⟩
      · exact ⟨_, rfl⟩
  · exact ⟨_, rfl⟩

/-! ## Messages -/

/-- A message as the kernel lays it out: the fixed part and attributes. -/
structure LaidOut (m : Nlmsg) : Prop where
  link : m.type.toNat = RTM_NEWLINK → ∃ fixed as, m.body = fixed ++ attrsBytes as ∧
    fixed.length = ifinfomsgSize
  addr : m.type.toNat = RTM_NEWADDR → ∃ family fixed as, m.body = family :: fixed ++ attrsBytes as ∧
    fixed.length + 1 = ifaddrmsgSize ∧ ∀ a ∈ as, AddrFits family.toNat a
  error : m.type.toNat = NLMSG_ERROR → 4 ≤ m.body.length

theorem LaidOut.wellFormed {m : Nlmsg} (h : LaidOut m) : WellFormed m := by
  constructor
  · intro htype
    obtain ⟨fixed, as, hbody, hfixed⟩ := h.link htype
    rw [hbody, List.length_append]
    omega
  · intro htype
    obtain ⟨family, fixed, as, hbody, hfixed, -⟩ := h.addr htype
    rw [hbody, List.length_append, List.length_cons]
    omega

section Messages

variable {mem rest : List Byte} {off : Nat} {m : Nlmsg}

/-- The attributes after the fixed part of the body. -/
theorem attrs_readable {f : Nat → Slice → IfInfo → Option IfInfo} {fixed : List Byte}
    {as : List Attr} (hoff : off ≤ mem.length) (h : mem.drop off = m.bytes ++ rest)
    (hmem : mem.length < 2 ^ 32) (hbody : m.body = fixed ++ attrsBytes as)
    (hf : ∀ a ∈ as, Readable mem f a) (nif : IfInfo) :
    ∃ nif', eachAttr f mem (mem.length + 1)
      ⟨off + 16 + fixed.length, attrsSize as - 4⟩ nif = some nif' := by
  have hdrop := (message_fields hoff h).2
  have hinside := body_inside hoff h
  have hbodyLen : m.body.length = fixed.length + attrsSize as := by
    rw [hbody, List.length_append, attrsBytes_length]
  have hleast := length_le_attrsSize as
  rw [hbody, List.append_assoc] at hdrop
  apply eachAttr_isSome (by omega) as _ _ nif _ (by omega) (drop_of_drop hdrop) (by omega) hf

theorem newLink_isSome {fixed : List Byte} {as : List Attr} (hoff : off ≤ mem.length)
    (h : mem.drop off = m.bytes ++ rest) (hmem : mem.length < 2 ^ 32)
    (hbody : m.body = fixed ++ attrsBytes as) (hfixed : fixed.length = 16) :
    ∃ nif, newLink mem ⟨off + 16, m.body.length - 4⟩ = some nif := by
  have hbodyLen : m.body.length = fixed.length + attrsSize as := by
    rw [hbody, List.length_append, attrsBytes_length]
  obtain ⟨nif, hattrs⟩ := attrs_readable hoff h hmem hbody (fun a _ => linkAttr_readable mem a)
    ⟨leNat ((m.body.drop 4).take 4), [], List.replicate 6 0, []⟩
  refine ⟨nif, ?_⟩
  have hcursor : m.body.length - 4 - ifinfomsgSize = attrsSize as - 4 := by
    unfold ifinfomsgSize
    omega
  unfold newLink
  simp only [read_index hoff h (by omega), Option.bind_some, hcursor]
  rw [hfixed] at hattrs
  exact hattrs

theorem newAddr_isSome {family : Byte} {fixed : List Byte} {as : List Attr}
    (hoff : off ≤ mem.length) (h : mem.drop off = m.bytes ++ rest) (hmem : mem.length < 2 ^ 32)
    (hbody : m.body = family :: fixed ++ attrsBytes as) (hfixed : fixed.length + 1 = 8)
    (hfits : ∀ a ∈ as, AddrFits family.toNat a) (ifs : List IfInfo) :
    ∃ ifs', newAddr mem ⟨off + 16, m.body.length - 4⟩ ifs = some ifs' := by
  have hbodyLen : m.body.length = fixed.length + 1 + attrsSize as := by
    rw [hbody, List.length_append, List.length_cons, attrsBytes_length]
  have hdrop := (message_fields hoff h).2
  have hinside := body_inside hoff h
  have hfamily : readAt mem (off + 16) 1 = some family.toNat := by
    rw [readAt, if_pos (by omega), hdrop, hbody]
    rfl
  have hcursor : m.body.length - 4 - ifaddrmsgSize = attrsSize as - 4 := by
    unfold ifaddrmsgSize
    omega
  unfold newAddr
  simp only [hfamily, read_index hoff h (by omega), Option.bind_some, hcursor]
  split
  · exact ⟨ifs, rfl⟩
  · rename_i i hfind
    obtain ⟨hi, -⟩ := List.findIdx?_eq_some_iff_getElem.mp hfind
    obtain ⟨nif', hattrs⟩ := attrs_readable hoff h hmem hbody
      (fun a ha => addrAttr_readable mem (hfits a ha)) ifs[i]
    rw [List.length_cons, hfixed] at hattrs
    refine ⟨ifs.set i nif', ?_⟩
    rw [List.getElem?_eq_getElem hi, Option.bind_some]
    exact congrArg (Option.map _) hattrs

theorem errorOf_isSome (hoff : off ≤ mem.length) (h : mem.drop off = m.bytes ++ rest) :
    ∃ err, errorOf mem ⟨off + 16, m.body.length - 4⟩ = some err := by
  have hinside := body_inside hoff h
  unfold errorOf
  split
  · rename_i hlong
    have hlong' : 20 < m.body.length - 4 := hlong
    rw [readAt, if_pos (by show off + 16 + 4 ≤ _; omega)]
    exact ⟨_, rfl⟩
  · exact ⟨0, rfl⟩

theorem handleMsg_no_fault (hoff : off ≤ mem.length) (h : mem.drop off = m.bytes ++ rest)
    (hmem : mem.length < 2 ^ 32) (hm : LaidOut m) (ifs : List IfInfo) :
    handleMsg mem ifs m.type.toNat ⟨off + 16, sliceLen m.body.length⟩ ≠ .fault := by
  have hinside := body_inside hoff h
  have hslice : 4 ≤ m.body.length → sliceLen m.body.length = m.body.length - 4 := by
    intro hfour
    exact sliceLen_eq hfour (by omega)
  generalize sliceLen m.body.length = len at hslice
  unfold handleMsg
  split
  · rename_i hlink
    obtain ⟨fixed, as, hbody, hfixed⟩ := hm.link hlink
    have hsize := hm.wellFormed.1 hlink
    rw [hslice (by unfold ifinfomsgSize at hsize; omega)]
    obtain ⟨nif, hnif⟩ := newLink_isSome hoff h hmem hbody hfixed
    split
    · exact Handled.noConfusion
    · rw [hnif]
      exact Handled.noConfusion
  · split
    · rename_i haddr
      obtain ⟨family, fixed, as, hbody, hfixed, hfits⟩ := hm.addr haddr
      have hsize := hm.wellFormed.2 haddr
      rw [hslice (by unfold ifaddrmsgSize at hsize; omega)]
      obtain ⟨ifs', hifs'⟩ := newAddr_isSome hoff h hmem hbody hfixed hfits ifs
      split
      · exact Handled.noConfusion
      · rw [hifs']
        exact Handled.noConfusion
    · split
      · rename_i herror
        rw [hslice (hm.error herror)]
        obtain ⟨err, herr⟩ := errorOf_isSome hoff h
        rw [herr]
        exact Handled.noConfusion
      · split <;> exact Handled.noConfusion

end Messages

/-! ## Runs -/

/-- Induction on the messages of a datagram. -/
theorem readMsgs_no_fault {mem : List Byte} (hmem : mem.length < 2 ^ 32) (ms : List Nlmsg) :
    ∀ (off fuel : Nat) (ifs : List IfInfo), off ≤ mem.length → mem.drop off = datagram ms →
      (∀ m ∈ ms, LaidOut m) → mem.length < fuel + off →
        readMsgs mem fuel ⟨off, mem.length - off⟩ ifs ≠ .fault := by
  induction ms with
  | nil =>
    intro off fuel ifs hoff h _ hfuel
    have hend : mem.length - off = 0 := by
      rw [← List.length_drop, h]
      rfl
    obtain ⟨fuel, rfl⟩ : ∃ n, fuel = n + 1 := ⟨fuel - 1, by omega⟩
    rw [readMsgs, hend]
    exact Handled.noConfusion
  | cons m ms ih =>
    intro off fuel ifs hoff h hlaid hfuel
    have h' : mem.drop off = m.bytes ++ datagram ms := h
    have hlen := length_of_drop hoff h'
    have hpos : 16 ≤ m.bytes.length := by
      rw [bytes_length, spaceOf]
      omega
    obtain ⟨fuel, rfl⟩ : ∃ n, fuel = n + 1 := ⟨fuel - 1, by omega⟩
    rw [readMsgs_cons hoff h' hmem]
    have hfirst := handleMsg_no_fault hoff h' hmem (hlaid m List.mem_cons_self) ifs
    split
    · rename_i ifs₁ _
      apply ih _ fuel ifs₁ (by omega) (drop_of_drop h') _ (by omega)
      intro m' hm'
      exact hlaid m' (List.mem_cons_of_mem _ hm')
    · exact hfirst

/-- Induction on the datagrams. -/
theorem ifiReadLoop_no_fault (send : Nat → Option Int) (ds : List Delivery) :
    ∀ (state : Nat) (ifs : List IfInfo), (∀ d ∈ ds, ∀ ms ∈ d.msgs, ∀ m ∈ ms, LaidOut m) →
      ifiReadLoop send (ds.map Delivery.recv) state ifs ≠ .fault := by
  induction ds with
  | nil =>
    intro state ifs _
    rw [List.map_nil, ifiReadLoop]
    split <;> exact Outcome.noConfusion
  | cons d ds ih =>
    intro state ifs hlaid
    have hrest : ∀ d' ∈ ds, ∀ ms ∈ d'.msgs, ∀ m ∈ ms, LaidOut m :=
      fun d' hd' => hlaid d' (List.mem_cons_of_mem _ hd')
    rw [List.map_cons, ifiReadLoop]
    split
    · exact Outcome.noConfusion
    split
    · exact Outcome.noConfusion
    rename_i bytes hrecv
    obtain ⟨ms, hms, rfl, hcap⟩ := ffnetlinkRecv_ok hrecv
    have hread := readMsgs_no_fault (by unfold bufCap at hcap; omega) ms 0
      ((datagram ms).length + 1) ifs (by omega) (List.drop_zero) (hlaid d List.mem_cons_self ms hms)
      (by omega)
    split
    · exact ih _ _ hrest
    · exact Outcome.noConfusion
    · rename_i hfault
      exact absurd hfault hread
    · split
      · exact Outcome.noConfusion
      · exact ih _ _ hrest

/-- **No read outside of a datagram.**  A run over messages of the kernel returns 0 or -1, or waits. -/
theorem ffncIfiRead_no_fault (create alloc : Option Int) (send : Nat → Option Int)
    (ds : List Delivery) (ifs : List IfInfo) (hlaid : ∀ d ∈ ds, ∀ ms ∈ d.msgs, ∀ m ∈ ms, LaidOut m) :
    ffncIfiRead ⟨create, alloc, send, ds.map Delivery.recv⟩ ifs ≠ .fault := by
  unfold ffncIfiRead
  split
  · exact Outcome.noConfusion
  split
  · exact Outcome.noConfusion
  · exact ifiReadLoop_no_fault send ds 0 ifs hlaid

end FFSys.Netconf
