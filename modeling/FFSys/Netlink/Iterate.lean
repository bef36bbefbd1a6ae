import FFSys.Netlink.Message

/-!
# Reading netlink messages back

* `nextRecord_nlmsg` — the call on a buffer that starts with a message: its header, and the slice of
  its body, which is 4 bytes short: `NLMSG_PAYLOAD(nh, 4)` is `nlmsg_len - 20`.
* `nlmsg_roundTrip_iff` — no message is read back with its body.
-/

set_option autoImplicit false

namespace FFSys.Netlink

open FFSys.Lib

/-! ## Messages -/

theorem nlmsghdr_length (len type flags seq pid : Nat) :
    (nlmsghdr len type flags seq pid).length = 16 := by
  simp [nlmsghdr]

theorem hdr_nlmsgLen (n : Nat) : nlmsgLength (n % 2 ^ 32) % 256 ^ 4 = (n + 16) % 2 ^ 32 := by
  show (n % 2 ^ 32 + 16) % 2 ^ 32 % 256 ^ 4 = _
  omega

/-- The size of a message with a body of `n` bytes. -/
def spaceOf (n : Nat) : Nat := (n + 19) / 4 * 4

theorem bytes_length (m : Nlmsg) : m.bytes.length = spaceOf m.body.length := by
  simp only [Nlmsg.bytes, List.length_append, nlmsghdr_length, padding, List.length_replicate,
    spaceOf]
  omega

/-- The length of the body slice of a message with a body of `n` bytes. -/
def sliceLen (n : Nat) : Nat := ((n + 16) % 2 ^ 32 + 2 ^ 32 - 20) % 2 ^ 32

theorem sliceLen_ne (n : Nat) : sliceLen n ≠ n := by
  unfold sliceLen
  omega

section Fields

variable {mem rest : List Byte} {off : Nat} {m : Nlmsg}

/-- The parts of a message in the buffer. -/
theorem drop_message (h : mem.drop off = m.bytes ++ rest) :
    mem.drop off = leBytes 4 (nlmsgLength (m.body.length % 2 ^ 32)) ++ (leBytes 2 m.type.toNat ++
      (leBytes 2 m.flags.toNat ++ (leBytes 4 m.seq.toNat ++ (leBytes 4 m.pid.toNat ++
        (m.body ++ (padding m.body.length ++ rest)))))) := by
  rw [h, Nlmsg.bytes, nlmsghdr]
  simp only [List.append_assoc]

/-- Header and body are inside of the buffer. -/
theorem body_inside (hoff : off ≤ mem.length) (h : mem.drop off = m.bytes ++ rest) :
    off + 16 + m.body.length ≤ mem.length := by
  have hlen := length_of_drop hoff h
  rw [bytes_length, spaceOf] at hlen
  omega

theorem read_nlmsgLen (hoff : off ≤ mem.length) (h : mem.drop off = m.bytes ++ rest) :
    readAt mem off 4 = some ((m.body.length + 16) % 2 ^ 32) := by
  rw [readAt_of_drop hoff (drop_message h), hdr_nlmsgLen]

/-- Offsets of the fields: `nlmsg_type` at 4, the body at 16. -/
theorem message_fields (hoff : off ≤ mem.length) (h : mem.drop off = m.bytes ++ rest) :
    readAt mem (off + 4) 2 = some m.type.toNat ∧
      mem.drop (off + 16) = m.body ++ (padding m.body.length ++ rest) := by
  have hbody := body_inside hoff h
  have h0 := drop_message h
  have h4 := drop_of_drop h0
  have h6 := drop_of_drop h4
  have h8 := drop_of_drop h6
  have h12 := drop_of_drop h8
  have h16 := drop_of_drop h12
  simp only [leBytes_length, Nat.add_assoc] at h4 h16
  have htype : m.type.toNat % 256 ^ 2 = m.type.toNat := Nat.mod_eq_of_lt m.type.isLt
  refine ⟨?_, h16⟩
  rw [readAt_of_drop (by omega) h4, htype]

/-- The call on a buffer that starts with a message, whatever the length of its body. -/
theorem nextRecord_cases (hoff : off ≤ mem.length) (h : mem.drop off = m.bytes ++ rest) :
    nextRecord nlmsgKind mem ⟨off, mem.length - off⟩ = .null ∨
      ∃ buf, nextRecord nlmsgKind mem ⟨off, mem.length - off⟩ =
        .record off ⟨off + 16, sliceLen m.body.length⟩ buf := by
  have hread := read_nlmsgLen hoff h
  have hbody := body_inside hoff h
  have hlen : ¬ mem.length - off < nlmsgKind.hdrLen := by
    show ¬ mem.length - off < 16
    omega
  by_cases hok : (m.body.length + 16) % 2 ^ 32 < nlmsgKind.hdrLen ∨
      mem.length - off < (m.body.length + 16) % 2 ^ 32
  · left
    simp only [nextRecord, if_neg hlen, show nlmsgKind.lenWidth = 4 from rfl, hread, if_pos hok]
  · right
    simp only [nextRecord, if_neg hlen, show nlmsgKind.lenWidth = 4 from rfl, hread, if_neg hok]
    exact ⟨_, rfl⟩

/-- The same for a message whose length is a 32-bit number; the rest begins after its padding. -/
theorem nextRecord_nlmsg (hoff : off ≤ mem.length) (h : mem.drop off = m.bytes ++ rest)
    (hm : mem.length < 2 ^ 32) :
    nextRecord nlmsgKind mem ⟨off, mem.length - off⟩ =
      .record off ⟨off + 16, sliceLen m.body.length⟩
        ⟨off + m.bytes.length, mem.length - (off + m.bytes.length)⟩ := by
  have hread := read_nlmsgLen hoff h
  have hspace := length_of_drop hoff h
  rw [bytes_length] at hspace ⊢
  unfold spaceOf at hspace ⊢
  have hn : (m.body.length + 16) % 2 ^ 32 = m.body.length + 16 := Nat.mod_eq_of_lt (by omega)
  have halign : nlmsgAlign (m.body.length + 16) = (m.body.length + 19) / 4 * 4 := by
    show (m.body.length + 16 + 3) % 2 ^ 32 / 4 * 4 = _
    omega
  have hlen : ¬ mem.length - off < 16 := by omega
  have hok : ¬ (m.body.length + 16 < 16 ∨ mem.length - off < m.body.length + 16) := by omega
  have hrest : (mem.length - off + 2 ^ 64 - (m.body.length + 19) / 4 * 4) % 2 ^ 64 =
      mem.length - (off + (m.body.length + 19) / 4 * 4) := by omega
  rw [hn] at hread
  simp only [nextRecord, nlmsgKind, if_neg hlen, hread, if_neg hok, halign, hrest, sliceLen, hn]
  rfl

end Fields

/-! ## Round trip -/

/-- What the caller gets of a message: its type, its sequence number and its body. -/
def received (mem : List Byte) (r : Record) : Option Nat × Option Nat × Option (List Byte) :=
  (readAt mem (r.hdr + 4) 2, readAt mem (r.hdr + 8) 4, sliceAt mem r.body.off r.body.len)

/-- The messages are read back as they were sent. -/
def RoundTrip (ms : List Msg) : Prop :=
  ∃ fuel rs, iterate nlmsgKind (encodeMsgs ms) fuel ⟨0, (encodeMsgs ms).length⟩ = some rs ∧
    rs.map (received (encodeMsgs ms)) =
      ms.map fun m => (some m.type.toNat, some m.seq.toNat, some m.body)

/-- A message that `ffnetlink_send` makes. -/
def Msg.sent (m : Msg) : Nlmsg :=
  ⟨m.type, BitVec.ofNat 16 (NLM_F_REQUEST ||| NLM_F_DUMP), m.seq, 0, m.body⟩

/-- A sequence that starts with a message does not make the round trip: the first slice has another
    length than the first body. -/
theorem not_roundTrip_cons (m : Msg) (ms : List Msg) : ¬ RoundTrip (m :: ms) := by
  rintro ⟨fuel, rs, hrun, hrec⟩
  have hmem : (encodeMsgs (m :: ms)).drop 0 = m.sent.bytes ++ encodeMsgs ms := rfl
  cases fuel with
  | zero => cases hrun
  | succ fuel =>
    rw [iterate] at hrun
    rcases nextRecord_cases (Nat.zero_le _) hmem with hnull | ⟨buf, hrecord⟩
    · rw [Nat.sub_zero] at hnull
      rw [hnull] at hrun
      cases hrun
      cases hrec
    · rw [Nat.sub_zero] at hrecord
      rw [hrecord] at hrun
      obtain ⟨rs', -, rfl⟩ := Option.map_eq_some_iff.mp hrun
      rw [List.map_cons, List.map_cons] at hrec
      have hhead := (List.cons.inj hrec).1
      rw [received, Prod.mk.injEq, Prod.mk.injEq] at hhead
      have hlen : m.body.length = sliceLen m.body.length := sliceAt_length hhead.2.2
      exact sliceLen_ne m.body.length hlen.symm

/-- **No message is read back.**  Only the empty sequence of messages makes the round trip. -/
theorem nlmsg_roundTrip_iff (ms : List Msg) : RoundTrip ms ↔ ms = [] := by
  constructor
  · intro h
    cases ms with
    | nil => rfl
    | cons m ms => exact absurd h (not_roundTrip_cons m ms)
  · rintro rfl
    exact ⟨1, [], rfl, rfl⟩

/-- A message with a body of 8 bytes comes back with 4 of them. -/
theorem nlmsg_roundTrip_short_body :
    iterate nlmsgKind (encodeMsgs [⟨16, 1, [1, 2, 3, 4, 5, 6, 7, 8]⟩]) 2 ⟨0, 24⟩ =
        some [⟨0, ⟨16, 4⟩, ⟨0, 24⟩, ⟨24, 0⟩⟩] ∧
      ¬ RoundTrip [⟨16, 1, [1, 2, 3, 4, 5, 6, 7, 8]⟩] := by
  refine ⟨by decide +kernel, ?_⟩
  exact not_roundTrip_cons _ _

end FFSys.Netlink
