import FFSys.Lib.Bytes

/-!
# Netlink messages

Model of `ffsys/netlink.h` with the macros of `linux/netlink.h` and `linux/rtnetlink.h`:

* `nlmsgAlign`, `nlmsgLength`, `nlmsgSpace`, `nlmsgPayload`, `rtaAlign`, `rtaLength`, `rtaPayload` —
  the macros, in the arithmetic of their C types: a message length is a 32-bit number, an attribute
  length a 16-bit number, the rest of the buffer a 64-bit number.
* `nextRecord` — what `ffnetlink_next` and `ffnetlink_rtattr_next` have in common; they differ in the
  header and in the macros (`nlmsgKind`, `rtaKind`).
* `iterate` — the loop that calls them until they return `NULL`.
* `Nlmsg.bytes`, `datagram` — a message and a sequence of messages in a buffer, with their padding;
  `ffnetlinkHdrSet`, `encodeMsg` — the same for a message that `ffnetlink_send` makes.

A read of a header outside of the buffer has no value and is a `fault`.
-/

set_option autoImplicit false

namespace FFSys.Netlink

open FFSys.Lib

abbrev Byte := UInt8

/-! ## Macros -/

/-- `NLMSG_ALIGN`: `(len + 4U - 1) & ~(4U - 1)`. -/
def nlmsgAlign (len : Nat) : Nat := (len + 3) % 2 ^ 32 / 4 * 4

/-- `NLMSG_HDRLEN`: `NLMSG_ALIGN(sizeof(struct nlmsghdr))`. -/
def NLMSG_HDRLEN : Nat := nlmsgAlign 16

/-- `NLMSG_LENGTH`. -/
def nlmsgLength (len : Nat) : Nat := (len + NLMSG_HDRLEN) % 2 ^ 32

/-- `NLMSG_SPACE`. -/
def nlmsgSpace (len : Nat) : Nat := nlmsgAlign (nlmsgLength len)

/-- `NLMSG_PAYLOAD`: `nlmsg_len - NLMSG_SPACE(len)`. -/
def nlmsgPayload (nlmsgLen len : Nat) : Nat := (nlmsgLen + 2 ^ 32 - nlmsgSpace len) % 2 ^ 32

/-- `RTA_ALIGN`. -/
def rtaAlign (len : Nat) : Nat := (len + 3) % 2 ^ 32 / 4 * 4

/-- `RTA_LENGTH`: `RTA_ALIGN(sizeof(struct rtattr)) + len`. -/
def rtaLength (len : Nat) : Nat := rtaAlign 4 + len

/-- `RTA_PAYLOAD`: `(int)rta_len - RTA_LENGTH(0)`. -/
def rtaPayload (rtaLen : Nat) : Nat := (rtaLen + 2 ^ 64 - rtaLength 0) % 2 ^ 64

/-! ## Iteration -/

/-- `ffstr *buf`: its position in the buffer and its length. -/
structure Cursor where
  off : Nat
  len : Nat
  deriving DecidableEq, Repr

/-- `ffstr *body`. -/
structure Slice where
  off : Nat
  len : Nat
  deriving DecidableEq, Repr

/-- What tells messages from attributes: the size of the header, the size of the length field at its
    front, and the macros. -/
structure RecordKind where
  hdrLen : Nat
  lenWidth : Nat
  align : Nat → Nat
  payload : Nat → Nat

/-- `struct nlmsghdr`, with `NLMSG_PAYLOAD(nh, 4)`. -/
def nlmsgKind : RecordKind := ⟨16, 4, nlmsgAlign, fun n => nlmsgPayload n 4⟩

/-- `struct rtattr`. -/
def rtaKind : RecordKind := ⟨4, 2, rtaAlign, rtaPayload⟩

inductive Next where
  | null
  | fault
  | record (hdr : Nat) (body : Slice) (buf : Cursor)
  deriving DecidableEq, Repr

/-- `..._OK`, `..._NEXT`, `..._DATA` and `..._PAYLOAD`. -/
def nextRecord (k : RecordKind) (mem : List Byte) (buf : Cursor) : Next :=
  if buf.len < k.hdrLen then .null
  else match readAt mem buf.off k.lenWidth with
    | none => .fault
    | some n =>
      if n < k.hdrLen ∨ buf.len < n then .null
      else .record buf.off ⟨buf.off + k.hdrLen, k.payload n⟩
        ⟨buf.off + k.align n, (buf.len + 2 ^ 64 - k.align n) % 2 ^ 64⟩

def ffnetlinkNext (mem : List Byte) (buf : Cursor) : Next := nextRecord nlmsgKind mem buf

def ffnetlinkRtattrNext (mem : List Byte) (buf : Cursor) : Next := nextRecord rtaKind mem buf

/-- One call that returned a header: the cursor before and after it. -/
structure Record where
  hdr : Nat
  body : Slice
  before : Cursor
  after : Cursor
  deriving DecidableEq, Repr

/-- Calls until `NULL`; `none`: a fault, or not at the end after `fuel` calls. -/
def iterate (k : RecordKind) (mem : List Byte) : Nat → Cursor → Option (List Record)
  | 0, _ => none
  | fuel + 1, buf =>
    match nextRecord k mem buf with
    | .null => some []
    | .fault => none
    | .record hdr body buf' => (iterate k mem fuel buf').map (⟨hdr, body, buf, buf'⟩ :: ·)

/-! ## Layout -/

def NLM_F_REQUEST : Nat := 1
def NLM_F_DUMP : Nat := 0x300

/-- A message: the fields of its header (`nlmsg_len` follows from the body), and its body. -/
structure Nlmsg where
  type : BitVec 16
  flags : BitVec 16
  seq : BitVec 32
  pid : BitVec 32
  body : List Byte
  deriving DecidableEq, Repr

/-- `struct nlmsghdr`. -/
def nlmsghdr (len type flags seq pid : Nat) : List Byte :=
  leBytes 4 len ++ leBytes 2 type ++ leBytes 2 flags ++ leBytes 4 seq ++ leBytes 4 pid

/-- The zeros up to a multiple of 4 bytes. -/
def padding (n : Nat) : List Byte := List.replicate ((4 - n % 4) % 4) 0

/-- Header, body and padding. -/
def Nlmsg.bytes (m : Nlmsg) : List Byte :=
  nlmsghdr (nlmsgLength (m.body.length % 2 ^ 32)) m.type.toNat m.flags.toNat m.seq.toNat
    m.pid.toNat ++ m.body ++ padding m.body.length

/-- The messages of a datagram, one after another. -/
def datagram (ms : List Nlmsg) : List Byte := (ms.map Nlmsg.bytes).flatten

/-- A message as the caller of `ffnetlink_send` gives it. -/
structure Msg where
  type : BitVec 16
  seq : BitVec 32
  body : List Byte
  deriving DecidableEq, Repr

/-- The header that `_ffnetlink_hdr_set` fills; `body_len` is an `ffuint`. -/
def ffnetlinkHdrSet (type bodyLen seq : Nat) : List Byte :=
  nlmsghdr (nlmsgLength (bodyLen % 2 ^ 32)) type (NLM_F_REQUEST ||| NLM_F_DUMP) seq 0

def encodeMsg (m : Msg) : List Byte :=
  ffnetlinkHdrSet m.type.toNat m.body.length m.seq.toNat ++ m.body ++ padding m.body.length

def encodeMsgs (ms : List Msg) : List Byte := (ms.map encodeMsg).flatten

end FFSys.Netlink
