import FFSys.Netlink.Message

/-!
# The table of network interfaces

Model of the Linux part of `ffsys/netconf.h`: `_ffnc_ifi_read` asks for all links, then for all
addresses, and reads messages until each of the two dumps is done.

* `linkAttr`, `addrAttr`, `eachAttr` — the attribute loops.
* `handleMsg` — the `switch` over `nlmsg_type`; `readMsgs` — the message loop over one datagram.
* `ifiReadLoop`, `ffncIfiRead` — the `for` loop with its `state`.

The socket is a list of what `recvmsg` returns, with the results of the other system calls
(`Socket`).  A datagram is at the front of a buffer of 1 MiB; a read after its end has no defined
value and is a `fault`, as is a copy past the end of an address.  Allocations of table entries
succeed.
-/

set_option autoImplicit false

namespace FFSys.Netconf

open FFSys.Lib FFSys.Netlink

/-! ## Constants -/

def RTM_NEWLINK : Nat := 16
def RTM_NEWADDR : Nat := 20
def NLMSG_ERROR : Nat := 2
def NLMSG_DONE : Nat := 3

def IFLA_ADDRESS : Nat := 1
def IFLA_IFNAME : Nat := 3
def IFA_ADDRESS : Nat := 1

def AF_INET : Nat := 2
def AF_INET6 : Nat := 10

/-- `sizeof(struct ifinfomsg)`. -/
def ifinfomsgSize : Nat := 16

/-- `sizeof(struct ifaddrmsg)`. -/
def ifaddrmsgSize : Nat := 8

/-- `sizeof(struct nlmsgerr)`. -/
def nlmsgerrSize : Nat := 20

/-! ## Entries -/

/-- `struct ffnetconf_ifinfo`. -/
structure IfInfo where
  index : Nat
  name : List Byte
  hwaddr : List Byte
  ip : List (List Byte)
  deriving DecidableEq, Repr

/-- `_ffnc_ifi_find`: the position of the first entry with this index. -/
def ffncIfiFind (ifs : List IfInfo) (index : Nat) : Option Nat :=
  ifs.findIdx? fun nif => index == nif.index

/-- `_ffnc_ip6_v4mapped_set`. -/
def ffncIp6V4mappedSet (ip4 : List Byte) : List Byte := List.replicate 10 0 ++ [0xff, 0xff] ++ ip4

/-! ## Attributes -/

/-- The attributes of a link; `name` holds 63 bytes and a NUL. -/
def linkAttr (mem : List Byte) (type : Nat) (val : Slice) (nif : IfInfo) : Option IfInfo :=
  if type = IFLA_IFNAME then
    (sliceAt mem val.off (min val.len 63)).map fun name => { nif with name := name }
  else if type = IFLA_ADDRESS then
    if val.len = 6 then (sliceAt mem val.off 6).map fun hw => { nif with hwaddr := hw }
    else some nif
  else some nif

/-- The attributes of an address; an entry of `ip` has 16 bytes. -/
def addrAttr (mem : List Byte) (family : Nat) (type : Nat) (val : Slice) (nif : IfInfo) :
    Option IfInfo :=
  if type = IFA_ADDRESS then
    if family = AF_INET then
      (sliceAt mem val.off 4).map fun ip4 => { nif with ip := nif.ip ++ [ffncIp6V4mappedSet ip4] }
    else if family = AF_INET6 then
      if val.len ≤ 16 then
        (sliceAt mem val.off val.len).map fun ip6 => { nif with ip := nif.ip ++ [ip6] }
      else none
    else some nif
  else some nif

/-- `while (NULL != (attr = ffnetlink_rtattr_next(&body, &val)))`; `none`: a fault. -/
def eachAttr (f : Nat → Slice → IfInfo → Option IfInfo) (mem : List Byte) :
    Nat → Cursor → IfInfo → Option IfInfo
  | 0, _, _ => none
  | fuel + 1, body, nif =>
    match ffnetlinkRtattrNext mem body with
    | .null => some nif
    | .fault => none
    | .record attr val body' =>
      (readAt mem (attr + 2) 2).bind fun type =>
        (f type val nif).bind fun nif' => eachAttr f mem fuel body' nif'

/-! ## Messages -/

/-- Where the message loop is after a message, or after a datagram. -/
inductive Handled where
  | next (ifs : List IfInfo)
  | done (ifs : List IfInfo)
  | error (err : Int)
  | fault
  deriving DecidableEq, Repr

/-- `case RTM_NEWLINK`: the new entry. -/
def newLink (mem : List Byte) (body : Slice) : Option IfInfo :=
  (readAt mem (body.off + 4) 4).bind fun index =>
    eachAttr (linkAttr mem) mem (mem.length + 1)
      ⟨body.off + ifinfomsgSize, body.len - ifinfomsgSize⟩ ⟨index, [], List.replicate 6 0, []⟩

/-- `case RTM_NEWADDR`: the table with the addresses of one entry added to. -/
def newAddr (mem : List Byte) (body : Slice) (ifs : List IfInfo) : Option (List IfInfo) :=
  (readAt mem body.off 1).bind fun family =>
    (readAt mem (body.off + 4) 4).bind fun index =>
      match ffncIfiFind ifs index with
      | none => some ifs
      | some i =>
        (ifs[i]?).bind fun nif =>
          (eachAttr (addrAttr mem family) mem (mem.length + 1)
            ⟨body.off + ifaddrmsgSize, body.len - ifaddrmsgSize⟩ nif).map fun nif' => ifs.set i nif'

/-- `case NLMSG_ERROR`: `-e->error`, or 0. -/
def errorOf (mem : List Byte) (body : Slice) : Option Int :=
  if nlmsgerrSize < body.len then
    (readAt mem body.off 4).map fun e => -(BitVec.ofNat 32 e).toInt
  else some 0

def handleMsg (mem : List Byte) (ifs : List IfInfo) (type : Nat) (body : Slice) : Handled :=
  if type = RTM_NEWLINK then
    if body.len < ifinfomsgSize then .next ifs
    else match newLink mem body with
      | none => .fault
      | some nif => .next (ifs ++ [nif])
  else if type = RTM_NEWADDR then
    if body.len < ifaddrmsgSize then .next ifs
    else match newAddr mem body ifs with
      | none => .fault
      | some ifs' => .next ifs'
  else if type = NLMSG_ERROR then
    match errorOf mem body with
      | none => .fault
      | some err => .error err
  else if type = NLMSG_DONE then .done ifs
  else .next ifs

/-- `while (NULL != (nh = ffnetlink_next(&resp, &body)))`; after `NLMSG_DONE` the rest of the datagram is
    left. -/
def readMsgs (mem : List Byte) : Nat → Cursor → List IfInfo → Handled
  | 0, _, _ => .fault
  | fuel + 1, resp, ifs =>
    match ffnetlinkNext mem resp with
    | .null => .next ifs
    | .fault => .fault
    | .record nh body resp' =>
      match readAt mem (nh + 4) 2 with
      | none => .fault
      | some type =>
        match handleMsg mem ifs type body with
        | .next ifs' => readMsgs mem fuel resp' ifs'
        | r => r

/-! ## The socket -/

/-- What one `recvmsg` does: a datagram, or an error; and `errno` after it. -/
structure Recv where
  data : Option (List Byte)
  errno : Int
  deriving DecidableEq, Repr

def EMSGSIZE : Int := 90

/-- `ffnetlink_recv`, with the test `r <= 0` of its caller; the error is the value of `errno`. -/
def ffnetlinkRecv (cap : Nat) (r : Recv) : Except Int (List Byte) :=
  match r.data with
  | none => .error r.errno
  | some [] => .error r.errno
  | some d => if cap < d.length then .error EMSGSIZE else .ok d

/-- The system calls of one run: the errors of `ffnetlink_create`, of the allocation of the buffer and
    of the two `ffnetlink_send`, if any, and what is received. -/
structure Socket where
  create : Option Int
  alloc : Option Int
  send : Nat → Option Int
  recv : List Recv

inductive Outcome where
  /-- `rc = 0`. -/
  | success (ifs : List IfInfo)
  /-- `rc = -1` with `err_func` and `err`; the table is destroyed. -/
  | failure (errFunc : String) (err : Int)
  /-- Waits for the next datagram. -/
  | waiting
  | fault
  deriving DecidableEq, Repr

def bufCap : Nat := 1 * 1024 * 1024

/-- The `switch` at the front of the loop: a request in states 0 and 1. -/
def sendRequest (send : Nat → Option Int) (state : Nat) : Except Int Nat :=
  if state = 0 ∨ state = 1 then
    match send state with
    | some errno => .error errno
    | none => .ok (state ||| 0x80)
  else .ok state

/-- `state &= ~0x80; state++`. -/
def nextState (state : Nat) : Nat := (state &&& 0xffffff7f) + 1

def ifiReadLoop (send : Nat → Option Int) : List Recv → Nat → List IfInfo → Outcome
  | [], state, _ =>
    match sendRequest send state with
    | .error errno => .failure "ffnetlink_send" errno
    | .ok _ => .waiting
  | r :: rs, state, ifs =>
    match sendRequest send state with
    | .error errno => .failure "ffnetlink_send" errno
    | .ok state =>
      match ffnetlinkRecv bufCap r with
      | .error errno => .failure "ffnetlink_recv" errno
      | .ok d =>
        match readMsgs d (d.length + 1) ⟨0, d.length⟩ ifs with
        | .next ifs' => ifiReadLoop send rs state ifs'
        | .error err => .failure "NLMSG_ERROR" err
        | .fault => .fault
        | .done ifs' =>
          if nextState state = 2 then .success ifs'
          else ifiReadLoop send rs (nextState state) ifs'

/-- `_ffnc_ifi_read`; `ifs` is the table before the call. -/
def ffncIfiRead (io : Socket) (ifs : List IfInfo) : Outcome :=
  match io.create with
  | some errno => .failure "ffnetlink_create" errno
  | none =>
    match io.alloc with
    | some errno => .failure "ffmem_alloc" errno
    | none => ifiReadLoop io.send io.recv 0 ifs

end FFSys.Netconf
