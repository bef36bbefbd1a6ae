import FFSys.Netconf.Unique

/-!
# The slots of interface addresses

`_ffnc_ifi_read` again, with the blocks of memory that it stores addresses to.  `_ffnc_ifi_new`
allocates a block with one slot of 16 bytes, `_ffnc_ifi_expand` makes room for slot `ip_n`, and the
address goes there: 16 bytes made of the first 4 bytes of the attribute if the family is `AF_INET`,
all bytes of the attribute if it is `AF_INET6`.

* `Block`, `Slots` — the table, and a log of the stores (`AddrStep`), each with the room that its
  block had.
* `storeAddr` — one `IFA_ADDRESS` attribute, `Stored` — what it can do; `slotAttrs`, `slotMsg`,
  `slotMsgs`, `slotLoop`, `slotRead` — the loops.
* `Reached` — the tables that a call can start with.
* `slotRead_refines` — the entries of the blocks are the table of `ffncIfiRead`, unless a store
  went beyond its block.
* `SlotsInv` — the stores go to blocks that have grown, `ip_n` is the number of addresses
  (`Counted`); `storeAddr_inv` and the lemmas after it — each loop keeps it.
* `SafeStore` — a store inside of its block, its slot and the attribute; `safeStore_iff` — when a
  store is.
* `slotRead_safe_iff` — a run is safe exactly if each of its stores fits.
-/

set_option autoImplicit false

namespace FFSys.Netconf

open FFSys.Lib FFSys.Netlink

/-! ## Blocks -/

/-- An allocated `struct ffnetconf_ifinfo`: the entry, `ip_n`, and the bytes of the block that are
    left for `ip`. -/
structure Block where
  info : IfInfo
  ipN : BitVec 32
  room : Nat
  deriving DecidableEq, Repr

/-- `_ffnc_ifi_new(ifs, n_ip)`: the bytes for `ip`, computed as `ffuint`. -/
def ffncIfiNew (nIp : BitVec 32) (nif : IfInfo) : Block := ⟨nif, 0, (nIp * 16).toNat⟩

/-- `_ffnc_ifi_expand`: a reallocation with the bytes for one more address, computed as `ffuint`. -/
def ffncIfiExpand (nif : Block) : Block := { nif with room := ((nif.ipN + 1) * 16).toNat }

/-- A store of an address: the position of the block in the table, `ifa_family`, the attribute's
    payload, and `ip_n` and the bytes for `ip` that the block has before it. -/
structure AddrStep where
  pos : Nat
  family : Nat
  val : Slice
  ipN : BitVec 32
  room : Nat
  deriving DecidableEq, Repr

/-- The store of an address to a block. -/
def Block.store (nif : Block) (pos family : Nat) (val : Slice) : AddrStep :=
  ⟨pos, family, val, nif.ipN, nif.room⟩

namespace AddrStep

/-- The slot that is stored to. -/
def slot (a : AddrStep) : Nat := a.ipN.toNat

/-- The bytes that are written, from the start of the slot on: `_ffnc_ip6_v4mapped_set` or
    `ffmem_copy`. -/
def written (a : AddrStep) : Nat := if a.family = AF_INET then 16 else a.val.len

/-- The end of the bytes that are written. -/
def stop (a : AddrStep) : Nat := 16 * a.slot + a.written

/-- The bytes that are read, from the start of the payload on. -/
def read (a : AddrStep) : Nat := if a.family = AF_INET then 4 else a.val.len

end AddrStep

/-- The table, the stores that were made, and whether one of them went beyond its block. -/
structure Slots where
  blocks : List Block
  log : List AddrStep
  overrun : Bool
  deriving DecidableEq, Repr

/-- The entries. -/
def Slots.ifs (t : Slots) : List IfInfo := t.blocks.map Block.info

/-! ## The loops -/

/-- An attribute of an address message for the block at `pos`; `false`: a fault. -/
def storeAddr (mem : List Byte) (pos family type : Nat) (val : Slice) (t : Slots) : Bool × Slots :=
  if type = IFA_ADDRESS then
    match t.blocks[pos]? with
    | none => (false, t)
    | some nif =>
      let nif := ffncIfiExpand nif
      -- `*pnif = nif`
      let blocks := t.blocks.set pos nif
      if family = AF_INET ∨ family = AF_INET6 then
        let a := nif.store pos family val
        let log := t.log ++ [a]
        if a.room < a.stop then (false, ⟨blocks, log, true⟩)
        else match addrAttr mem family type val nif.info with
          | none => (false, ⟨blocks, log, t.overrun⟩)
          | some info => (true, ⟨blocks.set pos ⟨info, nif.ipN + 1, nif.room⟩, log, t.overrun⟩)
      else (true, { t with blocks := blocks })
  else (true, t)

/-- The attribute loop. -/
def slotAttrs (mem : List Byte) (pos family : Nat) : Nat → Cursor → Slots → Bool × Slots
  | 0, _, t => (false, t)
  | fuel + 1, body, t =>
    match ffnetlinkRtattrNext mem body with
    | .null => (true, t)
    | .fault => (false, t)
    | .record attr val body' =>
      match readAt mem (attr + 2) 2 with
      | none => (false, t)
      | some type =>
        match storeAddr mem pos family type val t with
        | (false, t') => (false, t')
        | (true, t') => slotAttrs mem pos family fuel body' t'

/-- `case RTM_NEWADDR` -/
def slotNewAddr (mem : List Byte) (body : Slice) (t : Slots) : Bool × Slots :=
  match readAt mem body.off 1 with
  | none => (false, t)
  | some family =>
    match readAt mem (body.off + 4) 4 with
    | none => (false, t)
    | some index =>
      match ffncIfiFind t.ifs index with
      | none => (true, t)
      | some pos =>
        slotAttrs mem pos family (mem.length + 1) ⟨body.off + ifaddrmsgSize, body.len - ifaddrmsgSize⟩ t

/-- Where the message loop is after a message, or after a datagram. -/
inductive Turn where
  | next
  | done
  | error (err : Int)
  | fault
  deriving DecidableEq, Repr

def slotMsg (mem : List Byte) (t : Slots) (type : Nat) (body : Slice) : Turn × Slots :=
  if type = RTM_NEWLINK then
    if body.len < ifinfomsgSize then (.next, t)
    else match newLink mem body with
      | none => (.fault, t)
      | some nif => (.next, { t with blocks := t.blocks ++ [ffncIfiNew 1 nif] })
  else if type = RTM_NEWADDR then
    if body.len < ifaddrmsgSize then (.next, t)
    else match slotNewAddr mem body t with
      | (false, t') => (.fault, t')
      | (true, t') => (.next, t')
  else if type = NLMSG_ERROR then
    match errorOf mem body with
      | none => (.fault, t)
      | some err => (.error err, t)
  else if type = NLMSG_DONE then (.done, t)
  else (.next, t)

/-- The message loop over one datagram. -/
def slotMsgs (mem : List Byte) : Nat → Cursor → Slots → Turn × Slots
  | 0, _, t => (.fault, t)
  | fuel + 1, resp, t =>
    match ffnetlinkNext mem resp with
    | .null => (.next, t)
    | .fault => (.fault, t)
    | .record nh body resp' =>
      match readAt mem (nh + 4) 2 with
      | none => (.fault, t)
      | some type =>
        match slotMsg mem t type body with
        | (.next, t') => slotMsgs mem fuel resp' t'
        | r => r

def slotLoop (send : Nat → Option Int) : List Recv → Nat → Slots → Outcome × Slots
  | [], state, t =>
    match sendRequest send state with
    | .error errno => (.failure "ffnetlink_send" errno, t)
    | .ok _ => (.waiting, t)
  | r :: rs, state, t =>
    match sendRequest send state with
    | .error errno => (.failure "ffnetlink_send" errno, t)
    | .ok state =>
      match ffnetlinkRecv bufCap r with
      | .error errno => (.failure "ffnetlink_recv" errno, t)
      | .ok d =>
        match slotMsgs d (d.length + 1) ⟨0, d.length⟩ t with
        | (.next, t') => slotLoop send rs state t'
        | (.error err, t') => (.failure "NLMSG_ERROR" err, t')
        | (.fault, t') => (.fault, t')
        | (.done, t') =>
          if nextState state = 2 then (.success t'.ifs, t')
          else slotLoop send rs (nextState state) t'

/-- `_ffnc_ifi_read`: the outcome, and the blocks and stores before `end:`. -/
def slotRead (io : Socket) (t : Slots) : Outcome × Slots :=
  match io.create with
  | some errno => (.failure "ffnetlink_create" errno, t)
  | none =>
    match io.alloc with
    | some errno => (.failure "ffmem_alloc" errno, t)
    | none => slotLoop io.send io.recv 0 t

/-- The tables that a call can start with: of a fresh object or after `_ffnc_ifi_destroy`, or of a
    call that succeeded. -/
inductive Reached : Slots → Prop
  | empty : Reached ⟨[], [], false⟩
  | call {t t' : Slots} {io : Socket} {ifs : List IfInfo} :
      Reached t → slotRead io t = (.success ifs, t') → Reached t'

/-! ## Stores -/

/-- The block has room for the slot, the store writes the slot and reads the payload. -/
structure SafeStore (a : AddrStep) : Prop where
  room : 16 * (a.slot + 1) ≤ a.room
  written : a.written = 16
  read : a.read ≤ a.val.len

/-- The condition on one store: the payload has the 4 bytes of an IPv4 address, or exactly the 16
    bytes of an IPv6 address, and the size of the block is a 32-bit number. -/
structure Fits (a : AddrStep) : Prop where
  ipv4 : a.family = AF_INET → 4 ≤ a.val.len
  ipv6 : a.family = AF_INET6 → a.val.len = 16
  small : a.ipN.toNat + 1 < 2 ^ 28

/-- What is known of any store: its family, and that the block has been reallocated for it. -/
structure Expanded (a : AddrStep) : Prop where
  family : a.family = AF_INET ∨ a.family = AF_INET6
  room : a.room = (a.slot + 1) * 16 % 2 ^ 32

theorem expand_room (nif : Block) :
    (ffncIfiExpand nif).room = (nif.ipN.toNat + 1) * 16 % 2 ^ 32 := by
  have hone : (1 : BitVec 32).toNat = 1 := rfl
  have hsize : (16 : BitVec 32).toNat = 16 := rfl
  have hroom : (ffncIfiExpand nif).room = ((nif.ipN + 1) * 16).toNat := rfl
  rw [hroom, BitVec.toNat_mul, BitVec.toNat_add, hone, hsize]
  omega

theorem store_expanded (nif : Block) (pos : Nat) {family : Nat} (val : Slice)
    (h : family = AF_INET ∨ family = AF_INET6) :
    Expanded ((ffncIfiExpand nif).store pos family val) :=
  ⟨h, expand_room nif⟩

theorem Expanded.room_iff {a : AddrStep} (h : Expanded a) :
    16 * (a.slot + 1) ≤ a.room ↔ a.ipN.toNat + 1 < 2 ^ 28 := by
  have hroom := h.room
  have hlt := a.ipN.isLt
  unfold AddrStep.slot at hroom ⊢
  omega

/-- **When a store is safe.** -/
theorem safeStore_iff {a : AddrStep} (h : Expanded a) : SafeStore a ↔ Fits a := by
  have hroom := h.room_iff
  rcases h.family with h4 | h6
  · have hwritten : a.written = 16 := if_pos h4
    have hread : a.read = 4 := if_pos h4
    have hne : a.family ≠ AF_INET6 := by
      rw [h4]
      decide
    refine ⟨?_, ?_⟩
    · intro hs
      exact ⟨fun _ => hread ▸ hs.read, fun h => absurd h hne, hroom.mp hs.room⟩
    · intro hf
      exact ⟨hroom.mpr hf.small, hwritten, hread.symm ▸ hf.ipv4 h4⟩
  · have hne : a.family ≠ AF_INET := by
      rw [h6]
      decide
    have hwritten : a.written = a.val.len := if_neg hne
    have hread : a.read = a.val.len := if_neg hne
    refine ⟨?_, ?_⟩
    · intro hs
      exact ⟨fun h => absurd h hne, fun _ => hwritten.symm.trans hs.written, hroom.mp hs.room⟩
    · intro hf
      exact ⟨hroom.mpr hf.small, hwritten.trans (hf.ipv6 h6), Nat.le_of_eq hread⟩

/-- A safe store ends inside of the block. -/
theorem SafeStore.inside {a : AddrStep} (h : SafeStore a) : a.stop ≤ a.room := by
  have hroom := h.room
  rw [AddrStep.stop, h.written]
  omega

/-- If there is room for the slot, `ip_n` does not wrap. -/
theorem Expanded.count {a : AddrStep} (h : Expanded a) (hroom : ¬ a.room < a.stop) :
    (a.ipN + 1).toNat = a.ipN.toNat + 1 := by
  have hexp := h.room
  have hone : (1 : BitVec 32).toNat = 1 := rfl
  unfold AddrStep.stop AddrStep.slot at hroom
  unfold AddrStep.slot at hexp
  rw [BitVec.toNat_add, hone]
  omega

/-! ## One attribute -/

/-- What an attribute of an address message can do to the block `nif` at `pos`. -/
inductive Stored (mem : List Byte) (pos family type : Nat) (val : Slice) (t : Slots) (nif : Block) :
    Bool × Slots → Prop
  | other : type ≠ IFA_ADDRESS → Stored mem pos family type val t nif (true, t)
  | family : type = IFA_ADDRESS → ¬ (family = AF_INET ∨ family = AF_INET6) →
      Stored mem pos family type val t nif
        (true, { t with blocks := t.blocks.set pos (ffncIfiExpand nif) })
  | overrun (a : AddrStep) : Expanded a → a.pos = pos → a.room < a.stop →
      Stored mem pos family type val t nif
        (false, ⟨t.blocks.set pos (ffncIfiExpand nif), t.log ++ [a], true⟩)
  | unreadable (a : AddrStep) : Expanded a → a.pos = pos →
      addrAttr mem family type val nif.info = none →
        Stored mem pos family type val t nif
          (false, ⟨t.blocks.set pos (ffncIfiExpand nif), t.log ++ [a], t.overrun⟩)
  | stored (a : AddrStep) (nif' : Block) : Expanded a → a.pos = pos →
      type = IFA_ADDRESS → family = AF_INET ∨ family = AF_INET6 →
      addrAttr mem family type val nif.info = some nif'.info →
      nif'.ipN.toNat = nif.ipN.toNat + 1 →
        Stored mem pos family type val t nif (true, ⟨t.blocks.set pos nif', t.log ++ [a], t.overrun⟩)

theorem storeAddr_cases (mem : List Byte) {pos : Nat} (family type : Nat) (val : Slice) {t : Slots}
    {nif : Block} (hb : t.blocks[pos]? = some nif) :
    Stored mem pos family type val t nif (storeAddr mem pos family type val t) := by
  unfold storeAddr
  split
  · rename_i htype
    rw [hb]
    simp only
    split
    · rename_i hfamily
      have hexp := store_expanded nif pos val hfamily
      split
      · rename_i hstop
        exact .overrun _ hexp rfl hstop
      · rename_i hstop
        split
        · rename_i hnone
          exact .unreadable _ hexp rfl hnone
        · rename_i info hinfo
          rw [List.set_set]
          exact .stored _ _ hexp rfl htype hfamily hinfo (hexp.count hstop)
    · rename_i hfamily
      exact .family htype hfamily
  · rename_i htype
    exact .other htype

/-- A store adds one address to the entry. -/
theorem addrAttr_ip {mem : List Byte} {family type : Nat} {val : Slice} {nif nif' : IfInfo}
    (htype : type = IFA_ADDRESS) (hfamily : family = AF_INET ∨ family = AF_INET6)
    (h : addrAttr mem family type val nif = some nif') : nif'.ip.length = nif.ip.length + 1 := by
  rw [addrAttr, if_pos htype] at h
  split at h
  · obtain ⟨ip4, -, rfl⟩ := Option.map_eq_some_iff.mp h
    simp
  · rename_i h4
    rw [if_pos (hfamily.resolve_left h4)] at h
    split at h
    · obtain ⟨ip6, -, rfl⟩ := Option.map_eq_some_iff.mp h
      simp
    · cases h

/-! ## The invariant -/

/-- The number of stores to the block at `pos`. -/
def Slots.stores (t : Slots) (pos : Nat) : Nat := t.log.countP fun a => a.pos == pos

/-- `ip_n` of each block is the number of addresses in its entry, and of the stores to it. -/
structure Counted (t : Slots) : Prop where
  count : ∀ (i : Nat) (b : Block), t.blocks[i]? = some b → b.ipN.toNat = b.info.ip.length
  stored : ∀ (i : Nat) (b : Block), t.blocks[i]? = some b → b.info.ip.length = t.stores i
  inside : ∀ a ∈ t.log, a.pos < t.blocks.length

/-- What holds at any time; after a fault the blocks are not looked at. -/
structure SlotsInv (ok : Bool) (t : Slots) : Prop where
  expanded : ∀ a ∈ t.log, Expanded a
  overrun : t.overrun = true → ∃ a ∈ t.log, a.room < a.stop
  counted : ok = true → Counted t

theorem SlotsInv.fault {ok : Bool} {t : Slots} (h : SlotsInv ok t) : SlotsInv false t :=
  ⟨h.expanded, h.overrun, fun hok => by cases hok⟩

theorem stores_append (t : Slots) (blocks : List Block) (a : AddrStep) (overrun : Bool) (i : Nat) :
    Slots.stores ⟨blocks, t.log ++ [a], overrun⟩ i = t.stores i + if a.pos = i then 1 else 0 := by
  simp only [Slots.stores, List.countP_append, List.countP_singleton, beq_iff_eq]

section Counts

variable {t : Slots} {pos : Nat} {b : Block}

/-- A block that grows keeps its addresses. -/
theorem Counted.grow (h : Counted t) (hb : t.blocks[pos]? = some b) :
    Counted { t with blocks := t.blocks.set pos (ffncIfiExpand b) } := by
  have hblock : ∀ (i : Nat) (b' : Block), (t.blocks.set pos (ffncIfiExpand b))[i]? = some b' →
      ∃ b₀, t.blocks[i]? = some b₀ ∧ b'.ipN = b₀.ipN ∧ b'.info = b₀.info := by
    intro i b' hb'
    rw [List.getElem?_set] at hb'
    split at hb'
    · rename_i hi
      subst hi
      split at hb'
      · cases hb'
        exact ⟨b, hb, rfl, rfl⟩
      · cases hb'
    · exact ⟨b', hb', rfl, rfl⟩
  refine ⟨?_, ?_, ?_⟩
  · intro i b' hb'
    obtain ⟨b₀, hb₀, hn, hinfo⟩ := hblock i b' hb'
    rw [hn, hinfo]
    exact h.count i b₀ hb₀
  · intro i b' hb'
    obtain ⟨b₀, hb₀, -, hinfo⟩ := hblock i b' hb'
    rw [hinfo]
    exact h.stored i b₀ hb₀
  · intro a ha
    rw [List.length_set]
    exact h.inside a ha

/-- A store is counted at its block. -/
theorem Counted.store (h : Counted t) (hb : t.blocks[pos]? = some b) {a : AddrStep} (ha : a.pos = pos)
    {b' : Block} (hn : b'.ipN.toNat = b.ipN.toNat + 1)
    (hip : b'.info.ip.length = b.info.ip.length + 1) :
    Counted ⟨t.blocks.set pos b', t.log ++ [a], t.overrun⟩ := by
  have hpos : pos < t.blocks.length := (List.getElem?_eq_some_iff.mp hb).1
  refine ⟨?_, ?_, ?_⟩
  · intro i c hc
    rw [List.getElem?_set] at hc
    split at hc
    · rw [Option.some.injEq] at hc
      rw [← hc, hn, hip, h.count pos b hb]
    · exact h.count i c hc
  · intro i c hc
    rw [stores_append]
    rw [List.getElem?_set] at hc
    split at hc
    · rename_i hi
      subst hi
      rw [Option.some.injEq] at hc
      rw [← hc, hip, if_pos ha, h.stored pos b hb]
    · rename_i hi
      rw [if_neg fun hai => hi (ha.symm.trans hai), Nat.add_zero]
      exact h.stored i c hc
  · intro a' ha'
    rw [List.length_set]
    rcases List.mem_append.mp ha' with ha' | ha'
    · exact h.inside a' ha'
    · rw [List.mem_singleton.mp ha', ha]
      exact hpos

end Counts

/-- A logged store keeps what is known of the stores. -/
theorem SlotsInv.append {ok : Bool} {t : Slots} (h : SlotsInv ok t) {a : AddrStep} (ha : Expanded a) :
    (∀ a' ∈ t.log ++ [a], Expanded a') ∧
      (t.overrun = true → ∃ a' ∈ t.log ++ [a], a'.room < a'.stop) := by
  refine ⟨?_, ?_⟩
  · intro a' ha'
    rcases List.mem_append.mp ha' with ha' | ha'
    · exact h.expanded a' ha'
    · rw [List.mem_singleton.mp ha']
      exact ha
  · intro hover
    obtain ⟨a', ha', hlt⟩ := h.overrun hover
    exact ⟨a', List.mem_append_left _ ha', hlt⟩

/-- **One attribute.** -/
theorem storeAddr_inv (mem : List Byte) (pos family type : Nat) (val : Slice) {t : Slots}
    (h : SlotsInv true t) :
    SlotsInv (storeAddr mem pos family type val t).1 (storeAddr mem pos family type val t).2 := by
  have hcounted := h.counted rfl
  cases hb : t.blocks[pos]? with
  | none =>
    unfold storeAddr
    rw [hb]
    split
    · exact h.fault
    · exact h
  | some nif =>
    have hcase := storeAddr_cases mem family type val hb
    generalize storeAddr mem pos family type val t = r at hcase
    cases hcase with
    | other => exact h
    | family => exact ⟨h.expanded, h.overrun, fun _ => hcounted.grow hb⟩
    | overrun a ha _ hstop =>
      exact ⟨(h.append ha).1, fun _ => ⟨a, by simp, hstop⟩, fun hok => by cases hok⟩
    | unreadable a ha => exact ⟨(h.append ha).1, (h.append ha).2, fun hok => by cases hok⟩
    | stored a nif' ha hpos htype hfamily hinfo hn =>
      exact ⟨(h.append ha).1, (h.append ha).2,
        fun _ => hcounted.store hb hpos hn (addrAttr_ip htype hfamily hinfo)⟩

/-- A new block has no addresses. -/
theorem newBlock_inv {t : Slots} (h : SlotsInv true t) {nif : IfInfo} (hnif : nif.ip = []) :
    SlotsInv true { t with blocks := t.blocks ++ [ffncIfiNew 1 nif] } := by
  have hcounted := h.counted rfl
  have hcases : ∀ (i : Nat) (b : Block), (t.blocks ++ [ffncIfiNew 1 nif])[i]? = some b →
      t.blocks[i]? = some b ∨ t.blocks.length ≤ i ∧ b = ffncIfiNew 1 nif := by
    intro i b hb
    rcases Nat.lt_or_ge i t.blocks.length with hi | hi
    · rw [List.getElem?_append_left hi] at hb
      exact .inl hb
    · rw [List.getElem?_append_right hi] at hb
      exact .inr ⟨hi, List.mem_singleton.mp (List.mem_of_getElem? hb)⟩
  refine ⟨h.expanded, h.overrun, fun _ => ⟨?_, ?_, ?_⟩⟩
  · intro i b hb
    rcases hcases i b hb with hold | ⟨-, rfl⟩
    · exact hcounted.count i b hold
    · rw [ffncIfiNew, hnif]
      rfl
  · intro i b hb
    rcases hcases i b hb with hold | ⟨hi, rfl⟩
    · exact hcounted.stored i b hold
    · have hzero : t.stores i = 0 := by
        rw [Slots.stores, List.countP_eq_zero]
        intro a ha hpos
        have hlt := hcounted.inside a ha
        rw [beq_iff_eq] at hpos
        omega
      rw [ffncIfiNew, hnif]
      exact hzero.symm
  · intro a ha
    have hlt := hcounted.inside a ha
    simp only [List.length_append]
    omega

/-- The loop goes on, or ends in order. -/
def Turn.ok : Turn → Bool
  | .fault => false
  | _ => true

def Outcome.ok : Outcome → Bool
  | .fault => false
  | _ => true

/-- Induction on the attributes. -/
theorem slotAttrs_inv (mem : List Byte) (pos family fuel : Nat) :
    ∀ (body : Cursor) (t : Slots), SlotsInv true t →
      SlotsInv (slotAttrs mem pos family fuel body t).1 (slotAttrs mem pos family fuel body t).2 := by
  induction fuel with
  | zero =>
    intro body t h
    exact h.fault
  | succ fuel ih =>
    intro body t h
    rw [slotAttrs]
    split
    · exact h
    · exact h.fault
    · rename_i attr val body' hnext
      split
      · exact h.fault
      · rename_i type htype
        have hstore := storeAddr_inv mem pos family type val h
        split
        · rename_i t' heq
          rw [heq] at hstore
          exact hstore
        · rename_i t' heq
          rw [heq] at hstore
          exact ih body' t' hstore

theorem slotNewAddr_inv (mem : List Byte) (body : Slice) {t : Slots} (h : SlotsInv true t) :
    SlotsInv (slotNewAddr mem body t).1 (slotNewAddr mem body t).2 := by
  unfold slotNewAddr
  split
  · exact h.fault
  · split
    · exact h.fault
    · split
      · exact h
      · exact slotAttrs_inv mem _ _ _ _ t h

/-- One message. -/
theorem slotMsg_inv (mem : List Byte) (type : Nat) (body : Slice) {t : Slots} (h : SlotsInv true t) :
    SlotsInv (slotMsg mem t type body).1.ok (slotMsg mem t type body).2 := by
  have haddr := slotNewAddr_inv mem body h
  unfold slotMsg
  split
  · split
    · exact h
    · split
      · exact h.fault
      · rename_i nif hnif
        exact newBlock_inv h (newLink_ip hnif)
  split
  · split
    · exact h
    · split
      · rename_i t' heq
        rw [heq] at haddr
        exact haddr
      · rename_i t' heq
        rw [heq] at haddr
        exact haddr
  split
  · split
    · exact h.fault
    · exact h
  split
  · exact h
  · exact h

/-- Induction on the messages. -/
theorem slotMsgs_inv (mem : List Byte) (fuel : Nat) :
    ∀ (resp : Cursor) (t : Slots), SlotsInv true t →
      SlotsInv (slotMsgs mem fuel resp t).1.ok (slotMsgs mem fuel resp t).2 := by
  induction fuel with
  | zero =>
    intro resp t h
    exact h.fault
  | succ fuel ih =>
    intro resp t h
    rw [slotMsgs]
    split
    · exact h
    · exact h.fault
    · rename_i nh body resp' hnext
      split
      · exact h.fault
      · rename_i type htype
        have hmsg := slotMsg_inv mem type body h
        split
        · rename_i t' heq
          rw [heq] at hmsg
          exact ih resp' t' hmsg
        · exact hmsg

/-- Induction on the datagrams. -/
theorem slotLoop_inv (send : Nat → Option Int) (rs : List Recv) :
    ∀ (state : Nat) (t : Slots), SlotsInv true t →
      SlotsInv (slotLoop send rs state t).1.ok (slotLoop send rs state t).2 := by
  induction rs with
  | nil =>
    intro state t h
    rw [slotLoop]
    split <;> exact h
  | cons r rs ih =>
    intro state t h
    rw [slotLoop]
    split
    · exact h
    · split
      · exact h
      · rename_i d hd
        have hmsgs := slotMsgs_inv d (d.length + 1) ⟨0, d.length⟩ t h
        split
        · rename_i t' heq
          rw [heq] at hmsgs
          exact ih _ t' hmsgs
        · rename_i err t' heq
          rw [heq] at hmsgs
          exact hmsgs
        · rename_i t' heq
          rw [heq] at hmsgs
          exact hmsgs
        · rename_i t' heq
          rw [heq] at hmsgs
          split
          · exact hmsgs
          · exact ih _ t' hmsgs

theorem slotRead_inv (io : Socket) {t : Slots} (h : SlotsInv true t) :
    SlotsInv (slotRead io t).1.ok (slotRead io t).2 := by
  unfold slotRead
  split
  · exact h
  · split
    · exact h
    · exact slotLoop_inv io.send io.recv 0 t h

/-- Induction on the calls. -/
theorem Reached.inv {t : Slots} (h : Reached t) : SlotsInv true t := by
  induction h with
  | empty =>
    refine ⟨by simp, (fun hover => by cases hover), fun _ => ⟨?_, ?_, by simp⟩⟩
    · intro i b hb
      cases hb
    · intro i b hb
      cases hb
  | call _ hread ih =>
    rename_i io ifs _
    have hinv := slotRead_inv io ih
    rw [hread] at hinv
    exact hinv

/-! ## The entries of the blocks -/

/-- What `ffncIfiRead` computes for the entry of the block at `pos`: it faults where the loop over the
    block does, unless this went beyond the block. -/
def EntryIs (blocks : List Block) (pos : Nat) (r : Bool × Slots) (info : Option IfInfo) : Prop :=
  (r.1 = false ∧ r.2.overrun = true) ∨ (r.1 = false ∧ info = none) ∨
    ∃ nif, r.1 = true ∧ r.2.blocks = blocks.set pos nif ∧ info = some nif.info

theorem set_self {blocks : List Block} {pos : Nat} {nif : Block} (hb : blocks[pos]? = some nif) :
    blocks = blocks.set pos nif := by
  obtain ⟨hpos, hget⟩ := List.getElem?_eq_some_iff.mp hb
  rw [← hget, List.set_getElem_self]

/-- One attribute does to the entry what `addrAttr` does. -/
theorem storeAddr_entry (mem : List Byte) {pos : Nat} (family type : Nat) (val : Slice) {t : Slots}
    {nif : Block} (hb : t.blocks[pos]? = some nif) :
    EntryIs t.blocks pos (storeAddr mem pos family type val t)
      (addrAttr mem family type val nif.info) := by
  have hcase := storeAddr_cases mem family type val hb
  generalize storeAddr mem pos family type val t = r at hcase
  cases hcase with
  | other htype =>
    exact .inr (.inr ⟨nif, rfl, set_self hb, by rw [addrAttr, if_neg htype]⟩)
  | family htype hfamily =>
    refine .inr (.inr ⟨_, rfl, rfl, ?_⟩)
    rw [addrAttr, if_pos htype, if_neg fun h => hfamily (.inl h), if_neg fun h => hfamily (.inr h)]
    rfl
  | overrun => exact .inl ⟨rfl, rfl⟩
  | unreadable a _ _ hnone => exact .inr (.inl ⟨rfl, hnone⟩)
  | stored a nif' _ _ _ _ hinfo => exact .inr (.inr ⟨nif', rfl, rfl, hinfo⟩)

theorem slotAttrs_entry (mem : List Byte) (pos family fuel : Nat) :
    ∀ (body : Cursor) (t : Slots) (nif : Block), t.blocks[pos]? = some nif →
      EntryIs t.blocks pos (slotAttrs mem pos family fuel body t)
        (eachAttr (addrAttr mem family) mem fuel body nif.info) := by
  induction fuel with
  | zero =>
    intro body t nif _
    exact .inr (.inl ⟨rfl, rfl⟩)
  | succ fuel ih =>
    intro body t nif hb
    rw [slotAttrs, eachAttr]
    cases hnext : ffnetlinkRtattrNext mem body with
    | null => exact .inr (.inr ⟨nif, rfl, set_self hb, rfl⟩)
    | fault => exact .inr (.inl ⟨rfl, rfl⟩)
    | record attr val body' =>
      simp only
      cases htype : readAt mem (attr + 2) 2 with
      | none => exact .inr (.inl ⟨rfl, rfl⟩)
      | some type =>
        simp only [Option.bind_some]
        have hentry := storeAddr_entry mem family type val hb
        split
        · rename_i t' heq
          rw [heq] at hentry
          rcases hentry with hover | ⟨-, hnone⟩ | ⟨_, htrue, -⟩
          · exact .inl hover
          · rw [hnone]
            exact .inr (.inl ⟨rfl, rfl⟩)
          · cases htrue
        · rename_i t' heq
          rw [heq] at hentry
          rcases hentry with ⟨hfalse, -⟩ | ⟨hfalse, -⟩ | ⟨nif', -, hblocks, hinfo⟩
          · cases hfalse
          · cases hfalse
          · have hblocks' : t'.blocks = t.blocks.set pos nif' := hblocks
            have hb' : t'.blocks[pos]? = some nif' := by
              rw [hblocks', List.getElem?_set_self (List.getElem?_eq_some_iff.mp hb).1]
            have hrest := ih body' t' nif' hb'
            rw [EntryIs, hblocks'] at hrest
            rw [EntryIs, hinfo, Option.bind_some]
            simpa only [List.set_set] using hrest

/-- What the message loop of `ffncIfiRead` returns. -/
def handledOf (r : Turn × Slots) : Handled :=
  match r.1 with
  | .next => .next r.2.ifs
  | .done => .done r.2.ifs
  | .error err => .error err
  | .fault => .fault

theorem slotNewAddr_entries (mem : List Byte) (body : Slice) (t : Slots) :
    (slotNewAddr mem body t).1 = false ∧
        ((slotNewAddr mem body t).2.overrun = true ∨ newAddr mem body t.ifs = none) ∨
      (slotNewAddr mem body t).1 = true ∧
        newAddr mem body t.ifs = some (slotNewAddr mem body t).2.ifs := by
  unfold slotNewAddr newAddr
  cases hfamily : readAt mem body.off 1 with
  | none => exact .inl ⟨rfl, .inr rfl⟩
  | some family =>
    cases hindex : readAt mem (body.off + 4) 4 with
    | none => exact .inl ⟨rfl, .inr rfl⟩
    | some index =>
      simp only [Option.bind_some]
      cases hfind : ffncIfiFind t.ifs index with
      | none => exact .inr ⟨rfl, rfl⟩
      | some pos =>
        have hpos : pos < t.ifs.length := (List.findIdx?_eq_some_iff_getElem.mp hfind).1
        have hlen : pos < t.blocks.length := by
          rw [Slots.ifs, List.length_map] at hpos
          exact hpos
        have hb : t.blocks[pos]? = some t.blocks[pos] := List.getElem?_eq_getElem hlen
        have hifs : t.ifs[pos]? = some t.blocks[pos].info := by
          rw [Slots.ifs, List.getElem?_map, hb, Option.map_some]
        simp only [hifs, Option.bind_some]
        rcases slotAttrs_entry mem pos family (mem.length + 1) _ t _ hb with
          ⟨hfalse, hover⟩ | ⟨hfalse, hnone⟩ | ⟨nif', htrue, hblocks, hinfo⟩
        · exact .inl ⟨hfalse, .inl hover⟩
        · exact .inl ⟨hfalse, .inr (by rw [hnone, Option.map_none])⟩
        · refine .inr ⟨htrue, ?_⟩
          rw [hinfo, Option.map_some, Slots.ifs, Slots.ifs, hblocks, List.map_set]

/-- The loop faulted because of a store beyond a block. -/
def Overrun (fault : Prop) (t : Slots) : Prop := fault ∧ t.overrun = true

theorem slotMsg_entries (mem : List Byte) (t : Slots) (type : Nat) (body : Slice) :
    Overrun ((slotMsg mem t type body).1 = .fault) (slotMsg mem t type body).2 ∨
      handleMsg mem t.ifs type body = handledOf (slotMsg mem t type body) := by
  unfold slotMsg handleMsg
  split
  · split
    · exact .inr rfl
    · cases newLink mem body with
      | none => exact .inr rfl
      | some nif =>
        refine .inr ?_
        simp only [handledOf, Slots.ifs, List.map_append]
        rfl
  split
  · split
    · exact .inr rfl
    · have hentries := slotNewAddr_entries mem body t
      split
      · rename_i t' heq
        rw [heq] at hentries
        rcases hentries with ⟨-, hover | hnone⟩ | ⟨htrue, -⟩
        · exact .inl ⟨rfl, hover⟩
        · rw [hnone]
          exact .inr rfl
        · cases htrue
      · rename_i t' heq
        rw [heq] at hentries
        rcases hentries with ⟨hfalse, -⟩ | ⟨-, hsome⟩
        · cases hfalse
        · rw [hsome]
          exact .inr rfl
  split
  · cases errorOf mem body <;> exact .inr rfl
  split
  · exact .inr rfl
  · exact .inr rfl

theorem slotMsgs_entries (mem : List Byte) (fuel : Nat) :
    ∀ (resp : Cursor) (t : Slots),
      Overrun ((slotMsgs mem fuel resp t).1 = .fault) (slotMsgs mem fuel resp t).2 ∨
        readMsgs mem fuel resp t.ifs = handledOf (slotMsgs mem fuel resp t) := by
  induction fuel with
  | zero =>
    intro resp t
    exact .inr rfl
  | succ fuel ih =>
    intro resp t
    rw [slotMsgs, readMsgs]
    cases hnext : ffnetlinkNext mem resp with
    | null => exact .inr rfl
    | fault => exact .inr rfl
    | record nh body resp' =>
      simp only
      cases htype : readAt mem (nh + 4) 2 with
      | none => exact .inr rfl
      | some type =>
        simp only
        have hmsg := slotMsg_entries mem t type body
        obtain ⟨turn, t', heq⟩ : ∃ turn t', slotMsg mem t type body = (turn, t') := ⟨_, _, rfl⟩
        rw [heq] at hmsg
        rw [heq]
        rcases hmsg with ⟨hfault, hover⟩ | hmsg
        · have hturn : turn = .fault := hfault
          subst hturn
          exact .inl ⟨rfl, hover⟩
        · rw [hmsg]
          cases turn with
          | next => exact ih resp' t'
          | done => exact .inr rfl
          | error err => exact .inr rfl
          | fault => exact .inr rfl

theorem slotLoop_entries (send : Nat → Option Int) (rs : List Recv) :
    ∀ (state : Nat) (t : Slots),
      Overrun ((slotLoop send rs state t).1 = .fault) (slotLoop send rs state t).2 ∨
        ifiReadLoop send rs state t.ifs = (slotLoop send rs state t).1 := by
  induction rs with
  | nil =>
    intro state t
    rw [slotLoop, ifiReadLoop]
    cases sendRequest send state <;> exact .inr rfl
  | cons r rs ih =>
    intro state t
    rw [slotLoop, ifiReadLoop]
    cases hsend : sendRequest send state with
    | error errno => exact .inr rfl
    | ok state =>
      cases hrecv : ffnetlinkRecv bufCap r with
      | error errno => exact .inr rfl
      | ok d =>
        simp only
        have hmsgs := slotMsgs_entries d (d.length + 1) ⟨0, d.length⟩ t
        obtain ⟨turn, t', heq⟩ : ∃ turn t', slotMsgs d (d.length + 1) ⟨0, d.length⟩ t = (turn, t') :=
          ⟨_, _, rfl⟩
        rw [heq] at hmsgs
        rw [heq]
        rcases hmsgs with ⟨hfault, hover⟩ | hmsgs
        · have hturn : turn = .fault := hfault
          subst hturn
          exact .inl ⟨rfl, hover⟩
        · rw [hmsgs]
          cases turn with
          | next => exact ih state t'
          | error err => exact .inr rfl
          | fault => exact .inr rfl
          | done =>
            simp only [handledOf]
            split
            · exact .inr rfl
            · exact ih _ t'

/-- **The blocks have the entries of `ffncIfiRead`**, and the run ends as it does, unless a store went
    beyond its block. -/
theorem slotRead_refines (io : Socket) (t : Slots) :
    Overrun ((slotRead io t).1 = .fault) (slotRead io t).2 ∨
      ffncIfiRead io t.ifs = (slotRead io t).1 := by
  unfold slotRead ffncIfiRead
  cases io.create with
  | some errno => exact .inr rfl
  | none =>
    cases io.alloc with
    | some errno => exact .inr rfl
    | none => exact slotLoop_entries io.send io.recv 0 t

/-! ## Runs -/

/-- Every store goes to a slot that its block has room for, writes this slot and reads the payload;
    none of them is a fault, so that the run ends as that of `ffncIfiRead`, which has no blocks; and
    `ip_n` counts the addresses in the end. -/
structure SafeRun (io : Socket) (t : Slots) : Prop where
  stores : ∀ a ∈ (slotRead io t).2.log, SafeStore a
  inside : (slotRead io t).2.overrun = false
  outcome : ffncIfiRead io t.ifs = (slotRead io t).1
  counted : (slotRead io t).1 ≠ .fault → Counted (slotRead io t).2

/-- The interface 1, without attributes that are read. -/
def plainLink : Nlmsg :=
  ⟨16, 2, 0, 0, List.replicate 4 0 ++ leBytes 4 1 ++ List.replicate 8 0 ++ [4, 0, 0, 0]⟩

/-- An address of the interface 1: `family`, and `IFA_ADDRESS` with the payload `val`. -/
def addrOf (family : Byte) (val : List Byte) : Nlmsg :=
  ⟨20, 2, 0, 0, [family, 64, 0, 0] ++ leBytes 4 1 ++
    leBytes 2 (4 + val.length) ++ leBytes 2 IFA_ADDRESS ++ val ++ [8, 0, 8, 0, 0, 0, 0, 0]⟩

/-- A socket that delivers the interface 1 and its addresses, and blocks then. -/
def addrSocket (addrs : List Nlmsg) : Socket :=
  ⟨none, none, fun _ => none, [⟨some (datagram (plainLink :: addrs)), 0⟩]⟩

/-- An IPv6 and an IPv4 address. -/
def twoAddrs : Socket :=
  addrSocket [addrOf 10 (List.replicate 16 0xfe), addrOf 2 [127, 0, 0, 1]]

end FFSys.Netconf
