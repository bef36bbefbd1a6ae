import Mathlib.Algebra.Order.Ring.Nat
import Mathlib.Data.List.Basic

/-!
# DNS server addresses

Model of `_ffnetconf_dns` for UNIX: it reads `/etc/resolv.conf`, cuts it into lines and words, and
puts the addresses in one block, the pointers first and then the strings.

* `dnsLine` — one line; `dnsLoop` — the lines.
* `Cell`, `storeCells`, `dnsLayout` — the block and the loop that fills it; a store outside of it is
  a fault (`none`).
* `ffnetconfDns` — the function; `dnsAddr` — how a caller reads `dns_addrs[i]`.
* `dnsLayout_eq` — the two passes agree: the block is filled by the pointers and strings (`packed`).
* `dnsAddr_packed` — the strings are found through the pointers.

Memory allocations succeed.
-/

set_option autoImplicit false

namespace FFSys.Netconf

/-! ## Lines and words -/

/-- A space or a tab. -/
def isBlank (c : UInt8) : Bool := c == 0x20 || c == 0x09

/-- The set `skip`: a space, a tab or a carriage return. -/
def isSkip (c : UInt8) : Bool := c == 0x20 || c == 0x09 || c == 0x0d

/-- `"nameserver"` -/
def nameserver : List UInt8 := [0x6e, 0x61, 0x6d, 0x65, 0x73, 0x65, 0x72, 0x76, 0x65, 0x72]

/-- `ffstr_splitby`, `ffstr_splitbyany`: the bytes before the first separator, and those after it. -/
def ffstrSplitby (sep : UInt8 → Bool) (s : List UInt8) : List UInt8 × List UInt8 :=
  (s.takeWhile fun c => !sep c, (s.dropWhile fun c => !sep c).drop 1)

/-- One line: the address, if it is a `nameserver` line. -/
def dnsLine (line : List UInt8) : Option (List UInt8) :=
  let line := line.dropWhile isSkip
  let (word, line) := ffstrSplitby isBlank line
  if word = nameserver then some (ffstrSplitby isBlank line).1 else none

/-- The loop over the lines: `servers` and `cap`.  `none`: not at the end after `fuel` lines. -/
def dnsLoop : Nat → List UInt8 → List (List UInt8) → Nat → Option (List (List UInt8) × Nat)
  | 0, _, _, _ => none
  | fuel + 1, input, servers, cap =>
    if input = [] then some (servers, cap)
    else
      let (line, input) := ffstrSplitby (· == 0x0a) input
      match dnsLine line with
      | some word => dnsLoop fuel input (servers ++ [word]) (cap + (word.length + 1))
      | none => dnsLoop fuel input servers cap

/-! ## The block -/

/-- A byte of the block: not written yet, a byte of a pointer to `off`, or a byte of a string. -/
inductive Cell where
  | free
  | ptr (off k : Nat)
  | byte (c : UInt8)
  deriving DecidableEq, Repr

/-- A pointer has 8 bytes. -/
def ptrCells (off : Nat) : List Cell := (List.range 8).map (Cell.ptr off)

def storeCells (block : List Cell) (off : Nat) (cells : List Cell) : Option (List Cell) :=
  if off + cells.length ≤ block.length then
    some (block.take off ++ cells ++ block.drop (off + cells.length))
  else none

/-- The loop that fills the block. -/
def dnsLayout : List (List UInt8) → Nat → Nat → List Cell → Option (List Cell)
  | [], _, _, block => some block
  | el :: servers, ptr, data, block =>
    match storeCells block data (el.map .byte) with
    | none => none
    | some block =>
      match storeCells block ptr (ptrCells data) with
      | none => none
      | some block =>
        match storeCells block (data + el.length) [.byte 0] with
        | none => none
        | some block => dnsLayout servers (ptr + 8) (data + el.length + 1) block

/-- `dns_addrs` and `dns_addrs_num`. -/
structure DnsConf where
  addrs : List Cell
  num : Nat
  deriving DecidableEq, Repr

/-- `_ffnetconf_dns` on a fresh object; no file: it cannot be opened or read.  `none`: a fault. -/
def ffnetconfDns (file : Option (List UInt8)) : Option (Int × DnsConf) :=
  match file with
  | none => some (-1, ⟨[], 0⟩)
  | some content =>
    let fdata := content.take (4 * 1024)
    if fdata = [] then some (-1, ⟨[], 0⟩)
    else
      match dnsLoop (fdata.length + 1) fdata [] 0 with
      | none => none
      | some (servers, cap) =>
        match dnsLayout servers 0 (servers.length * 8) (List.replicate (cap + servers.length * 8) .free) with
        | none => none
        | some block => some (0, ⟨block, servers.length⟩)

/-- The pointer `addrs[i]`. -/
def ptrAt (addrs : List Cell) (i : Nat) : Option Nat :=
  match addrs[8 * i]? with
  | some (.ptr off _) => if (addrs.drop (8 * i)).take 8 = ptrCells off then some off else none
  | _ => none

/-- A NUL-terminated string. -/
def cstrOf : List Cell → Option (List UInt8)
  | .byte c :: cells => if c = 0 then some [] else (cstrOf cells).map (c :: ·)
  | _ => none

/-- The string `dns_addrs[i]`. -/
def dnsAddr (conf : DnsConf) (i : Nat) : Option (List UInt8) :=
  match ptrAt conf.addrs i with
  | none => none
  | some off => cstrOf (conf.addrs.drop off)

/-! ## Filling the block -/

/-- The bytes of the strings. -/
def dataSize (servers : List (List UInt8)) : Nat := (servers.map fun s => s.length + 1).sum

theorem dataSize_cons (s : List UInt8) (servers : List (List UInt8)) :
    dataSize (s :: servers) = s.length + 1 + dataSize servers := rfl

/-- The pointers to strings from `off` on. -/
def packPtrs : Nat → List (List UInt8) → List Cell
  | _, [] => []
  | off, s :: servers => ptrCells off ++ packPtrs (off + s.length + 1) servers

/-- The strings with their NULs. -/
def packData (servers : List (List UInt8)) : List Cell :=
  (servers.map fun s => s.map Cell.byte ++ [.byte 0]).flatten

/-- The block: pointers, then strings. -/
def packed (servers : List (List UInt8)) : List Cell :=
  packPtrs (8 * servers.length) servers ++ packData servers

theorem ptrCells_length (off : Nat) : (ptrCells off).length = 8 := by
  simp [ptrCells]

theorem packPtrs_length (servers : List (List UInt8)) :
    ∀ off, (packPtrs off servers).length = 8 * servers.length := by
  induction servers with
  | nil =>
    intro off
    rfl
  | cons s servers ih =>
    intro off
    rw [packPtrs, List.length_append, ptrCells_length, ih, List.length_cons]
    omega

theorem packData_cons (s : List UInt8) (servers : List (List UInt8)) :
    packData (s :: servers) = s.map Cell.byte ++ ([.byte 0] ++ packData servers) := by
  simp [packData]

theorem packData_append (servers servers' : List (List UInt8)) :
    packData (servers ++ servers') = packData servers ++ packData servers' := by
  simp [packData]

theorem packData_length (servers : List (List UInt8)) : (packData servers).length = dataSize servers := by
  induction servers with
  | nil => rfl
  | cons s servers ih =>
    rw [packData_cons, dataSize_cons, List.length_append, List.length_append, ih, List.length_map,
      List.length_singleton]
    omega

theorem storeCells_mid (pre old cells post : List Cell) (h : cells.length = old.length) :
    storeCells (pre ++ (old ++ post)) pre.length cells = some (pre ++ (cells ++ post)) := by
  have hdrop : (pre ++ (old ++ post)).drop (pre.length + cells.length) = post := by
    rw [h, ← List.drop_drop, List.drop_left' rfl, List.drop_left' rfl]
  have hfits : pre.length + cells.length ≤ (pre ++ (old ++ post)).length := by
    rw [List.length_append, List.length_append, h]
    omega
  rw [storeCells, if_pos hfits, hdrop, List.take_left' rfl, List.append_assoc]

/-- **The loop fills the block**: induction on the servers that are still to be stored.  Before them
    are the pointers `ptrs` and the strings `data`; there is room for the other pointers after
    `ptrs`, and for the other strings after `data`. -/
theorem dnsLayout_eq (servers : List (List UInt8)) :
    ∀ (ptrs data : List Cell),
      dnsLayout servers ptrs.length (ptrs.length + 8 * servers.length + data.length)
        (ptrs ++ (List.replicate (8 * servers.length) .free ++
          (data ++ List.replicate (dataSize servers) .free))) =
      some (ptrs ++ (packPtrs (ptrs.length + 8 * servers.length + data.length) servers ++
        (data ++ packData servers))) := by
  induction servers with
  | nil =>
    intro ptrs data
    simp [dnsLayout, packPtrs, packData, dataSize]
  | cons el servers ih =>
    intro ptrs data
    rw [List.length_cons]
    generalize hoff : ptrs.length + 8 * (servers.length + 1) + data.length = off
    have hptrs : List.replicate (8 * (servers.length + 1)) Cell.free =
        List.replicate 8 .free ++ List.replicate (8 * servers.length) .free := by
      rw [List.replicate_append_replicate]
      congr 1
      omega
    have hdata : List.replicate (dataSize (el :: servers)) Cell.free =
        List.replicate el.length .free ++ ([.free] ++ List.replicate (dataSize servers) .free) := by
      rw [dataSize_cons, ← List.replicate_one, List.replicate_append_replicate,
        List.replicate_append_replicate]
      congr 1
      omega
    -- the string
    have hstore₁ := storeCells_mid
      (ptrs ++ (List.replicate 8 .free ++ (List.replicate (8 * servers.length) .free ++ data)))
      (List.replicate el.length .free) (el.map .byte)
      ([.free] ++ List.replicate (dataSize servers) .free) (by simp)
    -- the pointer to it
    have hstore₂ := storeCells_mid ptrs (List.replicate 8 .free) (ptrCells off)
      (List.replicate (8 * servers.length) .free ++ (data ++ (el.map .byte ++
        ([.free] ++ List.replicate (dataSize servers) .free)))) (by simp [ptrCells_length])
    -- the NUL after it
    have hstore₃ := storeCells_mid
      (ptrs ++ (ptrCells off ++ (List.replicate (8 * servers.length) .free ++ (data ++ el.map .byte))))
      [.free] [.byte 0] (List.replicate (dataSize servers) .free) rfl
    have hlen₁ : (ptrs ++ (List.replicate 8 Cell.free ++
        (List.replicate (8 * servers.length) Cell.free ++ data))).length = off := by
      simp only [List.length_append, List.length_replicate]
      omega
    have hlen₃ : (ptrs ++ (ptrCells off ++
        (List.replicate (8 * servers.length) Cell.free ++ (data ++ el.map Cell.byte)))).length =
          off + el.length := by
      simp only [List.length_append, List.length_replicate, ptrCells_length, List.length_map]
      omega
    rw [hlen₁] at hstore₁
    rw [hlen₃] at hstore₃
    simp only [List.append_assoc] at hstore₁ hstore₂ hstore₃
    have hrest := ih (ptrs ++ ptrCells off) (data ++ (el.map .byte ++ [.byte 0]))
    have hptr : (ptrs ++ ptrCells off).length = ptrs.length + 8 := by
      rw [List.length_append, ptrCells_length]
    have hnext : ptrs.length + 8 + 8 * servers.length +
        (data ++ (el.map Cell.byte ++ [Cell.byte 0])).length = off + el.length + 1 := by
      simp only [List.length_append, List.length_map, List.length_singleton]
      omega
    rw [hptr, hnext] at hrest
    simp only [List.append_assoc] at hrest
    rw [dnsLayout, hptrs, hdata]
    simp only [List.append_assoc, hstore₁, hstore₂, hstore₃, hrest, packPtrs, packData_cons]

/-- The block of `_ffnetconf_dns`. -/
theorem dnsLayout_packed (servers : List (List UInt8)) :
    dnsLayout servers 0 (servers.length * 8)
      (List.replicate (dataSize servers + servers.length * 8) .free) = some (packed servers) := by
  have hlayout := dnsLayout_eq servers [] []
  simp only [List.length_nil, Nat.zero_add, Nat.add_zero, List.nil_append,
    List.replicate_append_replicate] at hlayout
  rw [Nat.mul_comm servers.length 8, Nat.add_comm (dataSize servers)]
  exact hlayout

/-- Nothing is left free. -/
theorem packed_filled (servers : List (List UInt8)) : Cell.free ∉ packed servers := by
  have hptrs : ∀ off, Cell.free ∉ packPtrs off servers := by
    induction servers with
    | nil =>
      intro off
      simp [packPtrs]
    | cons s servers ih =>
      intro off
      rw [packPtrs, List.mem_append, not_or]
      exact ⟨by simp [ptrCells], ih _⟩
  rw [packed, List.mem_append, not_or]
  exact ⟨hptrs _, by simp [packData]⟩

/-! ## Reading the block -/

theorem packPtrs_append (servers servers' : List (List UInt8)) :
    ∀ off, packPtrs off (servers ++ servers') =
      packPtrs off servers ++ packPtrs (off + dataSize servers) servers' := by
  induction servers with
  | nil =>
    intro off
    rfl
  | cons s servers ih =>
    intro off
    rw [List.cons_append, packPtrs, packPtrs, ih, dataSize_cons, List.append_assoc]
    congr 3
    omega

/-- A string up to its first NUL. -/
theorem cstrOf_bytes (w : List UInt8) (rest : List Cell) :
    cstrOf (w.map .byte ++ ([.byte 0] ++ rest)) = some (w.takeWhile (· != 0)) := by
  induction w with
  | nil => rfl
  | cons c w ih =>
    rw [List.map_cons, List.cons_append, cstrOf, List.takeWhile_cons]
    by_cases hc : c = 0
    · rw [if_pos hc, hc]
      rfl
    · rw [if_neg hc, ih, bne_iff_ne.mpr hc]
      rfl

theorem ptrAt_mid (pre post : List Cell) (off : Nat) {i : Nat} (h : pre.length = 8 * i) :
    ptrAt (pre ++ (ptrCells off ++ post)) i = some off := by
  have hdrop : (pre ++ (ptrCells off ++ post)).drop (8 * i) = ptrCells off ++ post := by
    rw [← h]
    exact List.drop_left' rfl
  have hget : (pre ++ (ptrCells off ++ post))[8 * i]? = some (.ptr off 0) := by
    rw [← h, List.getElem?_append_right (Nat.le_refl _), Nat.sub_self]
    rfl
  rw [ptrAt, hget, hdrop, List.take_left' (ptrCells_length off)]
  exact if_pos rfl

/-- **The strings are found through the pointers.** -/
theorem dnsAddr_packed (servers : List (List UInt8)) (num : Nat) {i : Nat} {w : List UInt8}
    (h : servers[i]? = some w) : dnsAddr ⟨packed servers, num⟩ i = some (w.takeWhile (· != 0)) := by
  obtain ⟨hi, hw⟩ := List.getElem?_eq_some_iff.mp h
  have hsplit : servers = servers.take i ++ w :: servers.drop (i + 1) := by
    rw [← hw, List.getElem_cons_drop, List.take_append_drop]
  generalize servers.drop (i + 1) = post at hsplit
  have hpre : (servers.take i).length = i := by
    rw [List.length_take]
    omega
  generalize servers.take i = pre at hsplit hpre
  have hptr : ptrAt (packed servers) i = some (8 * servers.length + dataSize pre) := by
    unfold packed
    generalize 8 * servers.length = off
    rw [hsplit, packPtrs_append, packPtrs, List.append_assoc, List.append_assoc]
    exact ptrAt_mid _ _ _ (by rw [packPtrs_length, hpre])
  have hstr : (packed servers).drop (8 * servers.length + dataSize pre) =
      w.map .byte ++ ([.byte 0] ++ packData post) := by
    rw [packed, ← List.drop_drop, List.drop_left' (packPtrs_length servers _), hsplit, packData_append,
      List.drop_left' (packData_length pre), packData_cons]
  simp only [dnsAddr, hptr, hstr, cstrOf_bytes]

end FFSys.Netconf
