import FFSys.Netlink.Message

/-!
# When the iteration stays inside of the buffer

`..._NEXT` takes the length rounded up to 4 bytes from the rest although `..._OK` compares the rest
with the length itself, `NLMSG_ALIGN` of a length close to `2 ^ 32` is 0, and `NLMSG_PAYLOAD(nh, 4)` of
a length from 16 to 19 is close to `2 ^ 32`.

* `SafeIteration` — the iteration ends, the rest never wraps around, headers and bodies are inside
  of the buffer.
* `WellLaid` — none of the above happens at a header that the iteration gets to.
* `safeIteration_iff` — one is the exact condition for the other, for every kind of records
  (`KindFacts`); `netlink_safe_iff` — for messages and attributes.
-/

set_option autoImplicit false

namespace FFSys.Netlink

open FFSys.Lib

/-- `n` rounded up to a multiple of 4. -/
def roundUp (n : Nat) : Nat := (n + 3) / 4 * 4

/-! ## Safe iterations -/

/-- One call: the header and the body are in the buffer, the rest did not wrap around. -/
structure SafeRecord (k : RecordKind) (mem : List Byte) (r : Record) : Prop where
  header : r.hdr + k.hdrLen ≤ mem.length
  body : r.body.off + r.body.len ≤ mem.length
  rest : r.after.len ≤ r.before.len

/-- The iteration gets to `NULL`, and each call before that was safe. -/
def SafeIteration (k : RecordKind) (mem : List Byte) (buf : Cursor) : Prop :=
  ∃ fuel rs, iterate k mem fuel buf = some rs ∧ ∀ r ∈ rs, SafeRecord k mem r

/-- A header with the length `n` that passes `..._OK`. -/
structure Heads (k : RecordKind) (mem : List Byte) (buf : Cursor) (n : Nat) : Prop where
  room : k.hdrLen ≤ buf.len
  read : readAt mem buf.off k.lenWidth = some n
  least : k.hdrLen ≤ n
  most : n ≤ buf.len

/-- The headers from `buf` on, each `roundUp n` bytes after the one before it, all have `fits`. -/
inductive WellLaid (k : RecordKind) (fits : Cursor → Nat → Prop) (mem : List Byte) : Cursor → Prop
  | stop (buf : Cursor) : (∀ n, ¬ Heads k mem buf n) → WellLaid k fits mem buf
  | next (buf : Cursor) (n : Nat) : Heads k mem buf n → fits buf n →
      WellLaid k fits mem ⟨buf.off + roundUp n, buf.len - roundUp n⟩ → WellLaid k fits mem buf

/-- A message fits if its length rounded up does (without an overflow), and either it has the 4 bytes
    that `NLMSG_PAYLOAD(nh, 4)` takes off or the buffer has another 4 GiB. -/
def nlmsgFits (total : Nat) (buf : Cursor) (n : Nat) : Prop :=
  roundUp n ≤ buf.len ∧ n + 3 < 2 ^ 32 ∧ (20 ≤ n ∨ buf.off + n + (2 ^ 32 - 4) ≤ total)

/-- An attribute fits if its length rounded up does. -/
def rtaFits (buf : Cursor) (n : Nat) : Prop := roundUp n ≤ buf.len

/-! ## One call -/

/-- What the proof needs to know of the macros. -/
structure KindFacts (k : RecordKind) (fits : Cursor → Nat → Prop) (total : Nat) : Prop where
  width : k.lenWidth ≤ k.hdrLen
  align : ∀ n < 256 ^ k.lenWidth, k.align n = roundUp n ∧ roundUp n < 2 ^ 64 ∨ k.align n = 0
  fits_iff : ∀ (buf : Cursor) (n : Nat), buf.off + buf.len ≤ total → n < 256 ^ k.lenWidth →
    k.hdrLen ≤ n → n ≤ buf.len →
      (fits buf n ↔ k.align n = roundUp n ∧ roundUp n ≤ buf.len ∧
        buf.off + k.hdrLen + k.payload n ≤ total)

/-- The buffer after the call. -/
def RecordKind.advance (k : RecordKind) (buf : Cursor) (n : Nat) : Cursor :=
  ⟨buf.off + k.align n, (buf.len + 2 ^ 64 - k.align n) % 2 ^ 64⟩

section Calls

variable {k : RecordKind} {mem : List Byte} {buf : Cursor}

theorem nextRecord_null (h : ∀ n, ¬ Heads k mem buf n) (hwidth : k.lenWidth ≤ k.hdrLen)
    (hbuf : buf.off + buf.len ≤ mem.length) : nextRecord k mem buf = .null := by
  unfold nextRecord
  split
  · rfl
  · rename_i hroom
    rw [readAt, if_pos (by omega)]
    simp only
    rw [if_pos]
    apply Decidable.byContradiction
    intro hok
    apply h _
    refine ⟨by omega, ?_, Nat.not_lt.mp fun h => hok (.inl h), Nat.not_lt.mp fun h => hok (.inr h)⟩
    rw [readAt, if_pos (by omega)]

theorem nextRecord_record {n : Nat} (h : Heads k mem buf n) :
    nextRecord k mem buf =
      .record buf.off ⟨buf.off + k.hdrLen, k.payload n⟩ (k.advance buf n) := by
  have hroom := h.room
  have hleast := h.least
  have hmost := h.most
  simp only [nextRecord, if_neg (Nat.not_lt.mpr hroom), h.read]
  rw [if_neg (by omega), RecordKind.advance]

/-- A rounded length of 0 leaves the buffer as it was. -/
theorem advance_zero {n : Nat} (h : k.align n = 0) (hlen : buf.len < 2 ^ 64) :
    k.advance buf n = buf := by
  unfold RecordKind.advance
  rw [h, Nat.add_zero, Nat.sub_zero, Nat.add_mod_right, Nat.mod_eq_of_lt hlen]

theorem advance_fits {n : Nat} (h : k.align n = roundUp n) (hfit : roundUp n ≤ buf.len)
    (hlen : buf.len < 2 ^ 64) : k.advance buf n = ⟨buf.off + roundUp n, buf.len - roundUp n⟩ := by
  unfold RecordKind.advance
  have hmod : (buf.len + 2 ^ 64 - roundUp n) % 2 ^ 64 = buf.len - roundUp n := by omega
  rw [h, hmod]

/-- The rest that is not larger did not wrap around. -/
theorem fit_of_rest {n : Nat} (h : k.align n = roundUp n) (hround : roundUp n < 2 ^ 64)
    (hlen : buf.len < 2 ^ 64) (hrest : (k.advance buf n).len ≤ buf.len) : roundUp n ≤ buf.len := by
  have hrest' : (buf.len + 2 ^ 64 - roundUp n) % 2 ^ 64 ≤ buf.len := by
    rw [← h]
    exact hrest
  omega

theorem iterate_cons {hdr fuel : Nat} {body : Slice} {buf' : Cursor}
    (h : nextRecord k mem buf = .record hdr body buf') :
    iterate k mem (fuel + 1) buf = (iterate k mem fuel buf').map (⟨hdr, body, buf, buf'⟩ :: ·) := by
  rw [iterate, h]

/-- A call that leaves the buffer as it was is made for ever. -/
theorem iterate_stuck {hdr : Nat} {body : Slice} (h : nextRecord k mem buf = .record hdr body buf) :
    ∀ fuel, iterate k mem fuel buf = none := by
  intro fuel
  induction fuel with
  | zero => rfl
  | succ fuel ih => rw [iterate_cons h, ih, Option.map_none]

end Calls

/-! ## Whole iterations -/

section Runs

variable {k : RecordKind} {fits : Cursor → Nat → Prop} {mem : List Byte}

/-- Induction on the calls: each safe call that is not repeated for ever is at a header that fits. -/
theorem wellLaid_of_safe (hk : KindFacts k fits mem.length) (hmem : mem.length < 2 ^ 64) :
    ∀ (fuel : Nat) (buf : Cursor) (rs : List Record), buf.off + buf.len ≤ mem.length →
      iterate k mem fuel buf = some rs → (∀ r ∈ rs, SafeRecord k mem r) →
        WellLaid k fits mem buf := by
  intro fuel
  induction fuel with
  | zero =>
    intro buf rs _ hrun
    cases hrun
  | succ fuel ih =>
    intro buf rs hbuf hrun hsafe
    by_cases hstop : ∀ n, ¬ Heads k mem buf n
    · exact .stop buf hstop
    · obtain ⟨n, hn⟩ := not_forall_not.mp hstop
      have hnext := nextRecord_record hn
      have hlt := readAt_lt hn.read
      rw [iterate_cons hnext] at hrun
      obtain ⟨rs', hrun', rfl⟩ := Option.map_eq_some_iff.mp hrun
      have hfirst := hsafe _ List.mem_cons_self
      rcases hk.align n hlt with ⟨halign, hround⟩ | hzero
      · have hfit := fit_of_rest halign hround (by omega) hfirst.rest
        rw [advance_fits halign hfit (by omega)] at hrun'
        apply WellLaid.next buf n hn
        · exact (hk.fits_iff buf n hbuf hlt hn.least hn.most).mpr ⟨halign, hfit, hfirst.body⟩
        · apply ih _ rs' _ hrun'
          · intro r hr
            exact hsafe r (List.mem_cons_of_mem _ hr)
          · show buf.off + roundUp n + (buf.len - roundUp n) ≤ mem.length
            omega
      · rw [advance_zero hzero (by omega)] at hnext hrun'
        rw [iterate_stuck hnext] at hrun'
        cases hrun'

/-- Induction on the headers. -/
theorem safe_of_wellLaid (hk : KindFacts k fits mem.length) (hmem : mem.length < 2 ^ 64)
    {buf : Cursor} (h : WellLaid k fits mem buf) :
    buf.off + buf.len ≤ mem.length → SafeIteration k mem buf := by
  induction h with
  | stop buf hstop =>
    intro hbuf
    refine ⟨1, [], ?_, by simp⟩
    rw [iterate, nextRecord_null hstop hk.width hbuf]
  | next buf n hn hfits _ ih =>
    intro hbuf
    have hlt := readAt_lt hn.read
    have hroom := hn.room
    obtain ⟨halign, hfit, hbody⟩ := (hk.fits_iff buf n hbuf hlt hn.least hn.most).mp hfits
    have hadvance := advance_fits halign hfit (by omega)
    have hnext := nextRecord_record hn
    rw [hadvance] at hnext
    obtain ⟨fuel, rs, hrun, hsafe⟩ := ih (by show buf.off + roundUp n + (buf.len - roundUp n) ≤ _; omega)
    refine ⟨fuel + 1, _ :: rs, by rw [iterate_cons hnext, hrun]; rfl, ?_⟩
    intro r hr
    rcases List.mem_cons.mp hr with rfl | hr
    · exact ⟨by show buf.off + k.hdrLen ≤ _; omega, hbody, Nat.sub_le _ _⟩
    · exact hsafe r hr

/-- **Safe iterations.** -/
theorem safeIteration_iff (hk : KindFacts k fits mem.length) (hmem : mem.length < 2 ^ 64)
    {buf : Cursor} (hbuf : buf.off + buf.len ≤ mem.length) :
    SafeIteration k mem buf ↔ WellLaid k fits mem buf := by
  constructor
  · rintro ⟨fuel, rs, hrun, hsafe⟩
    exact wellLaid_of_safe hk hmem fuel buf rs hbuf hrun hsafe
  · intro h
    exact safe_of_wellLaid hk hmem h hbuf

end Runs

/-! ## The macros -/

/-- Rounding up in 32 bits: the rounded number, or 0 after an overflow. -/
theorem align_four {n : Nat} (hn : n < 2 ^ 32) :
    (n + 3) % 2 ^ 32 / 4 * 4 = (n + 3) / 4 * 4 ∧ (n + 3) / 4 * 4 < 2 ^ 64 ∨
      (n + 3) % 2 ^ 32 / 4 * 4 = 0 := by
  omega

theorem nlmsg_facts (total : Nat) : KindFacts nlmsgKind (nlmsgFits total) total where
  width := by decide
  align := by
    intro n hn
    exact align_four hn
  fits_iff := by
    intro buf n hbuf hn hleast hmost
    have hn' : n < 2 ^ 32 := hn
    have hleast' : 16 ≤ n := hleast
    have halign : nlmsgKind.align n = (n + 3) % 2 ^ 32 / 4 * 4 := rfl
    have hpayload : nlmsgKind.payload n = (n + 2 ^ 32 - 20) % 2 ^ 32 := rfl
    have hhdr : nlmsgKind.hdrLen = 16 := rfl
    unfold nlmsgFits roundUp
    rw [halign, hpayload, hhdr]
    constructor
    · rintro ⟨hfit, hsmall, hlong | hroom⟩
      · refine ⟨by omega, hfit, by omega⟩
      · refine ⟨by omega, hfit, by omega⟩
    · rintro ⟨hround, hfit, hbody⟩
      refine ⟨hfit, by omega, ?_⟩
      by_cases hlong : 20 ≤ n
      · exact .inl hlong
      · right
        omega

theorem rta_facts (total : Nat) : KindFacts rtaKind rtaFits total where
  width := by decide
  align := by
    intro n hn
    have hn' : n < 65536 := hn
    exact align_four (by omega)
  fits_iff := by
    intro buf n hbuf hn hleast hmost
    have hn' : n < 65536 := hn
    have hleast' : 4 ≤ n := hleast
    have halign : rtaKind.align n = (n + 3) % 2 ^ 32 / 4 * 4 := rfl
    have hpayload : rtaKind.payload n = (n + 2 ^ 64 - 4) % 2 ^ 64 := rfl
    have hhdr : rtaKind.hdrLen = 4 := rfl
    unfold rtaFits roundUp
    rw [halign, hpayload, hhdr]
    omega

/-- **Netlink iteration.**  On any buffer, the iteration over its messages, and over the attributes of
    any slice of it, is safe exactly if every length fits. -/
theorem netlink_safe_iff (mem : List Byte) (hmem : mem.length < 2 ^ 64) :
    (SafeIteration nlmsgKind mem ⟨0, mem.length⟩ ↔
      WellLaid nlmsgKind (nlmsgFits mem.length) mem ⟨0, mem.length⟩) ∧
    ∀ off len, off + len ≤ mem.length →
      (SafeIteration rtaKind mem ⟨off, len⟩ ↔ WellLaid rtaKind rtaFits mem ⟨off, len⟩) := by
  constructor
  · apply safeIteration_iff (nlmsg_facts mem.length) hmem
    show 0 + mem.length ≤ mem.length
    omega
  · intro off len hslice
    exact safeIteration_iff (rta_facts mem.length) hmem hslice

/-- One message of 24 bytes with one attribute of 8 bytes. -/
def oneAttr : List Byte := leBytes 4 24 ++ List.replicate 12 0 ++ leBytes 2 8 ++ List.replicate 6 0

theorem netlink_safe_one_attr :
    SafeIteration nlmsgKind oneAttr ⟨0, 24⟩ ∧ SafeIteration rtaKind oneAttr ⟨16, 8⟩ := by
  obtain ⟨hmsg, hattr⟩ := netlink_safe_iff oneAttr (by decide)
  constructor
  · apply hmsg.mpr
    apply WellLaid.next _ 24 ⟨by decide, by decide +kernel, by decide, by decide⟩
    · exact ⟨by decide, by decide, .inl (by decide)⟩
    · apply WellLaid.stop
      intro n hn
      exact absurd hn.room (by decide)
  · apply (hattr 16 8 (by decide)).mpr
    apply WellLaid.next _ 8 ⟨by decide, by decide +kernel, by decide, by decide⟩
    · show roundUp 8 ≤ 8
      decide
    · apply WellLaid.stop
      intro n hn
      exact absurd hn.room (by decide)

/-- A buffer of 17 bytes with `nlmsg_len` 17: `NLMSG_NEXT` takes 20 bytes from the rest. -/
theorem netlink_unsafe_unaligned :
    nextRecord nlmsgKind (leBytes 4 17 ++ List.replicate 13 0) ⟨0, 17⟩ =
        .record 0 ⟨16, 2 ^ 32 - 3⟩ ⟨20, 2 ^ 64 - 3⟩ ∧
      ¬ SafeIteration nlmsgKind (leBytes 4 17 ++ List.replicate 13 0) ⟨0, 17⟩ := by
  have hnext : nextRecord nlmsgKind (leBytes 4 17 ++ List.replicate 13 0) ⟨0, 17⟩ =
      .record 0 ⟨16, 2 ^ 32 - 3⟩ ⟨20, 2 ^ 64 - 3⟩ := by decide +kernel
  refine ⟨hnext, ?_⟩
  rintro ⟨fuel, rs, hrun, hsafe⟩
  cases fuel with
  | zero => cases hrun
  | succ fuel =>
    rw [iterate_cons hnext] at hrun
    obtain ⟨rs', -, rfl⟩ := Option.map_eq_some_iff.mp hrun
    have hrest : 2 ^ 64 - 3 ≤ 17 := (hsafe _ List.mem_cons_self).rest
    omega

end FFSys.Netlink
