import FFSys.Lib.Bytes
import Mathlib.Data.List.DropRight

/-!
# inotify events

Model of the Linux part of `ffsys/filemon.h`.

* `fffilemonNext` — one call, on the variables of its caller (`Call`): the input, the name, the mask.
  The watch descriptor of the event is the value it returns; `-1` is also the value at the end.
* `readEvents` — the loop that its caller runs until `-1`.
* `InotifyEvent` — an event as the kernel writes it, with its padding.
* `fffilemonNext_event` — one call takes one event; `readEvents_spec` — the loop takes the events up
  to the first one with the descriptor `-1`.
* `fffilemon_delivers_iff` — it takes all events exactly if none has the descriptor `-1`, as the record
  of a queue overflow does.
-/

set_option autoImplicit false

namespace FFSys.Filemon

open FFSys.Lib

abbrev Byte := UInt8

/-! ## The decoder -/

/-- The 32-bit field at `off`. -/
def field (input : List Byte) (off : Nat) : BitVec 32 :=
  BitVec.ofNat 32 (leNat ((input.drop off).take 4))

/-- `sizeof(struct inotify_event)`: `wd`, `mask`, `cookie`, `len`; the name follows. -/
def eventSize : Nat := 16

/-- `ffstr_rskipchar(name, '\0')`. -/
def ffstrRskipchar (name : List Byte) : List Byte := name.rdropWhile (· == 0)

/-- `input`, `name` and `events` of the caller. -/
structure Call where
  input : List Byte
  name : List Byte
  events : BitVec 32
  deriving DecidableEq, Repr

def fffilemonNext (c : Call) : BitVec 32 × Call :=
  if c.input.length < eventSize then (-1, c)
  else
    let len := (field c.input 12).toNat
    let n := eventSize + len
    if c.input.length < n then (-1, c)
    else
      let name := if 0 < len then ffstrRskipchar ((c.input.drop 16).take (len - 1)) else []
      (field c.input 0, ⟨c.input.drop n, name, field c.input 4⟩)

/-- What the caller sees of an event. -/
structure Seen where
  wd : BitVec 32
  events : BitVec 32
  name : List Byte
  deriving DecidableEq, Repr

/-- Calls until `-1`; `none`: not at the end after `fuel` calls. -/
def readEvents : Nat → Call → Option (List Seen)
  | 0, _ => none
  | fuel + 1, c =>
    let (wd, c') := fffilemonNext c
    if wd = -1 then some []
    else (readEvents fuel c').map (⟨wd, c'.events, c'.name⟩ :: ·)

/-! ## The kernel -/

/-- An event.  The name has no NUL; it is padded with at least one, or there is no name. -/
structure InotifyEvent where
  wd : BitVec 32
  mask : BitVec 32
  cookie : BitVec 32
  name : List Byte
  pad : Nat
  noNul : 0 ∉ name
  padded : name = [] ∨ 0 < pad
  len_lt : name.length + pad < 2 ^ 32

namespace InotifyEvent

/-- The field `len`. -/
def len (e : InotifyEvent) : Nat := e.name.length + e.pad

def bytes (e : InotifyEvent) : List Byte :=
  leBytes 4 e.wd.toNat ++ (leBytes 4 e.mask.toNat ++ (leBytes 4 e.cookie.toNat ++
    (leBytes 4 e.len ++ (e.name ++ List.replicate e.pad 0))))

def seen (e : InotifyEvent) : Seen := ⟨e.wd, e.mask, e.name⟩

end InotifyEvent

/-- The events that one `read` returns. -/
def eventBytes (es : List InotifyEvent) : List Byte := (es.map InotifyEvent.bytes).flatten

/-- `IN_Q_OVERFLOW`: the record of a queue overflow. -/
def overflow : InotifyEvent where
  wd := -1
  mask := 0x4000
  cookie := 0
  name := []
  pad := 0
  noNul := by simp
  padded := .inl rfl
  len_lt := by decide

/-! ## One event -/

theorem rskipchar_padding (name : List Byte) (h : 0 ∉ name) (n : Nat) :
    ffstrRskipchar (name ++ List.replicate n 0) = name := by
  induction n with
  | zero =>
    rw [List.replicate_zero, List.append_nil, ffstrRskipchar, List.rdropWhile_eq_self_iff]
    intro hne hlast
    have hzero : name.getLast hne = 0 := by simpa using hlast
    exact h (hzero ▸ List.getLast_mem hne)
  | succ n ih =>
    rw [List.replicate_succ', ← List.append_assoc, ffstrRskipchar, List.rdropWhile_concat_pos _ _ _ rfl]
    exact ih

theorem bytes_length (e : InotifyEvent) : e.bytes.length = eventSize + e.len := by
  simp only [InotifyEvent.bytes, InotifyEvent.len, eventSize, List.length_append, leBytes_length,
    List.length_replicate]
  omega

theorem ofNat_leNat_leBytes (x : BitVec 32) :
    BitVec.ofNat 32 (leNat (leBytes 4 x.toNat)) = x := by
  have hmod : x.toNat % 256 ^ 4 = x.toNat := Nat.mod_eq_of_lt x.isLt
  rw [leNat_leBytes, hmod, BitVec.ofNat_toNat, BitVec.setWidth_eq]

/-- A field at the front of the rest of the input. -/
theorem field_of_drop {input rest : List Byte} {off : Nat} {x : BitVec 32}
    (h : input.drop off = leBytes 4 x.toNat ++ rest) : field input off = x := by
  unfold field
  rw [h, List.take_left' (leBytes_length 4 _), ofNat_leNat_leBytes]

/-- The name without its padding. -/
theorem name_of_slice (e : InotifyEvent) (rest : List Byte) :
    (if 0 < e.len then
      ffstrRskipchar ((e.name ++ List.replicate e.pad 0 ++ rest).take (e.len - 1)) else []) =
        e.name := by
  cases hpad : e.pad with
  | zero =>
    have hnil : e.name = [] := by
      rcases e.padded with h | h
      · exact h
      · omega
    have hzero : ¬ 0 < e.len := by
      rw [InotifyEvent.len, hpad, hnil]
      decide
    rw [if_neg hzero, hnil]
  | succ n =>
    have hlen : e.len - 1 = (e.name ++ List.replicate n 0).length := by
      rw [InotifyEvent.len, hpad, List.length_append, List.length_replicate]
      omega
    have hsplit : e.name ++ List.replicate (n + 1) 0 ++ rest =
        (e.name ++ List.replicate n 0) ++ ([0] ++ rest) := by
      rw [List.replicate_succ']
      simp only [List.append_assoc]
    rw [if_pos (by rw [InotifyEvent.len]; omega), hlen, hsplit, List.take_left' rfl,
      rskipchar_padding e.name e.noNul]

/-- One call on the bytes of an event. -/
theorem fffilemonNext_event (e : InotifyEvent) (rest name : List Byte) (events : BitVec 32) :
    fffilemonNext ⟨e.bytes ++ rest, name, events⟩ = (e.wd, ⟨rest, e.name, e.mask⟩) := by
  have hlen := bytes_length e
  have hmod : (BitVec.ofNat 32 e.len).toNat = e.len := by
    rw [BitVec.toNat_ofNat]
    exact Nat.mod_eq_of_lt e.len_lt
  have h0 : (e.bytes ++ rest).drop 0 = leBytes 4 e.wd.toNat ++ (leBytes 4 e.mask.toNat ++
      (leBytes 4 e.cookie.toNat ++ (leBytes 4 (BitVec.ofNat 32 e.len).toNat ++
        (e.name ++ List.replicate e.pad 0 ++ rest)))) := by
    rw [hmod]
    simp [InotifyEvent.bytes]
  have h4 := drop_of_drop h0
  have h8 := drop_of_drop h4
  have h12 := drop_of_drop h8
  have h16 := drop_of_drop h12
  simp only [leBytes_length, Nat.zero_add, Nat.reduceAdd] at h4 h8 h12 h16
  have hfield : (field (e.bytes ++ rest) 12).toNat = e.len := by
    rw [field_of_drop h12, hmod]
  have htotal : (e.bytes ++ rest).length = eventSize + e.len + rest.length := by
    rw [List.length_append, hlen]
  have hname := name_of_slice e rest
  rw [← h16] at hname
  have hrest : (e.bytes ++ rest).drop (eventSize + e.len) = rest := by
    rw [← hlen, List.drop_left' rfl]
  unfold fffilemonNext
  simp only [hfield]
  rw [if_neg (by omega), if_neg (by omega), field_of_drop h0, field_of_drop h4, hname, hrest]

/-! ## The loop -/

/-- The loop goes on after the event. -/
def goesOn (e : InotifyEvent) : Bool := e.wd != -1

theorem goesOn_iff (e : InotifyEvent) : goesOn e = true ↔ e.wd ≠ -1 := bne_iff_ne

/-- The events that the loop takes: up to the first one with the descriptor `-1`. -/
def taken (es : List InotifyEvent) : List Seen := (es.takeWhile goesOn).map InotifyEvent.seen

/-- Induction on the events: with any number of calls that is enough, the loop takes `taken es`. -/
theorem readEvents_spec (es : List InotifyEvent) :
    ∀ (fuel : Nat) (name : List Byte) (events : BitVec 32), es.length < fuel →
      readEvents fuel ⟨eventBytes es, name, events⟩ = some (taken es) := by
  induction es with
  | nil =>
    intro fuel name events hfuel
    obtain ⟨fuel, rfl⟩ : ∃ n, fuel = n + 1 := ⟨fuel - 1, by omega⟩
    rfl
  | cons e es ih =>
    intro fuel name events hfuel
    rw [List.length_cons] at hfuel
    obtain ⟨fuel, rfl⟩ : ∃ n, fuel = n + 1 := ⟨fuel - 1, by omega⟩
    have hbytes : eventBytes (e :: es) = e.bytes ++ eventBytes es := rfl
    rw [readEvents, hbytes, fffilemonNext_event]
    simp only
    by_cases hwd : e.wd = -1
    · have hstop : taken (e :: es) = [] := by
        rw [taken, List.takeWhile_cons_of_neg (fun h => (goesOn_iff e).mp h hwd), List.map_nil]
      rw [if_pos hwd, hstop]
    · have hgo : taken (e :: es) = e.seen :: taken es := by
        rw [taken, List.takeWhile_cons_of_pos ((goesOn_iff e).mpr hwd), List.map_cons, taken]
      rw [if_neg hwd, ih fuel _ _ (by omega), hgo]
      rfl

/-- More calls do not change what the loop took. -/
theorem readEvents_mono {c : Call} {l : List Seen} :
    ∀ (fuel n : Nat), readEvents fuel c = some l → readEvents (fuel + n) c = some l := by
  intro fuel
  induction fuel generalizing c l with
  | zero =>
    intro n h
    cases h
  | succ fuel ih =>
    intro n h
    rw [Nat.succ_add, readEvents]
    rw [readEvents] at h
    simp only at h ⊢
    split at h
    · rename_i hend
      rw [if_pos hend]
      exact h
    · rename_i hgo
      rw [if_neg hgo]
      obtain ⟨l', hl', rfl⟩ := Option.map_eq_some_iff.mp h
      rw [ih n hl', Option.map_some]

/-- The loop ends, and it took every event, in order, with its descriptor, mask and name. -/
def DeliversAll (es : List InotifyEvent) : Prop :=
  ∃ fuel, readEvents fuel ⟨eventBytes es, [], 0⟩ = some (es.map InotifyEvent.seen)

/-- **Events are delivered up to a queue overflow.**  The loop takes all events exactly if no event has
    the descriptor `-1`. -/
theorem fffilemon_delivers_iff (es : List InotifyEvent) :
    DeliversAll es ↔ ∀ e ∈ es, e.wd ≠ -1 := by
  constructor
  · rintro ⟨fuel, hrun⟩
    have hmore := readEvents_mono fuel (es.length + 1) hrun
    rw [readEvents_spec es _ _ _ (by omega)] at hmore
    have htaken : taken es = es.map InotifyEvent.seen := Option.some.inj hmore
    have hlen := congrArg List.length htaken
    rw [taken, List.length_map, List.length_map] at hlen
    have hall := List.IsPrefix.eq_of_length (List.takeWhile_prefix _) hlen
    intro e he
    rw [← hall] at he
    exact (goesOn_iff e).mp (List.mem_takeWhile_imp he)
  · intro h
    refine ⟨es.length + 1, ?_⟩
    rw [readEvents_spec es _ _ _ (by omega), taken, List.takeWhile_eq_self_iff.mpr]
    intro e he
    exact (goesOn_iff e).mpr (h e he)

/-- The file `a` was closed after a queue overflow. -/
def closedA : InotifyEvent where
  wd := 1
  mask := 8
  cookie := 0
  name := [0x61]
  pad := 15
  noNul := by decide
  padded := .inr (by decide)
  len_lt := by decide

/-- A record of a queue overflow drops the event after it. -/
theorem fffilemon_overflow_drops :
    readEvents 3 ⟨eventBytes [overflow, closedA], [], 0⟩ = some [] ∧
      ¬ DeliversAll [overflow, closedA] := by
  have hrun : readEvents 3 ⟨eventBytes [overflow, closedA], [], 0⟩ = some [] := by decide +kernel
  refine ⟨hrun, ?_⟩
  rintro ⟨fuel, hall⟩
  have hmore := readEvents_mono fuel 3 hall
  rw [readEvents_spec [overflow, closedA] _ _ _ (by show 2 < _; omega)] at hmore
  cases hmore

end FFSys.Filemon
