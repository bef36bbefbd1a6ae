import FFSys.Filemon.Inotify

/-!
# Any bytes as inotify events

`fffilemon_next()` on a buffer that was not written by the kernel.  The input and the name are
slices of the buffer; a read outside of it is a fault (`none`).

* `fffilemonNextAt` — one call; `fffilemonNextAt_spec` — what it does on a slice of the buffer.
* `fffilemonNextAt_refines` — its slices have the bytes that `fffilemonNext` works on.
* `callsAt`, `callsAt_inBuffer` — the state after some calls: the input is still a slice of the
  buffer.
* `callsAt_ends`, `readAtEnd_ends` — the calls that take a record make the input shorter.
* `fffilemonNext_safe` — calls do not fault, take whole records, and come to an end.
-/

set_option autoImplicit false

namespace FFSys.Filemon

open FFSys.Lib

/-! ## The decoder -/

/-- `ffstr`: a part of the buffer. -/
structure Slice where
  off : Nat
  len : Nat
  deriving DecidableEq, Repr

def Slice.bytes (mem : List Byte) (s : Slice) : List Byte := (mem.drop s.off).take s.len

/-- `ffstr_shift()` -/
def ffstrShift (s : Slice) (n : Nat) : Slice := ⟨s.off + n, s.len - n⟩

/-- `ffstr_rskipchar(name, '\0')`: the length that is left. -/
def rskipAt (mem : List Byte) (off : Nat) : Nat → Option Nat
  | 0 => some 0
  | n + 1 =>
    match mem[off + n]? with
    | none => none
    | some c => if c = 0 then rskipAt mem off n else some (n + 1)

/-- `input`, `name` and `events` of the caller; the name after `ffstr_null()` is no slice. -/
structure Vars where
  input : Slice
  name : Option Slice
  events : BitVec 32
  deriving DecidableEq, Repr

/-- The name of the event with `len` bytes at `off`. -/
def eventName (mem : List Byte) (off len : Nat) : Option (Option Slice) :=
  if 0 < len then (rskipAt mem off (len - 1)).map fun n => some ⟨off, n⟩ else some none

/-- `fffilemon_next()` -/
def fffilemonNextAt (mem : List Byte) (v : Vars) : Option (BitVec 32 × Vars) :=
  if v.input.len < eventSize then some (-1, v)
  else
    let ie := v.input.off
    match readAt mem (ie + 12) 4 with
    | none => none
    | some len =>
      let n := eventSize + len
      if v.input.len < n then some (-1, v)
      else
        match eventName mem (ie + 16) len with
        | none => none
        | some name =>
          match readAt mem (ie + 4) 4 with
          | none => none
          | some mask =>
            match readAt mem ie 4 with
            | none => none
            | some wd => some (BitVec.ofNat 32 wd, ⟨ffstrShift v.input n, name, BitVec.ofNat 32 mask⟩)

/-- The state after `n` calls. -/
def callsAt (mem : List Byte) : Nat → Vars → Option Vars
  | 0, v => some v
  | n + 1, v =>
    match fffilemonNextAt mem v with
    | none => none
    | some (_, v') => callsAt mem n v'

/-- The caller that stops at `-1`: how many events it got.  `none`: a fault, or not at the end after
    `fuel` calls. -/
def readAtEnd (mem : List Byte) : Nat → Vars → Option Nat
  | 0, _ => none
  | fuel + 1, v =>
    match fffilemonNextAt mem v with
    | none => none
    | some (wd, v') => if wd = -1 then some 0 else (readAtEnd mem fuel v').map (· + 1)

/-! ## One call -/

/-- The input is inside of the buffer. -/
def InBuffer (mem : List Byte) (v : Vars) : Prop := v.input.off + v.input.len ≤ mem.length

/-- A call that takes the record of `len` bytes of name: the record is inside of the input, the name
    is inside of the name field and does not end with a NUL. -/
structure TakesRecord (mem : List Byte) (v v' : Vars) (len : Nat) : Prop where
  field : readAt mem (v.input.off + 12) 4 = some len
  inside : 16 + len ≤ v.input.len
  input : v'.input = ⟨v.input.off + (16 + len), v.input.len - (16 + len)⟩
  nameInside : ∀ s ∈ v'.name, v.input.off + 16 ≤ s.off ∧ s.off + s.len ≤ v.input.off + 16 + len
  nameEnd : ∀ s ∈ v'.name, 0 < s.len → ∃ c, mem[s.off + s.len - 1]? = some c ∧ c ≠ 0

/-- A call leaves all variables and returns `-1`, or takes a record. -/
def SafeCall (mem : List Byte) (v : Vars) (r : BitVec 32) (v' : Vars) : Prop :=
  (v' = v ∧ r = -1) ∨ ∃ len, TakesRecord mem v v' len

theorem rskipAt_spec (mem : List Byte) (off : Nat) :
    ∀ n, off + n ≤ mem.length → ∃ k, rskipAt mem off n = some k ∧ k ≤ n ∧
      (0 < k → ∃ c, mem[off + k - 1]? = some c ∧ c ≠ 0) ∧
      Slice.bytes mem ⟨off, k⟩ = ffstrRskipchar (Slice.bytes mem ⟨off, n⟩) := by
  intro n
  induction n with
  | zero =>
    intro _
    refine ⟨0, rfl, Nat.le_refl 0, fun h => absurd h (Nat.lt_irrefl 0), ?_⟩
    simp [Slice.bytes, ffstrRskipchar]
  | succ n ih =>
    intro hle
    obtain ⟨c, hc⟩ : ∃ c, mem[off + n]? = some c := ⟨_, List.getElem?_eq_getElem (by omega)⟩
    have htake : Slice.bytes mem ⟨off, n + 1⟩ = Slice.bytes mem ⟨off, n⟩ ++ [c] := by
      simp only [Slice.bytes]
      rw [List.take_add_one, List.getElem?_drop, hc]
      rfl
    rw [rskipAt, hc, htake]
    simp only
    by_cases hzero : c = 0
    · obtain ⟨k, hk, hkn, hlast, hbytes⟩ := ih (by omega)
      rw [if_pos hzero, ffstrRskipchar, List.rdropWhile_concat_pos _ _ _ (by simp [hzero])]
      exact ⟨k, hk, by omega, hlast, hbytes⟩
    · rw [if_neg hzero, ffstrRskipchar, List.rdropWhile_concat_neg _ _ _ (by simp [hzero]), ← htake]
      exact ⟨n + 1, rfl, Nat.le_refl _, fun _ => ⟨c, hc, hzero⟩, rfl⟩

/-- The name is found, and is the one of the list model. -/
theorem eventName_spec {mem : List Byte} {off len : Nat} (h : off + len ≤ mem.length) :
    ∃ name, eventName mem off len = some name ∧
      (∀ s ∈ name, s.off = off ∧ s.len ≤ len ∧
        (0 < s.len → ∃ c, mem[s.off + s.len - 1]? = some c ∧ c ≠ 0)) ∧
      (name.map (Slice.bytes mem)).getD [] =
        if 0 < len then ffstrRskipchar ((mem.drop off).take (len - 1)) else [] := by
  unfold eventName
  split
  · obtain ⟨k, hk, hkn, hlast, hbytes⟩ := rskipAt_spec mem off (len - 1) (by omega)
    refine ⟨some ⟨off, k⟩, by rw [hk, Option.map_some], ?_, ?_⟩
    · intro s hs
      cases hs
      exact ⟨rfl, by show k ≤ len; omega, hlast⟩
    · exact hbytes
  · exact ⟨none, rfl, by simp, rfl⟩

/-- A field of a record that is inside of the input. -/
theorem readAt_field {mem : List Byte} {s : Slice} {k : Nat} (h : s.off + s.len ≤ mem.length)
    (hk : k + 4 ≤ s.len) :
    readAt mem (s.off + k) 4 = some (field (s.bytes mem) k).toNat := by
  have hslice : ((s.bytes mem).drop k).take 4 = (mem.drop (s.off + k)).take 4 := by
    rw [Slice.bytes, List.drop_take, List.take_take, List.drop_drop, Nat.min_eq_left (by omega)]
  have hlt : leNat ((mem.drop (s.off + k)).take 4) < 2 ^ 32 := by
    have hnum := leNat_lt ((mem.drop (s.off + k)).take 4)
    have hfour : ((mem.drop (s.off + k)).take 4).length = 4 := by
      rw [List.length_take, List.length_drop]
      omega
    rw [hfour] at hnum
    exact hnum
  rw [readAt, if_pos (by omega), field, hslice, BitVec.toNat_ofNat, Nat.mod_eq_of_lt hlt]

/-- What the caller of the list model has. -/
def view (mem : List Byte) (v : Vars) : Call :=
  ⟨v.input.bytes mem, (v.name.map (Slice.bytes mem)).getD [], v.events⟩

/-- **One call on a slice of the buffer**: it does not fault, it is safe, it leaves a slice of the
    buffer, and it does what `fffilemonNext` does. -/
theorem fffilemonNextAt_spec {mem : List Byte} {v : Vars} (h : InBuffer mem v) :
    ∃ r v', fffilemonNextAt mem v = some (r, v') ∧ SafeCall mem v r v' ∧ InBuffer mem v' ∧
      fffilemonNext (view mem v) = (r, view mem v') := by
  unfold InBuffer at h
  have hlen : (v.input.bytes mem).length = v.input.len := by
    rw [Slice.bytes, List.length_take, List.length_drop]
    omega
  unfold fffilemonNextAt fffilemonNext
  simp only [view, hlen]
  split
  · exact ⟨-1, v, rfl, .inl ⟨rfl, rfl⟩, h, rfl⟩
  · rename_i hhdr
    have hhdr' : 16 ≤ v.input.len := Nat.not_lt.mp hhdr
    have hfield := readAt_field h (show 12 + 4 ≤ v.input.len by omega)
    have hmask := readAt_field h (show 4 + 4 ≤ v.input.len by omega)
    have hwd := readAt_field h (show 0 + 4 ≤ v.input.len by omega)
    rw [Nat.add_zero] at hwd
    rw [hfield]
    simp only
    split
    · exact ⟨-1, v, rfl, .inl ⟨rfl, rfl⟩, h, rfl⟩
    · rename_i hrec
      obtain ⟨len, hn⟩ : ∃ len, (field (v.input.bytes mem) 12).toNat = len := ⟨_, rfl⟩
      simp only [hn] at hfield hrec ⊢
      have hrec' : 16 + len ≤ v.input.len := Nat.not_lt.mp hrec
      obtain ⟨name, hname, hslice, hbytes⟩ := eventName_spec
        (show v.input.off + 16 + len ≤ mem.length by omega)
      rw [hname, hmask, hwd]
      simp only [BitVec.ofNat_toNat, BitVec.setWidth_eq]
      refine ⟨_, _, rfl, .inr ⟨len, ?_⟩, ?_, ?_⟩
      · refine ⟨hfield, hrec', rfl, ?_, ?_⟩
        · intro s hs
          obtain ⟨hoff, hle, -⟩ := hslice s hs
          omega
        · intro s hs
          exact (hslice s hs).2.2
      · show v.input.off + (eventSize + len) + (v.input.len - (eventSize + len)) ≤ mem.length
        rw [eventSize]
        omega
      · -- the bytes of the two slices
        have hcut : ((v.input.bytes mem).drop 16).take (len - 1) =
            (mem.drop (v.input.off + 16)).take (len - 1) := by
          rw [Slice.bytes, List.drop_take, List.take_take, List.drop_drop, Nat.min_eq_left (by omega)]
        have hrest : (v.input.bytes mem).drop (eventSize + len) =
            Slice.bytes mem (ffstrShift v.input (eventSize + len)) := by
          rw [Slice.bytes, List.drop_take, List.drop_drop]
          rfl
        rw [hcut, hrest, hbytes]

/-- A slice of the buffer has the bytes that the list model works on. -/
theorem fffilemonNextAt_refines {mem : List Byte} {v v' : Vars} {r : BitVec 32} (h : InBuffer mem v)
    (hnext : fffilemonNextAt mem v = some (r, v')) : fffilemonNext (view mem v) = (r, view mem v') := by
  obtain ⟨r₁, v₁, hnext₁, -, -, hview⟩ := fffilemonNextAt_spec h
  rw [hnext, Option.some.injEq, Prod.mk.injEq] at hnext₁
  rw [hview, hnext₁.1, hnext₁.2]

theorem TakesRecord.shorter {mem : List Byte} {v v' : Vars} {len : Nat} (h : TakesRecord mem v v' len) :
    v'.input.len + 16 ≤ v.input.len := by
  have hinside := h.inside
  rw [h.input]
  show v.input.len - (16 + len) + 16 ≤ v.input.len
  omega

/-! ## Calls -/

/-- No call faults. -/
theorem callsAt_inBuffer (mem : List Byte) (n : Nat) :
    ∀ v, InBuffer mem v → ∃ w, callsAt mem n v = some w ∧ InBuffer mem w := by
  induction n with
  | zero =>
    intro v h
    exact ⟨v, rfl, h⟩
  | succ n ih =>
    intro v h
    obtain ⟨r, v', hnext, -, h', -⟩ := fffilemonNextAt_spec h
    obtain ⟨w, hw, hbuf⟩ := ih v' h'
    refine ⟨w, ?_, hbuf⟩
    rw [callsAt, hnext]
    exact hw

theorem callsAt_add (mem : List Byte) (n m : Nat) :
    ∀ v, callsAt mem (n + m) v = (callsAt mem n v).bind (callsAt mem m) := by
  induction n with
  | zero =>
    intro v
    rw [Nat.zero_add]
    rfl
  | succ n ih =>
    intro v
    rw [Nat.succ_add, callsAt, callsAt]
    cases fffilemonNextAt mem v with
    | none => rfl
    | some r => exact ih r.2

/-- A call that changes nothing can be made again. -/
theorem callsAt_fixed {mem : List Byte} {v : Vars} (h : fffilemonNextAt mem v = some (-1, v)) (n : Nat) :
    callsAt mem n v = some v := by
  induction n with
  | zero => rfl
  | succ n ih =>
    rw [callsAt, h]
    exact ih

/-- Induction on the length of the input: each call that takes a record makes it shorter by 16 at
    least. -/
theorem callsAt_ends (mem : List Byte) (len : Nat) :
    ∀ v, InBuffer mem v → v.input.len ≤ len →
      ∃ n ≤ v.input.len / 16, ∃ w, callsAt mem n v = some w ∧ fffilemonNextAt mem w = some (-1, w) := by
  induction len using Nat.strong_induction_on with
  | h len ih =>
    intro v h hlen
    obtain ⟨r, v', hnext, hsafe, h', -⟩ := fffilemonNextAt_spec h
    rcases hsafe with ⟨rfl, rfl⟩ | ⟨k, htakes⟩
    · exact ⟨0, Nat.zero_le _, v', rfl, hnext⟩
    · have hshorter := htakes.shorter
      obtain ⟨n, hn, w, hw, hend⟩ := ih v'.input.len (by omega) v' h' (Nat.le_refl _)
      refine ⟨n + 1, by omega, w, ?_, hend⟩
      rw [callsAt, hnext]
      exact hw

/-- The caller that stops at `-1` comes to an end. -/
theorem readAtEnd_ends (mem : List Byte) (fuel : Nat) :
    ∀ v, InBuffer mem v → v.input.len / 16 < fuel →
      ∃ n ≤ v.input.len / 16, readAtEnd mem fuel v = some n := by
  induction fuel with
  | zero =>
    intro v _ hfuel
    omega
  | succ fuel ih =>
    intro v h hfuel
    obtain ⟨r, v', hnext, hsafe, h', -⟩ := fffilemonNextAt_spec h
    rw [readAtEnd, hnext]
    simp only
    by_cases hr : r = -1
    · exact ⟨0, Nat.zero_le _, if_pos hr⟩
    · rcases hsafe with ⟨-, hstop⟩ | ⟨k, htakes⟩
      · exact absurd hstop hr
      · have hshorter := htakes.shorter
        obtain ⟨n, hn, hrun⟩ := ih v' h' (by omega)
        refine ⟨n + 1, by omega, ?_⟩
        rw [if_neg hr, hrun, Option.map_some]

/-- The caller's variables before the first call: the whole buffer is the input. -/
def Vars.start (mem : List Byte) (name : Option Slice) (events : BitVec 32) : Vars :=
  ⟨⟨0, mem.length⟩, name, events⟩

/-- **Decoding is safe on any bytes.**  No call faults; each one leaves the input and returns `-1`,
    or takes a whole record and returns a part of its name field.  After at most `len / 16` calls
    all further ones leave the input, and a caller that stops at `-1` stops. -/
theorem fffilemonNext_safe (mem : List Byte) (name : Option Slice) (events : BitVec 32) :
    (∀ n, ∃ v r v', callsAt mem n (Vars.start mem name events) = some v ∧
      fffilemonNextAt mem v = some (r, v') ∧ SafeCall mem v r v') ∧
    (∃ n ≤ mem.length / 16, ∃ v, ∀ k ≥ n, callsAt mem k (Vars.start mem name events) = some v ∧
      fffilemonNextAt mem v = some (-1, v)) ∧
    (∀ fuel > mem.length / 16, ∃ n ≤ mem.length / 16,
      readAtEnd mem fuel (Vars.start mem name events) = some n) := by
  have hstart : InBuffer mem (Vars.start mem name events) := by
    show 0 + mem.length ≤ mem.length
    omega
  refine ⟨?_, ?_, ?_⟩
  · intro n
    obtain ⟨v, hv, hbuf⟩ := callsAt_inBuffer mem n _ hstart
    obtain ⟨r, v', hnext, hsafe, -, -⟩ := fffilemonNextAt_spec hbuf
    exact ⟨v, r, v', hv, hnext, hsafe⟩
  · obtain ⟨n, hn, v, hv, hend⟩ := callsAt_ends mem mem.length _ hstart (Nat.le_refl _)
    refine ⟨n, hn, v, ?_⟩
    intro k hk
    refine ⟨?_, hend⟩
    obtain ⟨m, rfl⟩ : ∃ m, k = n + m := ⟨k - n, by omega⟩
    rw [callsAt_add, hv]
    exact callsAt_fixed hend m
  · intro fuel hfuel
    exact readAtEnd_ends mem fuel _ hstart hfuel

end FFSys.Filemon
