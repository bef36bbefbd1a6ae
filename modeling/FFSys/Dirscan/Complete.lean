import FFSys.Dirscan.Order

/-!
# A scan returns every entry

* `wanted` — the entries that the flags ask for, said without the buffer.
* `Holds` — the buffer and the offsets stand for a list of names, whatever follows in the buffer;
  `Holds.push` — one more name; `scan_holds` — the whole `readdir` loop, by induction on the entries.
* `readNames_spec` — the offsets are read back from the end of the buffer, by induction on them.
* `ffdirscan_complete` — after `ffdirscan_open`, `ffdirscan_next` returns the wanted entries, sorted or in
  the order of `readdir`, and again after `ffdirscan_reset`.
-/

set_option autoImplicit false

namespace FFSys.Dirscan

open FFSys.Lib

/-! ## Entries that are wanted -/

/-- The entry is not `"."` or `".."` (unless `FFDIRSCAN_DOT`), and it matches the wildcard (if
    `FFDIRSCAN_USEWILDCARD`). -/
def wanted (ffsWildcard : FfsWildcard) (wildcard : List Byte) (flags : BitVec 32)
    (name : List Byte) : Bool :=
  (hasFlag flags FFDIRSCAN_DOT || (name != [0x2e] && name != [0x2e, 0x2e])) &&
    (!hasFlag flags FFDIRSCAN_USEWILDCARD || ffsWildcard wildcard name wcflags == 0)

theorem isDots_iff {name : List Byte} (h : 0 ∉ name) :
    isDots name = true ↔ name = [0x2e] ∨ name = [0x2e, 0x2e] := by
  constructor
  · intro hdots
    match name, h with
    | [], _ => exact absurd hdots (by decide)
    | [x], _ =>
      have hx : x = 0x2e := by simpa [isDots, charAt] using hdots
      exact .inl (by rw [hx])
    | [x, y], h =>
      have hy : y ≠ 0 := by
        rintro rfl
        simp at h
      have hxy : x = 0x2e ∧ y = 0x2e := by simpa [isDots, charAt, hy] using hdots
      exact .inr (by rw [hxy.1, hxy.2])
    | x :: y :: z :: name, h =>
      have hy : y ≠ 0 := by
        rintro rfl
        simp at h
      have hz : z ≠ 0 := by
        rintro rfl
        simp at h
      simp [isDots, charAt, hy, hz] at hdots
  · rintro (rfl | rfl) <;> decide

/-! ## The buffer -/

/-- The bytes that the names take. -/
def namesSize (names : List (List Byte)) : Nat := (names.map fun name => name.length + 1).sum

theorem namesSize_cons (name : List Byte) (names : List (List Byte)) :
    namesSize (name :: names) = name.length + 1 + namesSize names := rfl

theorem namesSize_append (names names' : List (List Byte)) :
    namesSize (names ++ names') = namesSize names + namesSize names' := by
  simp [namesSize]

/-- The offsets are those of `names`, whatever follows in the buffer. -/
structure Holds (s : Scanned) (names : List (List Byte)) : Prop where
  size : s.buf.length = namesSize names
  lookup : ∀ t, s.offsets.map (fun o => cstrAt (s.buf ++ t) o.toNat) = names.map some

/-- A string with its NUL. -/
theorem cstrAt_name {name : List Byte} (h : 0 ∉ name) (pre post : List Byte) :
    cstrAt (pre ++ (name ++ [0]) ++ post) pre.length = some name := by
  have hdrop : (pre ++ (name ++ [0]) ++ post).drop pre.length = name ++ 0 :: post := by
    rw [List.append_assoc, List.drop_left' rfl]
    simp
  rw [cstrAt, hdrop, if_pos (by simp), Lib.takeWhile_terminated h]

theorem Holds.push {s : Scanned} {names : List (List Byte)} (h : Holds s names) {name : List Byte}
    (hnul : 0 ∉ name) (hsize : s.buf.length < 2 ^ 32) :
    Holds ⟨s.offsets ++ [BitVec.ofNat 32 s.buf.length], s.buf ++ (name ++ [0])⟩ (names ++ [name]) where
  size := by
    rw [namesSize_append, ← h.size]
    simp [namesSize]
  lookup t := by
    have hmod : (BitVec.ofNat 32 s.buf.length).toNat = s.buf.length := by
      rw [BitVec.toNat_ofNat, Nat.mod_eq_of_lt hsize]
    have hold := h.lookup (name ++ [0] ++ t)
    simp only [List.map_append, List.map_cons, List.map_nil]
    rw [hmod, cstrAt_name hnul]
    simp only [List.append_assoc] at hold ⊢
    rw [hold]

section Scan

variable (ffsWildcard : FfsWildcard) (wildcard : List Byte) (flags : BitVec 32)

/-- One entry: it is skipped, or pushed. -/
theorem scanStep_eq (s : Scanned) {name : List Byte} (h : 0 ∉ name) :
    scanStep ffsWildcard wildcard flags s name =
      if wanted ffsWildcard wildcard flags name then
        ⟨s.offsets ++ [BitVec.ofNat 32 s.buf.length], s.buf ++ (name ++ [0])⟩
      else s := by
  have hdots : isDots name = (name == [0x2e] || name == [0x2e, 0x2e]) := by
    rw [Bool.eq_iff_iff, isDots_iff h]
    simp
  have hwanted : wanted ffsWildcard wildcard flags name =
      (!(!hasFlag flags FFDIRSCAN_DOT && isDots name) &&
        !(hasFlag flags FFDIRSCAN_USEWILDCARD && ffsWildcard wildcard name wcflags != 0)) := by
    rw [wanted, hdots]
    simp [bne]
  unfold scanStep
  rw [hwanted]
  cases (!hasFlag flags FFDIRSCAN_DOT && isDots name) <;>
    cases (hasFlag flags FFDIRSCAN_USEWILDCARD && ffsWildcard wildcard name wcflags != 0) <;> rfl

/-- Induction on the entries. -/
theorem scan_holds (names : List (List Byte)) :
    ∀ (s : Scanned) (before : List (List Byte)), Holds s before → (∀ name ∈ names, 0 ∉ name) →
      namesSize before + namesSize names ≤ 2 ^ 32 →
        Holds (names.foldl (scanStep ffsWildcard wildcard flags) s)
          (before ++ names.filter (wanted ffsWildcard wildcard flags)) := by
  induction names with
  | nil =>
    intro s before h _ _
    rw [List.filter_nil, List.append_nil]
    exact h
  | cons name names ih =>
    intro s before h hnul hsize
    rw [namesSize_cons] at hsize
    have hname := hnul name List.mem_cons_self
    have hrest : ∀ name' ∈ names, 0 ∉ name' := fun name' hm => hnul name' (List.mem_cons_of_mem _ hm)
    rw [List.foldl_cons, scanStep_eq ffsWildcard wildcard flags s hname]
    cases hw : wanted ffsWildcard wildcard flags name with
    | true =>
      rw [if_pos rfl, List.filter_cons_of_pos hw, List.append_cons before]
      apply ih _ _ (h.push hname (by rw [h.size]; omega)) hrest
      rw [namesSize_append, namesSize_cons]
      show _ + (_ + 1 + 0) + _ ≤ _
      omega
    | false =>
      rw [if_neg (by decide), List.filter_cons_of_neg (by rw [hw]; decide)]
      apply ih s before h hrest
      omega

end Scan

/-! ## Looking names up -/

/-- The name at an offset. -/
def nameAt (buf : List Byte) (o : BitVec 32) : List Byte := (cstrAt buf o.toNat).getD []

namespace Holds

variable {s : Scanned} {names : List (List Byte)}

theorem names_eq (h : Holds s names) : s.offsets.map (nameAt s.buf) = names := by
  have hmap := congrArg (List.map fun o => Option.getD o []) (h.lookup [])
  simp only [List.append_nil, List.map_map] at hmap
  calc s.offsets.map (nameAt s.buf) = names.map ((fun o => Option.getD o []) ∘ some) := hmap
    _ = names.map id := rfl
    _ = names := List.map_id names

/-- What follows in the buffer does not matter. -/
theorem lookup_eq (h : Holds s names) (t : List Byte) {o : BitVec 32} (ho : o ∈ s.offsets) :
    cstrAt (s.buf ++ t) o.toNat = some (nameAt s.buf o) := by
  have hsome : cstrAt s.buf o.toNat ∈ names.map some := by
    rw [← h.lookup [], List.append_nil]
    exact List.mem_map_of_mem ho
  obtain ⟨name, -, hname⟩ := List.mem_map.mp hsome
  have hsame := (h.lookup t).trans (h.lookup []).symm
  rw [List.append_nil] at hsame
  have hpoint := List.map_inj_left.mp hsame o ho
  rw [hpoint, nameAt, ← hname, Option.getD_some]

end Holds

/-! ## Reading the index -/

theorem indexBytes_cons (o : BitVec 32) (index : List (BitVec 32)) :
    indexBytes (o :: index) = leBytes 4 o.toNat ++ indexBytes index := rfl

/-- One word, after any bytes. -/
theorem readAt_word (pre post : List Byte) (o : BitVec 32) :
    readAt (pre ++ (leBytes 4 o.toNat ++ post)) pre.length 4 = some o.toNat := by
  have hmod : o.toNat % 256 ^ 4 = o.toNat := Nat.mod_eq_of_lt o.isLt
  rw [readAt_of_drop (by rw [List.length_append]; omega) (List.drop_left' rfl), hmod]

/-- The call at an offset. -/
theorem ffdirscanNext_word {d : Ffdirscan} {pre post name : List Byte} {o : BitVec 32}
    (hnames : d.names = pre ++ (leBytes 4 o.toNat ++ post)) (hcur : d.cur = pre.length)
    (hlen : d.len = d.names.length) (hname : cstrAt d.names o.toNat = some name) :
    ffdirscanNext d = (.name name, { d with cur := d.cur + 4 }) := by
  have hne : d.cur ≠ d.len := by
    rw [hlen, hnames, hcur]
    simp
  have hword : readAt d.names d.cur 4 = some o.toNat := by
    rw [hcur, hnames]
    exact readAt_word pre post o
  rw [ffdirscanNext, if_neg hne, hword]
  simp only [hname]

/-- Induction on the offsets from the cursor on. -/
theorem readNames_spec (offsets : List (BitVec 32)) (g : BitVec 32 → List Byte) :
    ∀ (pre : List Byte) (d : Ffdirscan) (fuel : Nat), d.names = pre ++ indexBytes offsets →
      d.cur = pre.length → d.len = d.names.length →
      (∀ o ∈ offsets, cstrAt d.names o.toNat = some (g o)) → offsets.length < fuel →
        readNames fuel d = some (offsets.map g) := by
  induction offsets with
  | nil =>
    intro pre d fuel hnames hcur hlen _ hfuel
    obtain ⟨fuel, rfl⟩ : ∃ n, fuel = n + 1 := ⟨fuel - 1, by omega⟩
    have hend : d.cur = d.len := by
      rw [hlen, hnames, hcur]
      simp [indexBytes]
    rw [readNames, ffdirscanNext, if_pos hend]
    rfl
  | cons o offsets ih =>
    intro pre d fuel hnames hcur hlen hname hfuel
    rw [List.length_cons] at hfuel
    obtain ⟨fuel, rfl⟩ : ∃ n, fuel = n + 1 := ⟨fuel - 1, by omega⟩
    rw [indexBytes_cons] at hnames
    have hnext := ffdirscanNext_word hnames hcur hlen (hname o List.mem_cons_self)
    have hrest : readNames fuel { d with cur := d.cur + 4 } = some (offsets.map g) := by
      apply ih (pre ++ leBytes 4 o.toNat) _ fuel
      · rw [List.append_assoc]
        exact hnames
      · rw [List.length_append, leBytes_length, hcur]
      · exact hlen
      · intro o' ho'
        exact hname o' (List.mem_cons_of_mem _ ho')
      · omega
    rw [readNames, hnext]
    simp only [hrest, Option.map_some, List.map_cons]

/-- Calls only move the cursor. -/
theorem ffdirscanNext_frame (d : Ffdirscan) :
    ffdirscanReset (ffdirscanNext d).2 = ffdirscanReset d := by
  unfold ffdirscanNext
  split
  · rfl
  · split
    · rfl
    · split <;> rfl

theorem afterCalls_reset (n : Nat) :
    ∀ d : Ffdirscan, ffdirscanReset (afterCalls n d) = ffdirscanReset d := by
  induction n with
  | zero =>
    intro d
    rfl
  | succ n ih =>
    intro d
    rw [afterCalls, ih, ffdirscanNext_frame]

/-! ## A whole scan -/

/-- The entries that a scan returns, in the order of `readdir`. -/
def wantedNames (ffsWildcard : FfsWildcard) (wildcard : List Byte) (flags : BitVec 32) (dir : Dir) :
    List (List Byte) :=
  (dir.entries.map EntryName.bytes).filter (wanted ffsWildcard wildcard flags)

/-- The scan of a directory, from the empty buffer on. -/
theorem scan_dir_holds (ffsWildcard : FfsWildcard) (wildcard : List Byte) (flags : BitVec 32) {dir : Dir}
    (hsize : namesSize (dir.entries.map EntryName.bytes) ≤ 2 ^ 32) :
    Holds (scan ffsWildcard wildcard flags (dir.entries.map EntryName.bytes))
      (wantedNames ffsWildcard wildcard flags dir) := by
  have hnul : ∀ name ∈ dir.entries.map EntryName.bytes, 0 ∉ name := by
    intro name hname
    obtain ⟨e, -, rfl⟩ := List.mem_map.mp hname
    exact e.noNul
  apply scan_holds ffsWildcard wildcard flags _ ⟨[], []⟩ [] ⟨rfl, fun _ => rfl⟩ hnul
  show 0 + _ ≤ _
  omega

/-- The object that `ffdirscan_open` leaves for the offsets `index`. -/
def openedScan (d : Ffdirscan) (s : Scanned) (index : List (BitVec 32)) : Ffdirscan :=
  { d with
    names := s.buf ++ indexBytes index
    len := (s.buf ++ indexBytes index).length
    index := s.buf.length
    cur := s.buf.length }

/-- What a call of `ffdirscan_open` that returns 0 did. -/
theorem ffdirscanOpen_inv {ffsort : Ffsort} {ffsWildcard : FfsWildcard} {d d' : Ffdirscan} {dir : Dir}
    {flags : BitVec 32} {s : Scanned}
    (hs : scan ffsWildcard d.wildcard flags (dir.entries.map EntryName.bytes) = s)
    (h : ffdirscanOpen ffsort ffsWildcard d dir flags = (0, d')) :
    ∃ index, d' = openedScan d s index ∧
      (hasFlag flags FFDIRSCAN_NOSORT = true → index = s.offsets) ∧
      (hasFlag flags FFDIRSCAN_NOSORT = false →
        index = ffsort.sort (ffdirscanCmpname s.buf) s.offsets) := by
  unfold ffdirscanOpen at h
  rw [hs] at h
  split at h
  · cases h
  simp only at h
  split at h
  · cases h
  refine ⟨_, (Prod.mk.inj h).2.symm, ?_, ?_⟩
  · intro hflag
    rw [hflag]
    rfl
  · intro hflag
    rw [hflag]
    rfl

/-- Any list of the offsets is read back as the list of their names, also after some calls and
    `ffdirscan_reset`. -/
theorem openedScan_reads {s : Scanned} {names : List (List Byte)} (h : Holds s names)
    (d : Ffdirscan) {index : List (BitVec 32)} (hindex : ∀ o ∈ index, o ∈ s.offsets) :
    ∀ fuel > index.length, readNames fuel (openedScan d s index) = some (index.map (nameAt s.buf)) := by
  intro fuel hfuel
  apply readNames_spec index (nameAt s.buf) s.buf _ fuel
  · rfl
  · rfl
  · rfl
  · intro o ho
    exact h.lookup_eq (indexBytes index) (hindex o ho)
  · exact hfuel

/-- **A scan returns every wanted entry, once, and in order.** -/
theorem ffdirscan_complete (ffsort : Ffsort) (ffsWildcard : FfsWildcard) (d d' : Ffdirscan) (dir : Dir)
    (flags : BitVec 32) (hsize : namesSize (dir.entries.map EntryName.bytes) ≤ 2 ^ 32)
    (hopen : ffdirscanOpen ffsort ffsWildcard d dir flags = (0, d')) :
    ∃ out : List (List Byte),
      (∀ fuel > out.length, readNames fuel d' = some out) ∧
      (∀ n, ∀ fuel > out.length, readNames fuel (ffdirscanReset (afterCalls n d')) = some out) ∧
      (hasFlag flags FFDIRSCAN_NOSORT = true →
        out = wantedNames ffsWildcard d.wildcard flags dir) ∧
      (hasFlag flags FFDIRSCAN_NOSORT = false →
        out.Perm (wantedNames ffsWildcard d.wildcard flags dir) ∧
        out.Pairwise fun a b => ffdirscanFilenameCmpz a b ≤ 0) := by
  have hholds := scan_dir_holds ffsWildcard d.wildcard flags hsize
  obtain ⟨index, rfl, hnosort, hsorted⟩ := ffdirscanOpen_inv rfl hopen
  generalize scan ffsWildcard d.wildcard flags (dir.entries.map EntryName.bytes) = s
    at hholds hnosort hsorted
  have hsort := cmpname_consistent s.buf
  have hperm : index.Perm s.offsets := by
    cases hflag : hasFlag flags FFDIRSCAN_NOSORT with
    | true =>
      rw [hnosort hflag]
    | false =>
      rw [hsorted hflag]
      exact ffsort.perm _ _ hsort
  have hreads := openedScan_reads hholds d fun o ho => hperm.mem_iff.mp ho
  refine ⟨index.map (nameAt s.buf), ?_, ?_, ?_, ?_⟩
  · rw [List.length_map]
    exact hreads
  · intro n
    rw [List.length_map, afterCalls_reset]
    exact hreads
  · intro hflag
    rw [hnosort hflag]
    exact hholds.names_eq
  · intro hflag
    constructor
    · have hnames := hperm.map (nameAt s.buf)
      rw [hholds.names_eq] at hnames
      exact hnames
    · rw [List.pairwise_map, hsorted hflag]
      exact ffsort.sorted _ _ hsort

/-- The directory with `"."`, `"b"`, `"A"` and `"a"`. -/
def letters : Dir where
  opened := true
  entries := [⟨[0x2e], by decide, by decide⟩, ⟨[0x62], by decide, by decide⟩,
    ⟨[0x41], by decide, by decide⟩, ⟨[0x61], by decide, by decide⟩]
  failed := false

/-- The wildcard `"*"` matches every name. -/
def anyName : FfsWildcard := fun _ _ _ => 0

/-- The scan of `letters` with the wildcard `"*"`. -/
def lettersScan : Ffdirscan :=
  (ffdirscanOpen insertionFfsort anyName ⟨[], 0, 0, 0, [0x2a]⟩ letters FFDIRSCAN_USEWILDCARD).2

theorem ffdirscan_complete_letters :
    readNames 4 lettersScan = some [[0x61], [0x41], [0x62]] ∧
      ∀ n, readNames 4 (ffdirscanReset (afterCalls n lettersScan)) = some [[0x61], [0x41], [0x62]] := by
  have hfirst : readNames 4 lettersScan = some [[0x61], [0x41], [0x62]] := by decide +kernel
  obtain ⟨out, hout, hreset, -, hsorted⟩ := ffdirscan_complete insertionFfsort anyName
    ⟨[], 0, 0, 0, [0x2a]⟩ lettersScan letters FFDIRSCAN_USEWILDCARD (by decide) (by decide +kernel)
  have hthree : out.length = 3 := (hsorted (by decide)).1.length_eq
  have hsame : out = [[0x61], [0x41], [0x62]] := by
    have h := hout 4 (by omega)
    rw [hfirst] at h
    exact (Option.some.inj h).symm
  refine ⟨hfirst, ?_⟩
  intro n
  have h := hreset n 4 (by omega)
  rw [hsame] at h
  exact h

end FFSys.Dirscan
