import FFSys.Path.NormalizeStack

/-!
# Normalising in place

`ffpath_normalize` with `dst == src`: the loop reads and writes one buffer, so that a store could
destroy a byte that is read later.

* `normalizeStepIn`, `normalizeLoopIn`, `ffpathNormalizeIn` — the function over the shared buffer.
  The rest of the source is a position in it, and `k` the number of bytes written.
* `InPlaceSim` — the written part is the output of a run into another buffer, the write position
  does not overtake the read position, and what is behind the read position is as it was.
* `emitIn_spec` — the stores of one iteration; the separator is read after the component is moved.
* `ffpathNormalize_in_place` — both runs write the same bytes.
-/

set_option autoImplicit false

namespace FFSys.Path

/-- The variables of the loop; `s` is the part of the buffer from `off` to the end of the source. -/
structure InPlaceSt where
  buf : List Byte
  off : Nat
  k : Nat
  simplify : Bool
  skipDisk : Bool

/-- `ffmem_move(&buf[dst], &buf[src], n)` -/
def ffmemMove (buf : List Byte) (dst src n : Nat) : List Byte :=
  buf.take dst ++ (buf.drop src).take n ++ buf.drop (dst + n)

/-- The capacity test and the stores; `s2` is the position of the component. -/
def emitIn (c : NormalizeCfg) (st : InPlaceSt) (s2 len : Nat) (pos : Option Nat) :
    Option InPlaceSt :=
  if st.k + len + (if pos.isSome then 1 else 0) > c.cap then none
  else
    let buf := ffmemMove st.buf st.k s2 len
    let k := st.k + len
    match pos with
    | none => some { st with buf, k }
    | some pos => some { st with buf := buf.set k (emitSep c.flags (buf.getD (s2 + pos) 0)), k := k + 1 }

/-- The loop body from the test for `".."` on. -/
def partIn (c : NormalizeCfg) (st : InPlaceSt) (part : Comp) (s2 : Nat) (pos : Option Nat) :
    Option InPlaceSt :=
  if part = dotdotComp then
    match normalizeParent c (st.buf.take st.k) with
    | .skip dst => some { st with k := dst.length }
    | .emit dst => emitIn c { st with k := dst.length } s2 part.length pos
  else emitIn c st s2 part.length pos

/-- The rest of the source, as it is in the buffer. -/
def InPlaceSt.s (len : Nat) (st : InPlaceSt) : List Byte := (st.buf.drop st.off).take (len - st.off)

/-- One iteration of the loop. -/
def normalizeStepIn (c : NormalizeCfg) (len : Nat) (st : InPlaceSt) : Option InPlaceSt :=
  let s2 := st.off
  let (pos, part, rest) := ffstrSplitbyany (st.s len) c.slashes
  let st := { st with off := len - rest.length }
  if st.simplify then
    if part = [] ∨ part = dotComp then some st
    else if st.skipDisk then
      if part.getLast? = some COLON then some { st with skipDisk := false }
      else partIn c { st with skipDisk := false } part s2 pos
    else partIn c st part s2 pos
  else partIn c { st with simplify := true } part s2 pos

/-- `while (s.len != 0)`: the number of bytes written, and the buffer. -/
def normalizeLoopIn (c : NormalizeCfg) (len : Nat) : Nat → InPlaceSt → Option (Nat × List Byte)
  | 0, st => if st.s len = [] then some (st.k, st.buf) else none
  | fuel + 1, st =>
    if st.s len = [] then some (st.k, st.buf)
    else match normalizeStepIn c len st with
      | none => none
      | some st => normalizeLoopIn c len fuel st

/-- `ffpath_normalize(buf, cap, buf, len, flags)` -/
def ffpathNormalizeIn (ffWin : Bool) (cap : Nat) (buf : List Byte) (len : Nat) (flags : BitVec 32) :
    Option (Nat × List Byte) :=
  let slashes := slashesOf ffWin flags
  let flags := effFlags ffWin flags
  if hasFlag flags FFPATH_DISK_LETTER && isPassThrough (buf.take len) then
    if len > cap then none else some (len, buf)
  else
    normalizeLoopIn ⟨cap, flags, slashes⟩ len len
      { buf, off := 0, k := 0, simplify := hasFlag flags FFPATH_SIMPLE,
        skipDisk := hasFlag flags FFPATH_DISK_LETTER && hasFlag flags FFPATH_SIMPLE }

/-- The states of the loop after each number of iterations. -/
def iterationsIn (c : NormalizeCfg) (len : Nat) : Nat → InPlaceSt → Option InPlaceSt
  | 0, st => some st
  | n + 1, st => if st.s len = [] then some st else (normalizeStepIn c len st).bind (iterationsIn c len n)

/-! ## The stores -/

section Stores

variable {mem buf dst : List Byte} {off : Nat}

/-- `k` bytes of the output are in front, and from `off` on the buffer is as it was. -/
structure Apart (mem : List Byte) (off : Nat) (buf dst : List Byte) : Prop where
  length_eq : buf.length = mem.length
  written : buf.take dst.length = dst
  behind : dst.length ≤ off
  inside : off ≤ mem.length
  unread : buf.drop off = mem.drop off

theorem Apart.length_le (h : Apart mem off buf dst) : dst.length ≤ buf.length := by
  have h1 := h.behind
  have h2 := h.inside
  rw [h.length_eq]
  omega

/-- Reading further leaves less to be kept. -/
theorem Apart.advance (h : Apart mem off buf dst) {off' : Nat} (hle : off ≤ off')
    (hin : off' ≤ mem.length) : Apart mem off' buf dst := by
  obtain ⟨n, rfl⟩ := Nat.exists_eq_add_of_le hle
  refine ⟨h.length_eq, h.written, Nat.le_trans h.behind hle, hin, ?_⟩
  rw [← List.drop_drop, h.unread, List.drop_drop]

/-- A front part of the output is an output. -/
theorem Apart.front (h : Apart mem off buf dst) {d : List Byte} (hd : d <+: dst) :
    Apart mem off buf d := by
  refine ⟨h.length_eq, ?_, Nat.le_trans hd.length_le h.behind, h.inside, h.unread⟩
  have htake := List.prefix_iff_eq_take.mp hd
  rw [← h.written, List.take_take, Nat.min_eq_left hd.length_le] at htake
  exact htake.symm

/-- The move of a component of `n` bytes at `off`: it reads them before the stores, and the bytes
    behind it stay. -/
theorem Apart.move (h : Apart mem off buf dst) {n : Nat} (hn : off + n ≤ mem.length) :
    Apart mem (off + n) (ffmemMove buf dst.length off n) (dst ++ (mem.drop off).take n) := by
  have hle := h.length_le
  have hbehind := h.behind
  have hlen := h.length_eq
  have hpart : ((mem.drop off).take n).length = n := by
    rw [List.length_take, List.length_drop]
    omega
  have hmove : ffmemMove buf dst.length off n =
      (dst ++ (mem.drop off).take n) ++ buf.drop (dst.length + n) := by
    rw [ffmemMove, h.written, h.unread]
  have hout : (dst ++ (mem.drop off).take n).length = dst.length + n := by
    rw [List.length_append, hpart]
  refine ⟨?_, ?_, ?_, hn, ?_⟩
  · rw [hmove, List.length_append, hout, List.length_drop]
    omega
  · rw [hmove]
    exact List.take_left
  · rw [hout]
    omega
  · obtain ⟨m, hm⟩ := Nat.exists_eq_add_of_le hbehind
    have hoff : off + n = (dst ++ (mem.drop off).take n).length + m := by
      rw [hout]
      omega
    rw [hmove, hoff, ← List.drop_drop, List.drop_left, List.drop_drop]
    have hsum : dst.length + n + m = off + n := by omega
    rw [hsum, ← List.drop_drop, h.unread, List.drop_drop, ← hoff]

/-- The store of a separator over the byte before the read position, or before that. -/
theorem Apart.store (h : Apart mem off buf dst) (hin : off < mem.length) (b : Byte) :
    Apart mem (off + 1) (buf.set dst.length b) (dst ++ [b]) := by
  have hbehind := h.behind
  have hlen := h.length_eq
  have hlt : dst.length < buf.length := by omega
  refine ⟨by rw [List.length_set, hlen], ?_, ?_, hin, ?_⟩
  · rw [List.length_append, List.length_singleton, List.take_add_one, List.getElem?_set_self hlt,
      List.take_set_of_le (Nat.le_refl _), h.written]
    rfl
  · rw [List.length_append, List.length_singleton]
    omega
  · rw [List.drop_set_of_lt (by omega), ← List.drop_drop, h.unread, List.drop_drop]

end Stores

/-! ## One iteration -/

theorem split_pos (s slashes : List Byte) :
    (ffstrSplitbyany s slashes).1 =
      (splitEntry s slashes).sep.map fun _ => (splitEntry s slashes).comp.length := by
  unfold splitEntry ffstrSplitbyany
  cases hidx : s.findIdx? (slashes.contains ·) with
  | none => rfl
  | some p =>
    obtain ⟨hp, -⟩ := List.findIdx?_eq_some_iff_getElem.mp hidx
    simp [List.getElem?_eq_getElem hp, Nat.min_eq_left (Nat.le_of_lt hp)]

section Iteration

variable {c : NormalizeCfg} {mem : List Byte} {len : Nat}

/-- **The stores of one iteration.**  The component and its separator are read from the buffer as
    they were before the run. -/
theorem emitIn_spec {sti : InPlaceSt} {dst rest : List Byte} {e : Entry} {s2 : Nat}
    (h : Apart mem s2 sti.buf dst) (hk : sti.k = dst.length) (hmem : mem.drop s2 = e.bytes ++ rest)
    (hroom : dst.length + e.comp.length + (if e.sep.isSome then 1 else 0) ≤ c.cap) :
    ∃ buf', emitIn c sti s2 e.comp.length (e.sep.map fun _ => e.comp.length) =
        some { sti with
          buf := buf', k := (dst ++ e.comp ++ (e.sep.map (emitSep c.flags)).toList).length } ∧
      Apart mem (s2 + e.bytes.length) buf' (dst ++ e.comp ++ (e.sep.map (emitSep c.flags)).toList) := by
  obtain ⟨comp, sep⟩ := e
  have hlen := congrArg List.length hmem
  rw [List.length_drop, List.length_append] at hlen
  have hin := h.inside
  unfold emitIn
  rw [hk]
  cases sep with
  | none =>
    have hbytes : Entry.bytes ⟨comp, none⟩ = comp := by simp [Entry.bytes]
    rw [hbytes] at hlen hmem ⊢
    have hmove := h.move (by omega : s2 + comp.length ≤ mem.length)
    have hpart : (mem.drop s2).take comp.length = comp := by rw [hmem, List.take_left]
    rw [hpart] at hmove
    rw [Option.map_none, if_neg (by simpa using hroom)]
    refine ⟨_, ?_, by simpa using hmove⟩
    simp
  | some b =>
    have hbytes : Entry.bytes ⟨comp, some b⟩ = comp ++ [b] := by simp [Entry.bytes]
    rw [hbytes] at hlen hmem ⊢
    rw [List.length_append, List.length_singleton] at hlen
    have hmove := h.move (by omega : s2 + comp.length ≤ mem.length)
    have hpart : (mem.drop s2).take comp.length = comp := by
      rw [hmem, List.append_assoc, List.take_left]
    rw [hpart] at hmove
    -- the separator is behind the component and was not overwritten by the move
    have hsep : (ffmemMove sti.buf dst.length s2 comp.length).getD (s2 + comp.length) 0 = b := by
      have hdrop : (ffmemMove sti.buf dst.length s2 comp.length).drop (s2 + comp.length) =
          b :: rest := by
        rw [hmove.unread, ← List.drop_drop, hmem, List.append_assoc, List.drop_left]
        rfl
      rw [List.getD_eq_getElem?_getD, ← Nat.add_zero (s2 + comp.length), ← List.getElem?_drop,
        hdrop]
      rfl
    have hstore := hmove.store (by omega) (emitSep c.flags b)
    rw [Option.map_some, if_neg (by simpa using hroom)]
    simp only [hsep]
    have hout : dst ++ comp ++ (Option.map (emitSep c.flags) (some b)).toList =
        dst ++ comp ++ [emitSep c.flags b] := rfl
    rw [List.length_append] at hstore
    refine ⟨(ffmemMove sti.buf dst.length s2 comp.length).set (dst.length + comp.length)
      (emitSep c.flags b), ?_, ?_⟩
    · rw [hout, List.length_append, List.length_append]
      rfl
    · rw [hout, List.length_append, List.length_singleton, ← Nat.add_assoc]
      exact hstore

/-- The state of the run in place stands for the state of a run into another buffer; `mem` is the
    buffer before the run. -/
structure InPlaceSim (mem : List Byte) (len : Nat) (sti : InPlaceSt) (st : NormalizeSt) : Prop where
  apart : Apart mem sti.off sti.buf st.dst
  k_eq : sti.k = st.dst.length
  off_le : sti.off ≤ len
  s_eq : st.s = (mem.drop sti.off).take (len - sti.off)
  simplify_eq : sti.simplify = st.simplify
  skip_eq : sti.skipDisk = st.skipDisk

theorem InPlaceSim.source_eq {sti : InPlaceSt} {st : NormalizeSt} (h : InPlaceSim mem len sti st) :
    sti.s len = st.s := by
  rw [h.s_eq, InPlaceSt.s, h.apart.unread]

/-- What is behind the pair that is cut off. -/
structure CutOff (mem : List Byte) (len s2 : Nat) (e : Entry) (rest : List Byte) : Prop where
  mem_eq : ∃ more, mem.drop s2 = e.bytes ++ more
  off_eq : len - rest.length = s2 + e.bytes.length
  off_le : s2 + e.bytes.length ≤ len
  rest_eq : rest = (mem.drop (len - rest.length)).take (len - (len - rest.length))

theorem InPlaceSim.cutOff {sti : InPlaceSt} {st : NormalizeSt} (h : InPlaceSim mem len sti st)
    (hlen : len ≤ mem.length) (hne : st.s ≠ []) :
    CutOff mem len sti.off (splitEntry st.s c.slashes) (splitRest st.s c.slashes) := by
  obtain ⟨hs, -, -⟩ := split_spec c.slashes st.s hne
  generalize splitEntry st.s c.slashes = e at *
  generalize splitRest st.s c.slashes = rest at *
  have hoff := h.off_le
  have hslen : st.s.length = len - sti.off := by
    rw [h.s_eq, List.length_take, List.length_drop]
    omega
  have hsum := congrArg List.length hs
  rw [List.length_append, hslen] at hsum
  have hpos : len - rest.length = sti.off + e.bytes.length := by omega
  have hrest : len - (len - rest.length) = rest.length := by omega
  have hmem : mem.drop sti.off = e.bytes ++ (rest ++ mem.drop len) := by
    have hsplit := (List.take_append_drop (len - sti.off) (mem.drop sti.off)).symm
    rw [← h.s_eq, List.drop_drop, hs, List.append_assoc] at hsplit
    have hsum' : sti.off + (len - sti.off) = len := by omega
    rw [hsum'] at hsplit
    exact hsplit
  refine ⟨⟨_, hmem⟩, hpos, by omega, ?_⟩
  rw [hrest, hpos, ← List.drop_drop, hmem, List.drop_left, List.take_left]

/-- **One component**, in both runs. -/
theorem partIn_sim {sti : InPlaceSt} {dst rest : List Byte} {e : Entry} {b1 b2 : Bool}
    (h : Apart mem sti.off sti.buf dst) (hk : sti.k = dst.length)
    (hcut : CutOff mem len sti.off e rest) (hlen : len ≤ mem.length) (hcap : len ≤ c.cap) :
    ∃ sti' st', normalizePart c ⟨rest, dst, b1, b2⟩ e.comp e.sep = some st' ∧
      partIn c ⟨sti.buf, len - rest.length, sti.k, b1, b2⟩ e.comp sti.off
        (e.sep.map fun _ => e.comp.length) = some sti' ∧
      st'.s = rest ∧ InPlaceSim mem len sti' st' := by
  obtain ⟨more, hmem⟩ := hcut.mem_eq
  have hoff := hcut.off_eq
  have hle := hcut.off_le
  have hbehind := h.behind
  have hbytes : e.bytes.length = e.comp.length + if e.sep.isSome then 1 else 0 := by
    cases hsep : e.sep <;> simp [Entry.bytes, hsep]
  -- what is written behind a front part `d` of the output
  have hemit : ∀ d, d <+: dst → ∃ sti' st',
      normalizeEmit c ⟨rest, d, b1, b2⟩ e.comp e.sep = some st' ∧
      emitIn c ⟨sti.buf, len - rest.length, d.length, b1, b2⟩ sti.off e.comp.length
        (e.sep.map fun _ => e.comp.length) = some sti' ∧
      st'.s = rest ∧ InPlaceSim mem len sti' st' := by
    intro d hd
    have hdlen := hd.length_le
    have hroom : d.length + e.comp.length + (if e.sep.isSome then 1 else 0) ≤ c.cap := by omega
    obtain ⟨buf', hrun, hapart⟩ := @emitIn_spec c mem
      ⟨sti.buf, len - rest.length, d.length, b1, b2⟩ d more e sti.off (h.front hd) rfl hmem hroom
    rw [← hoff] at hapart
    refine ⟨_, ⟨rest, d ++ e.comp ++ (e.sep.map (emitSep c.flags)).toList, b1, b2⟩, ?_, hrun, rfl,
      hapart, rfl, ?_, hcut.rest_eq, rfl, rfl⟩
    · rw [normalizeEmit, if_neg (by simp only; omega)]
    · simp only
      omega
  have hapart : ∀ d, d <+: dst → Apart mem (len - rest.length) sti.buf d := by
    intro d hd
    rw [hoff]
    exact (h.front hd).advance (by omega) (by omega)
  obtain ⟨d, hd, hparent⟩ := normalizeParent_front c dst
  unfold normalizePart partIn
  rw [hk]
  simp only [h.written]
  split
  · rcases hparent with hp | hp
    · simp only [hp]
      refine ⟨_, _, rfl, rfl, rfl, hapart d hd, rfl, ?_, hcut.rest_eq, rfl, rfl⟩
      simp only
      omega
    · simp only [hp]
      exact hemit d hd
  · exact hemit dst List.prefix_rfl

/-- **One iteration**, in both runs. -/
theorem normalizeStepIn_sim {sti : InPlaceSt} {st : NormalizeSt} (h : InPlaceSim mem len sti st)
    (hne : st.s ≠ []) (hlen : len ≤ mem.length) (hcap : len ≤ c.cap) :
    ∃ sti' st', normalizeStep c st = some st' ∧ normalizeStepIn c len sti = some sti' ∧
      st'.s = splitRest st.s c.slashes ∧ InPlaceSim mem len sti' st' := by
  have hcut := @InPlaceSim.cutOff c mem len sti st h hlen hne
  have hstepIn : normalizeStepIn c len sti =
      let e := splitEntry st.s c.slashes
      let off := len - (splitRest st.s c.slashes).length
      let pos := e.sep.map fun _ => e.comp.length
      if sti.simplify then
        if e.comp = [] ∨ e.comp = dotComp then some ⟨sti.buf, off, sti.k, sti.simplify, sti.skipDisk⟩
        else if sti.skipDisk then
          if e.comp.getLast? = some COLON then some ⟨sti.buf, off, sti.k, sti.simplify, false⟩
          else partIn c ⟨sti.buf, off, sti.k, sti.simplify, false⟩ e.comp sti.off pos
        else partIn c ⟨sti.buf, off, sti.k, sti.simplify, sti.skipDisk⟩ e.comp sti.off pos
      else partIn c ⟨sti.buf, off, sti.k, true, sti.skipDisk⟩ e.comp sti.off pos := by
    simp only
    rw [← split_pos, ← h.source_eq]
    rfl
  rw [normalizeStep_eq, hstepIn, h.simplify_eq, h.skip_eq]
  generalize splitEntry st.s c.slashes = e at *
  generalize splitRest st.s c.slashes = rest at *
  have hpart := fun b1 b2 => @partIn_sim c mem len sti st.dst rest e b1 b2 h.apart h.k_eq hcut hlen hcap
  have hle := hcut.off_le
  have hdrop : ∀ b1 b2, InPlaceSim mem len ⟨sti.buf, len - rest.length, sti.k, b1, b2⟩
      ⟨rest, st.dst, b1, b2⟩ := by
    intro b1 b2
    refine ⟨?_, h.k_eq, by simp only; omega, hcut.rest_eq, rfl, rfl⟩
    simp only
    rw [hcut.off_eq]
    exact h.apart.advance (by omega) (by omega)
  simp only
  split
  · split
    · exact ⟨_, _, rfl, rfl, rfl, hdrop _ _⟩
    · split
      · split
        · exact ⟨_, _, rfl, rfl, rfl, hdrop _ _⟩
        · obtain ⟨sti', st', h1, h2, h3, h4⟩ := hpart st.simplify false
          exact ⟨sti', st', h1, h2, h3, h4⟩
      · obtain ⟨sti', st', h1, h2, h3, h4⟩ := hpart st.simplify st.skipDisk
        exact ⟨sti', st', h1, h2, h3, h4⟩
  · obtain ⟨sti', st', h1, h2, h3, h4⟩ := hpart true st.skipDisk
    exact ⟨sti', st', h1, h2, h3, h4⟩

/-! ## The loop -/

/-- Both loops run to the end and leave the same bytes. -/
theorem normalizeLoopIn_sim (hlen : len ≤ mem.length) (hcap : len ≤ c.cap) :
    ∀ (fuel : Nat) (sti : InPlaceSt) (st : NormalizeSt), InPlaceSim mem len sti st →
      st.s.length ≤ fuel →
      ∃ out buf, normalizeLoop c fuel st = some out ∧
        normalizeLoopIn c len fuel sti = some (out.length, buf) ∧ buf.take out.length = out
  | 0, sti, st, h, hfuel => by
    have hnil : st.s = [] := List.length_eq_zero_iff.mp (by omega)
    have hnilIn := h.source_eq.trans hnil
    refine ⟨st.dst, sti.buf, by simp [normalizeLoop, hnil], ?_, h.apart.written⟩
    rw [normalizeLoopIn, if_pos hnilIn, h.k_eq]
  | fuel + 1, sti, st, h, hfuel => by
    rw [normalizeLoop, normalizeLoopIn, h.source_eq]
    split
    · exact ⟨st.dst, sti.buf, rfl, by rw [h.k_eq], h.apart.written⟩
    · rename_i hne
      obtain ⟨sti', st', hst, hstIn, hs, h'⟩ := normalizeStepIn_sim h hne hlen hcap
      have hlt := @splitRest_length_lt st.s c.slashes hne
      rw [hst, hstIn]
      exact normalizeLoopIn_sim hlen hcap fuel sti' st' h' (by rw [hs]; omega)

/-- In every state of the loop the source behind the read position is as it was. -/
theorem iterationsIn_sim (hlen : len ≤ mem.length) (hcap : len ≤ c.cap) :
    ∀ (n : Nat) (sti sti' : InPlaceSt) (st : NormalizeSt), InPlaceSim mem len sti st →
      iterationsIn c len n sti = some sti' → ∃ st', InPlaceSim mem len sti' st'
  | 0, sti, sti', st, h, hrun => by
    cases hrun
    exact ⟨st, h⟩
  | n + 1, sti, sti', st, h, hrun => by
    rw [iterationsIn, h.source_eq] at hrun
    split at hrun
    · cases hrun
      exact ⟨st, h⟩
    · rename_i hne
      obtain ⟨sti₁, st₁, -, hstIn, -, h₁⟩ := @normalizeStepIn_sim c mem len sti st h hne hlen hcap
      rw [hstIn, Option.bind_some] at hrun
      exact iterationsIn_sim hlen hcap n sti₁ sti' st₁ h₁ hrun

end Iteration

/-- The state before the loop. -/
def inPlaceStart (flags : BitVec 32) (buf : List Byte) : InPlaceSt where
  buf := buf
  off := 0
  k := 0
  simplify := hasFlag flags FFPATH_SIMPLE
  skipDisk := hasFlag flags FFPATH_DISK_LETTER && hasFlag flags FFPATH_SIMPLE

theorem inPlaceStart_sim (flags : BitVec 32) (src extra : List Byte) :
    InPlaceSim (src ++ extra) src.length (inPlaceStart flags (src ++ extra))
      (normalizeStart flags src) := by
  refine ⟨⟨rfl, rfl, Nat.le_refl _, Nat.zero_le _, rfl⟩, rfl, Nat.zero_le _, ?_, rfl, rfl⟩
  exact List.take_left.symm

/-- **Normalising in place.**  For every source, whatever is behind it in the buffer, every build
    and all flags: the run over one buffer returns the length and leaves the bytes of the run into
    another buffer.  In every state of the loop the write position has not overtaken the read
    position, and the part of the source that is not read yet is as it was. -/
theorem ffpathNormalize_in_place (ffWin : Bool) (cap : Nat) (src extra : List Byte)
    (flags : BitVec 32) (hcap : src.length ≤ cap) :
    (∃ out buf, ffpathNormalize ffWin cap src flags = some out ∧
      ffpathNormalizeIn ffWin cap (src ++ extra) src.length flags = some (out.length, buf) ∧
      buf.take out.length = out) ∧
    ∀ n st, iterationsIn ⟨cap, effFlags ffWin flags, slashesOf ffWin flags⟩ src.length n
        (inPlaceStart (effFlags ffWin flags) (src ++ extra)) = some st →
      st.k ≤ st.off ∧ st.buf.drop st.off = (src ++ extra).drop st.off := by
  have hlen : src.length ≤ (src ++ extra).length := by
    rw [List.length_append]
    omega
  have hstart := inPlaceStart_sim (effFlags ffWin flags) src extra
  constructor
  · have htake : (src ++ extra).take src.length = src := List.take_left
    unfold ffpathNormalize ffpathNormalizeIn
    simp only [htake]
    split
    · have hfits : ¬ src.length > cap := by omega
      rw [if_neg hfits, if_neg hfits]
      exact ⟨src, src ++ extra, rfl, rfl, htake⟩
    · exact @normalizeLoopIn_sim ⟨cap, effFlags ffWin flags, slashesOf ffWin flags⟩ (src ++ extra)
        src.length hlen hcap src.length _ _ hstart (Nat.le_refl _)
  · intro n st hrun
    obtain ⟨st', h⟩ := @iterationsIn_sim ⟨cap, effFlags ffWin flags, slashesOf ffWin flags⟩
      (src ++ extra) src.length hlen hcap n _ st _ hstart hrun
    exact ⟨h.k_eq ▸ h.apart.behind, h.apart.unread⟩

/-- `"a//b/./../c"` becomes `"a/c"`, with the end of the old path behind it. -/
theorem ffpathNormalize_in_place_parent :
    ∃ buf, ffpathNormalizeIn false 12 "a//b/./../c".toUTF8.data.toList 11 0 = some (3, buf) ∧
      buf.take 3 = "a/c".toUTF8.data.toList := by
  have hval : ffpathNormalize false 12 "a//b/./../c".toUTF8.data.toList 0 =
      some "a/c".toUTF8.data.toList := by decide +kernel
  obtain ⟨⟨out, buf, hout, hin, htake⟩, -⟩ :=
    ffpathNormalize_in_place false 12 "a//b/./../c".toUTF8.data.toList [] 0 (by decide +kernel)
  rw [hval, Option.some.injEq] at hout
  subst hout
  exact ⟨buf, hin, htake⟩

end FFSys.Path
