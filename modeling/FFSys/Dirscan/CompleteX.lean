import FFSys.Dirscan.ScanX

/-!
# An extended scan returns every entry with its kind

* `Inside` — an offset of a string that ends in the buffer; `scan_inside` — the offsets of a scan,
  however large it is.
* `markOff` — an offset with its kind; `markLoop_eq` — the loop marks the offsets, by induction on
  those behind the cursor.
* `ffdirscanxOpen_eq` — what `ffdirscanx_open` leaves: the marked offsets, sorted.
* `readEntries_spec` — the entries are read back, by induction on the index.
* `ffdirscanx_complete` — `ffdirscanx_next` returns the wanted entries, each with its kind and in
  order.
* `ffdirscanxAt_agrees_iff` — where `ffdirscanx_at` agrees with that.
-/

set_option autoImplicit false

namespace FFSys.Dirscan

open FFSys.Lib

/-! ## Strings of the buffer -/

/-- There is a NUL at the offset or after it. -/
def Inside (buf : List Byte) (off : Nat) : Prop := 0 ∈ buf.drop off

theorem Inside.append {buf : List Byte} {off : Nat} (h : Inside buf off) (t : List Byte) :
    Inside (buf ++ t) off := by
  unfold Inside
  rw [List.drop_append]
  exact List.mem_append_left _ h

theorem Inside.lt {buf : List Byte} {off : Nat} (h : Inside buf off) : off < buf.length := by
  by_contra hge
  rw [Inside, List.drop_eq_nil_of_le (by omega)] at h
  cases h

theorem Inside.mono {buf : List Byte} {off off' : Nat} (h : Inside buf off) (hle : off' ≤ off) :
    Inside buf off' := by
  have hdrop : buf.drop off = (buf.drop off').drop (off - off') := by
    rw [List.drop_drop]
    congr 1
    omega
  unfold Inside at h
  rw [hdrop] at h
  exact List.mem_of_mem_drop h

/-- What follows in the buffer does not matter. -/
theorem Inside.cstrAt {buf : List Byte} {off : Nat} (h : Inside buf off) (t : List Byte) :
    cstrAt (buf ++ t) off = some ((Dirscan.cstrAt buf off).getD []) := by
  have hle : off ≤ buf.length := Nat.le_of_lt h.lt
  have happ := h.append t
  unfold Inside at h happ
  rw [Dirscan.cstrAt, Dirscan.cstrAt, if_pos h, if_pos happ, Option.getD_some,
    List.drop_append_of_le_length hle]
  -- the NUL is before `t`
  rw [List.takeWhile_append, if_neg ?_]
  intro hall
  have hself : (buf.drop off).takeWhile (· != 0) = buf.drop off :=
    (List.takeWhile_prefix _).eq_of_length hall
  have hne := List.all_takeWhile (p := (· != 0)) (l := buf.drop off)
  rw [hself, List.all_eq_true] at hne
  exact absurd (hne 0 h) (by simp)

/-- The offsets of a scan, also if they do not fit in 32 bits. -/
theorem scan_inside (ffsWildcard : FfsWildcard) (wildcard : List Byte) (flags : BitVec 32)
    (names : List (List Byte)) :
    ∀ s : Scanned, (∀ o ∈ s.offsets, Inside s.buf o.toNat) →
      ∀ o ∈ (names.foldl (scanStep ffsWildcard wildcard flags) s).offsets,
        Inside (names.foldl (scanStep ffsWildcard wildcard flags) s).buf o.toNat := by
  induction names with
  | nil =>
    intro s hs
    exact hs
  | cons name names ih =>
    intro s hs
    rw [List.foldl_cons]
    apply ih
    unfold scanStep
    split
    · exact hs
    split
    · exact hs
    intro o ho
    rcases List.mem_append.mp ho with ho | ho
    · exact (hs o ho).append _
    · have hle : o.toNat ≤ (s.buf ++ name).length := by
        rw [List.mem_singleton.mp ho, BitVec.toNat_ofNat, List.length_append]
        have := Nat.mod_le s.buf.length (2 ^ 32)
        omega
      have hlast : Inside (s.buf ++ name ++ [0]) (s.buf ++ name).length := by
        unfold Inside
        rw [List.drop_left' rfl]
        exact List.mem_singleton_self 0
      simpa only [List.append_assoc] using hlast.mono hle

/-! ## Words of the buffer -/

theorem writeAt_mid (pre post : List Byte) {old new : List Byte} (h : new.length = old.length) :
    writeAt (pre ++ old ++ post) pre.length new = pre ++ new ++ post := by
  have hdrop : (pre ++ old ++ post).drop (pre.length + new.length) = post := by
    rw [h, ← List.length_append]
    exact List.drop_left' rfl
  rw [writeAt, hdrop, List.append_assoc pre old, List.take_left' rfl]

theorem indexBytes_append (index index' : List (BitVec 32)) :
    indexBytes (index ++ index') = indexBytes index ++ indexBytes index' := by
  simp [indexBytes]

theorem indexBytes_length (index : List (BitVec 32)) : (indexBytes index).length = 4 * index.length := by
  induction index with
  | nil => rfl
  | cons o index ih =>
    rw [indexBytes_cons, List.length_append, leBytes_length, ih, List.length_cons]
    omega

theorem wordsAt_index (index : List (BitVec 32)) :
    ∀ pre : List Byte, wordsAt (pre ++ indexBytes index) pre.length index.length = some index := by
  induction index with
  | nil =>
    intro pre
    rfl
  | cons o index ih =>
    intro pre
    have hrest := ih (pre ++ leBytes 4 o.toNat)
    rw [List.length_append, leBytes_length, List.append_assoc] at hrest
    rw [indexBytes_cons, List.length_cons, wordsAt, readAt_word]
    simp only [hrest, Option.map_some, BitVec.ofNat_toNat, BitVec.setWidth_eq]

/-! ## Marking -/

section Mark

variable (fffileInfoPath : FffileInfoPath) (path : List Byte)

/-- The file info of the name is obtained and says that it is a directory. -/
def infoIsdir (fn : List Byte) : Bool :=
  match fffileInfoPath (infoPath path fn) with
  | none => false
  | some attr => fffileIsdir attr

/-- The offset with the bit of its name. -/
def markOff (buf : List Byte) (o : BitVec 32) : BitVec 32 :=
  if infoIsdir fffileInfoPath path (nameAt buf o) then o ||| 0x80000000#32 else o

/-- The assertion of the loop holds, or is not reached. -/
def markable (buf : List Byte) (o : BitVec 32) : Bool :=
  (fffileInfoPath (infoPath path (nameAt buf o))).isNone || !entryIsdir o

/-- One name: the word behind the cursor is marked. -/
theorem markEntry_eq (buf pre post : List Byte) (o : BitVec 32) (d : Ffdirscan)
    (hnames : d.names = pre ++ (leBytes 4 o.toNat ++ post)) (hcur : d.cur = pre.length + 4) :
    markEntry fffileInfoPath path (nameAt buf o) d =
      if markable fffileInfoPath path buf o then
        some { d with names := pre ++ (leBytes 4 (markOff fffileInfoPath path buf o).toNat ++ post) }
      else none := by
  have hpos : d.cur - 4 = pre.length := by omega
  have hread : readAt d.names (d.cur - 4) 4 = some o.toNat := by
    rw [hnames, hpos]
    exact readAt_word pre post o
  have hwrite : ∀ o' : BitVec 32, writeAt d.names (d.cur - 4) (leBytes 4 o'.toNat) =
      pre ++ (leBytes 4 o'.toNat ++ post) := by
    intro o'
    rw [hnames, hpos, ← List.append_assoc, writeAt_mid pre post (by simp), List.append_assoc]
  have hbit : (o &&& 0x80000000#32 ≠ 0) ↔ entryIsdir o = true := (bne_iff_ne).symm
  unfold markEntry markable markOff infoIsdir
  cases hinfo : fffileInfoPath (infoPath path (nameAt buf o)) with
  | none => simp [← hnames]
  | some attr =>
    simp only [hread, BitVec.ofNat_toNat, BitVec.setWidth_eq, hbit, hwrite]
    by_cases ho : entryIsdir o = true <;> by_cases hd : fffileIsdir attr = true <;>
      simp [ho, hd, ← hnames]

/-- Induction on the offsets from the cursor on: those before it are marked. -/
theorem markLoop_eq (buf : List Byte) (todo : List (BitVec 32)) :
    ∀ (marked : List (BitVec 32)) (d : Ffdirscan) (fuel : Nat),
      (∀ o ∈ todo, Inside buf o.toNat) →
      d.names = buf ++ (indexBytes marked ++ indexBytes todo) → d.len = d.names.length →
      d.cur = buf.length + 4 * marked.length → todo.length < fuel →
        markLoop fffileInfoPath path fuel d =
          if todo.all (markable fffileInfoPath path buf) then
            some { d with
              names := buf ++ indexBytes (marked ++ todo.map (markOff fffileInfoPath path buf))
              cur := d.len }
          else none := by
  induction todo with
  | nil =>
    intro marked d fuel _ hnames hlen hcur hfuel
    obtain ⟨fuel, rfl⟩ : ∃ n, fuel = n + 1 := ⟨fuel - 1, by omega⟩
    have hzero : indexBytes [] = [] := rfl
    have hend : d.cur = d.len := by
      rw [hlen, hnames, hcur, hzero, List.append_nil, List.length_append, indexBytes_length]
    rw [markLoop, ffdirscanNext, if_pos hend]
    simp only [List.all_nil, if_true, List.map_nil, List.append_nil, Option.some.injEq]
    rw [hzero, List.append_nil] at hnames
    rw [← hnames]
    exact congrArg (fun c => { d with cur := c }) hend
  | cons o todo ih =>
    intro marked d fuel hinside hnames hlen hcur hfuel
    rw [List.length_cons] at hfuel
    obtain ⟨fuel, rfl⟩ : ∃ n, fuel = n + 1 := ⟨fuel - 1, by omega⟩
    have hnames' : d.names = (buf ++ indexBytes marked) ++ (leBytes 4 o.toNat ++ indexBytes todo) := by
      rw [hnames, indexBytes_cons, List.append_assoc]
    have hcur' : d.cur = (buf ++ indexBytes marked).length := by
      rw [hcur, List.length_append, indexBytes_length]
    have hstr : cstrAt d.names o.toNat = some (nameAt buf o) := by
      rw [hnames]
      exact (hinside o List.mem_cons_self).cstrAt _
    have hnext := ffdirscanNext_word hnames' hcur' hlen hstr
    rw [markLoop, hnext]
    simp only
    rw [markEntry_eq fffileInfoPath path buf (buf ++ indexBytes marked) (indexBytes todo) o
      { d with cur := d.cur + 4 } hnames' (by rw [hcur'])]
    rw [List.all_cons]
    cases hm : markable fffileInfoPath path buf o with
    | false => rfl
    | true =>
      rw [if_pos rfl, Bool.true_and]
      simp only
      have hrec := ih (marked ++ [markOff fffileInfoPath path buf o])
        { d with
          names := (buf ++ indexBytes marked) ++
            (leBytes 4 (markOff fffileInfoPath path buf o).toNat ++ indexBytes todo)
          cur := d.cur + 4 } fuel (fun o' ho' => hinside o' (List.mem_cons_of_mem _ ho'))
        (by rw [indexBytes_append, indexBytes_cons]; simp [indexBytes])
        (by rw [hlen, hnames']; simp)
        (by simp only [List.length_append, List.length_singleton]; omega) (by omega)
      rw [hrec, List.map_cons, List.append_assoc, List.singleton_append]

end Mark

/-! ## Opening -/

/-- The call of `ffsort`, on a buffer that ends with the index. -/
theorem sortIndex_eq (ffsort : Ffsort) (flags : BitVec 32) {d : Ffdirscan} (buf : List Byte)
    (index : List (BitVec 32)) (hnames : d.names = buf ++ indexBytes index) (hindex : d.index = buf.length)
    (hlen : d.len = d.names.length) :
    sortIndex ffsort flags d =
      some { d with names := buf ++ indexBytes (ffsort.sort (ffdsxOpenCmp flags d.names) index) } := by
  have hcount : ffdirscanCount d = index.length := by
    rw [ffdirscanCount, hlen, hnames, hindex, List.length_append, indexBytes_length]
    omega
  have hwords : wordsAt d.names d.index (ffdirscanCount d) = some index := by
    rw [hcount, hnames, hindex]
    exact wordsAt_index index buf
  have hsize : (indexBytes (ffsort.sort (ffdsxOpenCmp flags d.names) index)).length =
      (indexBytes index).length := by
    rw [indexBytes_length, indexBytes_length,
      (ffsort.perm _ _ (dsxOpenCmp_consistent flags d.names)).length_eq]
  have hwrite := writeAt_mid buf [] hsize
  rw [List.append_nil, List.append_nil] at hwrite
  rw [sortIndex, hwords]
  simp only [hindex]
  rw [← hwrite, ← hnames]

section Open

variable (ffsort : Ffsort) (ffsWildcard : FfsWildcard) (fffileInfoPath : FffileInfoPath)

/-- The index that `ffdirscanx_open` leaves. -/
def openedIndex (path : List Byte) (flags : BitVec 32) (s : Scanned) : List (BitVec 32) :=
  let marked := s.offsets.map (markOff fffileInfoPath path s.buf)
  ffsort.sort (ffdsxOpenCmp flags (s.buf ++ indexBytes marked)) marked

theorem openedIndex_perm (path : List Byte) (flags : BitVec 32) (s : Scanned) :
    (openedIndex ffsort fffileInfoPath path flags s).Perm
      (s.offsets.map (markOff fffileInfoPath path s.buf)) :=
  ffsort.perm _ _ (dsxOpenCmp_consistent flags _)

theorem ffdirscanOpen_fails (d : Ffdirscan) {dir : Dir} (flags : BitVec 32)
    (h : ¬ (dir.opened = true ∧ dir.failed = false)) :
    (ffdirscanOpen ffsort ffsWildcard d dir flags).1 ≠ 0 := by
  unfold ffdirscanOpen
  cases hopened : dir.opened with
  | false => simp
  | true =>
    have hfailed : dir.failed = true := by
      rw [← Bool.not_eq_false]
      exact fun hf => h ⟨hopened, hf⟩
    simp [hfailed]

/-- The names are scanned in the order of `readdir`. -/
theorem ffdirscanOpen_nosort (d : Ffdirscan) {dir : Dir} (flags : BitVec 32) (hopened : dir.opened = true)
    (hfailed : dir.failed = false) :
    ffdirscanOpen ffsort ffsWildcard d dir (flags ||| FFDIRSCAN_NOSORT) =
      (0, openedScan d
        (scan ffsWildcard d.wildcard (flags ||| FFDIRSCAN_NOSORT) (dir.entries.map EntryName.bytes))
        (scan ffsWildcard d.wildcard (flags ||| FFDIRSCAN_NOSORT)
          (dir.entries.map EntryName.bytes)).offsets) := by
  have hflag : hasFlag (flags ||| FFDIRSCAN_NOSORT) FFDIRSCAN_NOSORT = true := by
    have hself : (flags ||| FFDIRSCAN_NOSORT) &&& FFDIRSCAN_NOSORT = FFDIRSCAN_NOSORT := by
      apply BitVec.eq_of_getLsbD_eq
      intro i hi
      rw [BitVec.getLsbD_and, BitVec.getLsbD_or]
      cases FFDIRSCAN_NOSORT.getLsbD i <;> simp
    rw [hasFlag, hself]
    rfl
  simp [ffdirscanOpen, hopened, hfailed, hflag, openedScan]

/-- **What `ffdirscanx_open` does**: it fails, or an assertion fails, or it leaves the marked and
    sorted index. -/
theorem ffdirscanxOpen_eq (dx : Ffdirscanx) (path : List Byte) (dir : Dir) (alloc : Bool)
    (flags : BitVec 32) {s : Scanned}
    (hs : scan ffsWildcard dx.ds.wildcard (flags ||| FFDIRSCAN_NOSORT)
      (dir.entries.map EntryName.bytes) = s) :
    ffdirscanxOpen ffsort ffsWildcard fffileInfoPath dx path dir alloc flags =
      if dir.opened = true ∧ dir.failed = false ∧ alloc = true then
        if s.offsets.all (markable fffileInfoPath path s.buf) then
          some (0, ⟨openedScan dx.ds s (openedIndex ffsort fffileInfoPath path flags s), flags⟩)
        else none
      else
        some (1, ffdirscanxClose
          { dx with ds := (ffdirscanOpen ffsort ffsWildcard dx.ds dir (flags ||| FFDIRSCAN_NOSORT)).2 }) := by
  by_cases hdir : dir.opened = true ∧ dir.failed = false
  · have hopen := ffdirscanOpen_nosort ffsort ffsWildcard dx.ds flags hdir.1 hdir.2
    rw [hs] at hopen
    have hinside : ∀ o ∈ s.offsets, Inside s.buf o.toNat := by
      rw [← hs]
      exact scan_inside ffsWildcard dx.ds.wildcard _ _ ⟨[], []⟩ (by simp)
    have hfuel : s.offsets.length < (openedScan dx.ds s s.offsets).len + 1 := by
      show _ < (s.buf ++ indexBytes s.offsets).length + 1
      rw [List.length_append, indexBytes_length]
      omega
    have hloop := markLoop_eq fffileInfoPath path s.buf s.offsets [] (openedScan dx.ds s s.offsets) _
      hinside rfl rfl rfl hfuel
    unfold ffdirscanxOpen
    simp only [hopen, hdir, true_and, ne_eq, not_true_eq_false, if_false]
    cases alloc with
    | false => rfl
    | true =>
      rw [hloop]
      cases hall : s.offsets.all (markable fffileInfoPath path s.buf) with
      | false => simp
      | true =>
        have hlen : (openedScan dx.ds s s.offsets).len =
            (s.buf ++ indexBytes (s.offsets.map (markOff fffileInfoPath path s.buf))).length := by
          simp [openedScan, indexBytes_length]
        have hsort := sortIndex_eq ffsort flags s.buf (s.offsets.map (markOff fffileInfoPath path s.buf))
          (d := { openedScan dx.ds s s.offsets with
            names := s.buf ++ indexBytes (s.offsets.map (markOff fffileInfoPath path s.buf))
            cur := (openedScan dx.ds s s.offsets).index }) rfl rfl hlen
        have hperm := (openedIndex_perm ffsort fffileInfoPath path flags s).length_eq
        simp only [Bool.not_true, Bool.false_eq_true, if_false, if_true, List.nil_append, hsort]
        simp only [openedScan, openedIndex] at hperm hlen ⊢
        rw [hlen, List.length_append, List.length_append, indexBytes_length, indexBytes_length, hperm]
  · have hfail : ¬ (dir.opened = true ∧ dir.failed = false ∧ alloc = true) := fun h => hdir ⟨h.1, h.2.1⟩
    have hrc := ffdirscanOpen_fails ffsort ffsWildcard dx.ds (flags ||| FFDIRSCAN_NOSORT) hdir
    rw [ffdirscanxOpen, if_neg hfail]
    simp only [hrc, ne_eq, not_false_eq_true, if_true]

end Open

/-- The flags that choose the entries are not changed. -/
theorem wanted_nosort (ffsWildcard : FfsWildcard) (wildcard : List Byte) (flags : BitVec 32) :
    wanted ffsWildcard wildcard (flags ||| FFDIRSCAN_NOSORT) = wanted ffsWildcard wildcard flags := by
  have hflag : ∀ f : BitVec 32, FFDIRSCAN_NOSORT &&& f = 0#32 →
      hasFlag (flags ||| FFDIRSCAN_NOSORT) f = hasFlag flags f := by
    intro f hf
    rw [hasFlag, hasFlag, BitVec.and_or_distrib_right, hf, BitVec.or_zero]
  funext name
  rw [wanted, wanted, hflag FFDIRSCAN_DOT rfl, hflag FFDIRSCAN_USEWILDCARD rfl]

/-! ## Reading -/

/-- One entry, after any bytes. -/
theorem entryAt_word {names pre post : List Byte} {w : BitVec 32} {name : List Byte}
    (hnames : names = pre ++ (leBytes 4 w.toNat ++ post)) (hname : cstrAt names (entryOff w) = some name) :
    entryAt names pre.length = .entry name (entryIsdir w) := by
  have hread : readAt names pre.length 4 = some w.toNat := by
    rw [hnames]
    exact readAt_word pre post w
  rw [entryAt, hread]
  simp only [BitVec.ofNat_toNat, BitVec.setWidth_eq, hname]

/-- Induction on the index from the cursor on. -/
theorem readEntries_spec (g : BitVec 32 → List Byte) (index : List (BitVec 32)) :
    ∀ (pre : List Byte) (dx : Ffdirscanx) (fuel : Nat), dx.ds.names = pre ++ indexBytes index →
      dx.ds.cur = pre.length → dx.ds.len = dx.ds.names.length →
      (∀ w ∈ index, cstrAt dx.ds.names (entryOff w) = some (g w)) → index.length < fuel →
        readEntries fuel dx = some (index.map fun w => (g w, entryIsdir w)) := by
  induction index with
  | nil =>
    intro pre dx fuel hnames hcur hlen _ hfuel
    obtain ⟨fuel, rfl⟩ : ∃ n, fuel = n + 1 := ⟨fuel - 1, by omega⟩
    have hend : dx.ds.cur = dx.ds.len := by
      rw [hlen, hnames, hcur]
      simp [indexBytes]
    rw [readEntries, ffdirscanxNext, if_pos hend]
    rfl
  | cons w index ih =>
    intro pre dx fuel hnames hcur hlen hname hfuel
    rw [List.length_cons] at hfuel
    obtain ⟨fuel, rfl⟩ : ∃ n, fuel = n + 1 := ⟨fuel - 1, by omega⟩
    rw [indexBytes_cons] at hnames
    have hne : dx.ds.cur ≠ dx.ds.len := by
      rw [hlen, hnames, hcur]
      simp
    have hentry := entryAt_word hnames (hname w List.mem_cons_self)
    rw [← hcur] at hentry
    have hrest := ih (pre ++ leBytes 4 w.toNat) { dx with ds := { dx.ds with cur := dx.ds.cur + 4 } } fuel
      (by rw [List.append_assoc]; exact hnames) (by rw [List.length_append, leBytes_length, hcur]) hlen
      (fun w' hw' => hname w' (List.mem_cons_of_mem _ hw')) (by omega)
    rw [readEntries, ffdirscanxNext, if_neg hne, hentry]
    simp only [hrest, Option.map_some, List.map_cons]

/-- The names of the marked offsets. -/
theorem entryName_mark (fffileInfoPath : FffileInfoPath) (path buf : List Byte) {o : BitVec 32}
    (hsmall : o.toNat < 2 ^ 31) :
    entryName buf (markOff fffileInfoPath path buf o) = nameAt buf o ∧
      entryIsdir (markOff fffileInfoPath path buf o) = infoIsdir fffileInfoPath path (nameAt buf o) := by
  have hoff : entryOff o = o.toNat := by
    rw [entryOff_eq, Nat.mod_eq_of_lt hsmall]
  unfold markOff
  split
  · rename_i hdir
    refine ⟨?_, ?_⟩
    · rw [entryName, entryOff_or hsmall, hoff, nameAt]
    · rw [entryIsdir_or hsmall, hdir]
  · rename_i hdir
    refine ⟨?_, ?_⟩
    · rw [entryName, hoff, nameAt]
    · rw [entryIsdir_small hsmall, Bool.eq_false_iff.mpr hdir]

/-- A mark does not move an offset up. -/
theorem entryOff_mark_le (fffileInfoPath : FffileInfoPath) (path buf : List Byte) (o : BitVec 32) :
    entryOff (markOff fffileInfoPath path buf o) ≤ o.toNat := by
  have hor : (o ||| 0x80000000#32) &&& ~~~0x80000000#32 = o &&& ~~~0x80000000#32 := by
    have hzero : 0x80000000#32 &&& ~~~0x80000000#32 = 0#32 := rfl
    rw [BitVec.and_or_distrib_right, hzero, BitVec.or_zero]
  have hle : entryOff o ≤ o.toNat := by
    rw [entryOff_eq]
    exact Nat.mod_le _ _
  unfold markOff
  split
  · rw [entryOff, hor]
    exact hle
  · exact hle

/-! ## A whole scan -/

theorem namesSize_filter_le (p : List Byte → Bool) (names : List (List Byte)) :
    namesSize (names.filter p) ≤ namesSize names := by
  induction names with
  | nil => exact Nat.le_refl _
  | cons name names ih =>
    rw [List.filter_cons, namesSize_cons]
    split
    · rw [namesSize_cons]
      omega
    · omega

/-- What the comparison says of two entries in their order. -/
theorem dsxOpenCmp_le {flags : BitVec 32} {names : List Byte} {l r : BitVec 32}
    (h : ffdsxOpenCmp flags names l r ≤ 0) :
    (hasFlag flags FFDIRSCANX_SORT_DIRS = false →
      ffdirscanFilenameCmpz (entryName names l) (entryName names r) ≤ 0) ∧
    (hasFlag flags FFDIRSCANX_SORT_DIRS = true →
      (entryIsdir r = true → entryIsdir l = true) ∧
        (entryIsdir l = entryIsdir r →
          ffdirscanFilenameCmpz (entryName names l) (entryName names r) ≤ 0)) := by
  rw [dsxOpenCmp_eq] at h
  revert h
  cases hasFlag flags FFDIRSCANX_SORT_DIRS <;> cases entryIsdir l <;> cases entryIsdir r <;> simp

section Entries

variable (ffsort : Ffsort) (fffileInfoPath : FffileInfoPath) (path : List Byte) (flags : BitVec 32)
variable {s : Scanned}

/-- The strings of the index end in the buffer. -/
theorem openedIndex_inside (h : ∀ o ∈ s.offsets, Inside s.buf o.toNat) :
    ∀ w ∈ openedIndex ffsort fffileInfoPath path flags s, Inside s.buf (entryOff w) := by
  intro w hw
  have hmem := (openedIndex_perm ffsort fffileInfoPath path flags s).mem_iff.mp hw
  obtain ⟨o, ho, rfl⟩ := List.mem_map.mp hmem
  exact (h o ho).mono (entryOff_mark_le fffileInfoPath path s.buf o)

/-- The entries of the index. -/
def indexEntries (buf : List Byte) (index : List (BitVec 32)) : List (List Byte × Bool) :=
  index.map fun w => (entryName buf w, entryIsdir w)

/-- They are those of the scanned names, each with its kind. -/
theorem indexEntries_perm {names : List (List Byte)} (h : Holds s names)
    (hsmall : ∀ o ∈ s.offsets, o.toNat < 2 ^ 31) :
    (indexEntries s.buf (openedIndex ffsort fffileInfoPath path flags s)).Perm
      (names.map fun name => (name, infoIsdir fffileInfoPath path name)) := by
  have hperm := (openedIndex_perm ffsort fffileInfoPath path flags s).map
    fun w => (entryName s.buf w, entryIsdir w)
  have heq : (s.offsets.map (markOff fffileInfoPath path s.buf)).map
      (fun w => (entryName s.buf w, entryIsdir w)) =
        names.map fun name => (name, infoIsdir fffileInfoPath path name) := by
    rw [← h.names_eq, List.map_map, List.map_map]
    apply List.map_congr_left
    intro o ho
    obtain ⟨hname, hisdir⟩ := entryName_mark fffileInfoPath path s.buf (hsmall o ho)
    simp only [Function.comp_apply, hname, hisdir]
  rw [heq] at hperm
  exact hperm

/-- They are in the order that the flags ask for. -/
theorem indexEntries_sorted (h : ∀ o ∈ s.offsets, Inside s.buf o.toNat) :
    (hasFlag flags FFDIRSCANX_SORT_DIRS = false →
      (indexEntries s.buf (openedIndex ffsort fffileInfoPath path flags s)).Pairwise fun a b =>
        ffdirscanFilenameCmpz a.1 b.1 ≤ 0) ∧
    (hasFlag flags FFDIRSCANX_SORT_DIRS = true →
      (indexEntries s.buf (openedIndex ffsort fffileInfoPath path flags s)).Pairwise fun a b =>
        (b.2 = true → a.2 = true) ∧ (a.2 = b.2 → ffdirscanFilenameCmpz a.1 b.1 ≤ 0)) := by
  have hsorted := ffsort.sorted _ (s.offsets.map (markOff fffileInfoPath path s.buf))
    (dsxOpenCmp_consistent flags (s.buf ++ indexBytes (s.offsets.map (markOff fffileInfoPath path s.buf))))
  have hinside := openedIndex_inside ffsort fffileInfoPath path flags h
  have hname : ∀ w ∈ openedIndex ffsort fffileInfoPath path flags s,
      entryName (s.buf ++ indexBytes (s.offsets.map (markOff fffileInfoPath path s.buf))) w =
        entryName s.buf w := by
    intro w hw
    rw [entryName, (hinside w hw).cstrAt, Option.getD_some, entryName]
  refine ⟨?_, ?_⟩
  · intro hflag
    rw [indexEntries, List.pairwise_map]
    refine hsorted.imp_of_mem ?_
    intro l r hl hr hle
    have hcmp := (dsxOpenCmp_le hle).1 hflag
    rw [hname l hl, hname r hr] at hcmp
    exact hcmp
  · intro hflag
    rw [indexEntries, List.pairwise_map]
    refine hsorted.imp_of_mem ?_
    intro l r hl hr hle
    have hcmp := (dsxOpenCmp_le hle).2 hflag
    rw [hname l hl, hname r hr] at hcmp
    exact hcmp

/-- They are what the calls return. -/
theorem openedScan_entries (d : Ffdirscan) (h : ∀ o ∈ s.offsets, Inside s.buf o.toNat) :
    ∀ fuel > (indexEntries s.buf (openedIndex ffsort fffileInfoPath path flags s)).length,
      readEntries fuel ⟨openedScan d s (openedIndex ffsort fffileInfoPath path flags s), flags⟩ =
        some (indexEntries s.buf (openedIndex ffsort fffileInfoPath path flags s)) := by
  intro fuel hfuel
  rw [indexEntries, List.length_map] at hfuel
  refine readEntries_spec (entryName s.buf) _ s.buf _ fuel rfl rfl rfl ?_ hfuel
  intro w hw
  exact (openedIndex_inside ffsort fffileInfoPath path flags h w hw).cstrAt _

end Entries

/-- **An extended scan returns every wanted entry, once, with its kind, and in order.**  It fails
    only if the directory cannot be read, or there is no memory. -/
theorem ffdirscanx_complete (ffsort : Ffsort) (ffsWildcard : FfsWildcard) (fffileInfoPath : FffileInfoPath)
    (dx : Ffdirscanx) (path : List Byte) (dir : Dir) (alloc : Bool) (flags : BitVec 32)
    (hsize : namesSize (dir.entries.map EntryName.bytes) ≤ 2 ^ 31) :
    ∃ rc dx', ffdirscanxOpen ffsort ffsWildcard fffileInfoPath dx path dir alloc flags = some (rc, dx') ∧
      (rc = 0 ↔ dir.opened = true ∧ dir.failed = false ∧ alloc = true) ∧
      (rc = 0 → ∃ out : List (List Byte × Bool),
        (∀ fuel > out.length, readEntries fuel dx' = some out) ∧
        out.Perm ((wantedNames ffsWildcard dx.ds.wildcard flags dir).map fun name =>
          (name, infoIsdir fffileInfoPath path name)) ∧
        (hasFlag flags FFDIRSCANX_SORT_DIRS = false →
          out.Pairwise fun a b => ffdirscanFilenameCmpz a.1 b.1 ≤ 0) ∧
        (hasFlag flags FFDIRSCANX_SORT_DIRS = true →
          out.Pairwise fun a b => (b.2 = true → a.2 = true) ∧
            (a.2 = b.2 → ffdirscanFilenameCmpz a.1 b.1 ≤ 0))) := by
  have hholds := scan_dir_holds ffsWildcard dx.ds.wildcard (flags ||| FFDIRSCAN_NOSORT)
    (hsize.trans (by omega))
  have hinside := scan_inside ffsWildcard dx.ds.wildcard (flags ||| FFDIRSCAN_NOSORT)
    (dir.entries.map EntryName.bytes) ⟨[], []⟩ (by simp)
  have hopen := ffdirscanxOpen_eq ffsort ffsWildcard fffileInfoPath dx path dir alloc flags rfl
  have hfilter := namesSize_filter_le (wanted ffsWildcard dx.ds.wildcard flags)
    (dir.entries.map EntryName.bytes)
  rw [wantedNames, wanted_nosort] at hholds
  rw [← scan] at hinside
  generalize scan ffsWildcard dx.ds.wildcard (flags ||| FFDIRSCAN_NOSORT)
    (dir.entries.map EntryName.bytes) = s at hholds hinside hopen
  have hsmall : ∀ o ∈ s.offsets, o.toNat < 2 ^ 31 := by
    intro o ho
    have hlt := (hinside o ho).lt
    have hbuf := hholds.size
    omega
  have hall : s.offsets.all (markable fffileInfoPath path s.buf) = true := by
    rw [List.all_eq_true]
    intro o ho
    rw [markable, entryIsdir_small (hsmall o ho), Bool.not_false, Bool.or_true]
  rw [if_pos hall] at hopen
  by_cases hok : dir.opened = true ∧ dir.failed = false ∧ alloc = true
  · rw [if_pos hok] at hopen
    obtain ⟨hplain, hdirs⟩ := indexEntries_sorted ffsort fffileInfoPath path flags hinside
    refine ⟨0, _, hopen, iff_of_true rfl hok, fun _ => ⟨_, ?_, ?_, hplain, hdirs⟩⟩
    · exact openedScan_entries ffsort fffileInfoPath path flags dx.ds hinside
    · exact indexEntries_perm ffsort fffileInfoPath path flags hholds hsmall
  · rw [if_neg hok] at hopen
    exact ⟨1, _, hopen, iff_of_false (by decide) hok, fun h => absurd h (by decide)⟩

/-- In the directory `"d"`, `"b"` is a directory; there is no info about `"A"`. -/
def lettersInfo : FffileInfoPath := fun path =>
  if path = [0x64, 0x2f, 0x62] then some 0x41ed#32
  else if path = [0x64, 0x2f, 0x41] then none
  else some 0x81a4#32

/-- An object before it is opened. -/
def closedScanX : Ffdirscanx := ⟨⟨[], 0, 0, 0, []⟩, 0⟩

/-- The extended scan of `letters`, the directories first. -/
def lettersScanX : Option (Int × Ffdirscanx) :=
  ffdirscanxOpen insertionFfsort anyName lettersInfo closedScanX [0x64] letters true FFDIRSCANX_SORT_DIRS

theorem ffdirscanx_complete_letters :
    ∃ dx', lettersScanX = some (0, dx') ∧
      readEntries 4 dx' = some [([0x62], true), ([0x61], false), ([0x41], false)] ∧
      [([0x62], true), ([0x61], false), ([0x41], false)].Perm
        ((wantedNames anyName [] FFDIRSCANX_SORT_DIRS letters).map fun name =>
          (name, infoIsdir lettersInfo [0x64] name)) := by
  obtain ⟨rc, dx', hopen, hrc, hout⟩ := ffdirscanx_complete insertionFfsort anyName lettersInfo closedScanX
    [0x64] letters true FFDIRSCANX_SORT_DIRS (by decide)
  have hzero : rc = 0 := hrc.mpr ⟨rfl, rfl, rfl⟩
  obtain ⟨out, hread, hperm, -, -⟩ := hout hzero
  have hthree : out.length = 3 := hperm.length_eq
  have hfour := hread 4 (by omega)
  have hvalue : (lettersScanX.bind fun r => readEntries 4 r.2) =
      some [([0x62], true), ([0x61], false), ([0x41], false)] := by
    decide +kernel
  rw [lettersScanX, hopen, Option.bind_some] at hvalue
  have hsame : out = [([0x62], true), ([0x61], false), ([0x41], false)] := by
    rw [hvalue] at hfour
    exact (Option.some.inj hfour).symm
  refine ⟨dx', ?_, hvalue, ?_⟩
  · rw [lettersScanX, hopen, hzero]
  · rw [hsame] at hperm
    exact hperm

/-! ## Access by index -/

/-- `ffdirscanx_at` agrees with the calls of `ffdirscanx_next`: for an index below the number of
    entries it returns what the call of that number returns, and otherwise `NULL`. -/
def AtAgrees (dx : Ffdirscanx) (i : BitVec 32) : Prop :=
  (i.toNat < ffdirscanCount dx.ds →
    ∃ name isdir, (ffdirscanxNext (afterEntries i.toNat dx)).1 = .entry name isdir ∧
      ffdirscanxAt dx i = .entry name isdir) ∧
  (ffdirscanCount dx.ds ≤ i.toNat → ffdirscanxAt dx i = .null)

/-- A call moves the cursor by one number. -/
theorem afterEntries_cur (n : Nat) :
    ∀ dx : Ffdirscanx, dx.ds.cur + 4 * n ≤ dx.ds.len →
      afterEntries n dx = { dx with ds := { dx.ds with cur := dx.ds.cur + 4 * n } } := by
  induction n with
  | zero =>
    intro dx _
    rfl
  | succ n ih =>
    intro dx hle
    have hne : dx.ds.cur ≠ dx.ds.len := by omega
    have hnext : (ffdirscanxNext dx).2 = { dx with ds := { dx.ds with cur := dx.ds.cur + 4 } } := by
      rw [ffdirscanxNext, if_neg hne]
    rw [afterEntries, hnext, ih _ (by simp only; omega)]
    simp only [Ffdirscanx.mk.injEq, Ffdirscan.mk.injEq, true_and, and_true]
    omega

/-- The entries by their position. -/
theorem entryAt_index {buf : List Byte} {index : List (BitVec 32)}
    (hinside : ∀ w ∈ index, Inside buf (entryOff w)) {k : Nat} (hk : k < index.length) :
    ∃ name isdir, entryAt (buf ++ indexBytes index) (buf.length + 4 * k) = .entry name isdir := by
  have hsplit : buf ++ indexBytes index =
      (buf ++ indexBytes (index.take k)) ++ (leBytes 4 index[k].toNat ++ indexBytes (index.drop (k + 1))) := by
    rw [← indexBytes_cons, List.append_assoc, ← indexBytes_append, List.getElem_cons_drop,
      List.take_append_drop]
  have hpos : buf.length + 4 * k = (buf ++ indexBytes (index.take k)).length := by
    rw [List.length_append, indexBytes_length, List.length_take, Nat.min_eq_left (Nat.le_of_lt hk)]
  rw [hpos]
  exact ⟨_, _, entryAt_word hsplit ((hinside _ (List.getElem_mem hk)).cstrAt _)⟩

/-- An object that was just opened: the block ends with the index, and the cursor is at its start. -/
structure Opened (dx : Ffdirscanx) : Prop where
  size : dx.ds.index + 4 * ffdirscanCount dx.ds = dx.ds.len
  cur : dx.ds.cur = dx.ds.index
  entries : ∀ k < ffdirscanCount dx.ds,
    ∃ name isdir, entryAt dx.ds.names (dx.ds.index + 4 * k) = .entry name isdir

theorem ffdirscanxOpen_opened {ffsort : Ffsort} {ffsWildcard : FfsWildcard}
    {fffileInfoPath : FffileInfoPath} {dx dx' : Ffdirscanx} {path : List Byte} {dir : Dir} {alloc : Bool}
    {flags : BitVec 32}
    (h : ffdirscanxOpen ffsort ffsWildcard fffileInfoPath dx path dir alloc flags = some (0, dx')) :
    Opened dx' := by
  rw [ffdirscanxOpen_eq ffsort ffsWildcard fffileInfoPath dx path dir alloc flags rfl] at h
  have hinside := scan_inside ffsWildcard dx.ds.wildcard (flags ||| FFDIRSCAN_NOSORT)
    (dir.entries.map EntryName.bytes) ⟨[], []⟩ (by simp)
  rw [← scan] at hinside
  generalize scan ffsWildcard dx.ds.wildcard (flags ||| FFDIRSCAN_NOSORT)
    (dir.entries.map EntryName.bytes) = s at h hinside
  split at h
  · split at h
    · simp only [Option.some.injEq, Prod.mk.injEq, true_and] at h
      subst h
      have hindex := openedIndex_inside ffsort fffileInfoPath path flags hinside
      generalize openedIndex ffsort fffileInfoPath path flags s = index at hindex
      have hcount : ffdirscanCount (openedScan dx.ds s index) = index.length := by
        simp only [ffdirscanCount, openedScan, List.length_append, indexBytes_length]
        omega
      refine ⟨?_, rfl, ?_⟩
      · rw [hcount]
        simp only [openedScan, List.length_append, indexBytes_length]
      · intro k hk
        rw [hcount] at hk
        exact entryAt_index hindex hk
    · cases h
  · simp at h

namespace Opened

variable {dx : Ffdirscanx}

theorem next_eq (h : Opened dx) {k : Nat} (hk : k < ffdirscanCount dx.ds) :
    (ffdirscanxNext (afterEntries k dx)).1 = entryAt dx.ds.names (dx.ds.index + 4 * k) := by
  have hsize := h.size
  have hcur := h.cur
  rw [afterEntries_cur k dx (by omega), ffdirscanxNext, if_neg (by simp only; omega)]
  simp only [hcur]

theorem at_eq (dx : Ffdirscanx) (i : BitVec 32) :
    ffdirscanxAt dx i =
      if (dx.ds.index + 4 * i.toNat) % 2 ^ 32 = dx.ds.len then .null
      else entryAt dx.ds.names ((dx.ds.index + 4 * i.toNat) % 2 ^ 32) := by
  rw [ffdirscanxAt, BitVec.toNat_ofNat, Nat.mul_comm]

theorem entryAt_ne_null (names : List Byte) (pos : Nat) : entryAt names pos ≠ .null := by
  unfold entryAt
  split
  · simp
  · split <;> simp

/-- The index of an entry. -/
theorem agrees_below (h : Opened dx) {i : BitVec 32} (hi : i.toNat < ffdirscanCount dx.ds) :
    AtAgrees dx i ↔
      entryAt dx.ds.names ((dx.ds.index + 4 * i.toNat) % 2 ^ 32) =
        entryAt dx.ds.names (dx.ds.index + 4 * i.toNat) := by
  have hsize := h.size
  have hmod := Nat.mod_le (dx.ds.index + 4 * i.toNat) (2 ^ 32)
  have hat := at_eq dx i
  rw [if_neg (by omega)] at hat
  obtain ⟨name, isdir, hentry⟩ := h.entries i.toNat hi
  rw [AtAgrees, h.next_eq hi, hat, hentry]
  refine ⟨?_, ?_⟩
  · intro hagree
    obtain ⟨name', isdir', hsame, hat'⟩ := hagree.1 hi
    rw [hat', hsame]
  · intro hsame
    exact ⟨fun _ => ⟨name, isdir, rfl, hsame⟩, fun hle => absurd hi (by omega)⟩

/-- Other indices. -/
theorem agrees_above {i : BitVec 32} (hi : ffdirscanCount dx.ds ≤ i.toNat) :
    AtAgrees dx i ↔ (dx.ds.index + 4 * i.toNat) % 2 ^ 32 = dx.ds.len := by
  rw [AtAgrees, at_eq]
  refine ⟨?_, ?_⟩
  · intro hagree
    have hnull := hagree.2 hi
    split at hnull
    · rename_i hend
      exact hend
    · exact absurd hnull (entryAt_ne_null _ _)
  · intro hend
    exact ⟨fun hlt => absurd hi (by omega), fun _ => if_pos hend⟩

end Opened

/-- **Where `ffdirscanx_at` agrees with `ffdirscanx_next`**: below the number of entries, if the
    position does not wrap to another entry; from it on, if the position wraps exactly to the end. 
    In a block of less than 4 GiB that is every index of an entry, and from the number of entries on
    every `2 ^ 30`-th index. -/
theorem ffdirscanxAt_agrees_iff (ffsort : Ffsort) (ffsWildcard : FfsWildcard)
    (fffileInfoPath : FffileInfoPath) (dx dx' : Ffdirscanx) (path : List Byte) (dir : Dir) (alloc : Bool)
    (flags : BitVec 32) (i : BitVec 32)
    (hopen : ffdirscanxOpen ffsort ffsWildcard fffileInfoPath dx path dir alloc flags = some (0, dx')) :
    (AtAgrees dx' i ↔
      (i.toNat < ffdirscanCount dx'.ds ∧
        entryAt dx'.ds.names ((dx'.ds.index + 4 * i.toNat) % 2 ^ 32) =
          entryAt dx'.ds.names (dx'.ds.index + 4 * i.toNat)) ∨
      (ffdirscanCount dx'.ds ≤ i.toNat ∧ (dx'.ds.index + 4 * i.toNat) % 2 ^ 32 = dx'.ds.len)) ∧
    (dx'.ds.len < 2 ^ 32 →
      (AtAgrees dx' i ↔
        i.toNat < ffdirscanCount dx'.ds ∨ 2 ^ 30 ∣ i.toNat - ffdirscanCount dx'.ds)) := by
  have hopened := ffdirscanxOpen_opened hopen
  have hsize := hopened.size
  rcases Nat.lt_or_ge i.toNat (ffdirscanCount dx'.ds) with hi | hi
  · rw [hopened.agrees_below hi]
    refine ⟨?_, ?_⟩
    · exact ⟨fun h => .inl ⟨hi, h⟩, fun h => h.elim (fun h => h.2) fun h => absurd hi (by omega)⟩
    · intro hlen
      have hmod : (dx'.ds.index + 4 * i.toNat) % 2 ^ 32 = dx'.ds.index + 4 * i.toNat :=
        Nat.mod_eq_of_lt (by omega)
      rw [hmod]
      exact iff_of_true rfl (.inl hi)
  · rw [Opened.agrees_above hi]
    refine ⟨?_, ?_⟩
    · exact ⟨fun h => .inr ⟨hi, h⟩, fun h => h.elim (fun h => absurd h.1 (by omega)) fun h => h.2⟩
    · intro hlen
      omega

/-- The directory with the file `"f"`. -/
def oneFile : Dir where
  opened := true
  entries := [⟨[0x66], by decide, by decide⟩]
  failed := false

/-- The object that is opened for it. -/
def oneFileScanX : Ffdirscanx := ⟨⟨[0x66, 0, 0, 0, 0, 0], 6, 2, 2, []⟩, 0⟩

theorem oneFileScanX_opened :
    ffdirscanxOpen insertionFfsort anyName lettersInfo closedScanX [0x64] oneFile true 0 =
      some (0, oneFileScanX) := by
  decide +kernel

/-- One entry, index 2: the read is outside of the block. -/
theorem ffdirscanxAt_two_outside :
    ffdirscanxOpen insertionFfsort anyName lettersInfo closedScanX [0x64] oneFile true 0 =
        some (0, oneFileScanX) ∧
      ffdirscanCount oneFileScanX.ds = 1 ∧ ffdirscanxAt oneFileScanX 2#32 = .fault ∧
      ¬ AtAgrees oneFileScanX 2#32 := by
  have hfault : ffdirscanxAt oneFileScanX 2#32 = .fault := by decide +kernel
  refine ⟨oneFileScanX_opened, rfl, hfault, ?_⟩
  intro hagree
  have hnull := hagree.2 (by decide)
  rw [hfault] at hnull
  cases hnull

/-- Three entries: the indices 0 to 2 agree, and 3, the first one behind the entries. -/
theorem ffdirscanxAt_agrees_iff_letters :
    ∃ dx', lettersScanX = some (0, dx') ∧ ffdirscanCount dx'.ds = 3 ∧
      ∀ i : BitVec 32, AtAgrees dx' i ↔ i.toNat < 3 ∨ 2 ^ 30 ∣ i.toNat - 3 := by
  have hvalue : (lettersScanX.map fun r => (r.1, ffdirscanCount r.2.ds, r.2.ds.len)) =
      some (0, 3, 18) := by
    decide +kernel
  obtain ⟨⟨rc, dx'⟩, hopen, hr⟩ := Option.map_eq_some_iff.mp hvalue
  obtain ⟨rfl, hcount, hlen⟩ : rc = 0 ∧ ffdirscanCount dx'.ds = 3 ∧ dx'.ds.len = 18 := by
    simpa only [Prod.mk.injEq] using hr
  refine ⟨dx', hopen, hcount, ?_⟩
  intro i
  have h := (ffdirscanxAt_agrees_iff insertionFfsort anyName lettersInfo closedScanX dx' [0x64] letters true
    FFDIRSCANX_SORT_DIRS i hopen).2 (by omega)
  rwa [hcount] at h

end FFSys.Dirscan
