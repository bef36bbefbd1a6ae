import FFSys.Std.Escape

/-!
# Streams of keys

* `Item` — what a terminal sends: characters, characters with Alt, virtual keys with modifiers,
  pasted text; `Item.bytes` — its bytes, `Item.out` — what shall be read.
* `streamStep` — one round of the reading loop; `decodeStream` — the loop.
* `streamStep_item`, `streamStep_paste` — a round reads one item.  The number of bytes that
  `ffstd_paste_read` returns is an `ffuint`: it is cut to 32 bits.
* `decode_inside` — behind a text of which too little was skipped, the loop fails or puts out more
  than was sent.
* `decodeStream_iff` — a stream is read back if and only if every pasted text is shorter than
  `2^32 - 12` bytes.
-/

set_option autoImplicit false

namespace FFSys.Std

open FFSys.Lib

/-! ## Items -/

structure Mods where
  ctrl : Bool
  shift : Bool
  alt : Bool
  deriving DecidableEq, Repr

def Mods.none : Mods := ⟨false, false, false⟩

/-- `32..38 -> Shift..SAC`. -/
def Mods.digit (m : Mods) : Byte :=
  0x31 + (if m.shift then 1 else 0) + (if m.alt then 2 else 0) + (if m.ctrl then 4 else 0)

def Mods.bits (m : Mods) : BitVec 32 :=
  (if m.ctrl then FFKEY_CTRL else 0) ||| (if m.shift then FFKEY_SHIFT else 0) |||
    (if m.alt then FFKEY_ALT else 0)

inductive VirtKey where
  | del | ins | up | down | right | left | home | «end» | pgup | pgdn
  | f1 | f2 | f3 | f4 | f5 | f6 | f7 | f8 | f9 | f10 | f11 | f12
  deriving DecidableEq, Repr

def VirtKey.code : VirtKey → BitVec 32
  | .del => FFKEY_DEL
  | .ins => FFKEY_INS
  | .up => FFKEY_UP
  | .down => FFKEY_DOWN
  | .right => FFKEY_RIGHT
  | .left => FFKEY_LEFT
  | .home => FFKEY_HOME
  | .end => FFKEY_END
  | .pgup => FFKEY_PGUP
  | .pgdn => FFKEY_PGDN
  | .f1 => FFKEY_F1
  | .f2 => FFKEY_F2
  | .f3 => FFKEY_F3
  | .f4 => FFKEY_F4
  | .f5 => FFKEY_F5
  | .f6 => FFKEY_F6
  | .f7 => FFKEY_F7
  | .f8 => FFKEY_F8
  | .f9 => FFKEY_F9
  | .f10 => FFKEY_F10
  | .f11 => FFKEY_F11
  | .f12 => FFKEY_F12

/-- How a virtual key is sent: `ESC O f`, `ESC [ digits ~` or `ESC [ f`. -/
inductive SeqForm where
  | ss3 (f : Byte)
  | tilde (digits : List Byte)
  | letter (f : Byte)

def VirtKey.form : VirtKey → SeqForm
  | .f1 => .ss3 0x50
  | .f2 => .ss3 0x51
  | .f3 => .ss3 0x52
  | .f4 => .ss3 0x53
  | .f5 => .tilde [0x31, 0x35]
  | .f6 => .tilde [0x31, 0x37]
  | .f7 => .tilde [0x31, 0x38]
  | .f8 => .tilde [0x31, 0x39]
  | .f9 => .tilde [0x32, 0x30]
  | .f10 => .tilde [0x32, 0x31]
  | .f11 => .tilde [0x32, 0x33]
  | .f12 => .tilde [0x32, 0x34]
  | .ins => .tilde [0x32]
  | .del => .tilde [0x33]
  | .pgup => .tilde [0x35]
  | .pgdn => .tilde [0x36]
  | .up => .letter 0x41
  | .down => .letter 0x42
  | .right => .letter 0x43
  | .left => .letter 0x44
  | .end => .letter 0x46
  | .home => .letter 0x48

/-- The bytes behind `ESC`. -/
def SeqForm.tail (m : Mods) : SeqForm → List Byte
  | .ss3 f => 0x4f :: (if m = .none then [] else [m.digit]) ++ [f]
  | .tilde digits => 0x5b :: digits ++ (if m = .none then [] else [0x3b, m.digit]) ++ [0x7e]
  | .letter f => 0x5b :: (if m = .none then [] else [0x31, 0x3b, m.digit]) ++ [f]

/-- `"\x1b[200~"`. -/
def pasteStart : List Byte := [ESC, 0x5b, 0x32, 0x30, 0x30, 0x7e]

inductive Item where
  | char (s : List Byte)
  | alt (s : List Byte)
  | virt (k : VirtKey) (m : Mods)
  | paste (text : List Byte)

def Item.bytes : Item → List Byte
  | .char s => s
  | .alt s => ESC :: s
  | .virt k m => ESC :: k.form.tail m
  | .paste text => pasteStart ++ text ++ pasteEnd

/-- The items that a terminal may send. -/
def Item.OK (U : Ffutf8) : Item → Prop
  | .char s => U.Valid s ∧ s.length ≤ 4 ∧ s ≠ [0] ∧ s ≠ [ESC]
  | .alt s => U.Valid s ∧ s.length ≤ 3 ∧ s.head? ≠ some 0x4f ∧ s.head? ≠ some 0x5b ∧ s.head? ≠ some 0
  | .virt _ _ => True
  | .paste text => ¬ pasteEnd <:+: text

inductive Out where
  | key (k : BitVec 32)
  | paste (text : List Byte)
  deriving DecidableEq, Repr

/-- What shall be read: a character is its bytes, the first one the lowest. -/
def Item.out : Item → Out
  | .char s => .key (BitVec.ofNat 32 (leNat s))
  | .alt s => .key (FFKEY_ALT ||| BitVec.ofNat 32 (leNat s))
  | .virt k m => .key (k.code ||| m.bits)
  | .paste text => .paste text

def streamBytes (items : List Item) : List Byte := (items.map Item.bytes).flatten

/-! ## The reading loop -/

/-- One round: what is read, and by how many bytes the data is shifted.  `none`: an error, or more
    data is needed. -/
def streamStep (U : Ffutf8) (data : List Byte) : Option (Out × Nat) :=
  let k := ffstdKeyParseUnix U data
  if k.ret = 0 ∨ k.ret = keyError then none
  else if k.ret = FFKEY_TEXT_PASTED then
    let r := ffstdPasteRead data
    if r.1 = 0 then none
    else r.2.map fun len => (.paste (pasteText data len), r.1.toNat)
  else k.read.map fun n => (.key k.ret, n)

/-- All rounds until the data is used up. -/
def decodeStream (U : Ffutf8) : Nat → List Byte → Option (List Out)
  | _, [] => some []
  | 0, _ :: _ => none
  | fuel + 1, b :: l =>
    match streamStep U (b :: l) with
    | none => none
    | some (o, n) => (decodeStream U fuel ((b :: l).drop n)).map (o :: ·)

theorem decodeStream_step {U : Ffutf8} {fuel : Nat} {data : List Byte} {o : Out} {n : Nat}
    (hdata : data ≠ []) (h : streamStep U data = some (o, n)) :
    decodeStream U (fuel + 1) data = (decodeStream U fuel (data.drop n)).map (o :: ·) := by
  cases data with
  | nil => exact absurd rfl hdata
  | cons b l => rw [decodeStream, h]

/-- What a run that comes to its end has done first. -/
theorem decodeStream_some {U : Ffutf8} {fuel : Nat} {data : List Byte} {outs : List Out}
    (hdata : data ≠ []) (h : decodeStream U fuel data = some outs) :
    ∃ fuel' o n outs', streamStep U data = some (o, n) ∧
      decodeStream U fuel' (data.drop n) = some outs' ∧ outs = o :: outs' ∧ fuel = fuel' + 1 := by
  cases data with
  | nil => exact absurd rfl hdata
  | cons b l =>
    cases fuel with
    | zero => cases h
    | succ fuel =>
      rw [decodeStream] at h
      cases hs : streamStep U (b :: l) with
      | none => rw [hs] at h; cases h
      | some r =>
        obtain ⟨o, n⟩ := r
        rw [hs] at h
        obtain ⟨outs', h1, h2⟩ := Option.map_eq_some_iff.mp h
        exact ⟨fuel, o, n, outs', rfl, h1, h2.symm, rfl⟩

theorem streamStep_key {U : Ffutf8} {data : List Byte} {key : BitVec 32} {n : Nat}
    (h : ffstdKeyParseUnix U data = ⟨key, some n⟩) (h0 : key ≠ 0) (h1 : key ≠ keyError)
    (h2 : key ≠ FFKEY_TEXT_PASTED) : streamStep U data = some (.key key, n) := by
  simp only [streamStep, h]
  rw [if_neg (not_or.mpr ⟨h0, h1⟩), if_neg h2]
  rfl

/-! ## Virtual keys -/

/-- The automaton behind `ESC`. -/
def escParse : List Byte → EscOut
  | [] => .more
  | c :: l =>
    if c = 0x4f then (escRun .ss3 l).shift
    else if c = 0x5b then (escRun .csi l).shift
    else .bad

/-- The escape sequences that the automaton knows, whatever comes behind them. -/
theorem parse_escape (U : Ffutf8) {l : List Byte} {key : BitVec 32} {n : Nat}
    (h : escParse l = .done key n) (rest : List Byte) :
    ffstdKeyParseUnix U (ESC :: l ++ rest) = ⟨key, some (1 + n)⟩ := by
  cases l with
  | nil => cases h
  | cons c l =>
    have hshift : ∀ {st}, (escRun st l).shift = .done key n →
        ∃ m, escRun st (l ++ rest) = .done key m ∧ n = m + 1 := by
      intro st h
      obtain ⟨m, hrun, hn⟩ := EscOut.shift_eq_done h
      exact ⟨m, escRun_done_append rest hrun, hn⟩
    rw [escParse] at h
    split at h
    · rename_i hc
      subst hc
      obtain ⟨m, hrun, rfl⟩ := hshift h
      have hm := parse_ss3 U (l ++ rest)
      rw [hrun] at hm
      rw [Nat.add_left_comm, Nat.add_comm m]
      exact hm
    · split at h
      · rename_i hc
        subst hc
        obtain ⟨m, hrun, rfl⟩ := hshift h
        have hm := parse_csi U (l ++ rest)
        rw [hrun] at hm
        rw [Nat.add_left_comm, Nat.add_comm m]
        exact hm
      · cases h

def VirtKey.all : List VirtKey :=
  [.del, .ins, .up, .down, .right, .left, .home, .end, .pgup, .pgdn, .f1, .f2, .f3, .f4, .f5, .f6, .f7,
    .f8, .f9, .f10, .f11, .f12]

theorem VirtKey.mem_all (k : VirtKey) : k ∈ VirtKey.all := by cases k <;> decide

/-- The sequence of every virtual key, with any modifiers, is known. -/
theorem escParse_virt (k : VirtKey) (m : Mods) :
    escParse (k.form.tail m) = .done (k.code ||| m.bits) (k.form.tail m).length ∧
      k.code ||| m.bits ≠ 0 ∧ k.code ||| m.bits ≠ keyError ∧
      k.code ||| m.bits ≠ FFKEY_TEXT_PASTED := by
  have hall : ∀ k ∈ VirtKey.all, ∀ c s a : Bool,
      escParse (k.form.tail ⟨c, s, a⟩) =
          .done (k.code ||| Mods.bits ⟨c, s, a⟩) (k.form.tail ⟨c, s, a⟩).length ∧
        k.code ||| Mods.bits ⟨c, s, a⟩ ≠ 0 ∧ k.code ||| Mods.bits ⟨c, s, a⟩ ≠ keyError ∧
        k.code ||| Mods.bits ⟨c, s, a⟩ ≠ FFKEY_TEXT_PASTED := by decide +kernel
  exact hall k k.mem_all m.ctrl m.shift m.alt

/-! ## The end of a pasted text -/

theorem ffsFindstr_eq {pat : List Byte} (hpat : pat ≠ []) : ∀ {l : List Byte} {i : Nat},
    (∀ j < i, ¬ pat <+: l.drop j) → pat <+: l.drop i → ffsFindstr pat l = some i
  | [], i, _, h => by
    rw [List.drop_nil] at h
    exact absurd (List.prefix_nil.mp h) hpat
  | b :: l, 0, _, h => by
    rw [List.drop_zero] at h
    rw [ffsFindstr, if_pos (List.isPrefixOf_iff_prefix.mpr h)]
  | b :: l, i + 1, hno, h => by
    have h0 : ¬ pat.isPrefixOf (b :: l) = true := by
      rw [List.isPrefixOf_iff_prefix]
      exact hno 0 (by omega)
    rw [ffsFindstr, if_neg h0, ffsFindstr_eq hpat (fun j hj => hno (j + 1) (by omega)) h]
    rfl

/-- The bytes at the front of data that starts with the end mark. -/
theorem pasteEnd_get {l : List Byte} (h : pasteEnd <+: l) {i : Nat} (hi : i < 6) :
    l[i]? = pasteEnd[i]? := by
  obtain ⟨t, rfl⟩ := h
  exact List.getElem?_append_left hi

theorem pasteEnd_esc {i : Nat} (h : pasteEnd[i]? = some ESC) : i = 0 := by
  match i, h with
  | 0, _ => rfl
  | 1, h | 2, h | 3, h | 4, h | 5, h => exact absurd h (by decide)
  | i + 6, h => cases h

/-- The end mark does not begin inside of the text: it holds `ESC` at its front only. -/
theorem no_early_end {text : List Byte} (htext : ¬ pasteEnd <:+: text) (rest : List Byte) {j : Nat}
    (hj : j < (pasteStart ++ text).length) :
    ¬ pasteEnd <+: (pasteStart ++ text ++ pasteEnd ++ rest).drop j := by
  intro h
  have hesc := pasteEnd_get h (show 0 < 6 by omega)
  have h4 := pasteEnd_get h (show 4 < 6 by omega)
  rw [List.getElem?_drop] at hesc h4
  by_cases hstart : j < 6
  · -- in the start mark
    have hs : ∀ i, i < 6 → (pasteStart ++ text ++ pasteEnd ++ rest)[i]? = pasteStart[i]? := by
      intro i hi
      rw [List.append_assoc, List.append_assoc]
      exact List.getElem?_append_left hi
    match j, hstart with
    | 0, _ =>
      rw [hs 4 (by omega)] at h4
      exact absurd h4 (by decide)
    | 1, _ | 2, _ | 3, _ | 4, _ | 5, _ =>
      rw [hs _ (by omega)] at hesc
      exact absurd hesc (by decide)
  · obtain ⟨k, rfl⟩ := Nat.exists_eq_add_of_le (Nat.le_of_not_lt hstart)
    have hk : k < text.length := by
      rw [List.length_append] at hj
      have : pasteStart.length = 6 := rfl
      omega
    have hdrop : (pasteStart ++ text ++ pasteEnd ++ rest).drop (6 + k) =
        text.drop k ++ (pasteEnd ++ rest) := by
      rw [List.append_assoc, List.append_assoc, ← List.drop_drop]
      show (text ++ (pasteEnd ++ rest)).drop k = _
      rw [List.drop_append_of_le_length (by omega)]
    rw [hdrop] at h
    by_cases hin : k + 6 ≤ text.length
    · -- in the text
      have hpre : pasteEnd <+: text.drop k := by
        apply List.prefix_of_prefix_length_le h (List.prefix_append _ _)
        rw [List.length_drop]
        have : pasteEnd.length = 6 := rfl
        omega
      exact htext (hpre.isInfix.trans (List.drop_suffix k text).isInfix)
    · -- across the end of the text
      have hlen : (text.drop k).length = text.length - k := List.length_drop
      have hq := pasteEnd_get h (show text.length - k < 6 by omega)
      rw [List.getElem?_append_right (by omega), hlen, Nat.sub_self] at hq
      have := pasteEnd_esc hq.symm
      omega

/-- The end mark is found behind the text, from every place in it. -/
theorem find_end {text : List Byte} (htext : ¬ pasteEnd <:+: text) (rest : List Byte) {k : Nat}
    (hk : k ≤ (pasteStart ++ text).length) :
    ffsFindstr pasteEnd ((pasteStart ++ text ++ pasteEnd).drop k ++ rest) =
      some ((pasteStart ++ text).length - k) := by
  have hdrop : (pasteStart ++ text ++ pasteEnd).drop k ++ rest =
      (pasteStart ++ text ++ pasteEnd ++ rest).drop k := by
    have hle : k ≤ (pasteStart ++ text ++ pasteEnd).length := by
      rw [List.length_append]
      omega
    exact (List.drop_append_of_le_length hle).symm
  rw [hdrop]
  refine ffsFindstr_eq (by decide) ?_ ?_
  · intro j hj
    rw [List.drop_drop]
    exact no_early_end htext rest (by omega)
  · rw [List.drop_drop, Nat.add_sub_cancel' hk, List.append_assoc, List.drop_left]
    exact List.prefix_append _ _

/-! ## One item -/

section Items

variable {U : Ffutf8}

/-- **A pasted text.**  The text is found, and the data is shifted by its length, with both marks,
    modulo `2^32`. -/
theorem streamStep_paste {text : List Byte} (htext : ¬ pasteEnd <:+: text) (rest : List Byte) :
    streamStep U (pasteStart ++ text ++ pasteEnd ++ rest) =
      if (text.length + 12) % 2 ^ 32 = 0 then none
      else some (.paste (text.take (text.length % 2 ^ 64)), (text.length + 12) % 2 ^ 32) := by
  have hparse : ffstdKeyParseUnix U (pasteStart ++ text ++ pasteEnd ++ rest) =
      ⟨FFKEY_TEXT_PASTED, some 6⟩ := by
    have := @parse_escape U [0x5b, 0x32, 0x30, 0x30, 0x7e] FFKEY_TEXT_PASTED 5 (by decide)
      (text ++ (pasteEnd ++ rest))
    rw [List.append_assoc, List.append_assoc]
    exact this
  have hfind := @find_end text htext rest 0 (by omega)
  have hlen : (pasteStart ++ text).length = text.length + 6 := by
    rw [List.length_append, Nat.add_comm]
    rfl
  rw [List.drop_zero, hlen, Nat.sub_zero] at hfind
  have hread : ffstdPasteRead (pasteStart ++ text ++ pasteEnd ++ rest) =
      (BitVec.ofNat 32 (text.length + 12), some (BitVec.ofNat 64 text.length)) := by
    have h64 : BitVec.ofNat 64 (text.length + 6) - 6 = BitVec.ofNat 64 text.length := by
      rw [BitVec.ofNat_add]
      exact BitVec.add_sub_cancel _ _
    rw [ffstdPasteRead, hfind]
    simp only
    rw [if_neg (by omega), h64]
  have htake : pasteText (pasteStart ++ text ++ pasteEnd ++ rest) (BitVec.ofNat 64 text.length) =
      text.take (text.length % 2 ^ 64) := by
    rw [pasteText, BitVec.toNat_ofNat, List.append_assoc, List.append_assoc]
    show (text ++ (pasteEnd ++ rest)).take _ = _
    exact List.take_append_of_le_length (Nat.mod_le _ _)
  have hzero : BitVec.ofNat 32 (text.length + 12) = 0 ↔ (text.length + 12) % 2 ^ 32 = 0 := by
    rw [← BitVec.toNat_inj, BitVec.toNat_ofNat]
    rfl
  simp only [streamStep, hparse, hread, hzero]
  rw [if_neg (by decide), if_pos trivial]
  split
  · rfl
  · rw [Option.map_some, htake, BitVec.toNat_ofNat]

/-- **Any other item.** -/
theorem streamStep_item {it : Item} (hit : it.OK U) (hpaste : ∀ text, it ≠ .paste text)
    (rest : List Byte) : streamStep U (it.bytes ++ rest) = some (it.out, it.bytes.length) := by
  cases it with
  | char s =>
    obtain ⟨hs, hlen, hnul, hesc⟩ := hit
    obtain ⟨herr, hzero, hpasted⟩ := charKey_ne hs hlen
    have hval := @keyChar_valid U s rest hs 4 (by omega) 0 0
    rw [zero_or, Nat.zero_add] at hval
    cases s with
    | nil => exact absurd rfl (U.valid_ne _ hs)
    | cons b bs =>
      have hb : b ≠ ESC := by
        rintro rfl
        exact hesc (Ffutf8.eq_of_ascii hs (by decide) rfl)
      exact streamStep_key ((parse_char U _ hb).trans hval) (hzero hnul) herr hpasted
  | alt s =>
    obtain ⟨hs, hlen, h1, h2, -⟩ := hit
    obtain ⟨herr, hzero, hpasted⟩ := altKey_ne hlen
    have hhead : (s ++ rest).head? = s.head? := List.head?_append_of_ne_nil _ (U.valid_ne s hs)
    have hval := @keyChar_valid U s rest hs 3 (by omega) FFKEY_ALT 1
    have hparse := parse_alt U (s ++ rest) (by rwa [hhead]) (by rwa [hhead])
    have hstep := streamStep_key (hparse.trans hval) hzero herr hpasted
    rw [Nat.add_comm] at hstep
    exact hstep
  | virt k m =>
    obtain ⟨hrun, h0, h1, h2⟩ := escParse_virt k m
    have hstep := streamStep_key (parse_escape U hrun rest) h0 h1 h2
    rw [Nat.add_comm] at hstep
    exact hstep
  | paste text => exact absurd rfl (hpaste text)

/-! ## Inside of a text -/

/-- A sequence of the automaton goes on behind no `'~'`. -/
theorem escStep_tilde (st st' : EscState) : escStep st 0x7e ≠ .goto st' := by
  have hfin : ∀ r, escFin r ≠ .goto st' := by
    intro r
    unfold escFin
    split <;> simp
  cases st with
  | tilde r => exact hfin r
  | tildeMod r => simp [escStep]
  | ss3 => simp [escStep, within]
  | ss3Mod r => simp [escStep, within]
  | csi => simp [escStep, within]
  | csi1 => simp [escStep, within]
  | csi1Semi => simp [escStep, within]
  | letter r => simp [escStep, within]
  | csi2 => exact hfin (FFKEY_INS &&& 0xff)
  | csi20 => exact hfin (FFKEY_F9 &&& 0xff)
  | paste => simp [escStep]
  | semi r => simp [escStep, within]

theorem escRun_tilde {key : BitVec 32} : ∀ {st : EscState} {l : List Byte} {n : Nat},
    escRun st l = .done key n → ∀ i, i + 1 < n → l[i]? ≠ some 0x7e
  | st, [], _, h => by cases h
  | st, b :: bs, n, h => by
    obtain ⟨b', bs', heq, ⟨-, rfl⟩ | ⟨st', m, hstep, hrun, rfl⟩⟩ := escRun_done_cases h
    · intro i hi
      omega
    · cases heq
      intro i hi
      cases i with
      | zero =>
        rintro h0
        simp only [List.getElem?_cons_zero, Option.some.injEq] at h0
        subst h0
        exact escStep_tilde st st' hstep
      | succ i => exact escRun_tilde hrun i (by omega)

/-- A `'~'` in data that starts with a character is this character, or comes behind it. -/
theorem char_tilde {s : List Byte} (hs : U.Valid s) (rest : List Byte) {i : Nat}
    (hi : i + 1 < s.length) : (s ++ rest)[i]? ≠ some 0x7e := by
  intro h
  rw [List.getElem?_append_left (by omega)] at h
  have := Ffutf8.eq_of_mem_ascii hs (by decide) (List.mem_of_getElem? h)
  rw [this, List.length_singleton] at hi
  omega

theorem keyChar_tilde {p : List Byte} {limit : Int} {key ret : BitVec 32} {skip n : Nat}
    (h : keyChar U p limit key skip = ⟨ret, some n⟩) :
    ∃ s rest, U.Valid s ∧ p = s ++ rest ∧ n = skip + s.length := by
  rcases U.cases p with ⟨s, rest, hs, rfl⟩ | ⟨s, -, -, -, hneg⟩ | ⟨hzero, -⟩
  · by_cases hlen : (s.length : Int) ≤ limit
    · rw [keyChar_valid rest hs hlen] at h
      cases h
      exact ⟨s, rest, hs, rfl, rfl⟩
    · rw [keyChar_long rest hs (by omega)] at h
      cases h
  · rw [keyChar_missing hneg] at h
    cases h
  · rw [keyChar_malformed hzero] at h
    cases h

theorem matches_tilde {f : KeyRes} {st : EscState} {l : List Byte} {a b : Byte} {ret : BitVec 32}
    {n : Nat} (hm : Matches f 2 (escRun st l)) (hf : f = ⟨ret, some n⟩) (hret : ret ≠ keyError)
    (ha : a ≠ 0x7e) (hb : b ≠ 0x7e) :
    1 ≤ n ∧ ∀ i, i + 1 < n → (a :: b :: l)[i]? ≠ some 0x7e := by
  cases hrun : escRun st l with
  | more => rw [hrun, hf] at hm; exact absurd hm hret
  | bad => rw [hrun, hf] at hm; exact absurd hm hret
  | done k m =>
    rw [hrun, hf] at hm
    have hn : n = 2 + m := by
      have := congrArg KeyRes.read hm
      simpa using this
    refine ⟨by omega, ?_⟩
    intro i hi
    match i with
    | 0 => simpa using ha
    | 1 => simpa using hb
    | i + 2 => exact escRun_tilde hrun i (by omega)

/-- **No key reaches over a `'~'`.** -/
theorem parse_tilde {data : List Byte} {ret : BitVec 32} {n : Nat}
    (h : ffstdKeyParseUnix U data = ⟨ret, some n⟩) (hret : ret ≠ keyError) :
    1 ≤ n ∧ ∀ i, i + 1 < n → data[i]? ≠ some 0x7e := by
  cases data with
  | nil => cases h
  | cons b l =>
    by_cases hb : b = ESC
    · subst hb
      cases l with
      | nil =>
        rw [parse_alt U [] (by simp) (by simp)] at h
        obtain ⟨s, rest, hs, hp, -⟩ := keyChar_tilde h
        exact absurd (List.append_eq_nil_iff.mp hp.symm).1 (U.valid_ne s hs)
      | cons c l =>
        by_cases h1 : c = 0x4f
        · subst h1
          exact matches_tilde (parse_ss3 U l) h hret (by decide) (by decide)
        · by_cases h2 : c = 0x5b
          · subst h2
            exact matches_tilde (parse_csi U l) h hret (by decide) (by decide)
          · rw [parse_alt U _ (by simpa using h1) (by simpa using h2)] at h
            obtain ⟨s, rest, hs, hp, rfl⟩ := keyChar_tilde h
            rw [hp]
            refine ⟨by omega, ?_⟩
            intro i hi
            cases i with
            | zero => exact fun h0 => absurd h0 (by simp [ESC])
            | succ i => exact char_tilde hs rest (by omega)
    · rw [parse_char U l hb] at h
      obtain ⟨s, rest, hs, hp, rfl⟩ := keyChar_tilde h
      have hpos := List.length_pos_iff.mpr (U.valid_ne s hs)
      rw [hp]
      exact ⟨by omega, fun i hi => char_tilde hs rest (by omega)⟩

theorem parse_ascii {b : Byte} (hb : b < 0x80) (hesc : b ≠ ESC) (l : List Byte) :
    (ffstdKeyParseUnix U (b :: l)).ret ≠ FFKEY_TEXT_PASTED := by
  have hs : U.Valid [b] := (U.ascii b).mpr hb
  have hval := @keyChar_valid U [b] l hs 4 (by simp) 0 0
  rw [zero_or] at hval
  rw [parse_char U l hesc]
  show (keyChar U ([b] ++ l) 4 0 0).ret ≠ _
  rw [hval]
  exact (charKey_ne hs (by simp)).2.2

/-- Behind the `ESC` of the end mark no text is pasted. -/
theorem endMark_not_pasted {j : Nat} (hj : 0 < j) (hj6 : j < 6) (rest : List Byte) :
    (ffstdKeyParseUnix U (pasteEnd.drop j ++ rest)).ret ≠ FFKEY_TEXT_PASTED := by
  intro h
  interval_cases j <;> exact parse_ascii (by decide) (by decide) _ h

/-- **A round that begins inside of a pasted text ends inside of it.** -/
theorem streamStep_inside {text : List Byte} (htext : ¬ pasteEnd <:+: text) {rest : List Byte}
    {k : Nat} (hk : k < (pasteStart ++ text ++ pasteEnd).length) {o : Out} {n : Nat}
    (h : streamStep U ((pasteStart ++ text ++ pasteEnd).drop k ++ rest) = some (o, n)) :
    1 ≤ n ∧ k + n ≤ (pasteStart ++ text ++ pasteEnd).length := by
  have hlen : (pasteStart ++ text ++ pasteEnd).length = (pasteStart ++ text).length + 6 := by
    rw [List.length_append]
    rfl
  simp only [streamStep] at h
  split at h
  · cases h
  · rename_i hkey
    split at h
    · -- `FFKEY_TEXT_PASTED`
      rename_i hpasted
      by_cases hin : k ≤ (pasteStart ++ text).length
      · have hfind := find_end htext rest hin
        rw [ffstdPasteRead, hfind] at h
        simp only at h
        split at h
        · rw [if_pos rfl] at h
          cases h
        · simp only at h
          split at h
          · cases h
          · rename_i hnz
            simp only [Option.map_some, Option.some.injEq, Prod.mk.injEq, BitVec.toNat_ofNat] at h
            have hne : ((pasteStart ++ text).length - k + 6) % 2 ^ 32 ≠ 0 := by
              intro hz
              refine hnz (BitVec.eq_of_toNat_eq ?_)
              rw [BitVec.toNat_ofNat, hz]
              rfl
            have hmod := Nat.mod_le ((pasteStart ++ text).length - k + 6) (2 ^ 32)
            omega
      · -- behind the `ESC` of the end mark
        exfalso
        obtain ⟨j, rfl⟩ := Nat.exists_eq_add_of_le (Nat.le_of_not_le hin)
        rw [List.drop_append, List.drop_of_length_le (Nat.le_add_right _ _), List.nil_append,
          Nat.add_sub_cancel_left] at hpasted
        exact endMark_not_pasted (by omega) (by omega) rest hpasted
    · obtain ⟨n', hread, heq⟩ := Option.map_eq_some_iff.mp h
      simp only [Prod.mk.injEq] at heq
      obtain ⟨-, rfl⟩ := heq
      cases hparse : ffstdKeyParseUnix U ((pasteStart ++ text ++ pasteEnd).drop k ++ rest) with
      | mk ret read =>
      rw [hparse] at hread hkey
      cases hread
      obtain ⟨h1, htilde⟩ := parse_tilde hparse (fun he => hkey (.inr he))
      refine ⟨h1, ?_⟩
      by_contra hover
      have hlast := htilde ((pasteStart ++ text).length + 5 - k) (by omega)
      apply hlast
      rw [List.getElem?_append_left (by rw [List.length_drop]; omega), List.getElem?_drop,
        Nat.add_sub_cancel' (by omega), List.getElem?_append_right (by omega),
        Nat.add_sub_cancel_left]
      rfl

theorem drop_append_ne_nil {s : List Byte} {k : Nat} (hk : k < s.length) (rest : List Byte) :
    s.drop k ++ rest ≠ [] := by
  intro hnil
  have hlen := List.drop_eq_nil_iff.mp (List.append_eq_nil_iff.mp hnil).1
  omega

/-- **Too few bytes skipped.**  From any place inside of a pasted text the loop fails, or puts out
    something more before it comes to the end of the text. -/
theorem decode_inside {text : List Byte} (htext : ¬ pasteEnd <:+: text) (rest : List Byte) :
    ∀ (fuel k : Nat) (outs : List Out), k < (pasteStart ++ text ++ pasteEnd).length →
      decodeStream U fuel ((pasteStart ++ text ++ pasteEnd).drop k ++ rest) = some outs →
      ∃ fuel' outs', decodeStream U fuel' rest = some outs' ∧ outs'.length < outs.length := by
  intro fuel
  induction fuel with
  | zero =>
    intro k outs hk h
    obtain ⟨_, _, _, _, _, _, _, hf⟩ := decodeStream_some (drop_append_ne_nil hk rest) h
    cases hf
  | succ fuel ih =>
    intro k outs hk h
    obtain ⟨fuel', o, n, outs', hstep, hrun, rfl, hf⟩ :=
      decodeStream_some (drop_append_ne_nil hk rest) h
    obtain rfl : fuel = fuel' := by omega
    obtain ⟨h1, hle⟩ := streamStep_inside htext hk hstep
    rw [List.drop_append_of_le_length (by rw [List.length_drop]; omega), List.drop_drop] at hrun
    by_cases hend : k + n < (pasteStart ++ text ++ pasteEnd).length
    · obtain ⟨fuel', outs'', hrest, hlt⟩ := ih (k + n) outs' hend hrun
      exact ⟨fuel', outs'', hrest, by rw [List.length_cons]; omega⟩
    · rw [List.drop_of_length_le (by omega), List.nil_append] at hrun
      exact ⟨fuel, outs', hrun, by simp⟩

/-! ## The stream -/

/-- The number of bytes of the text, with both marks, fits `ffuint`. -/
def Item.Short : Item → Prop
  | .paste text => text.length < 2 ^ 32 - 12
  | _ => True

theorem streamStep_short {it : Item} (hit : it.OK U) (hshort : it.Short) (rest : List Byte) :
    streamStep U (it.bytes ++ rest) = some (it.out, it.bytes.length) := by
  cases it with
  | paste text =>
    have hlen : text.length < 2 ^ 32 - 12 := hshort
    show streamStep U (pasteStart ++ text ++ pasteEnd ++ rest) = _
    have hmod : (text.length + 12) % 2 ^ 32 = text.length + 12 := Nat.mod_eq_of_lt (by omega)
    rw [streamStep_paste hit rest, hmod, if_neg (by omega), Nat.mod_eq_of_lt (by omega),
      List.take_length]
    have hbytes : (Item.bytes (.paste text)).length = text.length + 12 := by
      simp only [Item.bytes, List.length_append]
      show 6 + text.length + 6 = _
      omega
    rw [hbytes]
    rfl
  | char s => exact streamStep_item hit (by simp) rest
  | alt s => exact streamStep_item hit (by simp) rest
  | virt k m => exact streamStep_item hit (by simp) rest

theorem bytes_ne_nil {it : Item} (hit : it.OK U) : it.bytes ≠ [] := by
  cases it with
  | char s => exact U.valid_ne s hit.1
  | alt s => simp [Item.bytes]
  | virt k m => simp [Item.bytes]
  | paste text => simp [Item.bytes, pasteStart]

theorem streamBytes_cons (it : Item) (items : List Item) :
    streamBytes (it :: items) = it.bytes ++ streamBytes items := rfl

/-- Short texts are read back. -/
theorem decodeStream_short : ∀ (items : List Item) (fuel : Nat), (∀ it ∈ items, it.OK U) →
    (∀ it ∈ items, it.Short) → (streamBytes items).length ≤ fuel →
    decodeStream U fuel (streamBytes items) = some (items.map Item.out)
  | [], fuel, _, _, _ => by cases fuel <;> rfl
  | it :: items, fuel, hok, hshort, hfuel => by
    have hit := hok it List.mem_cons_self
    have hne := bytes_ne_nil hit
    have hpos := List.length_pos_iff.mpr hne
    rw [streamBytes_cons] at hfuel ⊢
    rw [List.length_append] at hfuel
    obtain ⟨fuel, rfl⟩ := Nat.exists_eq_add_of_le (show 1 ≤ fuel by omega)
    have hstep := streamStep_short hit (hshort it List.mem_cons_self) (streamBytes items)
    rw [Nat.add_comm, decodeStream_step (by simp [hne]) hstep, List.drop_left,
      decodeStream_short items fuel (fun x hx => hok x (List.mem_cons_of_mem it hx))
        (fun x hx => hshort x (List.mem_cons_of_mem it hx)) (by omega)]
    rfl

/-- A run to the end puts out at least as many keys and texts as were sent, and more if a text is
    too long. -/
theorem decodeStream_length : ∀ (items : List Item) (fuel : Nat) (outs : List Out),
    (∀ it ∈ items, it.OK U) → decodeStream U fuel (streamBytes items) = some outs →
    items.length ≤ outs.length ∧ ((∃ it ∈ items, ¬ it.Short) → items.length < outs.length)
  | [], _, _, _, _ => by simp
  | it :: items, fuel, outs, hok, h => by
    have hit := hok it List.mem_cons_self
    have hok' := fun x hx => hok x (List.mem_cons_of_mem it hx)
    have hne := bytes_ne_nil hit
    rw [streamBytes_cons] at h
    obtain ⟨fuel', o, n, outs', hstep, hrun, rfl, -⟩ := decodeStream_some (by simp [hne]) h
    by_cases hshort : it.Short
    · rw [streamStep_short hit hshort] at hstep
      cases hstep
      rw [List.drop_left] at hrun
      obtain ⟨h1, h2⟩ := decodeStream_length items fuel' outs' hok' hrun
      refine ⟨by simp only [List.length_cons]; omega, ?_⟩
      rintro ⟨x, hx, hlong⟩
      rcases List.mem_cons.mp hx with rfl | hx
      · exact absurd hshort hlong
      · have := h2 ⟨x, hx, hlong⟩
        simp only [List.length_cons]
        omega
    · cases it with
      | char s => exact absurd trivial hshort
      | alt s => exact absurd trivial hshort
      | virt k m => exact absurd trivial hshort
      | paste text =>
        have hlen : 2 ^ 32 - 12 ≤ text.length := Nat.le_of_not_lt hshort
        have hstep' := @streamStep_paste U text hit (streamBytes items)
        have hbytes : (pasteStart ++ text ++ pasteEnd).length = text.length + 12 := by
          simp only [List.length_append]
          show 6 + text.length + 6 = _
          omega
        rw [show Item.bytes (.paste text) = pasteStart ++ text ++ pasteEnd from rfl] at hstep hrun
        rw [hstep'] at hstep
        split at hstep
        · cases hstep
        · cases hstep
          have hlt := Nat.mod_lt (text.length + 12) (show 0 < 2 ^ 32 by omega)
          rw [List.drop_append_of_le_length (by omega)] at hrun
          obtain ⟨fuel'', outs'', hrest, hless⟩ := decode_inside hit _ fuel' _ outs' (by omega) hrun
          obtain ⟨h1, -⟩ := decodeStream_length items fuel'' outs'' hok' hrest
          simp only [List.length_cons]
          exact ⟨by omega, fun _ => by omega⟩

end Items

/-- **Terminal streams.**  For every list of items, the loop reads back exactly the keys and texts
    that were sent and uses up all bytes, if and only if every pasted text is shorter than
    `2^32 - 12` bytes. -/
theorem decodeStream_iff (U : Ffutf8) (items : List Item) (hok : ∀ it ∈ items, it.OK U) :
    (∃ fuel, decodeStream U fuel (streamBytes items) = some (items.map Item.out)) ↔
      ∀ text, Item.paste text ∈ items → text.length < 2 ^ 32 - 12 := by
  constructor
  · rintro ⟨fuel, h⟩ text htext
    by_contra hlong
    obtain ⟨-, hmore⟩ := decodeStream_length items fuel _ hok h
    have := hmore ⟨.paste text, htext, hlong⟩
    rw [List.length_map] at this
    omega
  · intro h
    refine ⟨(streamBytes items).length, decodeStream_short items _ hok ?_ (Nat.le_refl _)⟩
    intro it hit
    cases it with
    | paste text => exact h text hit
    | char s => trivial
    | alt s => trivial
    | virt k m => trivial

/-- `"Я"`, Alt+`"A"`, Ctrl+Up and a pasted `"text"`. -/
theorem decodeStream_four_items :
    ∃ fuel, decodeStream bitUtf8 fuel (streamBytes [.char [0xd0, 0xaf], .alt [0x41],
        .virt .up ⟨true, false, false⟩, .paste [0x74, 0x65, 0x78, 0x74]]) =
      some [.key 0xafd0, .key (FFKEY_ALT ||| 0x41), .key (FFKEY_UP ||| FFKEY_CTRL),
        .paste [0x74, 0x65, 0x78, 0x74]] := by
  have hok : ∀ it ∈ [Item.char [0xd0, 0xaf], .alt [0x41], .virt .up ⟨true, false, false⟩,
      .paste [0x74, 0x65, 0x78, 0x74]], it.OK bitUtf8 := by
    intro it hit
    simp only [List.mem_cons, List.not_mem_nil, or_false] at hit
    rcases hit with rfl | rfl | rfl | rfl
    · exact ⟨show bitValid _ = true by decide, by decide, by decide, by decide⟩
    · exact ⟨show bitValid _ = true by decide, by decide, by decide, by decide, by decide⟩
    · trivial
    · show ¬ pasteEnd <:+: _
      decide
  apply (decodeStream_iff bitUtf8 _ hok).mpr
  intro text htext
  simp only [List.mem_cons, reduceCtorEq, Item.paste.injEq, List.not_mem_nil, or_false,
    false_or] at htext
  subst htext
  decide

/-- A text of any length without an end mark. -/
theorem plainText (n : Nat) : ∃ text : List Byte, text.length = n ∧ ¬ pasteEnd <:+: text := by
  refine ⟨List.replicate n 0x61, List.length_replicate, ?_⟩
  intro hin
  have hesc := List.eq_of_mem_replicate (hin.subset (show ESC ∈ pasteEnd by decide))
  exact absurd hesc (by decide)

/-- A pasted text of `2^32 - 12` bytes: `ffstd_paste_read` returns 0. -/
theorem decodeStream_huge_paste :
    ¬ ∀ (U : Ffutf8) (items : List Item), (∀ it ∈ items, it.OK U) →
      ∃ fuel, decodeStream U fuel (streamBytes items) = some (items.map Item.out) := by
  intro h
  obtain ⟨text, hlen, htext⟩ := plainText (2 ^ 32 - 12)
  have hok : ∀ it ∈ [Item.paste text], it.OK bitUtf8 := by
    intro it hit
    rw [List.mem_singleton.mp hit]
    exact htext
  obtain ⟨fuel, hrun⟩ := h bitUtf8 [.paste text] hok
  have hbytes : streamBytes [.paste text] = pasteStart ++ text ++ pasteEnd ++ [] := rfl
  rw [hbytes] at hrun
  obtain ⟨_, o, n, _, hstep, -, -, -⟩ := decodeStream_some (by simp [pasteStart]) hrun
  rw [streamStep_paste htext, hlen, if_pos (by norm_num)] at hstep
  cases hstep

end FFSys.Std
