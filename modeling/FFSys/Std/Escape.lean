import Mathlib.Tactic.IntervalCases
import FFSys.Std.Key

/-!
# The escape sequences as an automaton

The comment before `ffstd_key_parse_unix` gives the sequences as a tree.  `escStep` is this tree,
one byte at a time, and `escRun` runs it on a byte string: a complete key, a sequence that is not
yet complete, or a byte that does not belong to any sequence.  The code looks at the window of
8 bytes instead.

* `keySs3_run`, `keyCsi_run` — the code returns the key of the automaton, and `-1` both for a wrong
  byte and for a missing one: a missing byte is a zero in the window, which is a wrong byte.
* `escRun_done_append`, `escRun_bad_append`, `escRun_live` — how a run goes on when more bytes
  come.
-/

set_option autoImplicit false

namespace FFSys.Std

open FFSys.Lib

/-- The nodes of the tree.  `r` is what is known of the key. -/
inductive EscState where
  | ss3
  | ss3Mod (r : BitVec 32)
  | csi
  | csi1
  | csi1Semi
  | letter (r : BitVec 32)
  | csi2
  | csi20
  | paste
  | tilde (r : BitVec 32)
  | semi (r : BitVec 32)
  | tildeMod (r : BitVec 32)
  deriving DecidableEq, Repr

inductive EscNext where
  | goto (st : EscState)
  | accept (key : BitVec 32)
  | reject
  deriving DecidableEq, Repr

/-- The bits of the modifier that the digit `b` stands for. -/
def modBits (b : Byte) : BitVec 32 := keyAt keysMod b 0x30 <<< 24

/-- A sequence is complete; those that stand for no key and no modifier are not accepted. -/
def escFin (r : BitVec 32) : EscNext := if r ≠ 0 then .accept (FFKEY_VIRT ||| r) else .reject

/-- After the digits of a key: the modifier or the end. -/
def tildeStep (r : BitVec 32) (b : Byte) : EscNext :=
  if b = 0x3b then .goto (.semi r)
  else if b = 0x7e then escFin r
  else .reject

def escStep : EscState → Byte → EscNext
  | .ss3, b =>
    if within 0x32 0x38 b then .goto (.ss3Mod (modBits b))
    else if within 0x50 0x53 b then escFin (FFKEY_F1 + BitVec.ofNat 32 b.toNat - 0x50)
    else .reject
  | .ss3Mod r, b =>
    if within 0x50 0x53 b then escFin (r ||| (FFKEY_F1 + BitVec.ofNat 32 b.toNat - 0x50))
    else .reject
  | .csi, b =>
    if b = 0x31 then .goto .csi1
    else if b = 0x32 then .goto .csi2
    else if within 0x33 0x36 b then .goto (.tilde (keyAt keys3x b 0x30))
    else if within 0x41 0x48 b then escFin (keyAt keys4x b 0x40)
    else .reject
  | .csi1, b =>
    if within 0x35 0x39 b then .goto (.tilde (keyAt keysF5F8 b 0x30))
    else if b = 0x3b then .goto .csi1Semi
    else .reject
  | .csi1Semi, b => if within 0x32 0x38 b then .goto (.letter (modBits b)) else .reject
  | .letter r, b => if within 0x41 0x48 b then escFin (r ||| keyAt keys4x b 0x40) else .reject
  | .csi2, b =>
    if b = 0x30 then .goto .csi20
    else if within 0x31 0x34 b then .goto (.tilde (keyAt keysF9F12 b 0x30))
    else tildeStep (FFKEY_INS &&& 0xff) b
  | .csi20, b =>
    if b = 0x30 ∨ b = 0x31 then .goto .paste
    else tildeStep (FFKEY_F9 &&& 0xff) b
  | .paste, b => if b = 0x7e then .accept FFKEY_TEXT_PASTED else .reject
  | .tilde r, b => tildeStep r b
  | .semi r, b => if within 0x32 0x38 b then .goto (.tildeMod (r ||| modBits b)) else .reject
  | .tildeMod r, b => if b = 0x7e then .accept (FFKEY_VIRT ||| r) else .reject

inductive EscOut where
  | done (key : BitVec 32) (n : Nat)
  | more
  | bad
  deriving DecidableEq, Repr

/-- One more byte was read. -/
def EscOut.shift : EscOut → EscOut
  | .done key n => .done key (n + 1)
  | .more => .more
  | .bad => .bad

def escRun : EscState → List Byte → EscOut
  | _, [] => .more
  | st, b :: bs =>
    match escStep st b with
    | .goto st' => (escRun st' bs).shift
    | .accept key => .done key 1
    | .reject => .bad

theorem EscOut.shift_eq_done {out : EscOut} {key : BitVec 32} {n : Nat}
    (h : out.shift = .done key n) : ∃ m, out = .done key m ∧ n = m + 1 := by
  cases out with
  | done k m =>
    cases h
    exact ⟨m, rfl, rfl⟩
  | more => cases h
  | bad => cases h

/-- The first step of a run that finds a key. -/
theorem escRun_done_cases {st : EscState} {l : List Byte} {key : BitVec 32} {n : Nat}
    (h : escRun st l = .done key n) :
    ∃ b bs, l = b :: bs ∧ ((escStep st b = .accept key ∧ n = 1) ∨
      ∃ st' m, escStep st b = .goto st' ∧ escRun st' bs = .done key m ∧ n = m + 1) := by
  cases l with
  | nil => cases h
  | cons b bs =>
    refine ⟨b, bs, rfl, ?_⟩
    rw [escRun] at h
    cases hb : escStep st b with
    | accept k =>
      rw [hb] at h
      cases h
      exact Or.inl ⟨rfl, rfl⟩
    | reject => rw [hb] at h; cases h
    | goto st' =>
      rw [hb] at h
      obtain ⟨m, hrun, hn⟩ := EscOut.shift_eq_done h
      exact Or.inr ⟨st', m, rfl, hrun, hn⟩

/-! ## Runs on longer data -/

theorem escRun_done_append {key : BitVec 32} (l' : List Byte) :
    ∀ {st : EscState} {l : List Byte} {n : Nat}, escRun st l = .done key n →
      escRun st (l ++ l') = .done key n
  | st, [], n, h => by cases h
  | st, b :: bs, n, h => by
    obtain ⟨b', bs', heq, ⟨hstep, rfl⟩ | ⟨st', m, hstep, hrun, rfl⟩⟩ := escRun_done_cases h
    · cases heq
      rw [List.cons_append, escRun, hstep]
    · cases heq
      rw [List.cons_append, escRun, hstep]
      simp only
      rw [escRun_done_append l' hrun]
      rfl

theorem escRun_bad_append (l' : List Byte) : ∀ {st : EscState} {l : List Byte},
    escRun st l = .bad → escRun st (l ++ l') = .bad
  | st, [], h => by cases h
  | st, b :: bs, h => by
    rw [escRun] at h
    rw [List.cons_append, escRun]
    cases hb : escStep st b with
    | accept k => rw [hb] at h; cases h
    | reject => rfl
    | goto st' =>
      rw [hb] at h
      simp only at h ⊢
      cases hrun : escRun st' bs with
      | more => rw [hrun] at h; cases h
      | done k m => rw [hrun] at h; cases h
      | bad => rw [escRun_bad_append l' hrun]; rfl

theorem escFin_of_ne {r : BitVec 32} (h : r ≠ 0) : escFin r = .accept (FFKEY_VIRT ||| r) := if_pos h

theorem zero_or (r : BitVec 32) : 0 ||| r = r := BitVec.zero_or

theorem or_ne_zero (r : BitVec 32) {x : BitVec 32} (h : x ≠ 0) : r ||| x ≠ 0 := by
  intro hor
  exact h (BitVec.or_eq_zero_iff.mp hor).2

/-- Every state has a sequence that completes it. -/
theorem escState_live (st : EscState) : ∃ b bs key n, escRun st (b :: bs) = .done key n := by
  cases st with
  | ss3 => exact ⟨0x50, [], _, _, rfl⟩
  | ss3Mod r =>
    refine ⟨0x50, [], FFKEY_VIRT ||| (r ||| FFKEY_F1), 1, ?_⟩
    have h := escFin_of_ne (or_ne_zero r (show FFKEY_F1 ≠ 0 by decide))
    rw [escRun, escStep, if_pos (by decide)]
    show (match escFin (r ||| FFKEY_F1) with | .goto st' => _ | .accept key => _ | .reject => _) = _
    rw [h]
  | csi => exact ⟨0x41, [], _, _, rfl⟩
  | csi1 => exact ⟨0x35, [0x7e], _, _, rfl⟩
  | csi1Semi => exact ⟨0x32, [0x41], _, _, rfl⟩
  | letter r =>
    refine ⟨0x41, [], FFKEY_VIRT ||| (r ||| (FFKEY_UP &&& 0xff)), 1, ?_⟩
    have h := escFin_of_ne (or_ne_zero r (show FFKEY_UP &&& 0xff ≠ 0 by decide))
    rw [escRun, escStep, if_pos (by decide)]
    show (match escFin (r ||| (FFKEY_UP &&& 0xff)) with
      | .goto st' => _ | .accept key => _ | .reject => _) = _
    rw [h]
  | csi2 => exact ⟨0x7e, [], _, _, rfl⟩
  | csi20 => exact ⟨0x7e, [], _, _, rfl⟩
  | paste => exact ⟨0x7e, [], _, _, rfl⟩
  | tilde r => exact ⟨0x3b, [0x32, 0x7e], _, _, rfl⟩
  | semi r => exact ⟨0x32, [0x7e], _, _, rfl⟩
  | tildeMod r => exact ⟨0x7e, [], _, _, rfl⟩

/-- A run that has not ended yet can be completed. -/
theorem escRun_live : ∀ {st : EscState} {l : List Byte}, escRun st l = .more →
    ∃ l' key n, l' ≠ [] ∧ escRun st (l ++ l') = .done key n
  | st, [], _ => by
    obtain ⟨b, bs, key, n, h⟩ := escState_live st
    exact ⟨b :: bs, key, n, by simp, h⟩
  | st, b :: bs, h => by
    rw [escRun] at h
    cases hb : escStep st b with
    | accept k => rw [hb] at h; cases h
    | reject => rw [hb] at h; cases h
    | goto st' =>
      rw [hb] at h
      simp only at h
      have hmore : escRun st' bs = .more := by
        cases hrun : escRun st' bs with
        | more => rfl
        | done k m => rw [hrun] at h; cases h
        | bad => rw [hrun] at h; cases h
      obtain ⟨l', key, n, hne, hdone⟩ := escRun_live hmore
      refine ⟨l', key, n + 1, hne, ?_⟩
      rw [List.cons_append, escRun, hb]
      simp only
      rw [hdone]
      rfl

/-! ## The code runs the automaton -/

/-- The code returns what the automaton finds in the bytes from `base` on. -/
def Matches (res : KeyRes) (base : Nat) : EscOut → Prop
  | .done key n => res = ⟨key, some (base + n)⟩
  | .more => res.ret = keyError
  | .bad => res.ret = keyError

theorem Matches.shift {res : KeyRes} {base : Nat} {out : EscOut} (h : Matches res (base + 1) out) :
    Matches res base out.shift := by
  cases out with
  | done key n =>
    show res = ⟨key, some (base + (n + 1))⟩
    rw [h, Nat.add_assoc, Nat.add_comm 1]
  | more => exact h
  | bad => exact h

/-- From `d[i]` on, the window holds `l`, and zeros behind it. -/
def Reads (d : Nat → Byte) (i : Nat) (l : List Byte) : Prop := ∀ j, i + j < 8 → d (i + j) = l.getD j 0

theorem Reads.tail {d : Nat → Byte} {i : Nat} {b : Byte} {l : List Byte} (h : Reads d i (b :: l)) :
    Reads d (i + 1) l := by
  intro j hj
  have := h (j + 1) (by omega)
  rwa [Nat.add_comm j, ← Nat.add_assoc, Nat.add_comm 1 j, List.getD_cons_succ] at this

theorem window_reads (a b : Byte) (l : List Byte) : Reads (window (a :: b :: l)) 2 l := by
  intro j hj
  unfold window
  rw [Nat.add_comm, List.take_succ_cons, List.take_succ_cons, List.getD_cons_succ,
    List.getD_cons_succ, List.getD_eq_getElem?_getD, List.getD_eq_getElem?_getD,
    List.getElem?_take_of_lt (by omega)]

/-- `fin` is the end of a sequence. -/
theorem keyFin_matches (r : BitVec 32) (i : Nat) (l : List Byte) :
    Matches (keyFin r i) i (match escFin r with
      | .goto st' => (escRun st' l).shift
      | .accept key => .done key 1
      | .reject => .bad) := by
  unfold keyFin escFin
  split
  · rfl
  · rfl

theorem within_iff {lo hi b : Byte} :
    within lo hi b = true ↔ lo.toNat ≤ b.toNat ∧ b.toNat ≤ hi.toNat := by
  simp [within, UInt8.le_iff_toNat_le]

theorem within_from_30 {b : Byte} (h : b ≠ 0x30) : within 0x30 0x34 b = within 0x31 0x34 b := by
  have hn : b.toNat ≠ 0x30 := fun hb => h (UInt8.toNat_inj.mp hb)
  rw [Bool.eq_iff_iff, within_iff, within_iff]
  show (0x30 ≤ b.toNat ∧ b.toNat ≤ 0x34) ↔ (0x31 ≤ b.toNat ∧ b.toNat ≤ 0x34)
  omega

theorem within_from_32 {b : Byte} (h : b ≠ 0x32) : within 0x32 0x36 b = within 0x33 0x36 b := by
  have hn : b.toNat ≠ 0x32 := fun hb => h (UInt8.toNat_inj.mp hb)
  rw [Bool.eq_iff_iff, within_iff, within_iff]
  show (0x32 ≤ b.toNat ∧ b.toNat ≤ 0x36) ↔ (0x33 ≤ b.toNat ∧ b.toNat ≤ 0x36)
  omega

theorem modBits_ne {b : Byte} (h : within 0x32 0x38 b = true) : modBits b ≠ 0 := by
  rw [within_iff] at h
  have h1 : 0x32 ≤ b.toNat := h.1
  have h2 : b.toNat ≤ 0x38 := h.2
  have hb : b = UInt8.ofNat b.toNat := by simp
  generalize b.toNat = n at *
  subst hb
  interval_cases n <;> decide

/-- `I_3b_or_7e` is the node `tilde`. -/
theorem key3b7e_run (d : Nat → Byte) (r : BitVec 32) (i : Nat) (l : List Byte)
    (hi : i + 2 < 8) (h : Reads d i l) : Matches (key3b7e d r i) i (escRun (.tilde r) l) := by
  have h0 : d i = l.getD 0 0 := h 0 (by omega)
  have h1 := h 1 (by omega)
  have h2 := h 2 (by omega)
  unfold key3b7e
  rw [h0, h1, h2]
  match l with
  | [] => exact rfl
  | b :: l =>
    rw [escRun, escStep, tildeStep]
    simp only [List.getD_cons_zero, List.getD_cons_succ]
    split
    · apply Matches.shift
      match l with
      | [] => exact rfl
      | m :: l =>
        rw [escRun, escStep]
        simp only [List.getD_cons_zero, List.getD_cons_succ]
        split
        · rename_i hm
          apply Matches.shift
          have hne : r ||| modBits m ≠ 0 := or_ne_zero r (modBits_ne hm)
          match l with
          | [] => exact rfl
          | e :: l =>
            rw [escRun, escStep]
            simp only [List.getD_cons_zero]
            split
            · show keyFin (r ||| modBits m) (i + 2) = _
              rw [keyFin, if_pos hne]
            · exact rfl
        · exact rfl
    · split
      · exact keyFin_matches r i l
      · exact rfl

/-- `I_41_48` is the node `letter`. -/
theorem key4148_run (d : Nat → Byte) (r : BitVec 32) (i : Nat) (l : List Byte)
    (hi : i < 8) (h : Reads d i l) : Matches (key4148 d r i) i (escRun (.letter r) l) := by
  have h0 : d i = l.getD 0 0 := h 0 hi
  unfold key4148
  rw [h0]
  match l with
  | [] => exact rfl
  | b :: l =>
    rw [escRun, escStep]
    simp only [List.getD_cons_zero]
    split
    · exact keyFin_matches _ i l
    · exact rfl

/-- `ESC O`. -/
theorem keySs3_run (d : Nat → Byte) (l : List Byte) (h : Reads d 2 l) :
    Matches (keySs3 d) 2 (escRun .ss3 l) := by
  have h0 : d 2 = l.getD 0 0 := h 0 (by omega)
  have h1 : d 3 = l.getD 1 0 := h 1 (by omega)
  unfold keySs3
  rw [h0, h1]
  match l with
  | [] => exact rfl
  | b :: l =>
    rw [escRun, escStep]
    simp only [List.getD_cons_zero, List.getD_cons_succ]
    split
    · apply Matches.shift
      match l with
      | [] => exact rfl
      | f :: l =>
        rw [escRun, escStep]
        simp only [List.getD_cons_zero]
        split
        · exact keyFin_matches _ 3 l
        · exact rfl
    · split
      · exact keyFin_matches _ 2 l
      · exact rfl

/-- `ESC [ 1`. -/
theorem keyCsi1_run (d : Nat → Byte) (l : List Byte) (hd : d 2 = 0x31) (h : Reads d 3 l) :
    Matches (keyCsi d) 3 (escRun .csi1 l) := by
  have h0 : d 3 = l.getD 0 0 := h 0 (by omega)
  have h1 : d 4 = l.getD 1 0 := h 1 (by omega)
  unfold keyCsi
  rw [if_pos hd, h0, h1]
  match l with
  | [] => exact rfl
  | b :: l =>
    rw [escRun, escStep]
    simp only [List.getD_cons_zero, List.getD_cons_succ]
    split
    · exact Matches.shift (key3b7e_run d _ 4 l (by omega) h.tail)
    · split
      · apply Matches.shift
        match l with
        | [] => exact rfl
        | m :: l =>
          rw [escRun, escStep]
          simp only [List.getD_cons_zero]
          split
          · exact Matches.shift (key4148_run d _ 5 l (by omega) h.tail.tail)
          · exact rfl
      · exact rfl

/-- `ESC [ 2 0` and a byte that does not belong to `200~` and `201~`. -/
theorem escRun_csi20 {b : Byte} (l : List Byte) (h : ¬ (b = 0x30 ∨ b = 0x31)) :
    escRun .csi20 (b :: l) = escRun (.tilde (FFKEY_F9 &&& 0xff)) (b :: l) := by
  rw [escRun, escStep, if_neg h, escRun, escStep]

/-- `ESC [ 2 0`. -/
theorem keyCsi20_run (d : Nat → Byte) (l : List Byte) (hd : d 2 = 0x32) (hd' : d 3 = 0x30)
    (h : Reads d 4 l) : Matches (keyCsi d) 4 (escRun .csi20 l) := by
  have h0 : d 4 = l.getD 0 0 := h 0 (by omega)
  have h1 : d 5 = l.getD 1 0 := h 1 (by omega)
  have hrest := key3b7e_run d (keyAt keysF9F12 (d 3) 0x30) 4 l (by omega) h
  unfold keyCsi
  rw [if_neg (by rw [hd]; decide), h0, h1]
  match l with
  | [] =>
    rw [if_neg (by simp), if_pos ⟨hd, by rw [hd']; decide⟩]
    exact hrest
  | b :: l =>
    simp only [List.getD_cons_zero, List.getD_cons_succ, hd, hd', true_and]
    rw [hd'] at hrest
    by_cases hb : b = 0x30 ∨ b = 0x31
    · -- the beginning of a paste
      rw [escRun, escStep, if_pos hb]
      have hbad : (key3b7e d (keyAt keysF9F12 0x30 0x30) 4).ret = keyError := by
        unfold key3b7e
        rw [h0]
        rcases hb with rfl | rfl
        · rfl
        · rfl
      apply Matches.shift
      match l with
      | [] =>
        rw [if_neg (by simp), if_pos (by decide)]
        exact hbad
      | e :: l =>
        rw [escRun, escStep]
        simp only [List.getD_cons_zero]
        split
        · rename_i he
          rw [if_pos he.2]
          rfl
        · rename_i he
          rw [if_neg (fun h => he ⟨hb, h⟩), if_pos (by decide)]
          exact hbad
    · rw [if_neg (fun h => hb h.1), if_pos (by decide), escRun_csi20 l hb]
      exact hrest

/-- `ESC [ 2`. -/
theorem keyCsi2_run (d : Nat → Byte) (l : List Byte) (hd : d 2 = 0x32) (h : Reads d 3 l) :
    Matches (keyCsi d) 3 (escRun .csi2 l) := by
  have h0 : d 3 = l.getD 0 0 := h 0 (by omega)
  match l with
  | [] =>
    have hrest := key3b7e_run d (keyAt keys3x (d 2) 0x30) 3 [] (by omega) h
    unfold keyCsi
    rw [if_neg (by rw [hd]; decide), if_neg (by rw [h0]; simp), if_neg (by rw [h0]; simp [within]),
      if_pos (by rw [hd]; decide)]
    exact hrest
  | b :: l =>
    rw [List.getD_cons_zero] at h0
    by_cases hb : b = 0x30
    · rw [escRun, escStep, if_pos hb]
      exact Matches.shift (keyCsi20_run d l hd (h0.trans hb) h.tail)
    · have hpaste : ¬ (d 2 = 0x32 ∧ d 3 = 0x30 ∧ (d 4 = 0x30 ∨ d 4 = 0x31) ∧ d 5 = 0x7e) := by
        rintro ⟨-, h3, -, -⟩
        exact hb (h0.symm.trans h3)
      unfold keyCsi
      rw [if_neg (by rw [hd]; decide), if_neg hpaste, escRun, escStep, if_neg hb]
      simp only [hd, h0, true_and, within_from_30 hb]
      split
      · exact Matches.shift (key3b7e_run d _ 4 l (by omega) h.tail)
      · rw [if_pos (by decide)]
        exact key3b7e_run d _ 3 (b :: l) (by omega) h

/-- `ESC [`. -/
theorem keyCsi_run (d : Nat → Byte) (l : List Byte) (h : Reads d 2 l) :
    Matches (keyCsi d) 2 (escRun .csi l) := by
  have h0 : d 2 = l.getD 0 0 := h 0 (by omega)
  match l with
  | [] =>
    unfold keyCsi key4148
    simp only [h0]
    exact rfl
  | b :: l =>
    rw [List.getD_cons_zero] at h0
    rw [escRun, escStep]
    by_cases hb1 : b = 0x31
    · rw [if_pos hb1]
      exact Matches.shift (keyCsi1_run d l (h0.trans hb1) h.tail)
    · rw [if_neg hb1]
      by_cases hb2 : b = 0x32
      · rw [if_pos hb2]
        exact Matches.shift (keyCsi2_run d l (h0.trans hb2) h.tail)
      · rw [if_neg hb2]
        unfold keyCsi
        simp only [h0, if_neg hb1, hb2, false_and, if_false, within_from_32 hb2]
        split
        · exact Matches.shift (key3b7e_run d _ 3 l (by omega) h.tail)
        · have hletter := key4148_run d 0 2 (b :: l) (by omega) h
          rw [escRun, escStep, zero_or] at hletter
          exact hletter

/-! ## The whole function -/

section Parse

variable (U : Ffutf8)

theorem parse_ss3 (l : List Byte) :
    Matches (ffstdKeyParseUnix U (ESC :: 0x4f :: l)) 2 (escRun .ss3 l) :=
  keySs3_run _ l (window_reads ESC 0x4f l)

theorem parse_csi (l : List Byte) :
    Matches (ffstdKeyParseUnix U (ESC :: 0x5b :: l)) 2 (escRun .csi l) :=
  keyCsi_run _ l (window_reads ESC 0x5b l)

/-- `ESC` and something else: a character with Alt. -/
theorem parse_alt (p : List Byte) (h1 : p.head? ≠ some 0x4f) (h2 : p.head? ≠ some 0x5b) :
    ffstdKeyParseUnix U (ESC :: p) = keyChar U p 3 FFKEY_ALT 1 := by
  have hd : window (ESC :: p) 1 ≠ 0x4f ∧ window (ESC :: p) 1 ≠ 0x5b := by
    cases p with
    | nil => decide
    | cons b l =>
      simp only [List.head?_cons, ne_eq, Option.some.injEq] at h1 h2
      exact ⟨h1, h2⟩
  show keyEscape U (ESC :: p) = _
  simp only [keyEscape]
  rw [if_neg hd.1, if_neg hd.2]
  rfl

theorem parse_char {b : Byte} (l : List Byte) (h : b ≠ ESC) :
    ffstdKeyParseUnix U (b :: l) = keyChar U (b :: l) 4 0 0 := by
  rw [ffstdKeyParseUnix, if_pos h]

variable {U}

/-- The code point is overwritten by the bytes of the character, up to its last non-zero byte. -/
theorem memCopy_code {s : List Byte} (hs : U.Valid s) :
    memCopy (U.code s) s = BitVec.ofNat 32 (leNat s) := by
  rw [memCopy, Nat.div_eq_of_lt (U.code_lt s hs), Nat.zero_mul, Nat.zero_add]

theorem keyChar_valid {s : List Byte} (rest : List Byte) (hs : U.Valid s) {limit : Int}
    (hlen : (s.length : Int) ≤ limit) (key : BitVec 32) (skip : Nat) :
    keyChar U (s ++ rest) limit key skip =
      ⟨key ||| BitVec.ofNat 32 (leNat s), some (skip + s.length)⟩ := by
  have hpos := List.length_pos_iff.mpr (U.valid_ne s hs)
  simp only [keyChar, U.decode_valid s rest hs]
  rw [if_neg (by omega), if_neg (by omega), Int.toNat_natCast, List.take_left' rfl, memCopy_code hs]

/-- A character that is too long for the key. -/
theorem keyChar_long {s : List Byte} (rest : List Byte) (hs : U.Valid s) {limit : Int}
    (hlen : limit < (s.length : Int)) (key : BitVec 32) (skip : Nat) :
    keyChar U (s ++ rest) limit key skip = ⟨keyError, none⟩ := by
  have hpos := List.length_pos_iff.mpr (U.valid_ne s hs)
  simp only [keyChar, U.decode_valid s rest hs]
  rw [if_neg (by omega), if_pos (by omega)]

theorem keyChar_missing {p : List Byte} (h : (U.decode p).1 < 0) (limit : Int) (key : BitVec 32)
    (skip : Nat) : keyChar U p limit key skip = ⟨0, none⟩ := by
  simp only [keyChar]
  rw [if_pos h]

theorem keyChar_malformed {p : List Byte} (h : (U.decode p).1 = 0) (limit : Int) (key : BitVec 32)
    (skip : Nat) : keyChar U p limit key skip = ⟨keyError, none⟩ := by
  simp only [keyChar]
  rw [if_neg (by omega), if_pos (.inl h)]

/-- The lowest byte of a character key is its first byte. -/
theorem leNat_mod {b : Byte} {bs : List Byte} : leNat (b :: bs) % 256 = b.toNat := by
  have := b.toNat_lt
  rw [leNat]
  omega

theorem leNat_small {s : List Byte} {n : Nat} (h : s.length ≤ n) : leNat s < 256 ^ n :=
  Nat.lt_of_lt_of_le (leNat_lt s) (Nat.pow_le_pow_right (by omega) h)

/-- A character key is no error code and no pasted text, and zero only for NUL. -/
theorem charKey_ne {s : List Byte} (hs : U.Valid s) (hlen : s.length ≤ 4) :
    BitVec.ofNat 32 (leNat s) ≠ keyError ∧ (s ≠ [0] → BitVec.ofNat 32 (leNat s) ≠ 0) ∧
      BitVec.ofNat 32 (leNat s) ≠ FFKEY_TEXT_PASTED := by
  have hlt : leNat s < 256 ^ 4 := leNat_small hlen
  have hval : (BitVec.ofNat 32 (leNat s)).toNat = leNat s := by
    rw [BitVec.toNat_ofNat]
    exact Nat.mod_eq_of_lt (by omega)
  cases s with
  | nil => exact absurd rfl (U.valid_ne _ hs)
  | cons b bs =>
    have hmod := @leNat_mod b bs
    have hff : b ≠ 0xff := by
      rintro rfl
      cases bs with
      | nil => exact absurd ((U.ascii _).mp hs) (by decide)
      | cons c cs => exact (U.high _ hs (by simp) _ List.mem_cons_self).2 rfl
    have hbyte : ∀ key : BitVec 32, BitVec.ofNat 32 (leNat (b :: bs)) = key →
        leNat (b :: bs) = key.toNat ∧ b.toNat = key.toNat % 256 := by
      rintro key rfl
      rw [hval]
      exact ⟨rfl, hmod.symm⟩
    refine ⟨?_, ?_, ?_⟩
    · intro heq
      exact hff (UInt8.toNat_inj.mp (hbyte _ heq).2)
    · intro hnul heq
      have hb : b = 0 := UInt8.toNat_inj.mp (hbyte _ heq).2
      exact hnul (Ffutf8.eq_of_ascii hs (by decide) (by rw [hb]; rfl))
    · intro heq
      have hb : b = 0x17 := UInt8.toNat_inj.mp (hbyte _ heq).2
      have hs' : b :: bs = [0x17] := Ffutf8.eq_of_ascii hs (by decide) (by rw [hb]; rfl)
      have h := (hbyte _ heq).1
      rw [hs'] at h
      exact absurd h (by decide)

/-- A character key with Alt is a key and not a pasted text. -/
theorem altKey_ne {s : List Byte} (hlen : s.length ≤ 3) :
    FFKEY_ALT ||| BitVec.ofNat 32 (leNat s) ≠ keyError ∧
      FFKEY_ALT ||| BitVec.ofNat 32 (leNat s) ≠ 0 ∧
      FFKEY_ALT ||| BitVec.ofNat 32 (leNat s) ≠ FFKEY_TEXT_PASTED := by
  have hlt : leNat s < 256 ^ 3 := leNat_small hlen
  have hbit : ∀ i, 24 ≤ i → (BitVec.ofNat 32 (leNat s)).getLsbD i = false := by
    intro i hi
    rw [BitVec.getLsbD_ofNat, Nat.testBit_lt_two_pow, Bool.and_false]
    calc leNat s < 256 ^ 3 := hlt
      _ = 2 ^ 24 := by norm_num
      _ ≤ 2 ^ i := Nat.pow_le_pow_right (by omega) hi
  refine ⟨?_, ?_, ?_⟩
  · intro h
    have := congrArg (BitVec.getLsbD · 27) h
    simp only [BitVec.getLsbD_or, hbit 27 (by omega)] at this
    revert this
    decide
  · intro h
    have := congrArg (BitVec.getLsbD · 26) h
    simp only [BitVec.getLsbD_or, hbit 26 (by omega)] at this
    revert this
    decide
  · intro h
    have := congrArg (BitVec.getLsbD · 27) h
    simp only [BitVec.getLsbD_or, hbit 27 (by omega)] at this
    revert this
    decide

end Parse

end FFSys.Std
