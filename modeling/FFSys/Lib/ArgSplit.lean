import Mathlib.Data.List.Basic
import Mathlib.Data.List.Infix

/-!
# Command lines

How a program on Windows splits its command line into arguments:

* arguments are separated by blanks (spaces and tabs) outside of quotes;
* a quote after an even number of backslashes begins or ends a quoted part, one after an odd number
  is a character of the argument; half of the backslashes stay;
* other backslashes are characters of the argument.

`splitArgs` is the decoder.  `splitFrom_read` reads text without quotes; `splitArgs_plain` and
`splitArgs_quoted` are the two ways to write one argument; `splitFrom_head` says that what the
argument has so far stays in it.
-/

set_option autoImplicit false

namespace FFSys.Lib

abbrev Unit16 := UInt16

def SPACE : Unit16 := 0x20

def TAB : Unit16 := 0x09

def QUOTE : Unit16 := 0x22

def BACKSLASH : Unit16 := 0x5c

def isBlank (c : Unit16) : Bool := c == SPACE || c == TAB

/-- The argument so far, with `n` backslashes at its end. -/
def withSlashes (n : Nat) (cur : Option (List Unit16)) : List Unit16 :=
  cur.getD [] ++ List.replicate n BACKSLASH

/-- The arguments from here on: in quotes or not, after `n` backslashes, with the argument so far. -/
def splitFrom : Bool → Nat → Option (List Unit16) → List Unit16 → List (List Unit16)
  | _, n, cur, [] => if n = 0 ∧ cur = none then [] else [withSlashes n cur]
  | quoted, n, cur, c :: rest =>
    if c = BACKSLASH then splitFrom quoted (n + 1) cur rest
    else if c = QUOTE then
      if n % 2 = 0 then splitFrom (!quoted) 0 (some (withSlashes (n / 2) cur)) rest
      else splitFrom quoted 0 (some (withSlashes (n / 2) cur ++ [QUOTE])) rest
    else if !quoted && isBlank c then
      if n = 0 ∧ cur = none then splitFrom false 0 none rest
      else withSlashes n cur :: splitFrom false 0 none rest
    else splitFrom quoted 0 (some (withSlashes n cur ++ [c])) rest

/-- The arguments of a command line. -/
def splitArgs (line : List Unit16) : List (List Unit16) := splitFrom false 0 none line

/-! ## Reading text -/

/-- Characters that only lengthen the argument. -/
def PlainText (quoted : Bool) (u : List Unit16) : Prop :=
  ∀ c ∈ u, c ≠ QUOTE ∧ (quoted = false → isBlank c = false)

/-- The backslashes at the end are all counted. -/
def Counted (cur : Option (List Unit16)) : Prop := (cur.getD []).getLast? ≠ some BACKSLASH

/-- **Reading plain text** lengthens the argument by it. -/
theorem splitFrom_read {quoted : Bool} (rest : List Unit16) (u : List Unit16) :
    ∀ (n : Nat) (cur : Option (List Unit16)),
    PlainText quoted u → Counted cur → ∃ n' cur',
      splitFrom quoted n cur (u ++ rest) = splitFrom quoted n' cur' rest ∧
      withSlashes n' cur' = withSlashes n cur ++ u ∧ Counted cur' ∧
      (u ≠ [] ∨ ¬ (n = 0 ∧ cur = none) → ¬ (n' = 0 ∧ cur' = none)) := by
  induction u with
  | nil => exact fun n cur _ hcount =>
    ⟨n, cur, rfl, by simp, hcount, fun h => h.resolve_left (by simp)⟩
  | cons c u ih =>
    intro n cur hu hcount
    have hu' : PlainText quoted u := fun d hd => hu d (List.mem_cons_of_mem _ hd)
    obtain ⟨hquote, hblank⟩ := hu c List.mem_cons_self
    rw [List.cons_append, splitFrom]
    by_cases hc : c = BACKSLASH
    · obtain ⟨n', cur', hsplit, htext, hcount', hstart⟩ := ih (n + 1) cur hu' hcount
      refine ⟨n', cur', by rw [if_pos hc, hsplit], ?_, hcount', fun _ => hstart (Or.inr (by simp))⟩
      rw [htext, withSlashes, withSlashes, hc, List.replicate_succ']
      simp
    · have hno : (!quoted && isBlank c) = false := by
        cases quoted with
        | true => rfl
        | false => rw [hblank rfl]; rfl
      obtain ⟨n', cur', hsplit, htext, hcount', hstart⟩ :=
        ih 0 (some (withSlashes n cur ++ [c])) hu' (by
        simpa [Counted] using hc)
      refine ⟨n', cur', ?_, ?_, hcount', fun _ => hstart (Or.inr (by simp))⟩
      · rw [if_neg hc, if_neg hquote, hno, hsplit]
        rfl
      · rw [htext]
        simp [withSlashes]

/-- Without backslashes at its end the text is all in the argument. -/
theorem counted_zero {n : Nat} {cur : Option (List Unit16)} {u : List Unit16}
    (htext : withSlashes n cur = u) (hlast : u.getLast? ≠ some BACKSLASH) : n = 0 := by
  by_contra hn
  obtain ⟨k, rfl⟩ : ∃ k, n = k + 1 := ⟨n - 1, by omega⟩
  refine hlast ?_
  rw [← htext, withSlashes, List.replicate_succ', ← List.append_assoc, List.getLast?_concat]

/-! ## One argument -/

/-- What comes after an argument: nothing, or a space and more. -/
def afterArg (rest : Option (List Unit16)) : List Unit16 :=
  match rest with
  | none => []
  | some line => SPACE :: line

def argsOf (rest : Option (List Unit16)) : List (List Unit16) :=
  match rest with
  | none => []
  | some line => splitArgs line

theorem blank_ne {c : Unit16} (hc : isBlank c = true) : c ≠ BACKSLASH ∧ c ≠ QUOTE := by
  refine ⟨?_, ?_⟩
  · rintro rfl
    cases hc
  · rintro rfl
    cases hc

/-- A blank ends an argument outside of quotes. -/
theorem splitFrom_blank {n : Nat} {cur : Option (List Unit16)} (h : ¬ (n = 0 ∧ cur = none))
    {c : Unit16} (hc : isBlank c = true) (line : List Unit16) :
    splitFrom false n cur (c :: line) = withSlashes n cur :: splitArgs line := by
  obtain ⟨hslash, hquote⟩ := blank_ne hc
  rw [splitFrom, if_neg hslash, if_neg hquote, hc, Bool.not_false, Bool.true_and, if_pos rfl,
    if_neg h]
  rfl

theorem splitFrom_end {n : Nat} {cur : Option (List Unit16)} (h : ¬ (n = 0 ∧ cur = none))
    (rest : Option (List Unit16)) :
    splitFrom false n cur (afterArg rest) = withSlashes n cur :: argsOf rest := by
  cases rest with
  | none =>
    rw [afterArg, splitFrom, if_neg h]
    rfl
  | some line => exact splitFrom_blank h rfl line

/-- Plain text up to a blank is an argument. -/
theorem splitArgs_plain_blank {u : List Unit16} (hne : u ≠ []) (hu : PlainText false u) {c : Unit16}
    (hc : isBlank c = true) (line : List Unit16) :
    splitArgs (u ++ c :: line) = u :: splitArgs line := by
  obtain ⟨n, cur, hsplit, htext, -, hstart⟩ :=
    splitFrom_read (c :: line) u 0 none hu (by simp [Counted])
  rw [splitArgs, hsplit, splitFrom_blank (hstart (Or.inl hne)) hc, htext]
  rfl

/-- **A plain argument** stands for itself. -/
theorem splitArgs_plain {u : List Unit16} (hne : u ≠ []) (hu : PlainText false u)
    (rest : Option (List Unit16)) :
    splitArgs (u ++ afterArg rest) = u :: argsOf rest := by
  obtain ⟨n, cur, hsplit, htext, -, hstart⟩ :=
    splitFrom_read (afterArg rest) u 0 none hu (by simp [Counted])
  rw [splitArgs, hsplit, splitFrom_end (hstart (Or.inl hne)), htext]
  rfl

theorem splitFrom_quote (quoted : Bool) {n : Nat} (h : n % 2 = 0) (cur : Option (List Unit16))
    (rest : List Unit16) :
    splitFrom quoted n cur (QUOTE :: rest) =
      splitFrom (!quoted) 0 (some (withSlashes (n / 2) cur)) rest := by
  rw [splitFrom, if_neg (by decide), if_pos rfl, if_pos h]

theorem splitFrom_literal (quoted : Bool) {n : Nat} (h : n % 2 ≠ 0) (cur : Option (List Unit16))
    (rest : List Unit16) :
    splitFrom quoted n cur (QUOTE :: rest) =
      splitFrom quoted 0 (some (withSlashes (n / 2) cur ++ [QUOTE])) rest := by
  rw [splitFrom, if_neg (by decide), if_pos rfl, if_neg h]

/-- Text after an opening quote. -/
theorem splitArgs_open {u : List Unit16} (hu : QUOTE ∉ u) (rest : List Unit16) : ∃ n cur,
    splitArgs (QUOTE :: u ++ rest) = splitFrom true n cur rest ∧
      withSlashes n cur = u ∧ Counted cur := by
  have hplain : PlainText true u := fun c hc => ⟨fun heq => hu (heq ▸ hc), fun h => by cases h⟩
  have hopen : splitArgs (QUOTE :: (u ++ rest)) = splitFrom true 0 (some []) (u ++ rest) :=
    splitFrom_quote false rfl none _
  obtain ⟨n, cur, hsplit, htext, hcount, -⟩ :=
    splitFrom_read rest u 0 (some []) hplain (by simp [Counted])
  exact ⟨n, cur, by rw [List.cons_append, hopen, hsplit], htext, hcount⟩

/-- **An argument in quotes** stands for what is between them, if that does not end with a
    backslash. -/
theorem splitArgs_quoted {u : List Unit16} (hu : QUOTE ∉ u) (hlast : u.getLast? ≠ some BACKSLASH)
    (rest : Option (List Unit16)) :
    splitArgs (QUOTE :: u ++ QUOTE :: afterArg rest) = u :: argsOf rest := by
  obtain ⟨n, cur, hsplit, htext, -⟩ := splitArgs_open hu (QUOTE :: afterArg rest)
  have hn : n = 0 := counted_zero htext hlast
  rw [hn] at hsplit htext
  have hclose : splitFrom true 0 cur (QUOTE :: afterArg rest) =
      splitFrom false 0 (some (withSlashes 0 cur)) (afterArg rest) := splitFrom_quote true rfl cur _
  rw [hsplit, hclose, htext, splitFrom_end (by simp)]
  simp [withSlashes]

/-! ## The first argument -/

/-- **What the argument has so far stays in it.** -/
theorem splitFrom_head (line : List Unit16) : ∀ (quoted : Bool) (n : Nat) (t : List Unit16),
    ∃ t' ts, splitFrom quoted n (some t) line = t' :: ts ∧ t <+: t' := by
  have hpre (n : Nat) (t : List Unit16) : t <+: withSlashes n (some t) := List.prefix_append _ _
  induction line with
  | nil =>
    intro quoted n t
    exact ⟨withSlashes n (some t), [], by simp [splitFrom], hpre n t⟩
  | cons c line ih =>
    intro quoted n t
    rw [splitFrom]
    split
    · exact ih quoted (n + 1) t
    · split
      · split
        · obtain ⟨t', ts, h, hle⟩ := ih (!quoted) 0 (withSlashes (n / 2) (some t))
          exact ⟨t', ts, h, (hpre _ t).trans hle⟩
        · obtain ⟨t', ts, h, hle⟩ := ih quoted 0 (withSlashes (n / 2) (some t) ++ [QUOTE])
          exact ⟨t', ts, h, ((hpre _ t).trans (List.prefix_append _ _)).trans hle⟩
      · split
        · rw [if_neg (by simp)]
          exact ⟨_, _, rfl, hpre n t⟩
        · obtain ⟨t', ts, h, hle⟩ := ih quoted 0 (withSlashes n (some t) ++ [c])
          exact ⟨t', ts, h, ((hpre n t).trans (List.prefix_append _ _)).trans hle⟩

/-- An argument that begins with backslashes begins with one, or with a quote that is a character. -/
theorem splitFrom_slashes (line : List Unit16) : ∀ (quoted : Bool) (n : Nat), 0 < n →
    ∃ t ts, splitFrom quoted n none line = t :: ts ∧
      (t.head? = some BACKSLASH ∨ t.head? = some QUOTE) := by
  have hslashes (n : Nat) (hn : 0 < n) (t : List Unit16) :
      (withSlashes n none ++ t).head? = some BACKSLASH := by
    obtain ⟨k, rfl⟩ : ∃ k, n = k + 1 := ⟨n - 1, by omega⟩
    rfl
  have hhead {t t' : List Unit16} {d : Unit16} (ht : t.head? = some d) (hle : t <+: t') :
      t'.head? = some d := by
    obtain ⟨s, rfl⟩ := hle
    rw [List.head?_append, ht]
    rfl
  induction line with
  | nil =>
    intro quoted n hn
    refine ⟨withSlashes n none, [], ?_, Or.inl ?_⟩
    · rw [splitFrom, if_neg (by omega)]
    · simpa using hslashes n hn []
  | cons c line ih =>
    intro quoted n hn
    rw [splitFrom]
    split
    · exact ih quoted (n + 1) (by omega)
    · split
      · split
        · obtain ⟨t', ts, h, hle⟩ := splitFrom_head line (!quoted) 0 (withSlashes (n / 2) none)
          have hfirst := hslashes (n / 2) (by omega) []
          rw [List.append_nil] at hfirst
          exact ⟨t', ts, h, Or.inl (hhead hfirst hle)⟩
        · obtain ⟨t', ts, h, hle⟩ :=
            splitFrom_head line quoted 0 (withSlashes (n / 2) none ++ [QUOTE])
          refine ⟨t', ts, h, ?_⟩
          rcases Nat.eq_zero_or_pos (n / 2) with h0 | hpos
          · refine Or.inr (hhead ?_ hle)
            rw [h0]
            rfl
          · exact Or.inl (hhead (hslashes _ hpos _) hle)
      · split
        · rw [if_neg (by omega)]
          refine ⟨_, _, rfl, Or.inl ?_⟩
          simpa using hslashes n hn []
        · obtain ⟨t', ts, h, hle⟩ := splitFrom_head line quoted 0 (withSlashes n none ++ [c])
          exact ⟨t', ts, h, Or.inl (hhead (hslashes n hn _) hle)⟩

/-- A first character that is no blank and no quote is not the end of the first argument, and no
    blank begins it. -/
theorem splitArgs_start {c : Unit16} (hc : isBlank c = false) (hquote : c ≠ QUOTE)
    (line : List Unit16) :
    ∃ t ts, splitArgs (c :: line) = t :: ts ∧ ∃ d, t.head? = some d ∧ isBlank d = false := by
  rw [splitArgs, splitFrom]
  by_cases hslash : c = BACKSLASH
  · rw [if_pos hslash]
    obtain ⟨t, ts, h, hfirst⟩ := splitFrom_slashes line false 1 (by omega)
    refine ⟨t, ts, h, ?_⟩
    rcases hfirst with hfirst | hfirst
    · exact ⟨_, hfirst, rfl⟩
    · exact ⟨_, hfirst, rfl⟩
  · rw [if_neg hslash, if_neg hquote, hc]
    obtain ⟨t, ts, h, s, hs⟩ := splitFrom_head line false 0 [c]
    exact ⟨t, ts, h, c, by rw [← hs]; rfl, hc⟩

/-- A blank at the start is skipped. -/
theorem splitArgs_blank {c : Unit16} (hc : isBlank c = true) (line : List Unit16) :
    splitArgs (c :: line) = splitArgs line := by
  obtain ⟨hslash, hquote⟩ := blank_ne hc
  rw [splitArgs, splitFrom, if_neg hslash, if_neg hquote, hc]
  rfl

/-- A space after an opening quote is in the first argument. -/
theorem splitArgs_open_space {u : List Unit16} (hu : QUOTE ∉ u) (hspace : SPACE ∈ u)
    (rest : List Unit16) :
    ∃ t ts, splitArgs (QUOTE :: u ++ rest) = t :: ts ∧ SPACE ∈ t := by
  obtain ⟨n, cur, hsplit, htext, -⟩ := splitArgs_open hu rest
  rw [← htext, withSlashes, List.mem_append] at hspace
  have hmem : SPACE ∈ cur.getD [] := by
    refine hspace.resolve_right fun h => ?_
    cases List.eq_of_mem_replicate h
  cases cur with
  | none => cases hmem
  | some t0 =>
    obtain ⟨t, ts, h, hle⟩ := splitFrom_head rest true n t0
    exact ⟨t, ts, hsplit.trans h, hle.subset hmem⟩

/-- **Backslashes before a closing quote** are not all in the argument, or the quote is. -/
theorem splitArgs_quoted_slash {u : List Unit16} (hu : QUOTE ∉ u)
    (hlast : u.getLast? = some BACKSLASH) (rest : Option (List Unit16)) :
    ∃ t ts, splitArgs (QUOTE :: u ++ QUOTE :: afterArg rest) = t :: ts ∧ t ≠ u := by
  obtain ⟨n, cur, hsplit, htext, hcount⟩ := splitArgs_open hu (QUOTE :: afterArg rest)
  have hn : n ≠ 0 := by
    rintro rfl
    rw [withSlashes, List.replicate_zero, List.append_nil] at htext
    exact hcount (htext ▸ hlast)
  rw [hsplit]
  rcases Nat.eq_zero_or_pos (n % 2) with heven | hodd
  · refine ⟨withSlashes (n / 2) cur, argsOf rest, ?_, fun heq => ?_⟩
    · rw [splitFrom_quote true heven, Bool.not_true, splitFrom_end (by simp)]
      simp [withSlashes]
    · have hlen := congrArg List.length (heq.trans htext.symm)
      simp only [withSlashes, List.length_append, List.length_replicate] at hlen
      omega
  · obtain ⟨t, ts, h, hle⟩ :=
      splitFrom_head (afterArg rest) true 0 (withSlashes (n / 2) cur ++ [QUOTE])
    refine ⟨t, ts, by rw [splitFrom_literal true (by omega), h], ?_⟩
    rintro rfl
    exact hu (hle.subset (by simp))

end FFSys.Lib
