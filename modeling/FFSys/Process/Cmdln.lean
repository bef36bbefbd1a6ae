import FFSys.Lib.ArgSplit
import FFSys.Lib.Cuts
import FFSys.Lib.Unicode

/-!
# Command lines for new processes

`_ffargv_to_cmdln` makes one string out of the arguments of a process, for `CreateProcessW`.

* `ffargvToCmdln` — the function; a store outside of the allocated buffer is `none`.
* `joinArgs` — the string it makes: arguments with a space are in quotes.
* `SplitsBack` — arguments that a program gets back as they are; an argument that is empty, one with
  tabs but no spaces and one with spaces and a backslash at its end are not.
* `ffargvToCmdln_splits_iff` — the buffer is large enough, and the program gets the arguments
  exactly if all of them are of that kind.
-/

set_option autoImplicit false

namespace FFSys.Process

open FFSys.Lib

/-! ## The function -/

section Functions

variable (utow : List UInt8 → Option (List UInt16))

/-- The first loop: `ffsz_utow` counts the terminator, and each argument has room for two quotes and
    a space. -/
def cmdlnCap : Nat → List (List UInt8) → Option Nat
  | cap, [] => some cap
  | cap, arg :: argv =>
    match utow arg with
    | none => none
    | some w => cmdlnCap (cap + (w.length + 1) + 3) argv

/-- `args[k++] = c`, in a buffer of `cap + 1` characters with `k` in use. -/
def put (cap : Nat) (buf : List UInt16) (c : UInt16) : Option (List UInt16) :=
  if buf.length < cap + 1 then some (buf ++ [c]) else none

/-- `k += ffsz_utow(&args[k], cap - k, arg) - 1`; the code relies on the text to fit. -/
def putText (cap : Nat) (buf : List UInt16) (arg : List UInt8) : Option (List UInt16) :=
  match utow arg with
  | none => none
  | some w => if buf.length + w.length + 1 ≤ cap then some (buf ++ w) else none

def putArg (cap : Nat) (buf : List UInt16) (arg : List UInt8) : Option (List UInt16) :=
  let hasSpace := arg.contains 0x20
  (if hasSpace then put cap buf QUOTE else some buf).bind fun buf =>
  (putText utow cap buf arg).bind fun buf =>
  (if hasSpace then put cap buf QUOTE else some buf).bind fun buf =>
  put cap buf SPACE

/-- The second loop: `some none` is NULL, for an argument with a double quote. -/
def putArgs (cap : Nat) : List UInt16 → List (List UInt8) → Option (Option (List UInt16))
  | buf, [] => some (some buf)
  | buf, arg :: argv =>
    if arg.contains 0x22 then some none
    else (putArg utow cap buf arg).bind fun buf => putArgs cap buf argv

/-- `_ffargv_to_cmdln`: NULL, or the buffer with the string and its terminator. -/
def ffargvToCmdln (alloc : Nat → Bool) (argv : List (List UInt8)) : Option (Option (List UInt16)) :=
  match cmdlnCap utow 1 argv with
  | none => some none
  | some cap =>
    if alloc ((cap + 1) * 2) then
      (putArgs utow cap [] argv).bind fun
        | none => some none
        | some buf => (put cap (if buf = [] then buf else buf.dropLast) 0).map some
    else some none

end Functions

/-! ## The string -/

/-- An argument with a space is in quotes. -/
def quoteArg (u : List UInt16) : List UInt16 := if SPACE ∈ u then QUOTE :: u ++ [QUOTE] else u

/-- The arguments with spaces between them. -/
def joinArgs : List (List UInt16) → Option (List UInt16)
  | [] => none
  | u :: us => some (quoteArg u ++ afterArg (joinArgs us))

/-- What the decoder gives back as it is. -/
def GoodArg (u : List UInt16) : Prop :=
  u ≠ [] ∧ (TAB ∈ u → SPACE ∈ u) ∧ (SPACE ∈ u → u.getLast? ≠ some BACKSLASH)

/-- An argument that the first one of a joined line can be. -/
def Solid (t : List UInt16) : Prop := SPACE ∈ t ∨ ∃ d, t.head? = some d ∧ isBlank d = false

theorem plainText_of {u : List UInt16} (hquote : QUOTE ∉ u) (hspace : SPACE ∉ u) (htab : TAB ∉ u) :
    PlainText false u := by
  intro c hc
  refine ⟨fun heq => hquote (heq ▸ hc), fun _ => ?_⟩
  have h1 : c ≠ SPACE := fun heq => hspace (heq ▸ hc)
  have h2 : c ≠ TAB := fun heq => htab (heq ▸ hc)
  simp [isBlank, h1, h2]

/-- **A good argument comes back**, and the others after it. -/
theorem good_argsOf {u : List UInt16} (hquote : QUOTE ∉ u) (hu : GoodArg u)
    (us : List (List UInt16)) :
    argsOf (joinArgs (u :: us)) = u :: argsOf (joinArgs us) := by
  obtain ⟨hne, htab, hlast⟩ := hu
  rw [joinArgs, argsOf, quoteArg]
  by_cases hspace : SPACE ∈ u
  · have hquoted := splitArgs_quoted hquote (hlast hspace) (joinArgs us)
    rw [if_pos hspace, List.append_assoc]
    exact hquoted
  · rw [if_neg hspace]
    exact splitArgs_plain hne (plainText_of hquote hspace fun h => hspace (htab h)) (joinArgs us)

/-- Text without quotes and spaces before the rest of a line. -/
theorem solid_append {rest : Option (List UInt16)} (hrest : ∀ t ts, argsOf rest = t :: ts → Solid t)
    (u : List UInt16) :
    QUOTE ∉ u → ∀ t ts, splitArgs (u ++ afterArg rest) = t :: ts → Solid t := by
  induction u with
  | nil =>
    intro _ t ts h
    cases rest with
    | none => cases h
    | some line =>
      rw [List.nil_append, afterArg, splitArgs_blank rfl] at h
      exact hrest t ts h
  | cons c u ih =>
    intro hquote t ts h
    have hc : c ≠ QUOTE := fun heq => hquote (by rw [heq]; exact List.mem_cons_self)
    rw [List.cons_append] at h
    cases hblank : isBlank c with
    | true =>
      rw [splitArgs_blank hblank] at h
      exact ih (fun hmem => hquote (List.mem_cons_of_mem _ hmem)) t ts h
    | false =>
      obtain ⟨t', ts', h', hsolid⟩ := splitArgs_start hblank hc (u ++ afterArg rest)
      rw [h'] at h
      exact Or.inr ((List.cons.inj h).1 ▸ hsolid)

theorem solid_argsOf {us : List (List UInt16)} (hquote : ∀ u ∈ us, QUOTE ∉ u) :
    ∀ t ts, argsOf (joinArgs us) = t :: ts → Solid t := by
  induction us with
  | nil => exact fun t ts h => by cases h
  | cons u us ih =>
    have hrest := ih fun v hv => hquote v (List.mem_cons_of_mem _ hv)
    intro t ts h
    rw [joinArgs, argsOf, quoteArg] at h
    by_cases hspace : SPACE ∈ u
    · rw [if_pos hspace, List.append_assoc] at h
      obtain ⟨t', ts', h', hmem⟩ := splitArgs_open_space (hquote u List.mem_cons_self) hspace
        ([QUOTE] ++ afterArg (joinArgs us))
      rw [h'] at h
      exact Or.inl ((List.cons.inj h).1 ▸ hmem)
    · rw [if_neg hspace] at h
      exact solid_append hrest u (hquote u List.mem_cons_self) t ts h

/-- **Another argument does not come back** as the first one. -/
theorem bad_argsOf {u : List UInt16} {us : List (List UInt16)} (hquote : ∀ v ∈ u :: us, QUOTE ∉ v)
    (hu : ¬ GoodArg u) (ts : List (List UInt16)) : argsOf (joinArgs (u :: us)) ≠ u :: ts := by
  intro h
  have hsolid := solid_argsOf hquote u ts h
  have hq : QUOTE ∉ u := hquote u List.mem_cons_self
  have hne : u ≠ [] := by
    rintro rfl
    rcases hsolid with hmem | ⟨d, hd, -⟩
    · cases hmem
    · cases hd
  rw [joinArgs, argsOf, quoteArg] at h
  by_cases hspace : SPACE ∈ u
  · have hlast : u.getLast? = some BACKSLASH := by
      by_contra hlast
      exact hu ⟨hne, fun _ => hspace, fun _ => hlast⟩
    obtain ⟨t, ts', h', hbad⟩ := splitArgs_quoted_slash hq hlast (joinArgs us)
    rw [if_pos hspace, List.append_assoc] at h
    exact hbad (List.cons.inj (h'.symm.trans h)).1
  · have htab : TAB ∈ u := by
      by_contra htab
      exact hu ⟨hne, fun hmem => absurd hmem htab, fun hmem => absurd hmem hspace⟩
    obtain ⟨pre, post, rfl, hfirst⟩ := List.eq_append_cons_of_mem htab
    have hpre : pre ≠ [] := by
      rintro rfl
      rcases hsolid with hmem | ⟨d, hd, hblank⟩
      · exact hspace hmem
      · cases hd
        cases hblank
    have hplain : PlainText false pre := plainText_of (fun hmem => hq (List.mem_append_left _ hmem))
      (fun hmem => hspace (List.mem_append_left _ hmem)) hfirst
    rw [if_neg hspace, List.append_assoc, List.cons_append,
      splitArgs_plain_blank hpre hplain rfl] at h
    have hlen := congrArg List.length (List.cons.inj h).1
    rw [List.length_append, List.length_cons] at hlen
    omega

/-- **The arguments come back** exactly if each of them is good. -/
theorem argsOf_joinArgs_iff {us : List (List UInt16)} (hquote : ∀ u ∈ us, QUOTE ∉ u) :
    argsOf (joinArgs us) = us ↔ ∀ u ∈ us, GoodArg u := by
  induction us with
  | nil => exact iff_of_true rfl fun u hu => by cases hu
  | cons u us ih =>
    have hrest := ih fun v hv => hquote v (List.mem_cons_of_mem _ hv)
    rw [List.forall_mem_cons]
    by_cases hu : GoodArg u
    · rw [good_argsOf (hquote u List.mem_cons_self) hu, List.cons.injEq, hrest]
      exact ⟨fun h => ⟨hu, h.2⟩, fun h => ⟨rfl, h.2⟩⟩
    · exact iff_of_false (bad_argsOf hquote hu us) fun h => hu h.1

/-! ## The buffer -/

/-- What the buffer gets. -/
def written (us : List (List UInt16)) : List UInt16 := us.flatMap fun u => quoteArg u ++ [SPACE]

theorem written_eq (us : List (List UInt16)) :
    SPACE :: written us = afterArg (joinArgs us) ++ [SPACE] := by
  induction us with
  | nil => rfl
  | cons u us ih =>
    have hcons : written (u :: us) = quoteArg u ++ SPACE :: written us := by
      simp [written]
    rw [hcons, ih, joinArgs, afterArg, List.cons_append, List.append_assoc]

/-- The room that the first loop makes. -/
def room : List (List Char) → Nat
  | [] => 0
  | a :: argv => (utf16 a).length + 4 + room argv

section Buffer

variable {utow : List UInt8 → Option (List UInt16)}

theorem cmdlnCap_eq (argv : List (List Char)) : ∀ cap, (∀ a ∈ argv, utow (utf8 a) = some (utf16 a)) →
    cmdlnCap utow cap (argv.map utf8) = some (cap + room argv) := by
  induction argv with
  | nil => exact fun cap _ => rfl
  | cons a argv ih =>
    intro cap hutow
    rw [List.map_cons, cmdlnCap, hutow a List.mem_cons_self]
    simp only [ih _ fun b hb => hutow b (List.mem_cons_of_mem _ hb), room, Option.some.injEq]
    omega

theorem put_eq {cap : Nat} {buf : List UInt16} (h : buf.length < cap + 1) (c : UInt16) :
    put cap buf c = some (buf ++ [c]) := if_pos h

theorem hasSpace_eq (a : List Char) : (utf8 a).contains 0x20 = decide (SPACE ∈ utf16 a) := by
  have h8 := @Encoding.mem_text_iff _ utf8Encoding a 0x20 (by decide)
  have h16 := @Encoding.mem_text_iff _ utf16Encoding a SPACE (by decide)
  rw [Bool.eq_iff_iff, List.contains_iff_mem, decide_eq_true_eq]
  exact h8.trans h16.symm

/-- An argument fits. -/
theorem putArg_eq {a : List Char} (hutow : utow (utf8 a) = some (utf16 a)) {cap : Nat}
    {buf : List UInt16} (h : buf.length + (utf16 a).length + 5 ≤ cap) :
    putArg utow cap buf (utf8 a) = some (buf ++ (quoteArg (utf16 a) ++ [SPACE])) := by
  have htext (b : List UInt16) (hb : b.length + (utf16 a).length + 1 ≤ cap) :
      putText utow cap b (utf8 a) = some (b ++ utf16 a) := by
    rw [putText, hutow]
    exact if_pos hb
  rw [putArg, hasSpace_eq, quoteArg]
  by_cases hspace : SPACE ∈ utf16 a
  · simp only [hspace, decide_true, if_true]
    rw [put_eq (by omega), Option.bind_some, htext _ (by simp; omega), Option.bind_some,
      put_eq (by simp; omega), Option.bind_some, put_eq (by simp; omega)]
    simp
  · simp only [hspace, decide_false, Bool.false_eq_true, if_false]
    rw [Option.bind_some, htext _ (by omega), Option.bind_some, Option.bind_some,
      put_eq (by simp; omega)]
    simp

/-- All arguments fit. -/
theorem putArgs_eq {cap : Nat} (argv : List (List Char)) : ∀ (buf : List UInt16),
    (∀ a ∈ argv, utow (utf8 a) = some (utf16 a)) → (∀ a ∈ argv, '"' ∉ a) →
    buf.length + room argv + 1 ≤ cap →
    putArgs utow cap buf (argv.map utf8) = some (some (buf ++ written (argv.map utf16))) ∧
      (buf ++ written (argv.map utf16)).length ≤ cap := by
  induction argv with
  | nil =>
    intro buf _ _ hroom
    rw [room] at hroom
    refine ⟨by simp [putArgs, written], ?_⟩
    simp only [written, List.map_nil, List.flatMap_nil, List.append_nil]
    omega
  | cons a argv ih =>
    intro buf hutow hquote hroom
    rw [room] at hroom
    have hno : (utf8 a).contains 0x22 = false := by
      rw [← Bool.not_eq_true, List.contains_iff_mem]
      intro hmem
      obtain ⟨c, hc, hcode⟩ := (Encoding.mem_text_iff (E := utf8Encoding) (by decide)).mp hmem
      have hback : c = '"' := Char.toNat_inj.mp hcode
      exact hquote a List.mem_cons_self (hback ▸ hc)
    have hlen : (quoteArg (utf16 a) ++ [SPACE]).length ≤ (utf16 a).length + 3 := by
      unfold quoteArg
      split <;> simp
    have hnext := ih (buf ++ (quoteArg (utf16 a) ++ [SPACE]))
      (fun b hb => hutow b (List.mem_cons_of_mem _ hb))
      (fun b hb => hquote b (List.mem_cons_of_mem _ hb)) (by rw [List.length_append]; omega)
    have hwritten : buf ++ written ((a :: argv).map utf16) =
        buf ++ (quoteArg (utf16 a) ++ [SPACE]) ++ written (argv.map utf16) := by simp [written]
    rw [List.map_cons, putArgs, hno, putArg_eq (hutow a List.mem_cons_self) (by omega), hwritten]
    exact hnext

end Buffer

/-! ## The way back -/

/-- The string that `CreateProcessW` gets. -/
def cmdLine (buf : List UInt16) : List UInt16 := buf.takeWhile (· != 0)

/-- Not empty, with no tabs unless it has a space, and with no backslash at the end if it has one. -/
def SplitsBack (a : List Char) : Prop :=
  a ≠ [] ∧ ('\t' ∈ a → ' ' ∈ a) ∧ (' ' ∈ a → a.getLast? ≠ some '\\')

/-- An ASCII character of a text. -/
theorem mem_utf16_iff {a : List Char} {u : UInt16} {d : Char} (hu : u.toNat < 0x80)
    (hd : d.toNat = u.toNat) :
    u ∈ utf16 a ↔ d ∈ a := by
  have hiff := @Encoding.mem_text_iff _ utf16Encoding a u hu
  refine hiff.trans ⟨?_, fun h => ⟨d, h, hd⟩⟩
  rintro ⟨c, hc, hcode⟩
  have hcd : c = d := Char.toNat_inj.mp (hcode.trans hd.symm)
  exact hcd ▸ hc

theorem goodArg_iff (a : List Char) : GoodArg (utf16 a) ↔ SplitsBack a := by
  have hnil : utf16 a = [] ↔ a = [] := Encoding.text_eq_nil_iff (E := utf16Encoding)
  have hlast : (utf16 a).getLast? = some BACKSLASH ↔ a.getLast? = some '\\' :=
    Encoding.getLast_text_iff (E := utf16Encoding) (by decide) rfl
  have hspace : SPACE ∈ utf16 a ↔ ' ' ∈ a := mem_utf16_iff (by decide) rfl
  have htab : TAB ∈ utf16 a ↔ '\t' ∈ a := mem_utf16_iff (by decide) rfl
  rw [GoodArg, SplitsBack, Ne, hnil, hspace, htab, Ne, hlast]

theorem zero_not_mem_join {us : List (List UInt16)} (h : ∀ u ∈ us, 0 ∉ u) :
    0 ∉ afterArg (joinArgs us) := by
  intro hmem
  have hall : (0 : UInt16) ∈ SPACE :: written us := by
    rw [written_eq]
    exact List.mem_append_left _ hmem
  have hwritten := (List.mem_cons.mp hall).resolve_left (by decide)
  obtain ⟨u, hu, hin⟩ := List.mem_flatMap.mp hwritten
  have hquote : (0 : UInt16) ∉ quoteArg u := by
    unfold quoteArg
    split
    · simp only [List.mem_append, List.mem_cons, List.not_mem_nil, or_false, not_or]
      exact ⟨⟨by decide, h u hu⟩, by decide⟩
    · exact h u hu
  rcases List.mem_append.mp hin with hin | hin
  · exact hquote hin
  · cases List.mem_singleton.mp hin

/-- The last space is trimmed. -/
theorem trim_written (us : List (List UInt16)) :
    (if written us = [] then written us else (written us).dropLast) = (joinArgs us).getD [] := by
  cases us with
  | nil => rfl
  | cons u us =>
    have hline : written (u :: us) = quoteArg u ++ afterArg (joinArgs us) ++ [SPACE] :=
      (List.cons.inj (written_eq (u :: us))).2
    rw [hline, if_neg (by simp), List.dropLast_concat]
    rfl

theorem cmdLine_eq {us : List (List UInt16)} (h : ∀ u ∈ us, 0 ∉ u) :
    splitArgs (cmdLine ((joinArgs us).getD [] ++ [0])) = argsOf (joinArgs us) := by
  have hzero := zero_not_mem_join h
  cases hj : joinArgs us with
  | none => rfl
  | some line =>
    rw [hj] at hzero
    have hline : 0 ∉ line := fun hmem => hzero (List.mem_cons_of_mem _ hmem)
    rw [Option.getD_some, cmdLine, takeWhile_terminated hline]
    rfl

/-- The string that the buffer holds at the end. -/
theorem ffargvToCmdln_eq {utow : List UInt8 → Option (List UInt16)} {argv : List (List Char)}
    (hutow : ∀ a ∈ argv, utow (utf8 a) = some (utf16 a)) (hnul : ∀ a ∈ argv, '\x00' ∉ a)
    (hquote : ∀ a ∈ argv, '"' ∉ a) (alloc : Nat → Bool) :
    ffargvToCmdln utow alloc (argv.map utf8) = some none ∨
      ∃ buf, ffargvToCmdln utow alloc (argv.map utf8) = some (some buf) ∧
        splitArgs (cmdLine buf) = argsOf (joinArgs (argv.map utf16)) := by
  obtain ⟨hput, hlen⟩ := @putArgs_eq utow (1 + room argv) argv [] hutow hquote
    (by rw [List.length_nil]; omega)
  rw [List.nil_append] at hput hlen
  rw [ffargvToCmdln, cmdlnCap_eq argv 1 hutow]
  simp only [hput, Option.bind_some, trim_written]
  split
  · refine Or.inr ⟨(joinArgs (argv.map utf16)).getD [] ++ [0], ?_, cmdLine_eq ?_⟩
    · rw [put_eq, Option.map_some]
      have htrim := trim_written (argv.map utf16)
      have hle : (if written (argv.map utf16) = [] then written (argv.map utf16)
          else (written (argv.map utf16)).dropLast).length ≤ (written (argv.map utf16)).length := by
        split
        · exact Nat.le_refl _
        · rw [List.length_dropLast]
          omega
      rw [htrim] at hle
      omega
    · intro u hu
      obtain ⟨a, ha, rfl⟩ := List.mem_map.mp hu
      rw [mem_utf16_iff (d := '\x00') (by decide) rfl]
      exact hnul a ha
  · exact Or.inl rfl

/-- **Arguments of a new process.**  Every character is in the allocated buffer, and the new process
    gets the arguments that were given exactly if each of them is one that splits back. -/
theorem ffargvToCmdln_splits_iff {utow : List UInt8 → Option (List UInt16)} {argv : List (List Char)}
    (hutow : ∀ a ∈ argv, utow (utf8 a) = some (utf16 a)) (hnul : ∀ a ∈ argv, '\x00' ∉ a)
    (hquote : ∀ a ∈ argv, '"' ∉ a) (alloc : Nat → Bool) :
    ffargvToCmdln utow alloc (argv.map utf8) ≠ none ∧
      ∀ buf, ffargvToCmdln utow alloc (argv.map utf8) = some (some buf) →
        (splitArgs (cmdLine buf) = argv.map utf16 ↔ ∀ a ∈ argv, SplitsBack a) := by
  have hno : ∀ u ∈ argv.map utf16, QUOTE ∉ u := by
    intro u hu
    obtain ⟨a, ha, rfl⟩ := List.mem_map.mp hu
    rw [mem_utf16_iff (d := '"') (by decide) rfl]
    exact hquote a ha
  have hgood : (∀ u ∈ argv.map utf16, GoodArg u) ↔ ∀ a ∈ argv, SplitsBack a := by
    simp only [List.forall_mem_map, goodArg_iff]
  rcases ffargvToCmdln_eq hutow hnul hquote alloc with hnull | ⟨buf, hbuf, hsplit⟩
  · rw [hnull]
    exact ⟨Option.some_ne_none _, fun buf h => by cases h⟩
  · rw [hbuf]
    refine ⟨Option.some_ne_none _, fun buf' h => ?_⟩
    rw [← Option.some.inj (Option.some.inj h), hsplit, argsOf_joinArgs_iff hno, hgood]

/-- A conversion of these arguments. -/
def utowOf (argv : List (List Char)) (arg : List UInt8) : Option (List UInt16) :=
  (argv.find? fun a => utf8 a == arg).map utf16

/-- "a b" and a path that ends with a backslash, without spaces. -/
theorem ffargvToCmdln_splits_path :
    ffargvToCmdln (utowOf [['a', ' ', 'b'], ['C', ':', '\\']]) (fun _ => true)
      ([['a', ' ', 'b'], ['C', ':', '\\']].map utf8) ≠ none ∧
    (∀ buf, ffargvToCmdln (utowOf [['a', ' ', 'b'], ['C', ':', '\\']]) (fun _ => true)
        ([['a', ' ', 'b'], ['C', ':', '\\']].map utf8) = some (some buf) →
      (splitArgs (cmdLine buf) = [['a', ' ', 'b'], ['C', ':', '\\']].map utf16 ↔
        ∀ a ∈ [['a', ' ', 'b'], ['C', ':', '\\']], SplitsBack a)) := by
  refine ffargvToCmdln_splits_iff ?_ ?_ ?_ _
  · intro a ha
    rcases List.mem_pair.mp ha with rfl | rfl <;> rfl
  · decide
  · decide

/-- An empty argument is lost. -/
theorem ffargvToCmdln_empty_lost :
    ¬ ∀ buf, ffargvToCmdln (utowOf [['a'], [], ['b']]) (fun _ => true)
        ([['a'], [], ['b']].map utf8) = some (some buf) →
      splitArgs (cmdLine buf) = [['a'], [], ['b']].map utf16 := by
  intro h
  have hrun : ffargvToCmdln (utowOf [['a'], [], ['b']]) (fun _ => true)
      ([['a'], [], ['b']].map utf8) =
      some (some [0x61, 0x20, 0x20, 0x62, 0]) := by decide +kernel
  have hsplit := h _ hrun
  revert hsplit
  decide +kernel

end FFSys.Process
