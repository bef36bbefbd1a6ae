import FFSys.Lib.Cuts
import FFSys.Netconf.Dns

/-!
# Which files of DNS servers are read right

`_ffnetconf_dns` takes the word after exactly one blank, also if it is empty, and leaves a carriage
return at the end of the line in it.

* `tokens`, `tokenLine`, `tokenServers` — the addresses of a file, said with tokens: they are
  delimited by runs of blanks, and a carriage return at the end of a line is no part of them.
* `ServerLine` — a line that the code takes an address from; `PlainServer` — one where it takes the
  right one.
* `line_agrees_iff` — one line; `dnsLoop_eq` — the loop over the lines.
* `ffnetconfDns_iff` — the whole file: the addresses are right exactly if every `ServerLine` is a
  `PlainServer`.
-/

set_option autoImplicit false

namespace FFSys.Netconf

/-! ## Tokens -/

/-- A line without the carriage return at its end. -/
def stripCr (line : List UInt8) : List UInt8 := if line.getLast? = some 0x0d then line.dropLast else line

/-- The tokens of a line. -/
def tokens (line : List UInt8) : List (List UInt8) := (line.splitOnP isBlank).filter fun t => !t.isEmpty

/-- The address of a line: the second token, if the first one is `nameserver`. -/
def tokenLine (line : List UInt8) : Option (List UInt8) :=
  match tokens (stripCr line) with
  | first :: second :: _ => if first = nameserver then some second else none
  | _ => none

/-- The addresses of a file. -/
def tokenServers (file : List UInt8) : List (List UInt8) := (file.splitOn 0x0a).filterMap tokenLine

/-- The list is empty or begins with a separator. -/
def Ends (sep : UInt8 → Bool) (s : List UInt8) : Prop := ∀ c ∈ s.head?, sep c = true

/-- After spaces, tabs and carriage returns the first word is `nameserver`. -/
def ServerLine (line : List UInt8) : Prop :=
  ∃ lead after, line = lead ++ (nameserver ++ after) ∧ (∀ c ∈ lead, isSkip c = true) ∧ Ends isBlank after

/-- After blanks, `nameserver` and one blank there is a word, without NUL; it does not end with a
    carriage return if it ends the line. -/
def PlainServer (line : List UInt8) : Prop :=
  ∃ lead blank word after, line = lead ++ (nameserver ++ blank :: (word ++ after)) ∧
    (∀ c ∈ lead, isBlank c = true) ∧ isBlank blank = true ∧ word ≠ [] ∧
    (∀ c ∈ word, isBlank c = false ∧ c ≠ 0) ∧ Ends isBlank after ∧
    (after = [] → word.getLast? ≠ some 0x0d)

/-! ## Cutting -/

section Cut

variable (sep : UInt8 → Bool)

/-- A list is cut before its first separator. -/
theorem exists_cut (s : List UInt8) :
    ∃ word after, s = word ++ after ∧ (∀ c ∈ word, sep c = false) ∧ Ends sep after := by
  refine ⟨s.takeWhile fun c => !sep c, s.dropWhile fun c => !sep c,
    List.takeWhile_append_dropWhile.symm, ?_, ?_⟩
  · intro c hc
    have hnot := List.mem_takeWhile_imp hc
    simpa using hnot
  · intro c hc
    have hhead := List.head?_dropWhile_not (fun c => !sep c) s
    rw [Option.mem_def.mp hc] at hhead
    simpa using hhead

variable {sep} {word after : List UInt8}

theorem takeWhile_cut (hword : ∀ c ∈ word, sep c = false) (hafter : Ends sep after) :
    (word ++ after).takeWhile (fun c => !sep c) = word := by
  rw [List.takeWhile_append_of_pos (fun c hc => by rw [hword c hc]; rfl)]
  cases after with
  | nil => simp
  | cons c after => rw [List.takeWhile_cons_of_neg (by simp [hafter c rfl]), List.append_nil]

theorem dropWhile_cut (hword : ∀ c ∈ word, sep c = false) (hafter : Ends sep after) :
    (word ++ after).dropWhile (fun c => !sep c) = after := by
  rw [List.dropWhile_append_of_pos (fun c hc => by rw [hword c hc]; rfl)]
  cases after with
  | nil => rfl
  | cons c after => rw [List.dropWhile_cons_of_neg (by simp [hafter c rfl])]

/-- `ffstr_splitby` at a cut. -/
theorem ffstrSplitby_cut (hword : ∀ c ∈ word, sep c = false) (hafter : Ends sep after) :
    ffstrSplitby sep (word ++ after) = (word, after.drop 1) := by
  rw [ffstrSplitby, takeWhile_cut hword hafter, dropWhile_cut hword hafter]

end Cut

theorem isSkip_of_isBlank {c : UInt8} (h : isBlank c = true) : isSkip c = true := by
  unfold isBlank at h
  unfold isSkip
  rw [h, Bool.true_or]

theorem isBlank_cr : isBlank 0x0d = false := rfl

theorem nameserver_words : ∀ c ∈ nameserver, isBlank c = false := by
  have hall : (nameserver.all fun c => !isBlank c) = true := rfl
  intro c hc
  simpa using List.all_eq_true.mp hall c hc

/-! ## The code on one line -/

/-- What follows leading blanks and carriage returns. -/
theorem dropWhile_lead {lead s : List UInt8} (hlead : ∀ c ∈ lead, isSkip c = true)
    (hs : ∀ c ∈ s.head?, isSkip c = false) : (lead ++ s).dropWhile isSkip = s := by
  rw [List.dropWhile_append_of_pos hlead]
  cases s with
  | nil => rfl
  | cons c s => rw [List.dropWhile_cons_of_neg (by simp [hs c rfl])]

/-- The word after a `nameserver`. -/
theorem dnsLine_server {lead after : List UInt8} (hlead : ∀ c ∈ lead, isSkip c = true)
    (hafter : Ends isBlank after) :
    dnsLine (lead ++ (nameserver ++ after)) = some ((after.drop 1).takeWhile fun c => !isBlank c) := by
  have hdrop : (lead ++ (nameserver ++ after)).dropWhile isSkip = nameserver ++ after := by
    apply dropWhile_lead hlead
    intro c hc
    cases hc
    rfl
  unfold dnsLine
  simp only [hdrop, ffstrSplitby_cut nameserver_words hafter, if_true]
  rfl

/-- The code takes an address exactly from a `ServerLine`. -/
theorem dnsLine_isSome_iff (line : List UInt8) : (dnsLine line).isSome = true ↔ ServerLine line := by
  refine ⟨?_, ?_⟩
  · intro h
    obtain ⟨word, after, hcut, hword, hafter⟩ := exists_cut isBlank (line.dropWhile isSkip)
    have hline : line = line.takeWhile isSkip ++ (word ++ after) := by
      rw [← hcut, List.takeWhile_append_dropWhile]
    unfold dnsLine at h
    simp only [hcut, ffstrSplitby_cut hword hafter] at h
    split at h
    · rename_i hname
      rw [hname] at hline
      exact ⟨_, after, hline, fun c hc => List.mem_takeWhile_imp hc, hafter⟩
    · cases h
  · rintro ⟨lead, after, rfl, hlead, hafter⟩
    rw [dnsLine_server hlead hafter]
    rfl

/-! ## Tokens of a line -/

theorem tokens_blank {c : UInt8} (hc : isBlank c = true) (s : List UInt8) : tokens (c :: s) = tokens s := by
  have hsplit : (c :: s).splitOnP isBlank = [] :: s.splitOnP isBlank :=
    List.splitOnP_append_cons_of_forall_mem (fun x (hx : x ∈ []) => by cases hx) c hc s
  rw [tokens, hsplit, List.filter_cons_of_neg (by simp), tokens]

theorem tokens_lead {lead : List UInt8} (hlead : ∀ c ∈ lead, isBlank c = true) (s : List UInt8) :
    tokens (lead ++ s) = tokens s := by
  induction lead with
  | nil => rfl
  | cons c lead ih =>
    rw [List.cons_append, tokens_blank (hlead c List.mem_cons_self)]
    exact ih fun c' hc' => hlead c' (List.mem_cons_of_mem _ hc')

theorem tokens_word {word after : List UInt8} (hne : word ≠ []) (hword : ∀ c ∈ word, isBlank c = false)
    (hafter : Ends isBlank after) : tokens (word ++ after) = word :: tokens after := by
  have hkeep : (!word.isEmpty) = true := by
    simpa using hne
  cases after with
  | nil =>
    have hnil : tokens [] = [] := rfl
    rw [List.append_nil, tokens, List.splitOnP_eq_singleton hword, List.filter_cons, if_pos hkeep, hnil]
    rfl
  | cons c after =>
    have hc := hafter c rfl
    rw [tokens, List.splitOnP_append_cons_of_forall_mem hword c hc, List.filter_cons, if_pos hkeep,
      tokens_blank hc, tokens]

theorem mem_tokens_ne {t s : List UInt8} (h : t ∈ tokens s) : t ≠ [] := by
  have hkeep := (List.mem_filter.mp h).2
  simpa using hkeep

/-- The first token. -/
theorem tokens_inv {s first : List UInt8} {more : List (List UInt8)} (h : tokens s = first :: more) :
    ∃ lead after, s = lead ++ (first ++ after) ∧ (∀ c ∈ lead, isBlank c = true) ∧ Ends isBlank after ∧
      tokens after = more := by
  obtain ⟨lead, rest, rfl, hlead, hrest⟩ := exists_cut (fun c => !isBlank c) s
  obtain ⟨word, after, rfl, hword, hafter⟩ := exists_cut isBlank rest
  have hlead' : ∀ c ∈ lead, isBlank c = true := by
    intro c hc
    simpa using hlead c hc
  rw [tokens_lead hlead'] at h
  by_cases hne : word = []
  · -- the rest begins with no blank, and so is empty
    subst hne
    cases after with
    | nil => cases h
    | cons c after =>
      have hblank := hafter c rfl
      have hnot := hrest c rfl
      simp [hblank] at hnot
  · rw [tokens_word hne hword hafter] at h
    obtain ⟨rfl, rfl⟩ := List.cons_eq_cons.mp h
    exact ⟨lead, after, rfl, hlead', hafter, rfl⟩

/-! ## The end of the line -/

theorem stripCr_append (pre : List UInt8) {s : List UInt8} (h : s ≠ []) :
    stripCr (pre ++ s) = pre ++ stripCr s := by
  unfold stripCr
  rw [List.getLast?_append_of_ne_nil pre h, List.dropLast_append_of_ne_nil h]
  split <;> rfl

theorem stripCr_blank {c : UInt8} (hc : isBlank c = true) (s : List UInt8) :
    stripCr (c :: s) = c :: stripCr s := by
  by_cases hs : s = []
  · subst hs
    have hne : ([c] : List UInt8).getLast? ≠ some 0x0d := by
      intro h
      cases h
      cases hc
    rw [stripCr, if_neg hne]
    rfl
  · exact stripCr_append [c] hs

theorem stripCr_cases (line : List UInt8) : stripCr line = line ∨ line = stripCr line ++ [0x0d] := by
  unfold stripCr
  split
  · rename_i h
    right
    obtain ⟨pre, rfl⟩ := List.getLast?_eq_some_iff.mp h
    rw [List.dropLast_concat]
  · exact .inl rfl

/-! ## The tokens and the code on one line -/

/-- What the caller sees of an address. -/
def cstr (word : List UInt8) : List UInt8 := word.takeWhile (· != 0)

theorem cstr_eq {word : List UInt8} (h : 0 ∉ word) : cstr word = word := by
  rw [cstr, List.takeWhile_eq_self_iff]
  exact Lib.ne_of_not_mem h

theorem not_mem_of_cstr_eq {word : List UInt8} (h : cstr word = word) : 0 ∉ word := by
  intro hmem
  have hall := List.takeWhile_eq_self_iff.mp h 0 hmem
  exact absurd hall (by decide)

/-- The second token after blanks, `nameserver` and a blank. -/
theorem tokenLine_server {lead : List UInt8} {blank : UInt8} (hlead : ∀ c ∈ lead, isBlank c = true)
    (hblank : isBlank blank = true) (s : List UInt8) :
    tokenLine (lead ++ (nameserver ++ blank :: s)) = (tokens (stripCr s)).head? := by
  have hstrip : stripCr (lead ++ (nameserver ++ blank :: s)) =
      lead ++ (nameserver ++ blank :: stripCr s) := by
    rw [stripCr_append lead (by simp), stripCr_append nameserver (by simp), stripCr_blank hblank]
  have htokens : tokens (stripCr (lead ++ (nameserver ++ blank :: s))) =
      nameserver :: tokens (stripCr s) := by
    rw [hstrip, tokens_lead hlead, tokens_word (by decide) nameserver_words, tokens_blank hblank]
    intro c hc
    cases hc
    exact hblank
  rw [tokenLine, htokens]
  cases tokens (stripCr s) with
  | nil => rfl
  | cons t ts => exact if_pos rfl

/-- A word that does not end with a carriage return at the end of the line is the token. -/
theorem tokens_strip_word {word after : List UInt8} (hne : word ≠ [])
    (hword : ∀ c ∈ word, isBlank c = false) (hafter : Ends isBlank after) (hcr : after = [] → word.getLast? ≠ some 0x0d) :
    (tokens (stripCr (word ++ after))).head? = some word := by
  cases after with
  | nil =>
    have hkeep : stripCr word = word := if_neg (hcr rfl)
    rw [List.append_nil, hkeep, ← List.append_nil word, tokens_word hne hword hafter]
    simp
  | cons c after =>
    have hc := hafter c rfl
    rw [stripCr_append word (by simp), stripCr_blank hc, tokens_word hne hword]
    · rfl
    · intro c' hc'
      cases hc'
      exact hc

theorem plain_agrees {line : List UInt8} (h : PlainServer line) :
    (dnsLine line).map cstr = tokenLine line := by
  obtain ⟨lead, blank, word, after, rfl, hlead, hblank, hne, hword, hafter, hcr⟩ := h
  have hnoblank : ∀ c ∈ word, isBlank c = false := fun c hc => (hword c hc).1
  have hnul : 0 ∉ word := fun hmem => (hword 0 hmem).2 rfl
  have hends : Ends isBlank (blank :: (word ++ after)) := by
    intro c hc
    cases hc
    exact hblank
  rw [dnsLine_server (fun c hc => isSkip_of_isBlank (hlead c hc)) hends, tokenLine_server hlead hblank,
    tokens_strip_word hne hnoblank hafter hcr, List.drop_succ_cons, List.drop_zero,
    takeWhile_cut hnoblank hafter,
    Option.map_some, cstr_eq hnul]

/-- A carriage return before `nameserver` is a part of the first token. -/
theorem tokenLine_cr {lead : List UInt8} (hlead : ∀ c ∈ lead, isBlank c = true) {s : List UInt8}
    (hs : s ≠ []) :
    tokenLine (lead ++ 0x0d :: s) = none := by
  have hstrip : stripCr (lead ++ 0x0d :: s) = lead ++ 0x0d :: stripCr s := by
    rw [stripCr_append lead (by simp)]
    exact congrArg _ (stripCr_append [0x0d] hs)
  obtain ⟨word, after, hcut, hword, hafter⟩ := exists_cut isBlank (stripCr s)
  have htokens : tokens (stripCr (lead ++ 0x0d :: s)) = (0x0d :: word) :: tokens after := by
    rw [hstrip, tokens_lead hlead, hcut, ← List.cons_append]
    refine tokens_word (by simp) ?_ hafter
    intro c hc
    rcases List.mem_cons.mp hc with rfl | hc
    · exact isBlank_cr
    · exact hword c hc
  have hfirst : 0x0d :: word ≠ nameserver := by
    intro h
    cases h
  rw [tokenLine, htokens]
  cases tokens after with
  | nil => rfl
  | cons t ts => exact if_neg hfirst

/-- `nameserver` alone. -/
theorem tokenLine_alone {lead : List UInt8} (hlead : ∀ c ∈ lead, isBlank c = true) :
    tokenLine (lead ++ (nameserver ++ [])) = none := by
  have hstrip : stripCr (lead ++ (nameserver ++ [])) = lead ++ (nameserver ++ []) := by
    rw [stripCr_append lead (by simp [nameserver])]
    rfl
  rw [tokenLine, hstrip, tokens_lead hlead]
  rfl

/-- A word with a carriage return at the end of the line is not the token. -/
theorem cstr_cr_ne (pre : List UInt8) : cstr (pre ++ [0x0d]) ≠ pre := by
  intro h
  by_cases hmem : 0 ∈ pre ++ [0x0d]
  · have hpre : 0 ∈ pre := by
      simpa using hmem
    have hall := List.mem_takeWhile_imp (h.symm ▸ hpre : (0 : UInt8) ∈ cstr (pre ++ [0x0d]))
    exact absurd hall (by decide)
  · rw [cstr_eq hmem] at h
    have hlen := congrArg List.length h
    rw [List.length_append, List.length_singleton] at hlen
    omega

/-- The last word of a line is read right only if it does not end with a carriage return. -/
theorem last_ne_cr {word : List UInt8} (hword : ∀ c ∈ word, isBlank c = false)
    (h : some (cstr word) = (tokens (stripCr word)).head?) : word.getLast? ≠ some 0x0d := by
  intro hlast
  obtain ⟨pre, rfl⟩ := List.getLast?_eq_some_iff.mp hlast
  have hpre : ∀ c ∈ pre, isBlank c = false := fun c hc => hword c (List.mem_append_left _ hc)
  rw [stripCr, if_pos hlast, List.dropLast_concat] at h
  by_cases hnil : pre = []
  · subst hnil
    cases h
  · have hend : Ends isBlank [] := fun c hc => by cases hc
    have htokens := tokens_word hnil hpre hend
    rw [List.append_nil] at htokens
    rw [htokens, List.head?_cons, Option.some.injEq] at h
    exact cstr_cr_ne pre h

/-- If the address of a `ServerLine` is right, the line is plain. -/
theorem plain_of_agrees {line : List UInt8} (hserver : ServerLine line)
    (h : (dnsLine line).map cstr = tokenLine line) : PlainServer line := by
  obtain ⟨lead, after, rfl, hlead, hafter⟩ := hserver
  rw [dnsLine_server hlead hafter, Option.map_some] at h
  -- no carriage return before the first word
  obtain ⟨blanks, rest, rfl, hblanks, hrest⟩ := exists_cut (fun c => !isBlank c) lead
  have hblanks' : ∀ c ∈ blanks, isBlank c = true := by
    intro c hc
    simpa using hblanks c hc
  cases rest with
  | cons c rest =>
    have hnot := hrest c rfl
    have hskip := hlead c (by simp)
    have hcr : c = 0x0d := by
      simp only [isBlank, Bool.not_eq_true', Bool.or_eq_false_iff] at hnot
      simpa [isSkip, hnot.1, hnot.2] using hskip
    subst hcr
    rw [List.append_assoc, List.cons_append, tokenLine_cr hblanks' (by simp [nameserver])] at h
    cases h
  | nil =>
    rw [List.append_nil] at h hlead ⊢
    -- one blank after it
    cases after with
    | nil =>
      rw [tokenLine_alone hblanks'] at h
      cases h
    | cons blank after =>
      have hblank := hafter blank rfl
      obtain ⟨word, after, rfl, hword, hafter'⟩ := exists_cut isBlank after
      rw [tokenLine_server hblanks' hblank, List.drop_succ_cons, List.drop_zero,
        takeWhile_cut hword hafter'] at h
      -- the word is not empty, as no token is
      have hne : word ≠ [] := by
        rintro rfl
        have hmem : [] ∈ tokens (stripCr ([] ++ after)) := List.mem_of_head? h.symm
        exact mem_tokens_ne hmem rfl
      have hcr : after = [] → word.getLast? ≠ some 0x0d := by
        rintro rfl
        rw [List.append_nil] at h
        exact last_ne_cr hword h
      rw [tokens_strip_word hne hword hafter' hcr, Option.some.injEq] at h
      refine ⟨blanks, blank, word, after, rfl, hblanks', hblank, hne, ?_, hafter', hcr⟩
      intro c hc
      refine ⟨hword c hc, ?_⟩
      rintro rfl
      exact not_mem_of_cstr_eq h hc

/-- The code takes an address from each line with an address. -/
theorem serverLine_of_token {line : List UInt8} (h : (tokenLine line).isSome = true) : ServerLine line := by
  unfold tokenLine at h
  split at h
  · rename_i first second more htokens
    split at h
    · rename_i hfirst
      subst hfirst
      obtain ⟨lead, after, hline, hlead, hafter, hmore⟩ := tokens_inv htokens
      have hlead' : ∀ c ∈ lead, isSkip c = true := fun c hc => isSkip_of_isBlank (hlead c hc)
      rcases stripCr_cases line with hsame | hcr
      · rw [hsame] at hline
        exact ⟨lead, after, hline, hlead', hafter⟩
      · refine ⟨lead, after ++ [0x0d], ?_, hlead', ?_⟩
        · rw [hcr, hline]
          simp only [List.append_assoc]
        · cases after with
          | nil => cases hmore
          | cons c after => exact hafter
    · cases h
  · cases h

/-- **One line**: the address is right exactly if the line is plain, or none of the code's. -/
theorem line_agrees_iff (line : List UInt8) :
    (dnsLine line).map cstr = tokenLine line ↔ (ServerLine line → PlainServer line) := by
  refine ⟨fun h hserver => plain_of_agrees hserver h, ?_⟩
  intro h
  by_cases hserver : ServerLine line
  · exact plain_agrees (h hserver)
  · have hcode : dnsLine line = none := by
      rw [← Option.not_isSome_iff_eq_none, dnsLine_isSome_iff]
      exact hserver
    have htoken : tokenLine line = none := by
      rw [← Option.not_isSome_iff_eq_none]
      exact fun hsome => hserver (serverLine_of_token hsome)
    rw [hcode, htoken]
    rfl

/-! ## The lines of a file -/

theorem filterMap_length_le {α β : Type} {f g : α → Option β} :
    ∀ {l : List α}, (∀ a ∈ l, (g a).isSome = true → (f a).isSome = true) →
      (l.filterMap g).length ≤ (l.filterMap f).length
  | [], _ => Nat.le_refl _
  | a :: l, h => by
    have ih := filterMap_length_le (fun a' ha' => h a' (List.mem_cons_of_mem a ha'))
    have hhead := h a List.mem_cons_self
    rw [List.filterMap_cons, List.filterMap_cons]
    cases hg : g a with
    | none =>
      cases f a with
      | none => exact ih
      | some b => exact Nat.le_succ_of_le ih
    | some c =>
      rw [hg] at hhead
      obtain ⟨b, hf⟩ := Option.isSome_iff_exists.mp (hhead rfl)
      rw [hf]
      exact Nat.succ_le_succ ih

/-- Two ways to pick elements give the same list exactly if they agree everywhere, if one of them
    picks whenever the other one does. -/
theorem filterMap_eq_iff {α β : Type} {f g : α → Option β} :
    ∀ {l : List α}, (∀ a ∈ l, (g a).isSome = true → (f a).isSome = true) →
      (l.filterMap f = l.filterMap g ↔ ∀ a ∈ l, f a = g a)
  | [], _ => by simp
  | a :: l, h => by
    have hrest := fun a' ha' => h a' (List.mem_cons_of_mem a ha')
    have ih := filterMap_eq_iff hrest
    have hhead := h a List.mem_cons_self
    rw [List.filterMap_cons, List.filterMap_cons, List.forall_mem_cons]
    cases hf : f a with
    | none =>
      cases hg : g a with
      | none => simpa using ih
      | some c =>
        rw [hf, hg] at hhead
        cases hhead rfl
    | some b =>
      cases hg : g a with
      | none =>
        -- the first list is longer
        have hle := filterMap_length_le hrest
        refine iff_of_false ?_ (by simp)
        intro heq
        have hlen : (l.filterMap f).length + 1 = (l.filterMap g).length := congrArg List.length heq
        omega
      | some c =>
        simp only [List.cons_eq_cons, Option.some.injEq]
        exact and_congr_right fun _ => ih

/-- The lines of a file that begins with `line`. -/
theorem splitOn_cut {line after : List UInt8} (hline : ∀ c ∈ line, (c == 0x0a) = false)
    (hafter : Ends (· == 0x0a) after) (f : List UInt8 → Option (List UInt8)) (hnil : f [] = none) :
    ((line ++ after).splitOn 0x0a).filterMap f =
      (f line).toList ++ ((after.drop 1).splitOn 0x0a).filterMap f := by
  cases after with
  | nil =>
    rw [List.append_nil, List.splitOn_eq_singleton_of_beq_eq_false hline, List.drop_nil, List.splitOn_nil]
    cases hf : f line <;> simp [hf, hnil]
  | cons c after =>
    rw [List.splitOn_append_cons_of_forall_mem_beq_eq_false hline c (hafter c rfl), List.drop_succ_cons,
      List.drop_zero, List.filterMap_cons]
    cases f line <;> rfl

/-- **The loop collects the addresses of the lines**, by induction on the calls. -/
theorem dnsLoop_eq (fuel : Nat) :
    ∀ (input : List UInt8) (servers : List (List UInt8)) (cap : Nat), input.length < fuel →
      dnsLoop fuel input servers cap =
        some (servers ++ (input.splitOn 0x0a).filterMap dnsLine,
          cap + dataSize ((input.splitOn 0x0a).filterMap dnsLine)) := by
  have hnil : dnsLine [] = none := rfl
  induction fuel with
  | zero =>
    intro input servers cap hfuel
    omega
  | succ fuel ih =>
    intro input servers cap hfuel
    rw [dnsLoop]
    by_cases hinput : input = []
    · subst hinput
      simp [hnil, dataSize]
    · obtain ⟨line, after, rfl, hline, hafter⟩ := exists_cut (· == 0x0a) input
      have hshort : (after.drop 1).length < fuel := by
        have hlen : (line ++ after).length ≠ 0 := fun h => hinput (List.length_eq_zero_iff.mp h)
        rw [List.length_append] at hlen hfuel
        rw [List.length_drop]
        omega
      rw [if_neg hinput, ffstrSplitby_cut hline hafter, splitOn_cut hline hafter dnsLine hnil]
      simp only
      cases hword : dnsLine line with
      | none =>
        simp only
        rw [ih _ _ _ hshort]
        simp
      | some word =>
        simp only
        rw [ih _ _ _ hshort, Option.toList_some, List.append_assoc, List.singleton_append, dataSize_cons,
          Nat.add_assoc]

/-! ## A whole file -/

/-- The object has exactly these addresses. -/
def DnsYields (conf : DnsConf) (want : List (List UInt8)) : Prop :=
  conf.num = want.length ∧ ∀ i w, want[i]? = some w → dnsAddr conf i = some w

theorem dnsYields_iff (servers want : List (List UInt8)) :
    DnsYields ⟨packed servers, servers.length⟩ want ↔ servers.map cstr = want := by
  refine ⟨?_, ?_⟩
  · rintro ⟨hnum, haddr⟩
    have hlen : servers.length = want.length := hnum
    apply List.ext_getElem?
    intro i
    rw [List.getElem?_map]
    cases hw : want[i]? with
    | none =>
      have hge := List.getElem?_eq_none_iff.mp hw
      rw [List.getElem?_eq_none (by omega)]
      rfl
    | some w =>
      have hlt := (List.getElem?_eq_some_iff.mp hw).1
      obtain ⟨s, hs⟩ : ∃ s, servers[i]? = some s := ⟨_, List.getElem?_eq_getElem (by omega)⟩
      have hread := haddr i w hw
      rw [dnsAddr_packed servers _ hs] at hread
      rw [hs, Option.map_some]
      exact hread
  · rintro rfl
    refine ⟨(List.length_map cstr).symm, ?_⟩
    intro i w hw
    rw [List.getElem?_map, Option.map_eq_some_iff] at hw
    obtain ⟨s, hs, rfl⟩ := hw
    exact dnsAddr_packed servers _ hs

/-- What the function does on a file. -/
theorem ffnetconfDns_eq {file : List UInt8} (hne : file ≠ []) (hsize : file.length ≤ 4096) :
    ffnetconfDns (some file) =
      some (0, ⟨packed ((file.splitOn 0x0a).filterMap dnsLine),
        ((file.splitOn 0x0a).filterMap dnsLine).length⟩) := by
  have htake : file.take (4 * 1024) = file := List.take_of_length_le hsize
  have hloop := dnsLoop_eq (file.length + 1) file [] 0 (Nat.lt_add_one _)
  rw [List.nil_append, Nat.zero_add] at hloop
  simp only [ffnetconfDns, htake, if_neg hne, hloop, dnsLayout_packed]

/-- **Which files are read right.**  The function never stores outside of the block and leaves no
    byte of it free; the addresses are the second tokens of the `nameserver` lines exactly if every
    line that it takes an address from is plain. -/
theorem ffnetconfDns_iff (file : List UInt8) (hsize : file.length ≤ 4096) :
    ∃ rc conf, ffnetconfDns (some file) = some (rc, conf) ∧ Cell.free ∉ conf.addrs ∧
      (DnsYields conf (tokenServers file) ↔
        ∀ line ∈ file.splitOn 0x0a, ServerLine line → PlainServer line) := by
  have hlines : ((file.splitOn 0x0a).filterMap dnsLine).map cstr = tokenServers file ↔
      ∀ line ∈ file.splitOn 0x0a, ServerLine line → PlainServer line := by
    have hpicks : ∀ line ∈ file.splitOn 0x0a, (tokenLine line).isSome = true →
        ((dnsLine line).map cstr).isSome = true := by
      intro line _ hsome
      rw [Option.isSome_map, dnsLine_isSome_iff]
      exact serverLine_of_token hsome
    rw [List.map_filterMap, tokenServers, filterMap_eq_iff hpicks]
    exact forall₂_congr fun line _ => line_agrees_iff line
  by_cases hne : file = []
  · subst hne
    refine ⟨-1, ⟨[], 0⟩, rfl, by simp, ?_⟩
    rw [← hlines]
    exact dnsYields_iff [] _
  · refine ⟨0, _, ffnetconfDns_eq hne hsize, packed_filled _, ?_⟩
    rw [dnsYields_iff]
    exact hlines

/-- `"nameserver  1.1.1.1"`, with two blanks. -/
def twoBlanks : List UInt8 := nameserver ++ [0x20, 0x20, 0x31, 0x2e, 0x31, 0x2e, 0x31, 0x2e, 0x31, 0x0a]

/-- Two blanks: the address is the empty string. -/
theorem ffnetconfDns_two_blanks :
    tokenServers twoBlanks = [[0x31, 0x2e, 0x31, 0x2e, 0x31, 0x2e, 0x31]] ∧
      ∃ conf, ffnetconfDns (some twoBlanks) = some (0, conf) ∧ dnsAddr conf 0 = some [] ∧
        ¬ DnsYields conf (tokenServers twoBlanks) := by
  have hwant : tokenServers twoBlanks = [[0x31, 0x2e, 0x31, 0x2e, 0x31, 0x2e, 0x31]] := by decide +kernel
  have hread : ffnetconfDns (some twoBlanks) = some (0, ⟨ptrCells 8 ++ [.byte 0], 1⟩) := by decide +kernel
  have haddr : dnsAddr ⟨ptrCells 8 ++ [.byte 0], 1⟩ 0 = some [] := by decide +kernel
  refine ⟨hwant, _, hread, haddr, ?_⟩
  intro hyields
  rw [hwant] at hyields
  have hfirst := hyields.2 0 _ rfl
  rw [haddr] at hfirst
  cases hfirst

/-- `"nameserver 1\n\toptions x\n\tnameserver 2 y"`: two plain lines of three. -/
def twoServers : List UInt8 :=
  nameserver ++ [0x20, 0x31, 0x0a] ++
    [0x09, 0x6f, 0x70, 0x74, 0x69, 0x6f, 0x6e, 0x73, 0x20, 0x78, 0x0a] ++
    ([0x09] ++ nameserver ++ [0x20, 0x32, 0x20, 0x79])

theorem ffnetconfDns_two_servers :
    ∃ rc conf, ffnetconfDns (some twoServers) = some (rc, conf) ∧ Cell.free ∉ conf.addrs ∧
      (DnsYields conf [[0x31], [0x32]] ↔
        ∀ line ∈ twoServers.splitOn 0x0a, ServerLine line → PlainServer line) := by
  have hwant : tokenServers twoServers = [[0x31], [0x32]] := by decide +kernel
  have h := ffnetconfDns_iff twoServers (by decide)
  rw [hwant] at h
  exact h

end FFSys.Netconf
