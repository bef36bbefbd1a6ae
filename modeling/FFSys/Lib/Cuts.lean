import Mathlib.Data.List.Chain
import Mathlib.Data.List.TakeWhile

/-!
# Cutting a list at its separators

* `takeWhile_terminated`, `dropWhile_terminated` — a string and its terminator.
* `cuts isSep l off` — the prefixes of `l` that end just before a separator located after `off`, or
  at the end of `l`, from the shortest to the longest.
* `scanCuts` — the same, one element after another; `cuts_eq_scan` — a separator at `off` itself is
  skipped.
* `mem_cuts`, `head_cuts`, `chain_scanCuts` — what a cut is, the first one, and from one to the
  next.
* `cuts_map` — cuts of an encoding: elements become words, and no word but that of a separator has
  one in it.
* `cuts_length_eq_iff` — whether a later `off` leaves out a cut.
-/

set_option autoImplicit false

namespace FFSys.Lib

variable {α β : Type} {isSep : α → Bool}

/-! ## Terminators -/

section Terminator

variable [DecidableEq α] {nul : α} {s : List α}

theorem ne_of_not_mem (h : nul ∉ s) : ∀ c ∈ s, (c != nul) = true := by
  intro c hc
  rw [bne_iff_ne]
  rintro rfl
  exact h hc

/-- The string before its terminator. -/
theorem takeWhile_terminated (h : nul ∉ s) (rest : List α) :
    (s ++ nul :: rest).takeWhile (· != nul) = s := by
  rw [List.takeWhile_append_of_pos (ne_of_not_mem h), List.takeWhile_cons_of_neg (by simp),
    List.append_nil]

theorem dropWhile_terminated (h : nul ∉ s) (rest : List α) :
    (s ++ nul :: rest).dropWhile (· != nul) = nul :: rest := by
  rw [List.dropWhile_append_of_pos (ne_of_not_mem h), List.dropWhile_cons_of_neg (by simp)]

end Terminator

/-! ## Cuts -/

/-- Where a cut may end. -/
def isCut (isSep : α → Bool) (l : List α) (off p : Nat) : Bool :=
  decide (p = l.length) || (decide (off < p) && l[p]?.any isSep)

def cuts (isSep : α → Bool) (l : List α) (off : Nat) : List (List α) :=
  ((List.range (l.length + 1)).filter (isCut isSep l off)).map l.take

/-- The cuts of `pre ++ rest` that end in `rest`. -/
def scanCuts (isSep : α → Bool) (pre : List α) : List α → List (List α)
  | [] => [pre]
  | c :: rest =>
    if isSep c then pre :: scanCuts isSep (pre ++ [c]) rest else scanCuts isSep (pre ++ [c]) rest

/-- Where the scan starts: a separator at `off` is skipped. -/
def scanStart (isSep : α → Bool) (l : List α) (off : Nat) : Nat :=
  if l[off]?.any isSep then off + 1 else off

theorem scanStart_le {l : List α} {off : Nat} (h : off ≤ l.length) :
    scanStart isSep l off ≤ l.length := by
  unfold scanStart
  split
  · rename_i hsep
    cases hget : l[off]? with
    | none => simp [hget] at hsep
    | some c => exact (List.getElem?_eq_some_iff.mp hget).1
  · exact h

/-- The scan from position `p` lists the ends that are left. -/
theorem scan_eq_filter (l : List α) :
    ∀ (rest : List α) (p : Nat), p + rest.length = l.length → l.drop p = rest →
    scanCuts isSep (l.take p) rest =
      ((List.range' p (rest.length + 1)).filter fun q =>
        decide (q = l.length) || l[q]?.any isSep).map l.take := by
  intro rest
  induction rest with
  | nil =>
    intro p hp hdrop
    simp only [List.length_nil, Nat.add_zero] at hp
    simp [scanCuts, hp]
  | cons c rest ih =>
    intro p hp hdrop
    rw [List.length_cons] at hp
    have hget : l[p]? = some c := by
      rw [← List.head?_drop, hdrop]
      rfl
    have htake : l.take p ++ [c] = l.take (p + 1) := by
      rw [List.take_add_one, hget]
      rfl
    have hnext : l.drop (p + 1) = rest := by
      rw [← List.drop_drop, hdrop]
      rfl
    have hne : p ≠ l.length := by omega
    rw [scanCuts, htake, ih (p + 1) (by omega) hnext, List.length_cons,
      List.range'_succ (n := rest.length + 1), List.filter_cons]
    simp only [hne, hget, decide_false, Bool.false_or, Option.any_some]
    split
    · rw [List.map_cons]
    · rfl

/-- No cut ends before the start of the scan. -/
theorem isCut_before {l : List α} {off q : Nat} (h : off ≤ l.length)
    (hq : q < scanStart isSep l off) :
    isCut isSep l off q = false := by
  have hle := @scanStart_le α isSep l off h
  have hoff : ¬ off < q := by
    unfold scanStart at hq
    split at hq <;> omega
  have hne : q ≠ l.length := by omega
  simp [isCut, hne, hoff]

theorem isCut_after {l : List α} {off q : Nat} (hq : scanStart isSep l off ≤ q) :
    isCut isSep l off q = (decide (q = l.length) || l[q]?.any isSep) := by
  rcases Nat.lt_or_ge off q with hoff | hoff
  · simp [isCut, hoff]
  · unfold scanStart at hq
    split at hq
    · omega
    · rename_i hsep
      have hq' : q = off := by omega
      simp [isCut, hq', hsep]

/-- **The cuts, scanned.**  The scan goes over the list once, from `off` or just after a separator
    there. -/
theorem cuts_eq_scan {l : List α} {off : Nat} (h : off ≤ l.length) :
    cuts isSep l off =
      scanCuts isSep (l.take (scanStart isSep l off)) (l.drop (scanStart isSep l off)) := by
  have hle := @scanStart_le α isSep l off h
  have hlen : (l.drop (scanStart isSep l off)).length = l.length - scanStart isSep l off :=
    List.length_drop
  have hrange : List.range (l.length + 1) = List.range' 0 (scanStart isSep l off) ++
      List.range' (scanStart isSep l off) ((l.drop (scanStart isSep l off)).length + 1) := by
    have happ := @List.range'_append_1 0 (scanStart isSep l off)
      (l.length - scanStart isSep l off + 1)
    rw [Nat.zero_add] at happ
    rw [hlen, happ, List.range_eq_range']
    congr 1
    omega
  have hskip : (List.range' 0 (scanStart isSep l off)).filter (isCut isSep l off) = [] := by
    rw [List.filter_eq_nil_iff]
    intro q hq
    rw [List.mem_range'_1] at hq
    rw [isCut_before h (by omega)]
    exact Bool.false_ne_true
  rw [scan_eq_filter l _ _ (by omega) rfl, cuts, hrange, List.filter_append, hskip, List.nil_append]
  congr 1
  refine List.filter_congr fun q hq => ?_
  rw [List.mem_range'_1] at hq
  exact isCut_after hq.1

theorem mem_cuts {l q : List α} {off : Nat} (h : q ∈ cuts isSep l off) :
    q = l ∨ ∃ c rest, off < q.length ∧ isSep c = true ∧ l = q ++ c :: rest := by
  obtain ⟨p, hp, rfl⟩ := List.mem_map.mp h
  have hcut := (List.mem_filter.mp hp).2
  unfold isCut at hcut
  simp only [Bool.or_eq_true, Bool.and_eq_true, decide_eq_true_eq] at hcut
  rcases hcut with rfl | ⟨hoff, hsep⟩
  · exact Or.inl List.take_length
  · cases hget : l[p]? with
    | none => simp [hget] at hsep
    | some c =>
      obtain ⟨hlt, rfl⟩ := List.getElem?_eq_some_iff.mp hget
      rw [hget] at hsep
      refine Or.inr ⟨l[p], l.drop (p + 1), ?_, hsep, ?_⟩
      · rw [List.length_take]
        omega
      · rw [← List.drop_eq_getElem_cons hlt, List.take_append_drop]

theorem self_mem_cuts (isSep : α → Bool) (l : List α) (off : Nat) : l ∈ cuts isSep l off := by
  refine List.mem_map.mpr ⟨l.length, List.mem_filter.mpr ⟨?_, ?_⟩, List.take_length⟩
  · exact List.mem_range.mpr (Nat.lt_succ_self _)
  · simp [isCut]

/-! ## From one cut to the next -/

/-- No separators. -/
def NoSep (isSep : α → Bool) (seg : List α) : Prop := ∀ c ∈ seg, isSep c = false

theorem head_scanCuts (rest : List α) : ∀ pre, ∃ seg, NoSep isSep seg ∧
    (scanCuts isSep pre rest).head? = some (pre ++ seg) := by
  induction rest with
  | nil => exact fun pre => ⟨[], fun c hc => (by cases hc), by simp [scanCuts]⟩
  | cons c rest ih =>
    intro pre
    rw [scanCuts]
    split
    · exact ⟨[], fun c hc => (by cases hc), by simp⟩
    · rename_i hc
      obtain ⟨seg, hseg, hhead⟩ := ih (pre ++ [c])
      refine ⟨c :: seg, fun x hx => ?_, by rw [hhead]; simp⟩
      rcases List.mem_cons.mp hx with rfl | hx
      · simpa using hc
      · exact hseg x hx

/-- The first cut is the list up to `off`, maybe a separator, and what has none. -/
theorem head_cuts {l : List α} {off : Nat} (h : off ≤ l.length) : ∃ seg, NoSep isSep seg ∧
    ((cuts isSep l off).head? = some (l.take off ++ seg) ∨
      ∃ c, isSep c = true ∧ (cuts isSep l off).head? = some (l.take off ++ c :: seg)) := by
  rw [cuts_eq_scan h]
  obtain ⟨seg, hseg, hhead⟩ :=
    @head_scanCuts α isSep (l.drop (scanStart isSep l off)) (l.take (scanStart isSep l off))
  refine ⟨seg, hseg, ?_⟩
  rw [hhead, scanStart]
  split
  · rename_i hsep
    cases hget : l[off]? with
    | none => simp [hget] at hsep
    | some c =>
      rw [hget] at hsep
      refine Or.inr ⟨c, hsep, ?_⟩
      rw [List.take_add_one, hget]
      simp
  · exact Or.inl rfl

/-- Each cut but the first is the one before, a separator, and what has none. -/
theorem chain_scanCuts (rest : List α) : ∀ pre,
    List.IsChain (fun q q' => ∃ c seg, isSep c = true ∧ NoSep isSep seg ∧ q' = q ++ c :: seg)
      (scanCuts isSep pre rest) := by
  induction rest with
  | nil => exact fun pre => List.isChain_singleton _
  | cons c rest ih =>
    intro pre
    rw [scanCuts]
    split
    · rename_i hc
      refine List.isChain_cons.mpr ⟨fun q' hq' => ?_, ih _⟩
      obtain ⟨seg, hseg, hhead⟩ := @head_scanCuts α isSep rest (pre ++ [c])
      rw [Option.mem_def, hhead, Option.some.injEq] at hq'
      exact ⟨c, seg, hc, hseg, by rw [← hq']; simp⟩
    · exact ih _

/-! ## Encodings -/

/-- Elements without a separator only lengthen the next cut. -/
theorem scanCuts_append {us : List α} (h : ∀ u ∈ us, isSep u = false) (pre rest : List α) :
    scanCuts isSep pre (us ++ rest) = scanCuts isSep (pre ++ us) rest := by
  induction us generalizing pre with
  | nil => simp
  | cons u us ih =>
    rw [List.cons_append, scanCuts, if_neg (by simp [h u List.mem_cons_self]),
      ih (fun v hv => h v (List.mem_cons_of_mem _ hv)), List.append_assoc, List.singleton_append]

/-- Where a separator is encoded as one separator, and the words of other elements have none, the
    cuts of the encoding are the encodings of the cuts. -/
theorem scanCuts_map {isSepB : β → Bool} {enc : α → List β} (rest : List α)
    (hsep : ∀ c ∈ rest, isSep c = true → ∃ u, enc c = [u] ∧ isSepB u = true)
    (hword : ∀ c ∈ rest, isSep c = false → ∀ u ∈ enc c, isSepB u = false) :
    ∀ pre, scanCuts isSepB (pre.flatMap enc) (rest.flatMap enc) =
      (scanCuts isSep pre rest).map fun p => p.flatMap enc := by
  induction rest with
  | nil => intro pre; simp [scanCuts]
  | cons c rest ih =>
    intro pre
    have hrest := ih (fun x hx => hsep x (List.mem_cons_of_mem _ hx))
      (fun x hx => hword x (List.mem_cons_of_mem _ hx))
    have hnext : pre.flatMap enc ++ enc c = (pre ++ [c]).flatMap enc := by simp
    rw [List.flatMap_cons, scanCuts]
    split
    · rename_i hc
      obtain ⟨u, hu, hus⟩ := hsep c List.mem_cons_self hc
      rw [hu, List.singleton_append, scanCuts, if_pos hus, ← hu, hnext, hrest, List.map_cons]
    · rename_i hc
      rw [scanCuts_append (hword c List.mem_cons_self (by simpa using hc)), hnext, hrest]

/-- From the end there is one cut. -/
theorem cuts_end (isSep : α → Bool) (l : List α) : cuts isSep l l.length = [l] := by
  have hstart : scanStart isSep l l.length = l.length := by simp [scanStart]
  rw [cuts_eq_scan (Nat.le_refl _), hstart, List.take_length, List.drop_length, scanCuts]

/-- From a separator. -/
theorem cuts_sep {a b : List α} {c : α} (hc : isSep c = true) :
    cuts isSep (a ++ c :: b) a.length = scanCuts isSep (a ++ [c]) b := by
  have hstart : scanStart isSep (a ++ c :: b) a.length = (a ++ [c]).length := by simp [scanStart, hc]
  have hsplit : a ++ c :: b = a ++ [c] ++ b := by simp
  rw [cuts_eq_scan (by simp), hstart, hsplit, List.take_left, List.drop_left]

/-- **Cuts of an encoding**, from the end of `a` in both. -/
theorem cuts_map {isSepB : β → Bool} {enc : α → List β} {a b : List α}
    (hb : b = [] ∨ ∃ c b', b = c :: b' ∧ isSep c = true)
    (hsep : ∀ c ∈ b, isSep c = true → ∃ u, enc c = [u] ∧ isSepB u = true)
    (hword : ∀ c ∈ b, isSep c = false → ∀ u ∈ enc c, isSepB u = false) :
    cuts isSepB ((a ++ b).flatMap enc) (a.flatMap enc).length =
      (cuts isSep (a ++ b) a.length).map fun p => p.flatMap enc := by
  rcases hb with rfl | ⟨c, b', rfl, hc⟩
  · rw [List.append_nil, cuts_end, cuts_end]
    rfl
  · obtain ⟨u, hu, hus⟩ := hsep c List.mem_cons_self hc
    have hrest := scanCuts_map b' (fun x hx => hsep x (List.mem_cons_of_mem _ hx))
      (fun x hx => hword x (List.mem_cons_of_mem _ hx)) (a ++ [c])
    rw [List.flatMap_append, List.flatMap_cons, hu, List.singleton_append, cuts_sep hus,
      cuts_sep hc, ← hrest, List.flatMap_append, List.flatMap_singleton, hu]

/-! ## Two offsets -/

theorem cuts_later {l : List α} {k off : Nat} (hk : k ≤ off)
    (hnone : ∀ p, k < p → p ≤ off → l[p]?.any isSep = false) : cuts isSep l off = cuts isSep l k := by
  unfold cuts
  congr 1
  refine List.filter_congr fun p hp => ?_
  unfold isCut
  rcases Nat.lt_or_ge off p with h | h
  · have hkp : k < p := by omega
    simp [h, hkp]
  · rcases Nat.lt_or_ge k p with hkp | hkp
    · simp [hnone p hkp h]
    · have h1 : ¬ off < p := by omega
      have h2 : ¬ k < p := by omega
      simp [h1, h2]

/-- **A later offset** leaves out a cut exactly if there is a separator in between. -/
theorem cuts_length_eq_iff {l : List α} {k off : Nat} (hk : k ≤ off) :
    (cuts isSep l off).length = (cuts isSep l k).length ↔
      ∀ p, k < p → p ≤ off → l[p]?.any isSep = false := by
  refine ⟨fun hlen p hkp hpo => ?_, fun hnone => by rw [cuts_later hk hnone]⟩
  have himp : ∀ p, isCut isSep l off p = true → isCut isSep l k p = true := by
    intro p hp
    unfold isCut at hp ⊢
    simp only [Bool.or_eq_true, Bool.and_eq_true, decide_eq_true_eq] at hp ⊢
    rcases hp with h | ⟨h1, h2⟩
    · exact Or.inl h
    · exact Or.inr ⟨by omega, h2⟩
  simp only [cuts, List.length_map] at hlen
  have heq := (List.monotone_filter_right (List.range (l.length + 1)) himp).eq_of_length hlen
  by_contra hsep
  rw [Bool.not_eq_false] at hsep
  have hlt : p < l.length := by
    cases hget : l[p]? with
    | none => simp [hget] at hsep
    | some c => exact (List.getElem?_eq_some_iff.mp hget).1
  have hmem : p ∈ (List.range (l.length + 1)).filter (isCut isSep l k) := by
    rw [List.mem_filter]
    exact ⟨List.mem_range.mpr (by omega), by simp [isCut, hkp, hsep]⟩
  rw [← heq, List.mem_filter] at hmem
  have hne : p ≠ l.length := by omega
  have hno : ¬ off < p := by omega
  simp [isCut, hne, hno] at hmem

end FFSys.Lib
