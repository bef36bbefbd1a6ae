import FFSys.Path.NormTable

/-!
# `ffpath_norm` runs the component stack

The second loop of `ffpath_norm` has an output buffer and an index into the input table where
`Walk` has a stack.  `Sim` ties the two together: the buffer holds `render` of the stack and
`cur` is `seen - 2 * removed`.

* `normPart_comp` — the loop body in terms of the component it is at.
* `normPart_sim` — as long as the table is exact, one iteration is one step of the walk.
* `normLoop_sim` — hence the loop ends like the walk: with `-1` where the walk stops, otherwise
  with the rendered stack in the buffer; and all stores stay inside of the buffer.
-/

set_option autoImplicit false

namespace FFSys.Path

open FFSys.Lib

/-! ## Rendered stacks -/

theorem intercalate_concat {α : Type} (sep : List α) {l : List (List α)} (h : l ≠ []) (x : List α) :
    sep.intercalate (l ++ [x]) = sep.intercalate l ++ sep ++ x := by
  induction l with
  | nil => exact absurd rfl h
  | cons a l ih =>
    cases l with
    | nil => simp
    | cons b l =>
      have := ih (by simp)
      simp only [List.cons_append, List.intercalate_cons_cons, List.append_assoc] at this ⊢
      rw [this]

/-- Number of separators in front of the next component. -/
def sepLen (st : List Comp) : Nat := if st = [] then 0 else 1

@[simp] theorem render_nil (root : List Byte) (slash : Byte) : render root slash [] = root := by
  simp [render]

theorem render_singleton (root : List Byte) (slash : Byte) (c : Comp) :
    render root slash [c] = root ++ c := by
  simp [render]

theorem render_cons (root : List Byte) (slash : Byte) {st : List Comp} (h : st ≠ []) (c : Comp) :
    render root slash (c :: st) = render root slash st ++ [slash] ++ c := by
  simp only [render, List.reverse_cons]
  rw [intercalate_concat _ (by simpa using h)]
  simp

theorem render_cons_length (root : List Byte) (slash : Byte) (st : List Comp) (c : Comp) :
    (render root slash (c :: st)).length = (render root slash st).length + sepLen st + c.length := by
  by_cases h : st = []
  · subst h; simp [render_singleton, sepLen]
  · rw [render_cons _ _ h]; simp [sepLen, h]; omega

theorem root_le_render (root : List Byte) (slash : Byte) (st : List Comp) :
    root.length ≤ (render root slash st).length := by
  simp [render]

theorem render_length_eq_root (root : List Byte) (slash : Byte) {st : List Comp}
    (hne : ∀ c ∈ st, c ≠ []) : (render root slash st).length = root.length ↔ st = [] := by
  cases st with
  | nil => simp
  | cons c st =>
    have hc : 0 < c.length := List.length_pos_of_ne_nil (hne c List.mem_cons_self)
    have := root_le_render root slash st
    rw [render_cons_length]
    simp only [reduceCtorEq, iff_false]
    omega

theorem render_tail_length (root : List Byte) (slash : Byte) (st : List Comp) :
    (render root slash st.tail).length + sepLen st.tail ≤
      (render root slash st).length + sepLen st := by
  cases st with
  | nil => simp
  | cons t below =>
    have := render_cons_length root slash below t
    simp only [List.tail_cons]
    omega

/-- A component makes the path longer by at most itself and a separator. -/
theorem stackStep_length (root : List Byte) (slash : Byte) (rooted : Bool) (st : List Comp) (c : Comp) :
    (render root slash (stackStep rooted st c)).length + sepLen (stackStep rooted st c) ≤
      (render root slash st).length + sepLen st + c.length + 1 := by
  cases hm : moveOf rooted st c with
  | keep => rw [stackStep_eq hm]; simp only [Move.apply]; omega
  | push =>
    rw [stackStep_eq hm, Move.apply, render_cons_length]
    simp only [sepLen, reduceCtorEq, if_false]
    omega
  | pop =>
    have := render_tail_length root slash st
    rw [stackStep_eq hm, Move.apply]
    omega
  | replace =>
    have := render_tail_length root slash st
    rw [stackStep_eq hm, Move.apply, render_cons_length]
    simp only [sepLen, reduceCtorEq, if_false] at this ⊢
    omega

/-! ## The buffer -/

theorem move_k (s : NormSt) (i : Nat) (bs : List Byte) : (s.move i bs).k = s.k := by
  induction bs generalizing s i with
  | nil => rfl
  | cons b bs ih => rw [NormSt.move, ih]; rfl

theorem move_cur (s : NormSt) (i : Nat) (bs : List Byte) : (s.move i bs).cur = s.cur := by
  induction bs generalizing s i with
  | nil => rfl
  | cons b bs ih => rw [NormSt.move, ih]; rfl

theorem move_lens (s : NormSt) (i : Nat) (bs : List Byte) : (s.move i bs).lens = s.lens := by
  induction bs generalizing s i with
  | nil => rfl
  | cons b bs ih => rw [NormSt.move, ih]; rfl

theorem mem_move_stores {s : NormSt} {i : Nat} {bs : List Byte} {x : Nat} :
    x ∈ (s.move i bs).stores ↔ x ∈ s.stores ∨ (i ≤ x ∧ x < i + bs.length) := by
  induction bs generalizing s i with
  | nil =>
    simp only [NormSt.move, List.length_nil, Nat.add_zero]
    constructor
    · exact Or.inl
    · rintro (h | h)
      · exact h
      · omega
  | cons b bs ih =>
    rw [NormSt.move, ih]
    simp only [NormSt.store, List.mem_cons, List.length_cons]
    constructor
    · rintro ((rfl | h) | h)
      · right; omega
      · exact Or.inl h
      · right; omega
    · rintro (h | h)
      · exact Or.inl (Or.inr h)
      · by_cases hx : x = i
        · exact Or.inl (Or.inl hx)
        · right; omega

/-- What `normEmit` does to `k` and, at least, stores. -/
theorem normEmit_cases (c : NormCfg) (s : NormSt) (off plen : Nat) :
    normEmit c s off plen = .stop (.ret (-1)) s ∨
      ∃ s', normEmit c s off plen = .next s' ∧
        s'.k = s.k + (if s.k ≠ c.root then 1 else 0) + BitVec.ofNat 32 plen ∧
        (s.k ≠ c.root → s.k.toNat ∈ s'.stores) ∧ ∀ x ∈ s.stores, x ∈ s'.stores := by
  unfold normEmit
  simp only
  generalize (s.k + (if s.k ≠ c.root then 1 else 0) + BitVec.ofNat 32 plen).toNat = n
  by_cases hcap : n > c.cap
  · exact Or.inl (by rw [if_pos hcap])
  · right
    rw [if_neg hcap]
    refine ⟨_, rfl, ?_⟩
    by_cases hk : s.k ≠ c.root
    · rw [if_pos hk, if_pos hk]
      refine ⟨?_, fun _ => ?_, fun x hx => ?_⟩
      · simp [NormSt.addK, move_k, NormSt.store]
      · exact mem_move_stores.mpr (Or.inl List.mem_cons_self)
      · exact mem_move_stores.mpr (Or.inl (List.mem_cons_of_mem _ hx))
    · rw [if_neg hk, if_neg hk]
      refine ⟨?_, fun h => absurd h hk, fun x hx => ?_⟩
      · simp [NormSt.addK, move_k]
      · exact mem_move_stores.mpr (Or.inl hx)

theorem move_dst_before (s : NormSt) {i : Nat} (bs : List Byte) {x : Nat} (h : x < i) :
    (s.move i bs).dst x = s.dst x := by
  induction bs generalizing s i with
  | nil => rfl
  | cons b bs ih =>
    rw [NormSt.move, ih _ (by omega)]
    simp [NormSt.store, show x ≠ i by omega]

theorem move_dst (s : NormSt) (i : Nat) {bs : List Byte} {j : Nat} {b : Byte}
    (h : bs[j]? = some b) : (s.move i bs).dst (i + j) = b := by
  induction bs generalizing s i j with
  | nil => simp at h
  | cons a bs ih =>
    rw [NormSt.move]
    cases j with
    | zero =>
      simp only [List.getElem?_cons_zero, Option.some.injEq] at h
      rw [move_dst_before _ _ (by omega)]
      simp [NormSt.store, h]
    | succ j =>
      rw [List.getElem?_cons_succ] at h
      rw [show i + (j + 1) = i + 1 + j by omega]
      exact ih _ _ h

/-- The stores are inside of the buffer and `k` never went below the root. -/
structure Safe (cap rootLen : Nat) (s : NormSt) : Prop where
  stores_lt : ∀ i ∈ s.stores, i < cap
  lens_ge : ∀ x ∈ s.lens, (rootLen : Int) ≤ x

/-- The buffer holds exactly `out`. -/
structure Buf (cap rootLen : Nat) (s : NormSt) (out : List Byte) : Prop extends Safe cap rootLen s where
  k_eq : s.k.toNat = out.length
  dst_eq : ∀ i b, out[i]? = some b → s.dst i = b
  out_le : out.length ≤ cap
  root_le : rootLen ≤ out.length

section Buffer

variable {cap rootLen : Nat} {s : NormSt} {out : List Byte}

theorem Buf.append (B : Buf cap rootLen s out) (bs : List Byte) (hcap : out.length + bs.length ≤ cap)
    (hlen : out.length + bs.length < 2 ^ 32) :
    Buf cap rootLen ((s.move s.k.toNat bs).addK bs.length) (out ++ bs) := by
  have hk := B.k_eq
  have hr := B.root_le
  constructor
  · constructor
    · intro i hi
      rcases mem_move_stores.mp hi with hi | hi
      · exact B.stores_lt i hi
      · omega
    · intro x hx
      simp only [NormSt.addK, move_k, move_lens, List.mem_cons] at hx
      rcases hx with rfl | hx
      · omega
      · exact B.lens_ge x hx
  · simp only [NormSt.addK, move_k, BitVec.toNat_add, BitVec.toNat_ofNat, List.length_append]
    omega
  · intro i b hi
    simp only [NormSt.addK]
    by_cases h : i < out.length
    · rw [move_dst_before _ _ (by omega)]
      exact B.dst_eq i b (by rwa [List.getElem?_append_left h] at hi)
    · rw [List.getElem?_append_right (by omega)] at hi
      have := move_dst s s.k.toNat hi
      rwa [show s.k.toNat + (i - out.length) = i by omega] at this
  · simpa using hcap
  · simp; omega

theorem Buf.sub {a b : List Byte} (B : Buf cap rootLen s (a ++ b)) (hroot : rootLen ≤ a.length) :
    Buf cap rootLen (s.subK b.length) a := by
  have hk := B.k_eq
  have hle := B.out_le
  have hlt := s.k.isLt
  simp only [List.length_append] at hk hle
  constructor
  · refine ⟨B.stores_lt, ?_⟩
    intro x hx
    simp only [NormSt.subK, List.mem_cons] at hx
    rcases hx with rfl | hx
    · omega
    · exact B.lens_ge x hx
  · simp only [NormSt.subK, BitVec.toNat_sub, BitVec.toNat_ofNat]
    omega
  · intro i x hi
    apply B.dst_eq i x
    rw [List.getElem?_append_left (by
      have := List.getElem?_eq_some_iff.mp hi
      exact this.1)]
    exact hi
  · omega
  · exact hroot

theorem Buf.withCur (B : Buf cap rootLen s out) (cur : BitVec 32) :
    Buf cap rootLen { s with cur := cur } out :=
  ⟨⟨B.stores_lt, B.lens_ge⟩, B.k_eq, B.dst_eq, B.out_le, B.root_le⟩

end Buffer

/-! ## The loop body, component by component -/

/-- The configuration of the second loop for the components `cs` behind the root `rb`. -/
structure CfgOK (c : NormCfg) (rb : List Byte) (p : Nat) (cs : List Comp) : Prop where
  table : Table c.src p cs c.parts
  root_eq : c.root.toNat = rb.length
  root_le : rb.length ≤ 3
  count : cs.length < PARTS_COUNT
  total : startOf 0 cs cs.length ≤ 4096

variable {c : NormCfg} {rb : List Byte} {p : Nat} {cs : List Comp}

/-- The reading of the entry at `cur`, in terms of the component it belongs to. -/
def parentPart (c : NormCfg) (cs : List Comp) (off plen : Nat) (s : NormSt) : NormStep :=
  match s.cur.toNat with
  | 0 => .stop .fault s
  | n + 1 =>
    match cs[n]? with
    | none => .stop .fault s
    | some e =>
      let d := e.length + if n = 0 then 0 else 1
      match kindOf e with
      | .dot => normEmit c (s.subK d) off plen
      | .dotdot => normEmit c s off plen
      | .name => .next { s.subK d with cur := s.cur - 2 }

/-- The body of the second loop in terms of the component it is at. -/
def compPart (c : NormCfg) (cs : List Comp) (off : Nat) (comp : Comp) (s : NormSt) : NormStep :=
  if comp = [] then .next s
  else match kindOf comp with
    | .dot => if s.k ≠ 0 then .next s else normEmit c s off comp.length
    | .dotdot =>
      if s.k = c.root then
        if c.strict then .stop (.ret (-1)) s
        else if c.root ≠ 0 then .next s
        else normEmit c s off comp.length
      else parentPart c cs off comp.length s
    | .name => normEmit c s off comp.length

theorem normParent_comp (H : CfgOK c rb p cs) (s : NormSt) (off plen : Nat) :
    normParent c s off plen = parentPart c cs off plen s := by
  have hT := H.table
  have hlen := hT.length
  have hcount := H.count
  unfold normParent parentPart
  cases hcur : s.cur.toNat with
  | zero =>
    -- `parts[cur - 1]` is `parts[2^32 - 1]`
    have h1 : (s.cur - 1).toNat = 2 ^ 32 - 1 := by
      rw [BitVec.toNat_sub, hcur]; rfl
    have h2 : c.parts[(s.cur - 1).toNat]? = none := by
      rw [List.getElem?_eq_none_iff, h1, hlen]
      simp only [PARTS_COUNT] at hcount
      omega
    rw [h2, hT.getElem?_zero]
  | succ n =>
    have h1 : (s.cur - 1).toNat = n := by bv_omega
    rw [h1]
    cases he : cs[n]? with
    | none =>
      have : c.parts[n + 1]? = none := by
        rw [List.getElem?_eq_none_iff] at he ⊢
        omega
      simp [this, he]
    | some e =>
      obtain ⟨q, hq, hqlow, hq12, hq13⟩ := hT.entry he
      have hn : n < cs.length := (List.getElem?_eq_some_iff.mp he).1
      obtain ⟨q', hq', hq'low⟩ := hT.low_before (Nat.le_of_lt hn)
      have hd : (q &&& 0x0fff) - (q' &&& 0x0fff) = e.length + if n = 0 then 0 else 1 := by
        rw [hqlow, ← hq'low]
        split <;> omega
      simp only [hq, hq', hd, he]
      cases hk : kindOf e with
      | dot => rw [if_pos (hq12.mpr hk)]
      | dotdot => rw [if_neg (by rw [hq12, hk]; simp), if_pos (hq13.mpr hk)]
      | name => rw [if_neg (by rw [hq12, hk]; simp), if_neg (by rw [hq13, hk]; simp)]

theorem normPart_comp (H : CfgOK c rb p cs) {j : Nat} {comp : Comp} (hj : cs[j]? = some comp)
    (s : NormSt) : normPart c (j + 1) s = compPart c cs (startOf p cs j) comp s := by
  have hT := H.table
  obtain ⟨q, hq, hqlow, hq12, hq13⟩ := hT.entry hj
  have hn : j < cs.length := (List.getElem?_eq_some_iff.mp hj).1
  obtain ⟨q', hq', hq'low⟩ := hT.low_before (Nat.le_of_lt hn)
  have hgetq : c.parts.getD (j + 1) 0 = q := by simp [List.getD, hq]
  have hgetq' : c.parts.getD (j + 1 - 1) 0 = q' := by simp [List.getD, hq']
  have hoff : (q' &&& 0x0fff) + (if j + 1 ≠ 1 then 1 else 0) = startOf p cs j := by
    rw [← hq'low]
    by_cases h0 : j = 0 <;> simp [h0]
  have hplen : (q &&& 0x0fff) - (q' &&& 0x0fff) - (if j + 1 ≠ 1 then 1 else 0) = comp.length := by
    rw [hqlow, ← hq'low]
    by_cases h0 : j = 0 <;> simp [h0]
    omega
  unfold normPart compPart
  simp only [hgetq, hgetq', hoff, hplen]
  rw [normParent_comp H]
  by_cases hnil : comp = []
  · simp [hnil]
  · rw [if_neg (by simpa using hnil), if_neg hnil]
    cases hk : kindOf comp with
    | dot => rw [if_pos (hq12.mpr hk)]
    | dotdot => rw [if_neg (by rw [hq12, hk]; simp), if_pos (hq13.mpr hk)]
    | name =>
      rw [if_neg (by rw [hq12, hk]; simp), if_neg (by rw [hq13, hk]; simp)]

/-! ## One step -/

theorem startOf_le_total (cs : List Comp) (j : Nat) :
    startOf 0 cs j ≤ startOf 0 cs cs.length := by
  have h : cs.map (·.length + 1) = (cs.take j).map (·.length + 1) ++ (cs.drop j).map (·.length + 1) := by
    rw [← List.map_append, List.take_append_drop]
  simp only [startOf, List.take_length, Nat.zero_add, h, List.sum_append]
  omega

/-- The capacity test and the stores of a component are `render`'s. -/
theorem normEmit_spec (H : CfgOK c rb p cs) {st : List Comp} {comp : Comp} {s : NormSt} {off : Nat}
    (B : Buf (max c.cap rb.length) rb.length s (render rb c.slash st)) (hne : ∀ x ∈ st, x ≠ [])
    (hbytes : (c.src.drop off).take comp.length = comp)
    (hsmall : (render rb c.slash (comp :: st)).length < 2 ^ 32) :
    (c.cap < (render rb c.slash (comp :: st)).length ∧
      normEmit c s off comp.length = .stop (.ret (-1)) s) ∨
    ((render rb c.slash (comp :: st)).length ≤ c.cap ∧
      ∃ s', normEmit c s off comp.length = .next s' ∧ s'.cur = s.cur ∧
        Buf (max c.cap rb.length) rb.length s' (render rb c.slash (comp :: st))) := by
  have hk := B.k_eq
  have hroot := H.root_eq
  have hlen := render_cons_length rb c.slash st comp
  have hkroot : s.k = c.root ↔ st = [] := by
    rw [← render_length_eq_root rb c.slash hne, ← hk, ← hroot, BitVec.toNat_inj]
  have hsum : (s.k + (if s.k ≠ c.root then 1 else 0) + BitVec.ofNat 32 comp.length).toNat =
      (render rb c.slash (comp :: st)).length := by
    by_cases h : s.k = c.root
    · have hst := hkroot.mp h
      simp only [h, hst, sepLen, ne_eq, not_true_eq_false, ite_false, if_true, Nat.add_zero] at hlen ⊢
      rw [← h]
      simp only [BitVec.ofNat_eq_ofNat, BitVec.toNat_add, BitVec.toNat_ofNat, hst] at hk hsmall ⊢
      omega
    · have hst : st ≠ [] := fun e => h (hkroot.mpr e)
      simp only [h, hst, sepLen, ne_eq, not_false_eq_true, ite_true, if_false] at hlen ⊢
      simp only [BitVec.ofNat_eq_ofNat, BitVec.toNat_add, BitVec.toNat_ofNat] at hk ⊢
      omega
  unfold normEmit
  simp only [hsum]
  by_cases hcap : (render rb c.slash (comp :: st)).length > c.cap
  · left
    exact ⟨hcap, by rw [if_pos hcap]⟩
  · right
    refine ⟨by omega, ?_⟩
    rw [if_neg hcap, hbytes]
    by_cases h : s.k = c.root
    · have hst := hkroot.mp h
      subst hst
      rw [render_singleton, List.length_append] at hsmall hcap
      rw [render_nil] at B
      refine ⟨_, by simp only [h, ne_eq, not_true_eq_false, ite_false]; rfl, by simp [NormSt.addK, move_cur], ?_⟩
      rw [render_singleton]
      have := B.append comp (by omega) (by omega)
      rwa [h] at this
    · have hst : st ≠ [] := fun e => h (hkroot.mpr e)
      rw [render_cons _ _ hst] at hsmall hcap ⊢
      simp only [List.length_append, List.length_singleton] at hsmall hcap
      refine ⟨_, by simp only [h, ne_eq, not_false_eq_true, ite_true]; rfl, ?_, ?_⟩
      · simp [NormSt.addK, NormSt.store, move_cur]
      · have B1 := B.append [c.slash] (by simp; omega) (by simp; omega)
        exact B1.append comp (by simp; omega) (by simp; omega)

/-- The limits under which the loop configuration `c` runs behind the root `rb`. -/
def limitsOf (c : NormCfg) (rb : List Byte) : Limits := ⟨c.strict, c.cap, rb, c.slash⟩

/-- The second loop, before it looks at component `w.seen`, against the walk. -/
structure Sim (c : NormCfg) (rb : List Byte) (cs : List Comp) (s : NormSt) (w : Walk) : Prop where
  buf : Buf (max c.cap rb.length) rb.length s (render rb c.slash w.st)
  cur : s.cur.toNat + 2 * w.removed = w.seen
  ne_nil : ∀ x ∈ w.st, x ≠ []
  len : (render rb c.slash w.st).length + sepLen w.st ≤ rb.length + startOf 0 cs w.seen
  size : w.st.length + 2 * w.removed ≤ w.seen

section Step

variable {s : NormSt} {w : Walk} {comp : Comp}

theorem Sim.k_eq_root (S : Sim c rb cs s w) (H : CfgOK c rb p cs) : s.k = c.root ↔ w.st = [] := by
  rw [← render_length_eq_root rb c.slash S.ne_nil, ← S.buf.k_eq, ← H.root_eq,
    BitVec.toNat_inj]

theorem CfgOK.root_eq_zero (H : CfgOK c rb p cs) : c.root = 0 ↔ rb = [] := by
  rw [← BitVec.toNat_inj, H.root_eq]
  simp

theorem Sim.k_eq_zero (S : Sim c rb cs s w) : s.k = 0 ↔ w.st = [] ∧ rb = [] := by
  have hr := root_le_render rb c.slash w.st
  rw [← BitVec.toNat_inj, S.buf.k_eq, show (0 : BitVec 32).toNat = 0 from rfl]
  constructor
  · intro h
    have hrb : rb = [] := List.length_eq_zero_iff.mp (by omega)
    exact ⟨(render_length_eq_root rb c.slash S.ne_nil).mp (by rw [h, hrb]; rfl), hrb⟩
  · rintro ⟨h1, h2⟩
    rw [h1, h2]; rfl

theorem Sim.small (S : Sim c rb cs s w) (H : CfgOK c rb p cs) (hj : cs[w.seen]? = some comp) :
    (render rb c.slash w.st).length + sepLen w.st + comp.length < 2 ^ 32 := by
  have h1 := S.len
  have h2 := startOf_succ (p := 0) hj
  have h3 := startOf_le_total cs (w.seen + 1)
  have h4 := H.total
  have h5 := H.root_le
  omega

/-- The walk goes on: the buffer and `cur` after one more component. -/
theorem Sim.advance (S : Sim c rb cs s w) (hj : cs[w.seen]? = some comp) {s' : NormSt}
    {rooted : Bool} (hB : Buf (max c.cap rb.length) rb.length s' (render rb c.slash (stackStep rooted w.st comp)))
    (hcur : (s'.cur + 1).toNat + 2 * (w.next rooted comp).removed = w.seen + 1)
    (hne : ∀ x ∈ stackStep rooted w.st comp, x ≠ [])
    (hsize : (stackStep rooted w.st comp).length + 2 * (w.next rooted comp).removed ≤ w.seen + 1) :
    Sim c rb cs { s' with cur := s'.cur + 1 } (w.next rooted comp) := by
  refine ⟨hB.withCur _, hcur, hne, ?_, hsize⟩
  have h1 := S.len
  have h2 := startOf_succ (p := 0) hj
  have h3 := stackStep_length rb c.slash rooted w.st comp
  simp only [Walk.next]
  omega

theorem Sim.cur_lt (S : Sim c rb cs s w) (H : CfgOK c rb p cs) (hj : cs[w.seen]? = some comp) :
    (s.cur + 1).toNat = s.cur.toNat + 1 := by
  have h1 := S.cur
  have h2 := H.count
  have h3 : w.seen < cs.length := (List.getElem?_eq_some_iff.mp hj).1
  simp only [PARTS_COUNT] at h2
  bv_omega

/-- A component that is dropped. -/
theorem Sim.keep (S : Sim c rb cs s w) (H : CfgOK c rb p cs) (hj : cs[w.seen]? = some comp)
    {rooted : Bool} (hm : moveOf rooted w.st comp = .keep) :
    Sim c rb cs { s with cur := s.cur + 1 } (w.next rooted comp) := by
  have hst : stackStep rooted w.st comp = w.st := by simp [stackStep, hm, Move.apply]
  have hrm : (w.next rooted comp).removed = w.removed := by simp [Walk.next, hm]
  have hc := S.cur
  have hs := S.size
  refine S.advance hj ?_ ?_ ?_ ?_
  · rw [hst]; exact S.buf
  · rw [S.cur_lt H hj, hrm]; omega
  · rw [hst]; exact S.ne_nil
  · rw [hst, hrm]; omega

/-- A component that is written behind the stack `st'`: the stack itself, or what is below a
    `"."` that it replaces. -/
theorem Sim.emit (S : Sim c rb cs s w) (H : CfgOK c rb p cs) (hj : cs[w.seen]? = some comp)
    (hnil : comp ≠ []) {rooted : Bool} {st' : List Comp} {s1 : NormSt}
    (hB : Buf (max c.cap rb.length) rb.length s1 (render rb c.slash st')) (hcur : s1.cur = s.cur)
    (hst : stackStep rooted w.st comp = comp :: st') (hpop : moveOf rooted w.st comp ≠ .pop)
    (hsub : ∀ x ∈ st', x ∈ w.st) (hsize : st'.length ≤ w.st.length)
    (hlen : (render rb c.slash st').length + sepLen st' ≤
      (render rb c.slash w.st).length + sepLen w.st) :
    (c.cap < (render rb c.slash (comp :: st')).length ∧
      normEmit c s1 (startOf p cs w.seen) comp.length = .stop (.ret (-1)) s1) ∨
    ((render rb c.slash (comp :: st')).length ≤ c.cap ∧
      ∃ s', normEmit c s1 (startOf p cs w.seen) comp.length = .next s' ∧
        Sim c rb cs { s' with cur := s'.cur + 1 } (w.next rooted comp)) := by
  have hrm : (w.next rooted comp).removed = w.removed := by simp [Walk.next, hpop]
  have hsm := S.small H hj
  have hcl := render_cons_length rb c.slash st' comp
  rcases normEmit_spec H hB (fun x hx => S.ne_nil x (hsub x hx)) (H.table.bytes _ _ hj) (by omega)
    with h | ⟨hle, s', he, hc', hB'⟩
  · exact Or.inl h
  · refine Or.inr ⟨hle, s', he, S.advance hj ?_ ?_ ?_ ?_⟩
    · rw [hst]; exact hB'
    · have := S.cur
      rw [hc', hcur, S.cur_lt H hj, hrm]; omega
    · rw [hst]
      intro x hx
      rcases List.mem_cons.mp hx with rfl | hx
      · exact hnil
      · exact S.ne_nil x (hsub x hx)
    · have := S.size
      rw [hst, hrm, List.length_cons]; omega

/-- Splitting the buffer in front of the top of the stack. -/
theorem render_top (root : List Byte) (slash : Byte) (t : Comp) (below : List Comp) :
    ∃ tail, render root slash (t :: below) = render root slash below ++ tail ∧
      tail.length = t.length + sepLen below := by
  by_cases h : below = []
  · subst h
    exact ⟨t, by simp [render_singleton], by simp [sepLen]⟩
  · refine ⟨[slash] ++ t, by rw [render_cons _ _ h, List.append_assoc], ?_⟩
    simp [sepLen, h]

theorem entryExact_spec {n : Nat} {t : Comp} {below : List Comp}
    (h : entryExact cs n (t :: below) = true) :
    ∃ m e, n = m + 1 ∧ cs[m]? = some e ∧ kindOf e = kindOf t ∧
      (kindOf t ≠ .dotdot → e.length + (if m = 0 then 0 else 1) = t.length + sepLen below) := by
  cases n with
  | zero => simp [entryExact] at h
  | succ m =>
    cases he : cs[m]? with
    | none => simp [entryExact, he] at h
    | some e =>
      simp only [entryExact, he, Bool.and_eq_true, decide_eq_true_eq, Bool.or_eq_true] at h
      refine ⟨m, e, rfl, he, h.1, fun hk => ?_⟩
      rcases h.2 with h2 | h2
      · exact absurd h2 hk
      · exact h2

/-- What a step of the loop has to be, given what the walk does. -/
def StepSim (c : NormCfg) (rb : List Byte) (cs : List Comp) (w : Walk) (comp : Comp)
    (r : NormStep) : Prop :=
  (walkStop (limitsOf c rb) w comp = true ∧
    ∃ s', r = .stop (.ret (-1)) s' ∧ Safe (max c.cap rb.length) rb.length s') ∨
  (walkStop (limitsOf c rb) w comp = false ∧
    ∃ s', r = .next s' ∧
      Sim c rb cs { s' with cur := s'.cur + 1 } (w.next (limitsOf c rb).rooted comp))

theorem Sim.step_keep (S : Sim c rb cs s w) (H : CfgOK c rb p cs) (hj : cs[w.seen]? = some comp)
    (hm : moveOf (limitsOf c rb).rooted w.st comp = .keep)
    (hs : walkStop (limitsOf c rb) w comp = false) : StepSim c rb cs w comp (.next s) :=
  Or.inr ⟨hs, s, rfl, S.keep H hj hm⟩

theorem Sim.step_push (S : Sim c rb cs s w) (H : CfgOK c rb p cs) (hj : cs[w.seen]? = some comp)
    (hnil : comp ≠ []) (hm : moveOf (limitsOf c rb).rooted w.st comp = .push)
    (hs : (c.strict && decide (comp = dotdotComp) && decide (w.st = [])) = false) :
    StepSim c rb cs w comp (normEmit c s (startOf p cs w.seen) comp.length) := by
  have hst : stackStep (limitsOf c rb).rooted w.st comp = comp :: w.st := stackStep_eq hm
  have hws : walkStop (limitsOf c rb) w comp =
      decide (c.cap < (render rb c.slash (comp :: w.st)).length) := by
    rw [walkStop_push hm]
    simp only [limitsOf, hs, Bool.false_or]
    rfl
  rcases S.emit H hj hnil S.buf rfl hst (by simp [hm]) (fun _ h => h) (Nat.le_refl _) (Nat.le_refl _)
    with ⟨hlt, he⟩ | ⟨hle, s', he, hS⟩
  · exact Or.inl ⟨by rw [hws]; simpa using hlt, s, he, S.buf.toSafe⟩
  · exact Or.inr ⟨by rw [hws]; simpa using hle, s', he, hS⟩

/-- A `".."` on a non-empty stack, with an exact table. -/
theorem Sim.step_parent (S : Sim c rb cs s w) (H : CfgOK c rb p cs) (hj : cs[w.seen]? = some comp)
    (hdd : comp = dotdotComp) (hne : w.st ≠ []) (hx : TableExact cs w comp) :
    StepSim c rb cs w comp (parentPart c cs (startOf p cs w.seen) comp.length s) := by
  obtain ⟨t, below, hst⟩ := List.exists_cons_of_ne_nil hne
  have hnil : comp ≠ [] := by rw [hdd]; simp [dotdotComp]
  have hcur : w.seen - 2 * w.removed = s.cur.toNat := by have := S.cur; omega
  have hent := hx hdd hne
  rw [hst, hcur] at hent
  obtain ⟨m, e, hm, he, hkind, hlen⟩ := entryExact_spec hent
  obtain ⟨tail, htail, htl⟩ := render_top rb c.slash t below
  have hB := S.buf
  rw [hst, htail] at hB
  -- the buffer once the top of the stack is taken away
  have hBsub : kindOf t ≠ .dotdot →
      Buf (max c.cap rb.length) rb.length (s.subK (e.length + if m = 0 then 0 else 1)) (render rb c.slash below) := by
    intro hk
    rw [hlen hk, ← htl]
    exact hB.sub (root_le_render ..)
  unfold parentPart
  simp only [hm, he, hkind]
  have hbelow := render_tail_length rb c.slash w.st
  rw [show w.st.tail = below by rw [hst]; rfl] at hbelow
  cases hk : kindOf t with
  | dot =>
    have hmv : moveOf (limitsOf c rb).rooted w.st comp = .replace := by
      rw [hst, hdd, moveOf_dotdot_cons, hk]
    have hstep : stackStep (limitsOf c rb).rooted w.st comp = comp :: below := by
      rw [stackStep_eq hmv, hst]; rfl
    have hws : walkStop (limitsOf c rb) w comp =
        decide (c.cap < (render rb c.slash (comp :: below)).length) := by
      rw [walkStop_replace hmv, hst]; rfl
    have hB' := hBsub (by simp [hk])
    rcases S.emit H hj hnil hB' rfl hstep (by simp [hmv]) (by rw [hst]; simp +contextual)
      (by rw [hst]; simp) hbelow with ⟨hlt, he⟩ | ⟨hle, s', he, hS⟩
    · exact Or.inl ⟨by rw [hws]; simpa using hlt, _, he, hB'.toSafe⟩
    · exact Or.inr ⟨by rw [hws]; simpa using hle, s', he, hS⟩
  | dotdot =>
    refine S.step_push H hj hnil ?_ (by simp [hne])
    rw [hst, hdd, moveOf_dotdot_cons, hk]
  | name =>
    have hmv : moveOf (limitsOf c rb).rooted w.st comp = .pop := by
      rw [hst, hdd, moveOf_dotdot_cons, hk]
    have hstep : stackStep (limitsOf c rb).rooted w.st comp = below := by
      rw [stackStep_eq hmv, hst]; rfl
    have hrm : (w.next (limitsOf c rb).rooted comp).removed = w.removed + 1 := by
      simp [Walk.next, hmv]
    have hsz := S.size
    rw [hst, List.length_cons] at hsz
    refine Or.inr ⟨walkStop_pop hmv, _, rfl, S.advance hj ?_ ?_ ?_ ?_⟩
    · rw [hstep]; exact (hBsub (by simp [hk])).withCur _
    · have h1 := S.cur
      have h2 := s.cur.isLt
      simp only [hrm]
      bv_omega
    · rw [hstep]
      exact fun x h => S.ne_nil x (by rw [hst]; exact List.mem_cons_of_mem _ h)
    · rw [hstep, hrm]; omega

/-- **One iteration of the second loop is one step of the walk**, as long as the table is
    exact. -/
theorem compPart_sim (S : Sim c rb cs s w) (H : CfgOK c rb p cs) (hj : cs[w.seen]? = some comp)
    (hx : TableExact cs w comp) :
    StepSim c rb cs w comp (compPart c cs (startOf p cs w.seen) comp s) := by
  unfold compPart
  by_cases hnil : comp = []
  · have hm : moveOf (limitsOf c rb).rooted w.st comp = .keep := by simp [moveOf, hnil]
    rw [if_pos hnil]
    apply S.step_keep H hj hm
    rw [walkStop_keep hm, hnil]
    simp [dotdotComp]
  rw [if_neg hnil]
  cases hk : kindOf comp with
  | name =>
    have hne : comp ≠ dotdotComp := by rintro rfl; simp at hk
    refine S.step_push H hj hnil ?_ (by simp [hne])
    simp [moveOf, hnil, hk]
  | dot =>
    have hne : comp ≠ dotdotComp := by rintro rfl; simp at hk
    simp only
    by_cases h0 : s.k = 0
    · obtain ⟨hst, hrb⟩ := S.k_eq_zero.mp h0
      rw [if_neg (by simpa using h0)]
      refine S.step_push H hj hnil ?_ (by simp [hne])
      simp [moveOf, hnil, hk, hst, Limits.rooted, limitsOf, hrb]
    · have hm : moveOf (limitsOf c rb).rooted w.st comp = .keep := by
        have : ¬ (w.st = [] ∧ (limitsOf c rb).rooted = false) := by
          rintro ⟨h1, h2⟩
          refine h0 (S.k_eq_zero.mpr ⟨h1, ?_⟩)
          simpa [Limits.rooted, limitsOf] using h2
        simp [moveOf, hnil, hk, this]
      rw [if_pos (by simpa using h0)]
      apply S.step_keep H hj hm
      rw [walkStop_keep hm]
      simp [hne]
  | dotdot =>
    have hdd := kindOf_eq_dotdot.mp hk
    simp only
    by_cases hst : w.st = []
    · rw [if_pos ((S.k_eq_root H).mpr hst)]
      by_cases hstrict : c.strict = true
      · rw [if_pos hstrict]
        refine Or.inl ⟨?_, s, rfl, S.buf.toSafe⟩
        by_cases hrb : rb = []
        · rw [walkStop_push (by simp [moveOf, hnil, hk, hst, Limits.rooted, limitsOf, hrb])]
          simp [limitsOf, hstrict, hdd, hst]
        · rw [walkStop_keep (by simp [moveOf, hnil, hk, hst, Limits.rooted, limitsOf, hrb])]
          simp [limitsOf, hstrict, hdd, hst]
      · rw [if_neg hstrict]
        by_cases hrb : rb = []
        · rw [if_neg (by simpa using H.root_eq_zero.mpr hrb)]
          refine S.step_push H hj hnil ?_ (by simp [hstrict])
          simp [moveOf, hnil, hk, hst, Limits.rooted, limitsOf, hrb]
        · have hm : moveOf (limitsOf c rb).rooted w.st comp = .keep := by
            simp [moveOf, hnil, hk, hst, Limits.rooted, limitsOf, hrb]
          rw [if_pos (by simpa using fun h => hrb (H.root_eq_zero.mp h))]
          apply S.step_keep H hj hm
          rw [walkStop_keep hm]
          simp [limitsOf, hstrict]
    · rw [if_neg (fun h => hst ((S.k_eq_root H).mp h))]
      exact S.step_parent H hj hdd hst hx

end Step

/-! ## The whole loop -/

theorem next_of_cons_drop {α : Type} {a : α} {rest l : List α} {n : Nat}
    (h : a :: rest <+: l.drop n) : l[n]? = some a ∧ rest <+: l.drop (n + 1) := by
  obtain ⟨tail, htail⟩ := h
  constructor
  · rw [← List.head?_drop, ← htail]; rfl
  · rw [← List.drop_drop, ← htail]
    exact ⟨tail, rfl⟩

/-- **The second loop follows the walk** over the next components `rest`, with `n` more to go
    behind them: it returns `-1` where the walk stops, otherwise it gets to where the walk is. -/
theorem normLoop_sim (H : CfgOK c rb p cs) (n : Nat) :
    ∀ (rest : List Comp) (s : NormSt) (w : Walk), Sim c rb cs s w →
      rest <+: cs.drop w.seen →
      Along (walkStop (limitsOf c rb)) (Walk.next (limitsOf c rb).rooted) (TableExact cs) w rest →
      match foldStop (walkStop (limitsOf c rb)) (Walk.next (limitsOf c rb).rooted) w rest with
      | none => ∃ s', normLoop c (rest.length + n) (w.seen + 1) s = (.ret (-1), s') ∧
          Safe (max c.cap rb.length) rb.length s'
      | some w' => ∃ s', normLoop c (rest.length + n) (w.seen + 1) s = normLoop c n (w'.seen + 1) s' ∧
          Sim c rb cs s' w'
  | [], s, w, S, _, _ => ⟨s, by rw [List.length_nil, Nat.zero_add], S⟩
  | comp :: rest, s, w, S, hd, hal => by
    obtain ⟨hj, hd'⟩ := next_of_cons_drop hd
    have hstep := compPart_sim S H hj hal.1
    rw [← normPart_comp H hj] at hstep
    have hlen : (comp :: rest).length + n = rest.length + n + 1 := by
      rw [List.length_cons]; omega
    rcases hstep with ⟨hst, s', hs', hsafe⟩ | ⟨hst, s', hs', hS⟩
    · rw [foldStop, if_pos hst]
      exact ⟨s', by rw [hlen, normLoop, hs'], hsafe⟩
    · rw [foldStop_cons_false hst, hlen, normLoop, hs']
      exact normLoop_sim H n rest _ _ hS hd' (hal.2 hst)

end FFSys.Path
