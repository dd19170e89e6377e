/-
AuditChain/JsonPrefix.lean

Reading JSON from the front of a longer text.

The scanner decides on what it reads and at most one character behind it, so the
text behind a value changes nothing (`scanValue_append`).  For a whole text this
means that white space around an object is ignored and that anything else behind
it is refused.

    loads?_space_append    white space in front of a text
    loads?_head            the first character of a text with a value
    loads?_dict_append     an object, and a text behind it
-/
import AuditChain.JsonRoundTrip
import AuditChain.Pieces

namespace Python

open Pieces

/-! ### Strings -/

theorem scanHex4_append {s : PyStr} {r : ℕ × PyStr} (h : scanHex4 s = some r) (w : PyStr) :
    scanHex4 (s ++ w) = some (r.1, r.2 ++ w) := by
  match s with
  | a :: b :: c :: d :: s =>
    simp only [scanHex4, List.cons_append, Option.bind_eq_bind, Option.bind_eq_some_iff,
      Option.pure_def] at h ⊢
    obtain ⟨a', ha, b', hb, c', hc, d', hd, heq⟩ := h
    rw [← Option.some.inj heq]
    exact ⟨a', ha, b', hb, c', hc, d', hd, rfl⟩
  | [] | [_] | [_, _] | [_, _, _] => cases h

/-- A body of a string does not begin with half an escape. -/
theorem scanHex4_of_scanString {n : ℕ} {s : PyStr} {r : PyStr × PyStr}
    (h : scanString n (92 :: ch 'u' :: s) = some r) : ∃ x, scanHex4 s = some x := by
  cases n with
  | zero => cases h
  | succ n =>
    have hne : (92 : CodePoint) ≠ 34 := by decide
    rw [scanString, if_neg hne] at h
    obtain ⟨x, hx, -⟩ := Option.bind_eq_some_iff.mp h
    simp only [scanChar, if_true, Option.map_eq_some_iff] at hx
    obtain ⟨y, hy, -⟩ := hx
    exact ⟨y, hy⟩

/-- Whether a second escape follows is settled when the rest is the rest of a string. -/
theorem joinSurrogates_append (k : ℕ) (s : PyStr) {n : ℕ} {r : PyStr × PyStr}
    (h : scanString n (joinSurrogates k s).2 = some r) (w : PyStr) :
    joinSurrogates k (s ++ w) = ((joinSurrogates k s).1, (joinSurrogates k s).2 ++ w) := by
  match s with
  | [] => cases n <;> cases h
  | [b] =>
    have hb : b ≠ 92 := by
      rintro rfl
      cases n <;> cases h
    cases w with
    | nil => rfl
    | cons u w =>
      simp only [joinSurrogates, List.cons_append, List.nil_append]
      rw [if_neg (fun hpair => hb hpair.2.2.1)]
  | b :: u :: t =>
    simp only [joinSurrogates, List.cons_append] at h ⊢
    by_cases hpair : 0xd800 ≤ k ∧ k < 0xdc00 ∧ b = 92 ∧ u = ch 'u'
    · obtain rfl := hpair.2.2.1
      obtain rfl := hpair.2.2.2
      rw [if_pos hpair, if_pos hpair]
      cases hlow : scanHex4 t with
      | none =>
        rw [if_pos hpair, hlow] at h
        obtain ⟨x, hx⟩ := scanHex4_of_scanString h
        rw [hlow] at hx
        cases hx
      | some m =>
        simp only [scanHex4_append hlow]
        split <;> rfl
    · rw [if_neg hpair, if_neg hpair]
      rfl

theorem scanChar_append {s t : PyStr} {c : CodePoint} (h : scanChar s = some (c, t)) {n : ℕ}
    {r : PyStr × PyStr} (hrest : scanString n t = some r) (w : PyStr) :
    scanChar (s ++ w) = some (c, t ++ w) := by
  match s with
  | [] => cases h
  | a :: s =>
    simp only [scanChar, List.cons_append] at h ⊢
    by_cases ha : a = 92
    · rw [if_pos ha] at h ⊢
      cases s with
      | nil => cases h
      | cons e s =>
        simp only [List.cons_append] at h ⊢
        by_cases hu : e = ch 'u'
        · rw [if_pos hu] at h ⊢
          obtain ⟨x, hx, hjoin⟩ := Option.map_eq_some_iff.mp h
          rw [scanHex4_append hx]
          have happend := joinSurrogates_append x.1 x.2 (by rw [hjoin]; exact hrest) w
          rw [hjoin] at happend
          exact congrArg some happend
        · rw [if_neg hu] at h ⊢
          obtain ⟨x, hx, heq⟩ := Option.map_eq_some_iff.mp h
          obtain ⟨rfl, rfl⟩ := Prod.mk.inj heq
          rw [hx]
          rfl
    · rw [if_neg ha] at h ⊢
      split at h
      · cases h
      · rename_i hctl
        obtain ⟨rfl, rfl⟩ := Prod.mk.inj (Option.some.inj h)
        rw [if_neg hctl]

/-- The rest of a text behind a string is left alone. -/
theorem scanString_append {n m : ℕ} {s : PyStr} {r : PyStr × PyStr}
    (h : scanString n s = some r) (hm : n ≤ m) (w : PyStr) :
    scanString m (s ++ w) = some (r.1, r.2 ++ w) := by
  induction n generalizing m s r with
  | zero => cases h
  | succ n ih =>
    obtain ⟨m, rfl⟩ := Nat.exists_eq_add_one.mpr (Nat.zero_lt_of_lt hm)
    cases s with
    | nil => cases h
    | cons q s =>
      rw [List.cons_append, scanString]
      rw [scanString] at h
      by_cases hq : q = 34
      · rw [if_pos hq] at h ⊢
        rw [← Option.some.inj h]
      · rw [if_neg hq] at h ⊢
        simp only [Option.bind_eq_bind, Option.bind_eq_some_iff, Option.pure_def, Prod.exists,
          Option.some.injEq] at h ⊢
        obtain ⟨c, t, hchar, cs, t', hbody, rfl⟩ := h
        have hchar' := scanChar_append hchar hbody w
        exact ⟨c, t ++ w, hchar', cs, t' ++ w, ih hbody (by omega), rfl⟩

/-! ### Numbers and constants -/

theorem scanInt_suffix {s : PyStr} {r : PyStr × PyStr} (h : scanInt s = some r) : r.2 <:+ s := by
  cases s with
  | nil => cases h
  | cons c s =>
    rw [scanInt] at h
    split at h
    · rw [← Option.some.inj h]
      exact List.suffix_cons c s
    · split at h
      · rw [← Option.some.inj h]
        exact (List.dropWhile_suffix isDigit).trans (List.suffix_cons c s)
      · cases h

theorem scanFrac_suffix (s : PyStr) : (scanFrac s).2 <:+ s := by
  match s with
  | [] | [_] => exact List.suffix_rfl
  | c :: d :: s =>
    rw [scanFrac]
    split
    · exact (List.dropWhile_suffix isDigit).trans
        ((List.suffix_cons d s).trans (List.suffix_cons c (d :: s)))
    · exact List.suffix_rfl

/-- The text behind an exponent, or the whole text when there is no exponent. -/
theorem scanExpDigits_suffix {pre s t : PyStr} (h : s <:+ t) :
    ((scanExpDigits pre s).getD ([], t)).2 <:+ t := by
  cases s with
  | nil => exact List.suffix_rfl
  | cons d s =>
    rw [scanExpDigits]
    split
    · exact (List.dropWhile_suffix isDigit).trans ((List.suffix_cons d s).trans h)
    · exact List.suffix_rfl

theorem scanExp_suffix (s : PyStr) : (scanExp s).2 <:+ s := by
  match s with
  | [] | [_] => exact List.suffix_rfl
  | c :: d :: s =>
    rw [scanExp]
    split
    · split
      · exact scanExpDigits_suffix ((List.suffix_cons d s).trans (List.suffix_cons c (d :: s)))
      · exact scanExpDigits_suffix (List.suffix_cons c (d :: s))
    · exact List.suffix_rfl

theorem matchNumber_suffix {s : PyStr} {m : PyStr × Bool × PyStr} (h : matchNumber s = some m) :
    m.2.2 <:+ s := by
  have hsign : (scanSign s).2 <:+ s := by
    cases s with
    | nil => exact List.suffix_rfl
    | cons c s =>
      rw [scanSign]
      split
      · exact List.suffix_cons c s
      · exact List.suffix_rfl
  simp only [matchNumber, Option.bind_eq_bind, Option.bind_eq_some_iff, Option.pure_def,
    Option.some.injEq] at h
  obtain ⟨int, hint, rfl⟩ := h
  exact (scanExp_suffix _).trans ((scanFrac_suffix _).trans ((scanInt_suffix hint).trans hsign))

/-- A number is followed by the same text, and more. -/
theorem matchNumber_extend {s : PyStr} (h : ∃ c ∈ s, isNumChar c = false) (w : PyStr) :
    matchNumber (s ++ w) = (matchNumber s).map fun m => (m.1, m.2.1, m.2.2 ++ w) := by
  rcases forall_not_or_first_sep (fun c => !isNumChar c) s with hnum | ⟨u, c, r, rfl, hc, -⟩
  · obtain ⟨c, hmem, hc⟩ := h
    have hnot := hnum c hmem
    rw [hc] at hnot
    cases hnot
  · have hdelim : ∀ t, Delim (c :: t) := fun t => delim_cons (by simpa using hc)
    rw [List.append_assoc, List.cons_append, matchNumber_append u (hdelim _),
      matchNumber_append u (hdelim _), Option.map_map]
    simp only [Function.comp_def, List.append_assoc, List.cons_append]

/-- The named constants. -/
def namedConstants : List (PyStr × PyVal) :=
  [(lit "null", .null), (lit "true", .bool true), (lit "false", .bool false),
   (lit "NaN", .float .nan), (lit "Infinity", .float (.inf false)),
   (lit "-Infinity", .float (.inf true))]

theorem dropLit_eq_some {p s t : PyStr} : dropLit p s = some t ↔ s = p ++ t := by
  unfold dropLit
  rw [ite_eq_iff]
  simp only [List.isPrefixOf_iff_prefix]
  constructor
  · rintro (⟨⟨u, rfl⟩, h⟩ | ⟨-, h⟩)
    · rw [← Option.some.inj h, List.drop_left]
    · cases h
  · rintro rfl
    exact Or.inl ⟨List.prefix_append p t, by rw [List.drop_left]⟩

theorem scanAtom_constant (F : FloatOps) {p : PyStr} {v : PyVal} (h : (p, v) ∈ namedConstants)
    (r : PyStr) : scanAtom F (p ++ r) = some (v, r) := by
  simp only [namedConstants, List.mem_cons, Prod.mk.injEq, List.not_mem_nil, or_false] at h
  rcases h with ⟨rfl, rfl⟩ | ⟨rfl, rfl⟩ | ⟨rfl, rfl⟩ | ⟨rfl, rfl⟩ | ⟨rfl, rfl⟩ | ⟨rfl, rfl⟩ <;> rfl

/-- An atom is a number or a named constant. -/
theorem scanAtom_cases {F : FloatOps} {s r : PyStr} {v : PyVal} (h : scanAtom F s = some (v, r)) :
    (∃ t b, matchNumber s = some (t, b, r) ∧
        v = if b then .float (F.parse t) else .int (intOfText t)) ∨
      ∃ p, (p, v) ∈ namedConstants ∧ s = p ++ r := by
  unfold scanAtom at h
  split at h
  · rename_i m hm
    obtain ⟨rfl, rfl⟩ := Prod.mk.inj (Option.some.inj h)
    exact Or.inl ⟨m.1, m.2.1, hm, rfl⟩
  · right
    simp only [Option.orElse_eq_orElse, Option.orElse_eq_or, Option.or_eq_some_iff,
      Option.map_eq_some_iff, dropLit_eq_some, Prod.mk.injEq] at h
    rcases h with ⟨t, rfl, rfl, rfl⟩ | ⟨-, ⟨t, rfl, rfl, rfl⟩ | ⟨-, ⟨t, rfl, rfl, rfl⟩ |
        ⟨-, ⟨t, rfl, rfl, rfl⟩ | ⟨-, ⟨t, rfl, rfl, rfl⟩ | ⟨-, t, rfl, rfl, rfl⟩⟩⟩⟩⟩ <;>
      exact ⟨_, by simp [namedConstants], rfl⟩

theorem scanAtom_append {F : FloatOps} {s r : PyStr} {v : PyVal} (h : scanAtom F s = some (v, r))
    (hr : Delim r) (hne : r ≠ []) (w : PyStr) : scanAtom F (s ++ w) = some (v, r ++ w) := by
  rcases scanAtom_cases h with ⟨t, b, hnum, rfl⟩ | ⟨p, hp, rfl⟩
  · obtain ⟨c, r, rfl⟩ := List.exists_cons_of_ne_nil hne
    have hmem : c ∈ s := (matchNumber_suffix hnum).subset List.mem_cons_self
    simp only [scanAtom, matchNumber_extend ⟨c, hmem, hr c r rfl⟩, hnum, Option.map_some]
  · rw [List.append_assoc, scanAtom_constant F hp]

/-! ### Values -/

theorem exists_skipWs_eq (s : PyStr) : ∃ w, AllSpace w ∧ s = w ++ skipWs s :=
  ⟨s.takeWhile isJsonSpace, fun _ hc => List.mem_takeWhile_imp hc,
    (List.takeWhile_append_dropWhile).symm⟩

theorem skipWs_append_of_ne_nil {s : PyStr} (h : skipWs s ≠ []) (w : PyStr) :
    skipWs (s ++ w) = skipWs s ++ w := by
  unfold skipWs at h ⊢
  rw [List.dropWhile_append, if_neg (by simpa using h)]

theorem skipWs_cons_append {s t : PyStr} {c : CodePoint} (h : skipWs s = c :: t) (w : PyStr) :
    skipWs (s ++ w) = c :: (t ++ w) := by
  rw [skipWs_append_of_ne_nil (by simp [h]), h, List.cons_append]

/-- A value that is followed by a delimiter, with or without white space in between, ends
there. -/
theorem delim_of_skipWs {s t : PyStr} {c : CodePoint} (h : skipWs s = c :: t)
    (hc : isNumChar c = false) : Delim s ∧ s ≠ [] := by
  obtain ⟨w, hw, hs⟩ := exists_skipWs_eq s
  rw [h] at hs
  rw [hs]
  exact ⟨delim_space_append hw (delim_cons hc), by simp⟩

variable {F : FloatOps} {n m : ℕ}

theorem ne_nil_of_scanValue {s : PyStr} {r : PyVal × PyStr} (h : scanValue F n s = some r) :
    s ≠ [] := by
  rintro rfl
  cases n <;> cases h

theorem ne_nil_of_scanElems {s : PyStr} {r : List PyVal × PyStr} (h : scanElems F n s = some r) :
    s ≠ [] := by
  cases n with
  | zero => cases h
  | succ n =>
    obtain ⟨x, hx, -⟩ := Option.bind_eq_some_iff.mp h
    exact ne_nil_of_scanValue hx

theorem ne_nil_of_scanPairs {s : PyStr} {r : List (PyKey × PyVal) × PyStr}
    (h : scanPairs F n s = some r) : s ≠ [] := by
  rintro rfl
  cases n <;> cases h

variable (F) in
/-- A value is read with bound `m` in front of any text if it is read with bound `n`. -/
def ValueExtends (n m : ℕ) : Prop :=
  ∀ {s v r}, scanValue F n s = some (v, r) → Delim r → r ≠ [] →
    ∀ w, scanValue F m (s ++ w) = some (v, r ++ w)

variable (F) in
/-- The same for the elements of a list. -/
def ElemsExtend (n m : ℕ) : Prop :=
  ∀ {s vs r}, scanElems F n s = some (vs, r) → ∀ w, scanElems F m (s ++ w) = some (vs, r ++ w)

variable (F) in
/-- The same for the pairs of an object. -/
def PairsExtend (n m : ℕ) : Prop :=
  ∀ {s kvs r}, scanPairs F n s = some (kvs, r) → ∀ w, scanPairs F m (s ++ w) = some (kvs, r ++ w)

/-- An object needs no delimiter behind it. -/
theorem scanDict_append (hpairs : PairsExtend F n m) {s r : PyStr} {v : PyVal}
    (h : scanValue F (n + 1) (ch '\x7b' :: s) = some (v, r)) (w : PyStr) :
    scanValue F (m + 1) (ch '\x7b' :: (s ++ w)) = some (v, r ++ w) := by
  have hquote : ch '\x7b' ≠ 34 := by decide
  rw [scanValue, if_neg hquote, if_pos rfl] at h ⊢
  cases hsp : skipWs s with
  | nil =>
    rw [hsp] at h
    cases h
  | cons d t =>
    simp only [hsp, skipWs_cons_append hsp] at h ⊢
    by_cases hclose : d = ch '\x7d'
    · rw [if_pos hclose] at h ⊢
      obtain ⟨rfl, rfl⟩ := Prod.mk.inj (Option.some.inj h)
      rfl
    · rw [if_neg hclose] at h ⊢
      obtain ⟨⟨kvs, r'⟩, hkvs, heq⟩ := Option.map_eq_some_iff.mp h
      obtain ⟨rfl, rfl⟩ := Prod.mk.inj heq
      rw [← List.cons_append, hpairs hkvs w]
      rfl

theorem scanList_append (helems : ElemsExtend F n m) {s r : PyStr} {v : PyVal}
    (h : scanValue F (n + 1) (ch '[' :: s) = some (v, r)) (w : PyStr) :
    scanValue F (m + 1) (ch '[' :: (s ++ w)) = some (v, r ++ w) := by
  have hquote : ch '[' ≠ 34 := by decide
  have hbrace : ch '[' ≠ ch '\x7b' := by decide
  rw [scanValue, if_neg hquote, if_neg hbrace, if_pos rfl] at h ⊢
  cases hsp : skipWs s with
  | nil =>
    rw [hsp] at h
    cases h
  | cons d t =>
    simp only [hsp, skipWs_cons_append hsp] at h ⊢
    by_cases hclose : d = ch ']'
    · rw [if_pos hclose] at h ⊢
      obtain ⟨rfl, rfl⟩ := Prod.mk.inj (Option.some.inj h)
      rfl
    · rw [if_neg hclose] at h ⊢
      obtain ⟨⟨vs, r'⟩, hvs, heq⟩ := Option.map_eq_some_iff.mp h
      obtain ⟨rfl, rfl⟩ := Prod.mk.inj heq
      rw [← List.cons_append, helems hvs w]
      rfl

theorem valueExtends_succ (hle : n ≤ m) (helems : ElemsExtend F n m) (hpairs : PairsExtend F n m) :
    ValueExtends F (n + 1) (m + 1) := by
  intro s v r h hr hne w
  cases s with
  | nil => cases h
  | cons c s =>
    rw [List.cons_append]
    by_cases hquote : c = 34
    · rw [scanValue, if_pos hquote] at h ⊢
      obtain ⟨⟨x, t⟩, hx, heq⟩ := Option.map_eq_some_iff.mp h
      obtain ⟨rfl, rfl⟩ := Prod.mk.inj heq
      rw [scanString_append hx hle w]
      rfl
    by_cases hbrace : c = ch '\x7b'
    · subst hbrace
      exact scanDict_append hpairs h w
    by_cases hbracket : c = ch '['
    · subst hbracket
      exact scanList_append helems h w
    rw [scanValue_atom F n s hquote hbrace hbracket] at h
    rw [scanValue_atom F m _ hquote hbrace hbracket]
    exact scanAtom_append h hr hne w

/-- What ends an element or a pair is no part of a number. -/
theorem not_isNumChar_of_ite {α : Type} {c close : CodePoint} {x y : Option α} {a : α}
    (hclose : isNumChar close = false)
    (h : (if c = close then x else if c = ch ',' then y else none) = some a) :
    isNumChar c = false := by
  split at h
  · rename_i hc
    rwa [hc]
  · split at h
    · rename_i hc
      rw [hc]
      decide
    · cases h

theorem elemsExtend_succ (hvalue : ValueExtends F n m) (helems : ElemsExtend F n m) :
    ElemsExtend F (n + 1) (m + 1) := by
  intro s vs r h w
  rw [scanElems] at h ⊢
  obtain ⟨⟨v, t⟩, hv, h⟩ := Option.bind_eq_some_iff.mp h
  cases hsp : skipWs t with
  | nil =>
    simp only [hsp] at h
    cases h
  | cons c u =>
    simp only [hsp] at h
    obtain ⟨hdelim, hne⟩ := delim_of_skipWs hsp (not_isNumChar_of_ite (by decide) h)
    simp only [hvalue hv hdelim hne w, Option.bind_eq_bind, Option.bind_some,
      skipWs_cons_append hsp]
    by_cases hclose : c = ch ']'
    · rw [if_pos hclose] at h ⊢
      obtain ⟨rfl, rfl⟩ := Prod.mk.inj (Option.some.inj h)
      rfl
    · rw [if_neg hclose] at h ⊢
      by_cases hcomma : c = ch ','
      · rw [if_pos hcomma] at h ⊢
        obtain ⟨⟨vs', r'⟩, hvs, heq⟩ := Option.bind_eq_some_iff.mp h
        obtain ⟨rfl, rfl⟩ := Prod.mk.inj (Option.some.inj heq)
        rw [skipWs_append_of_ne_nil (ne_nil_of_scanElems hvs), helems hvs w]
        rfl
      · rw [if_neg hcomma] at h
        cases h

theorem pairsExtend_succ (hle : n ≤ m) (hvalue : ValueExtends F n m)
    (hpairs : PairsExtend F n m) : PairsExtend F (n + 1) (m + 1) := by
  intro s kvs r h w
  cases s with
  | nil => cases h
  | cons q s =>
    rw [List.cons_append]
    rw [scanPairs] at h ⊢
    by_cases hquote : q = 34
    swap
    · rw [if_neg hquote] at h
      cases h
    rw [if_pos hquote] at h ⊢
    obtain ⟨⟨k, t⟩, hk, h⟩ := Option.bind_eq_some_iff.mp h
    simp only [scanString_append hk hle w, Option.bind_eq_bind, Option.bind_some]
    cases hsp : skipWs t with
    | nil =>
      simp only [hsp] at h
      cases h
    | cons c u =>
      simp only [hsp, skipWs_cons_append hsp] at h ⊢
      by_cases hcolon : c = ch ':'
      swap
      · rw [if_neg hcolon] at h
        cases h
      rw [if_pos hcolon] at h ⊢
      obtain ⟨⟨v, x⟩, hv, h⟩ := Option.bind_eq_some_iff.mp h
      rw [skipWs_append_of_ne_nil (ne_nil_of_scanValue hv)]
      cases hsp' : skipWs x with
      | nil =>
        simp only [hsp'] at h
        cases h
      | cons d y =>
        simp only [hsp'] at h
        obtain ⟨hdelim, hne⟩ := delim_of_skipWs hsp' (not_isNumChar_of_ite (by decide) h)
        simp only [hvalue hv hdelim hne w, Option.bind_some, skipWs_cons_append hsp']
        by_cases hclose : d = ch '\x7d'
        · rw [if_pos hclose] at h ⊢
          obtain ⟨rfl, rfl⟩ := Prod.mk.inj (Option.some.inj h)
          rfl
        · rw [if_neg hclose] at h ⊢
          by_cases hcomma : d = ch ','
          · rw [if_pos hcomma] at h ⊢
            obtain ⟨⟨kvs', r'⟩, hkvs, heq⟩ := Option.bind_eq_some_iff.mp h
            obtain ⟨rfl, rfl⟩ := Prod.mk.inj (Option.some.inj heq)
            rw [skipWs_append_of_ne_nil (ne_nil_of_scanPairs hkvs), hpairs hkvs w]
            rfl
          · rw [if_neg hcomma] at h
            cases h

/-- **Text behind a value changes nothing**, with a bound at least as large. -/
theorem scanValue_append (n : ℕ) : ∀ m, n ≤ m →
    ValueExtends F n m ∧ ElemsExtend F n m ∧ PairsExtend F n m := by
  induction n with
  | zero =>
    intro m _
    refine ⟨?_, ?_, ?_⟩
    · intro s v r h
      cases h
    · intro s vs r h
      cases h
    · intro s kvs r h
      cases h
  | succ n ih =>
    intro m hm
    obtain ⟨m, rfl⟩ := Nat.exists_eq_add_one.mpr (Nat.zero_lt_of_lt hm)
    have hle : n ≤ m := by omega
    obtain ⟨hvalue, helems, hpairs⟩ := ih m hle
    exact ⟨valueExtends_succ hle helems hpairs, elemsExtend_succ hvalue helems,
      pairsExtend_succ hle hvalue hpairs⟩

/-! ### Whole texts -/

theorem loads_eq_ok {s : PyStr} {v : PyVal} : loads F s = .ok v ↔ loads? F s = some v := by
  unfold loads
  cases loads? F s <;> simp

theorem loads?_space_append (F : FloatOps) {w : PyStr} (hw : AllSpace w) (s : PyStr) :
    loads? F (w ++ s) = loads? F s := by
  simp only [loads?, skipWs_append hw]

/-- May a value start with the character? -/
def startsValue (c : CodePoint) : Bool :=
  isDigit c
    || [34, ch '\x7b', ch '[', ch '-', ch 'n', ch 't', ch 'f', ch 'N', ch 'I'].contains c

/-- A text with a value starts with it, behind white space. -/
theorem loads?_head {s : PyStr} {c : CodePoint} {v : PyVal} (hc : isJsonSpace c = false)
    (h : loads? F (c :: s) = some v) : startsValue c = true := by
  simp only [loads?, skipWs_cons hc] at h
  obtain ⟨⟨v', r⟩, hscan, -⟩ := Option.bind_eq_some_iff.mp h
  by_contra hnot
  simp only [startsValue, List.contains_eq_mem, List.mem_cons, List.not_mem_nil, or_false,
    Bool.or_eq_true, decide_eq_true_eq, not_or] at hnot
  obtain ⟨hdigit, hquote, hbrace, hbracket, hminus, hn, ht, hf, hN, hI⟩ := hnot
  rw [List.length_cons, scanValue_atom F _ s hquote hbrace hbracket] at hscan
  rcases scanAtom_cases hscan with ⟨t, b, hnum, -⟩ | ⟨p, hp, heq⟩
  · obtain ⟨d, u, hcons, hd⟩ := matchNumber_head hnum
    obtain ⟨rfl, rfl⟩ := List.cons.inj hcons
    exact hd.elim hdigit hminus
  · simp only [namedConstants, List.mem_cons, Prod.mk.injEq, List.not_mem_nil, or_false] at hp
    rcases hp with ⟨rfl, -⟩ | ⟨rfl, -⟩ | ⟨rfl, -⟩ | ⟨rfl, -⟩ | ⟨rfl, -⟩ | ⟨rfl, -⟩
    · exact hn (List.cons.inj heq).1
    · exact ht (List.cons.inj heq).1
    · exact hf (List.cons.inj heq).1
    · exact hN (List.cons.inj heq).1
    · exact hI (List.cons.inj heq).1
    · exact hminus (List.cons.inj heq).1

theorem skipWs_eq_nil_iff {s : PyStr} : skipWs s = [] ↔ AllSpace s := by
  rw [skipWs, List.dropWhile_eq_nil_iff]
  rfl

/-- Only a brace opens an object. -/
theorem head_of_scanValue_dict {c : CodePoint} {s r : PyStr} {items : PyDict}
    (h : scanValue F (n + 1) (c :: s) = some (.dict items, r)) : c = ch '\x7b' := by
  by_contra hbrace
  by_cases hquote : c = 34
  · rw [scanValue, if_pos hquote] at h
    obtain ⟨x, -, heq⟩ := Option.map_eq_some_iff.mp h
    cases (Prod.mk.inj heq).1
  by_cases hbracket : c = ch '['
  · rw [scanValue, if_neg hquote, if_neg hbrace, if_pos hbracket] at h
    split at h
    · cases h
    · split at h
      · cases (Prod.mk.inj (Option.some.inj h)).1
      · obtain ⟨x, -, heq⟩ := Option.map_eq_some_iff.mp h
        cases (Prod.mk.inj heq).1
  rw [scanValue_atom F n s hquote hbrace hbracket] at h
  rcases scanAtom_cases h with ⟨t, b, -, hv⟩ | ⟨p, hp, -⟩
  · cases b <;> cases hv
  · simp [namedConstants] at hp

/-- **An object and a text behind it**: only white space may follow. -/
theorem loads?_dict_append {s : PyStr} {items : PyDict} (h : loads? F s = some (.dict items))
    (w : PyStr) : loads? F (s ++ w) = if skipWs w = [] then some (.dict items) else none := by
  simp only [loads?] at h ⊢
  obtain ⟨⟨v, r⟩, hscan, h⟩ := Option.bind_eq_some_iff.mp h
  have hne := ne_nil_of_scanValue hscan
  have hrest : skipWs r = [] := by
    by_contra hrest
    rw [if_neg hrest] at h
    cases h
  rw [if_pos hrest] at h
  obtain rfl := Option.some.inj h
  obtain ⟨c, t, hct⟩ := List.exists_cons_of_ne_nil hne
  rw [hct] at hscan
  obtain rfl := head_of_scanValue_dict hscan
  rw [skipWs_append_of_ne_nil hne, hct, List.cons_append]
  have hle : 2 * (ch '\x7b' :: t).length + 1 ≤ 2 * (ch '\x7b' :: (t ++ w)).length + 1 := by
    simp only [List.length_cons, List.length_append]
    omega
  obtain ⟨-, -, hpairs⟩ := scanValue_append (F := F) _ _ hle
  rw [scanDict_append hpairs hscan w]
  simp only [Option.bind_eq_bind, Option.bind_some, skipWs_append (skipWs_eq_nil_iff.mp hrest)]
  rfl

end Python
