/-
AuditChain/JsonRoundTrip.lean

Reading back what was printed.

For every value `v` that can be printed, in any style,

    loads (printVal v) = jsonValue v

so the text determines what the value is as JSON.  For a value that is JSON to
begin with that is the value itself, up to the order of dictionary keys.  The
induction is over the value; what carries it is the statement for a text with
something behind it, `scanValue n (printVal v ++ rest) = some (jsonValue v, rest)`,
for every `rest` that cannot be read as a continuation of a number.

Two side conditions: the floats in the value are read back as the tokens they were
printed as, and no escaped string holds a pair of surrogates, whose escapes are read
as one character.  The second is empty for the compact style.
-/
import AuditChain.JsonStrings
import Mathlib.Data.List.TakeWhile

namespace Python

/-! ### Delimiters -/

/-- Can the character continue a number? -/
def isNumChar (c : CodePoint) : Bool :=
  isDigit c || c == ch '.' || c == ch 'e' || c == ch 'E' || c == ch '+' || c == ch '-'

/-- What may follow a value: nothing, or a character no number continues with. -/
def Delim (rest : PyStr) : Prop := ∀ c s, rest = c :: s → isNumChar c = false

theorem delim_nil : Delim [] := by
  intro c s h
  cases h

theorem delim_cons {c : CodePoint} {s : PyStr} (h : isNumChar c = false) : Delim (c :: s) := by
  intro c' s' heq
  cases heq
  exact h

theorem isDigit_of_not_isNumChar {c : CodePoint} (h : isNumChar c = false) :
    isDigit c = false := by
  simp only [isNumChar, Bool.or_eq_false_iff] at h
  exact h.1.1.1.1.1

theorem ne_of_not_isNumChar {c d : CodePoint} (h : isNumChar c = false)
    (hd : isNumChar d = true) : c ≠ d := by
  rintro rfl
  rw [h] at hd
  cases hd

theorem takeWhile_isDigit_append (s : PyStr) {rest : PyStr} (h : Delim rest) :
    (s ++ rest).takeWhile isDigit = s.takeWhile isDigit := by
  induction s with
  | nil =>
    cases rest with
    | nil => rfl
    | cons c r => simp [isDigit_of_not_isNumChar (h c r rfl)]
  | cons c s ih =>
    by_cases hc : isDigit c <;> simp [hc, ih]

theorem dropWhile_isDigit_append (s : PyStr) {rest : PyStr} (h : Delim rest) :
    (s ++ rest).dropWhile isDigit = s.dropWhile isDigit ++ rest := by
  induction s with
  | nil =>
    cases rest with
    | nil => rfl
    | cons c r => simp [isDigit_of_not_isNumChar (h c r rfl)]
  | cons c s ih =>
    by_cases hc : isDigit c <;> simp [hc, ih]

/-! ### Numbers -/

theorem scanInt_append (s : PyStr) {rest : PyStr} (h : Delim rest) :
    scanInt (s ++ rest) = (scanInt s).map fun r => (r.1, r.2 ++ rest) := by
  match s with
  | [] =>
    match rest with
    | [] => rfl
    | c :: r =>
      have hc : c ≠ digit 0 := ne_of_not_isNumChar (h c _ rfl) (by decide)
      simp [scanInt, hc, isDigit_of_not_isNumChar (h c _ rfl)]
  | c :: s =>
    simp only [scanInt, List.cons_append]
    split
    · rfl
    · split
      · rw [takeWhile_isDigit_append s h, dropWhile_isDigit_append s h]
        rfl
      · rfl

theorem scanFrac_append (s : PyStr) {rest : PyStr} (h : Delim rest) :
    scanFrac (s ++ rest) = ((scanFrac s).1, (scanFrac s).2 ++ rest) := by
  match s with
  | [] =>
    match rest with
    | [] => rfl
    | [_] => rfl
    | c :: d :: r =>
      have hc : c ≠ ch '.' := ne_of_not_isNumChar (h c _ rfl) (by decide)
      simp [scanFrac, hc]
  | [c] =>
    match rest with
    | [] => rfl
    | d :: r => simp [scanFrac, isDigit_of_not_isNumChar (h d _ rfl)]
  | c :: d :: s =>
    simp only [scanFrac, List.cons_append]
    split
    · rw [takeWhile_isDigit_append s h, dropWhile_isDigit_append s h]
    · rfl

theorem scanExpDigits_append (pre s : PyStr) {rest : PyStr} (h : Delim rest) :
    scanExpDigits pre (s ++ rest) =
      (scanExpDigits pre s).map fun r => (r.1, r.2 ++ rest) := by
  match s with
  | [] =>
    match rest with
    | [] => rfl
    | d :: r => simp [scanExpDigits, isDigit_of_not_isNumChar (h d _ rfl)]
  | d :: s =>
    simp only [scanExpDigits, List.cons_append]
    split
    · rw [takeWhile_isDigit_append s h, dropWhile_isDigit_append s h]
      rfl
    · rfl

theorem getD_map_append (o : Option (PyStr × PyStr)) (s rest : PyStr) :
    (o.map fun r => (r.1, r.2 ++ rest)).getD ([], s ++ rest)
      = ((o.getD ([], s)).1, (o.getD ([], s)).2 ++ rest) := by
  cases o <;> rfl

theorem scanExp_append (s : PyStr) {rest : PyStr} (h : Delim rest) :
    scanExp (s ++ rest) = ((scanExp s).1, (scanExp s).2 ++ rest) := by
  match s with
  | [] =>
    match rest with
    | [] => rfl
    | [_] => rfl
    | c :: d :: r =>
      have hc : c ≠ ch 'e' := ne_of_not_isNumChar (h c _ rfl) (by decide)
      have hc' : c ≠ ch 'E' := ne_of_not_isNumChar (h c _ rfl) (by decide)
      simp [scanExp, hc, hc']
  | [c] =>
    match rest with
    | [] => rfl
    | d :: r =>
      have hd : d ≠ ch '+' := ne_of_not_isNumChar (h d _ rfl) (by decide)
      have hd' : d ≠ ch '-' := ne_of_not_isNumChar (h d _ rfl) (by decide)
      simp [scanExp, scanExpDigits, hd, hd', isDigit_of_not_isNumChar (h d _ rfl)]
  | c :: d :: s =>
    simp only [scanExp, List.cons_append]
    split
    · split
      · rw [scanExpDigits_append _ s h]
        exact getD_map_append _ (c :: d :: s) rest
      · rw [show d :: (s ++ rest) = (d :: s) ++ rest from rfl,
          scanExpDigits_append _ (d :: s) h]
        exact getD_map_append _ (c :: d :: s) rest
    · rfl

theorem scanSign_append (s : PyStr) {rest : PyStr} (h : Delim rest) :
    scanSign (s ++ rest) = ((scanSign s).1, (scanSign s).2 ++ rest) := by
  match s with
  | [] =>
    match rest with
    | [] => rfl
    | c :: r =>
      have hc : c ≠ ch '-' := ne_of_not_isNumChar (h c _ rfl) (by decide)
      simp [scanSign, hc]
  | c :: s =>
    simp only [scanSign, List.cons_append]
    split <;> rfl

/-- What is matched is the same when a delimiter follows. -/
theorem matchNumber_append (t : PyStr) {rest : PyStr} (h : Delim rest) :
    matchNumber (t ++ rest) = (matchNumber t).map fun m => (m.1, m.2.1, m.2.2 ++ rest) := by
  simp only [matchNumber, scanSign_append t h, scanInt_append _ h]
  cases scanInt (scanSign t).2 with
  | none => rfl
  | some int =>
    simp only [Option.map_some, Option.bind_eq_bind, Option.bind_some, scanFrac_append int.2 h,
      scanExp_append _ h, Option.pure_def]

theorem takeWhile_isDigit_self {s : PyStr} (h : ∀ c ∈ s, isDigit c = true) :
    s.takeWhile isDigit = s ∧ s.dropWhile isDigit = [] :=
  ⟨List.takeWhile_eq_self_iff.mpr h, List.dropWhile_eq_nil_iff.mpr h⟩

theorem scanInt_natStr (n : ℕ) : scanInt (natStr n) = some (natStr n, []) := by
  rcases Nat.eq_zero_or_pos n with rfl | hn
  · rfl
  · cases hs : natStr n with
    | nil => exact absurd hs (natStr_ne_nil n)
    | cons c s =>
      have hd : ∀ x ∈ c :: s, isDigit x = true := fun x hx => natStr_isDigit n x (hs ▸ hx)
      obtain ⟨htake, hdrop⟩ :=
        takeWhile_isDigit_self fun x hx => hd x (List.mem_cons_of_mem c hx)
      rw [scanInt, if_neg (natStr_head_ne_zero hn.ne' c s hs), if_pos (hd c List.mem_cons_self),
        htake, hdrop]

/-- The first character of a natural number. -/
theorem natStr_cons (n : ℕ) : ∃ c s, natStr n = c :: s ∧ isDigit c = true := by
  cases hs : natStr n with
  | nil => exact absurd hs (natStr_ne_nil n)
  | cons c s => exact ⟨c, s, rfl, natStr_isDigit n c (hs ▸ List.mem_cons_self)⟩

theorem scanSign_natStr (n : ℕ) : scanSign (natStr n) = ([], natStr n) := by
  obtain ⟨c, s, hs, hc⟩ := natStr_cons n
  have hne : c ≠ ch '-' := by
    rintro rfl
    rw [not_isDigit_minus] at hc
    cases hc
  rw [hs, scanSign, if_neg hne]

theorem matchNumber_intStr (i : ℤ) : matchNumber (intStr i) = some (intStr i, false, []) := by
  rcases i with n | n
  · simp [matchNumber, intStr, scanSign_natStr, scanInt_natStr, scanFrac, scanExp]
  · simp [matchNumber, intStr, scanSign, scanInt_natStr, scanFrac, scanExp]

theorem intOfText_intStr (i : ℤ) : intOfText (intStr i) = i := by
  rcases i with n | n
  · simp [intOfText, intStr, scanSign_natStr, natOfDigits_natStr]
  · simp only [intOfText, intStr, scanSign, if_true, List.cons_ne_nil, if_false,
      natOfDigits_natStr]
    omega

/-- A number token starts with a minus sign or a digit. -/
theorem matchNumber_head {t : PyStr} {m : PyStr × Bool × PyStr} (h : matchNumber t = some m) :
    ∃ c s, t = c :: s ∧ (isDigit c = true ∨ c = ch '-') := by
  obtain ⟨int, hint, -⟩ := Option.bind_eq_some_iff.mp h
  cases t with
  | nil => cases hint
  | cons c s =>
    refine ⟨c, s, rfl, ?_⟩
    by_cases hc : c = ch '-'
    · exact Or.inr hc
    · left
      simp only [scanSign, if_neg hc, scanInt] at hint
      split at hint
      · rename_i hz
        rw [hz]
        decide
      · split at hint
        · assumption
        · cases hint

/-! ### White space -/

/-- Nothing but JSON white space. -/
def AllSpace (w : PyStr) : Prop := ∀ c ∈ w, isJsonSpace c = true

theorem allSpace_nil : AllSpace [] := by
  intro c hc
  cases hc

theorem skipWs_append {w : PyStr} (hw : AllSpace w) (s : PyStr) : skipWs (w ++ s) = skipWs s :=
  List.dropWhile_append_of_pos hw

theorem skipWs_cons {c : CodePoint} (hc : isJsonSpace c = false) (s : PyStr) :
    skipWs (c :: s) = c :: s := by
  simp [skipWs, hc]

theorem allSpace_replicate (n : ℕ) : AllSpace (List.replicate n (ch ' ')) := by
  intro c hc
  rw [List.eq_of_mem_replicate hc]
  decide

theorem allSpace_newline (st : DumpStyle) (lvl : ℕ) : AllSpace (st.newline lvl) := by
  intro c hc
  unfold DumpStyle.newline at hc
  split at hc
  · cases hc
  · rcases List.mem_cons.mp hc with rfl | h
    · decide
    · exact allSpace_replicate _ c h

/-- The white space of `DumpStyle.itemSep`. -/
def DumpStyle.gap (st : DumpStyle) (lvl : ℕ) : PyStr :=
  List.replicate st.itemGap (ch ' ') ++ st.newline lvl

theorem itemSep_eq (st : DumpStyle) (lvl : ℕ) : st.itemSep lvl = ch ',' :: st.gap lvl := rfl

theorem allSpace_gap (st : DumpStyle) (lvl : ℕ) : AllSpace (st.gap lvl) := by
  intro c hc
  rcases List.mem_append.mp hc with h | h
  · exact allSpace_replicate _ c h
  · exact allSpace_newline st lvl c h

/-- White space and then a delimiter is a delimiter. -/
theorem delim_space_append {w s : PyStr} (hw : AllSpace w) (hs : Delim s) : Delim (w ++ s) := by
  cases w with
  | nil => exact hs
  | cons c w =>
    refine delim_cons ?_
    have hc := hw c List.mem_cons_self
    simp only [isJsonSpace, Bool.or_eq_true, beq_iff_eq] at hc
    have hval : c = 32 ∨ c = 9 ∨ c = 10 ∨ c = 13 := by
      rcases hc with ((h | h) | h) | h
      · exact Or.inl (Fin.ext h)
      · exact Or.inr (Or.inl (Fin.ext h))
      · exact Or.inr (Or.inr (Or.inl (Fin.ext h)))
      · exact Or.inr (Or.inr (Or.inr (Fin.ext h)))
    rcases hval with rfl | rfl | rfl | rfl <;> decide

/-! ### The first character of a text -/

/-- May the text of a value start with it?  Not a blank, not a closing bracket. -/
def isValueHead (c : CodePoint) : Bool :=
  !isJsonSpace c && c != ch ']' && c != ch '\x7d'

theorem isValueHead_of_digit {c : CodePoint} (h : isDigit c = true) : isValueHead c = true := by
  simp only [isDigit, Bool.and_eq_true, decide_eq_true_eq] at h
  have hsp : isJsonSpace c = false := by
    simp only [isJsonSpace, Bool.or_eq_false_iff, beq_eq_false_iff_ne]
    omega
  have hb : c ≠ ch ']' := by
    rintro rfl
    exact absurd h.2 (by decide)
  have hc : c ≠ ch '\x7d' := by
    rintro rfl
    exact absurd h.2 (by decide)
  simp [isValueHead, hsp, hb, hc]

theorem isValueHead_number {t : PyStr} {m : PyStr × Bool × PyStr} (h : matchNumber t = some m) :
    ∃ c s, t = c :: s ∧ isValueHead c = true := by
  obtain ⟨c, s, hs, hc⟩ := matchNumber_head h
  refine ⟨c, s, hs, ?_⟩
  rcases hc with hc | rfl
  · exact isValueHead_of_digit hc
  · decide

theorem bracketed_cons (st : DumpStyle) (lvl : ℕ) (l r : CodePoint) (ms : List PyStr) :
    ∃ s, bracketed st lvl l r ms = l :: s := by
  unfold bracketed
  split
  · exact ⟨[r], rfl⟩
  · exact ⟨_, rfl⟩

/-- Joined texts start as the first of them does. -/
theorem intercalate_head (sep : PyStr) {t : PyStr} {c : CodePoint} (h : ∃ s, t = c :: s)
    (ts : List PyStr) (rest : PyStr) : ∃ s, sep.intercalate (t :: ts) ++ rest = c :: s := by
  obtain ⟨s, rfl⟩ := h
  cases ts with
  | nil => exact ⟨s ++ rest, by rw [List.intercalate_singleton]; rfl⟩
  | cons u us => exact ⟨_, by rw [List.intercalate_cons_cons]; rfl⟩

/-- Every printed value starts like a value. -/
theorem printVal_head (F : FloatOps) (st : DumpStyle) (lvl : ℕ) (v : PyVal)
    (hv : v.serializable = true) :
    ∃ c s, printVal F st lvl v = c :: s ∧ isValueHead c = true := by
  cases v with
  | null => exact ⟨ch 'n', _, by simp only [printVal]; rfl, by decide⟩
  | bool b =>
    cases b
    · exact ⟨ch 'f', _, by simp only [printVal]; rfl, by decide⟩
    · exact ⟨ch 't', _, by simp only [printVal]; rfl, by decide⟩
  | int i =>
    simp only [printVal]
    exact isValueHead_number (matchNumber_intStr i)
  | float f =>
    simp only [printVal]
    rcases f with _ | (_ | _) | t
    · exact ⟨ch 'N', _, rfl, by decide⟩
    · exact ⟨ch 'I', _, rfl, by decide⟩
    · exact ⟨ch '-', _, rfl, by decide⟩
    · exact isValueHead_number t.property
  | str s => exact ⟨34, _, by simp only [printVal]; rfl, by decide⟩
  | list xs =>
    simp only [printVal]
    obtain ⟨s, hs⟩ := bracketed_cons st lvl (ch '[') (ch ']') (printElems F st (lvl + 1) xs)
    exact ⟨_, s, hs, by decide⟩
  | tuple xs =>
    simp only [printVal]
    obtain ⟨s, hs⟩ := bracketed_cons st lvl (ch '[') (ch ']') (printElems F st (lvl + 1) xs)
    exact ⟨_, s, hs, by decide⟩
  | dict items =>
    simp only [printVal]
    obtain ⟨s, hs⟩ := bracketed_cons st lvl (ch '\x7b') (ch '\x7d')
      ((sortItems F (printItems F st (lvl + 1) items)).map Prod.snd)
    exact ⟨_, s, hs, by decide⟩
  | object =>
    simp only [PyVal.serializable, Bool.false_eq_true] at hv

theorem not_isJsonSpace_of_isValueHead {c : CodePoint} (h : isValueHead c = true) :
    isJsonSpace c = false := by
  simp only [isValueHead, Bool.and_eq_true, Bool.not_eq_true'] at h
  exact h.1.1

theorem ne_bracket_of_isValueHead {c : CodePoint} (h : isValueHead c = true) :
    c ≠ ch ']' := by
  simp only [isValueHead, Bool.and_eq_true, bne_iff_ne] at h
  exact h.1.2

/-! ### Atoms -/

theorem scanAtom_number (F : FloatOps) {t rest : PyStr} {b : Bool} (hr : Delim rest)
    (ht : matchNumber t = some (t, b, [])) :
    scanAtom F (t ++ rest)
      = some (if b then .float (F.parse t) else .int (intOfText t), rest) := by
  simp only [scanAtom, matchNumber_append t hr, ht, Option.map_some, List.nil_append]

/-- Anything that does not open a string, an object or a list is an atom. -/
theorem scanValue_atom (F : FloatOps) (n : ℕ) {c : CodePoint} (s : PyStr) (h1 : c ≠ 34)
    (h2 : c ≠ ch '\x7b') (h3 : c ≠ ch '[') :
    scanValue F (n + 1) (c :: s) = scanAtom F (c :: s) := by
  rw [scanValue, if_neg h1, if_neg h2, if_neg h3]

theorem scanValue_number (F : FloatOps) {t rest : PyStr} {b : Bool} (n : ℕ) (hr : Delim rest)
    (ht : matchNumber t = some (t, b, [])) :
    scanValue F (n + 1) (t ++ rest)
      = some (if b then .float (F.parse t) else .int (intOfText t), rest) := by
  rw [← scanAtom_number F hr ht]
  obtain ⟨c, s, rfl, hc⟩ := matchNumber_head ht
  have hne : ∀ d : CodePoint, isDigit d = false → d ≠ ch '-' → c ≠ d := by
    rintro d hd hm rfl
    rcases hc with hc | hc
    · rw [hd] at hc
      cases hc
    · exact hm hc
  exact scanValue_atom F n _ (hne _ (by decide) (by decide)) (hne _ (by decide) (by decide))
    (hne _ (by decide) (by decide))

/-! ### Values -/

/-- The scanner reads `v` back, whatever delimiter comes behind it.  `F` parses the
floats, `G` sorted the keys. -/
def ReadsBack (F G : FloatOps) (st : DumpStyle) (v : PyVal) : Prop :=
  ∀ lvl rest n, Delim rest → 2 * (printVal G st lvl v ++ rest).length < n →
    scanValue F n (printVal G st lvl v ++ rest) = some (v.jsonValue G, rest)

theorem readsBack_float {F G : FloatOps} (st : DumpStyle) {f : PyFloat}
    (hF : ∀ t, f = .fin t → F.Keeps t) : ReadsBack F G st (.float f) := by
  intro lvl rest n hr hn
  obtain ⟨n, rfl⟩ := Nat.exists_eq_add_one.mpr (Nat.zero_lt_of_lt hn)
  simp only [printVal, PyVal.jsonValue]
  rcases f with _ | (_ | _) | t
  · exact (scanValue_atom F n _ (by decide) (by decide) (by decide)).trans rfl
  · exact (scanValue_atom F n _ (by decide) (by decide) (by decide)).trans rfl
  · exact (scanValue_atom F n _ (by decide) (by decide) (by decide)).trans rfl
  · rw [PyFloat.jsonText, scanValue_number F n hr t.property, if_pos rfl,
      show F.parse t.val = .fin t from hF t rfl]

theorem readsBack_str {F G : FloatOps} {st : DumpStyle} {s : PyStr}
    (hs : StrKept st.ensureAscii s) : ReadsBack F G st (.str s) := by
  intro lvl rest n hr hn
  obtain ⟨n, rfl⟩ := Nat.exists_eq_add_one.mpr (Nat.zero_lt_of_lt hn)
  simp only [printVal, PyVal.jsonValue] at hn ⊢
  obtain ⟨body, htext, hlen, hscan⟩ := scanString_printStr st.ensureAscii s rest hs n (by omega)
  rw [htext, scanValue, if_pos rfl, hscan n (by omega)]
  rfl

/-- The members of a list that is not empty. -/
theorem scanElems_print {F G : FloatOps} (st : DumpStyle) (lvl : ℕ) {close : PyStr} (rest : PyStr)
    (hclose : AllSpace close) :
    ∀ (xs : List PyVal), xs ≠ [] → (∀ x ∈ xs, x.serializable = true ∧ ReadsBack F G st x) → ∀ n,
      2 * ((st.itemSep lvl).intercalate (xs.map (printVal G st lvl))
        ++ (close ++ ch ']' :: rest)).length + 1 < n →
      scanElems F n ((st.itemSep lvl).intercalate (xs.map (printVal G st lvl))
        ++ (close ++ ch ']' :: rest)) = some (xs.map (PyVal.jsonValue G), rest)
  | [], hne, _, _, _ => absurd rfl hne
  | [x], _, hx, n, hn => by
    obtain ⟨n, rfl⟩ := Nat.exists_eq_add_one.mpr (Nat.zero_lt_of_lt hn)
    have hd : Delim (close ++ ch ']' :: rest) :=
      delim_space_append hclose (delim_cons (by decide))
    simp only [List.map_cons, List.map_nil, List.intercalate_singleton] at hn ⊢
    have hv := (hx x List.mem_cons_self).2 lvl _ n hd (by omega)
    have hws : skipWs (close ++ ch ']' :: rest) = ch ']' :: rest :=
      (skipWs_append hclose _).trans (skipWs_cons (by decide) rest)
    simp only [scanElems, hv, Option.bind_eq_bind, Option.bind_some, hws, if_true,
      Option.pure_def]
  | x :: y :: xs, _, hx, n, hn => by
    obtain ⟨n, rfl⟩ := Nat.exists_eq_add_one.mpr (Nat.zero_lt_of_lt hn)
    rw [List.map_cons, List.map_cons, List.intercalate_cons_cons, itemSep_eq] at hn ⊢
    rw [← List.map_cons] at hn ⊢
    -- what is printed behind the comma
    obtain ⟨tail, htail⟩ : ∃ tail, (ch ',' :: st.gap lvl).intercalate
        ((y :: xs).map (printVal G st lvl)) ++ (close ++ ch ']' :: rest) = tail := ⟨_, rfl⟩
    have hrec := scanElems_print (F := F) (G := G) st lvl rest hclose (y :: xs)
      (List.cons_ne_nil y xs) (fun z hz => hx z (List.mem_cons_of_mem x hz)) n
    rw [itemSep_eq, htail] at hrec
    simp only [List.append_assoc, List.cons_append, htail, List.length_append,
      List.length_cons] at hn hrec ⊢
    have hv := (hx x List.mem_cons_self).2 lvl (ch ',' :: (st.gap lvl ++ tail)) n
      (delim_cons (by decide)) (by
        simp only [List.length_append, List.length_cons]
        omega)
    -- the next element starts where the white space ends
    obtain ⟨c, s, hhead, hc⟩ := printVal_head G st lvl y
      (hx y (List.mem_cons_of_mem x List.mem_cons_self)).1
    obtain ⟨s', htail'⟩ := intercalate_head (ch ',' :: st.gap lvl) ⟨s, hhead⟩
      (xs.map (printVal G st lvl)) (close ++ ch ']' :: rest)
    rw [← List.map_cons, htail] at htail'
    have hws : skipWs (st.gap lvl ++ tail) = tail := by
      rw [skipWs_append (allSpace_gap st lvl), htail',
        skipWs_cons (not_isJsonSpace_of_isValueHead hc)]
    simp only [scanElems, hv, Option.bind_eq_bind, Option.bind_some,
      skipWs_cons (show isJsonSpace (ch ',') = false by decide), hws, hrec (by omega),
      Option.pure_def, if_true, if_neg (show ch ',' ≠ ch ']' by decide), List.map_cons]

/-- An item that can be read back. -/
structure ItemOk (F G : FloatOps) (st : DumpStyle) (kv : PyKey × PyVal) : Prop where
  kept : StrKept st.ensureAscii kv.1.text
  serializable : kv.2.serializable = true
  readsBack : ReadsBack F G st kv.2

/-- One item is read up to whatever comes behind its value. -/
theorem scanPairs_member {F G : FloatOps} {st : DumpStyle} (lvl : ℕ) {kv : PyKey × PyVal}
    (hkv : ItemOk F G st kv) {tail : PyStr} (htail : Delim tail) (n : ℕ)
    (hn : 2 * (memberText G st lvl kv ++ tail).length < n) :
    scanPairs F (n + 1) (memberText G st lvl kv ++ tail) =
      match skipWs tail with
      | [] => none
      | c :: s =>
        if c = ch '\x7d' then some ([(.str kv.1.text, kv.2.jsonValue G)], s)
        else if c = ch ',' then
          (scanPairs F n (skipWs s)).map fun r => ((.str kv.1.text, kv.2.jsonValue G) :: r.1, r.2)
        else none := by
  obtain ⟨k, v⟩ := kv
  obtain ⟨c, s, hhead, hc⟩ := printVal_head G st lvl v hkv.serializable
  simp only [memberText, DumpStyle.keySep, List.append_assoc, List.cons_append,
    List.length_append, List.length_cons] at hn ⊢
  obtain ⟨body, htext, hlen, hscan⟩ := scanString_printStr st.ensureAscii k.text
    (ch ':' :: (List.replicate st.keyGap (ch ' ') ++ (printVal G st lvl v ++ tail))) hkv.kept n
    (by simp only [List.length_append, List.length_cons]; omega)
  have hws : skipWs (List.replicate st.keyGap (ch ' ') ++ (printVal G st lvl v ++ tail))
      = printVal G st lvl v ++ tail := by
    rw [skipWs_append (allSpace_replicate _), hhead, List.cons_append,
      skipWs_cons (not_isJsonSpace_of_isValueHead hc)]
  have hv := hkv.readsBack lvl tail n htail (by simp only [List.length_append]; omega)
  rw [htext, scanPairs, if_pos rfl, hscan n (by omega)]
  simp only [Option.bind_eq_bind, Option.bind_some,
    skipWs_cons (show isJsonSpace (ch ':') = false by decide), if_true, hws, hv]
  cases skipWs tail with
  | nil => rfl
  | cons c s =>
    simp only
    split
    · rfl
    · split
      · cases scanPairs F n (skipWs s) <;> rfl
      · rfl

theorem memberText_cons (G : FloatOps) (st : DumpStyle) (lvl : ℕ) (kv : PyKey × PyVal) :
    ∃ s, memberText G st lvl kv = 34 :: s := ⟨_, rfl⟩

/-- The items of a dictionary that is not empty. -/
theorem scanPairs_print {F G : FloatOps} (st : DumpStyle) (lvl : ℕ) {close : PyStr} (rest : PyStr)
    (hclose : AllSpace close) :
    ∀ (items : List (PyKey × PyVal)), items ≠ [] → (∀ kv ∈ items, ItemOk F G st kv) → ∀ n,
      2 * ((st.itemSep lvl).intercalate (items.map (memberText G st lvl))
        ++ (close ++ ch '\x7d' :: rest)).length + 1 < n →
      scanPairs F n ((st.itemSep lvl).intercalate (items.map (memberText G st lvl))
        ++ (close ++ ch '\x7d' :: rest))
          = some (items.map fun kv => (.str kv.1.text, kv.2.jsonValue G), rest)
  | [], hne, _, _, _ => absurd rfl hne
  | [kv], _, hkv, n, hn => by
    obtain ⟨n, rfl⟩ := Nat.exists_eq_add_one.mpr (Nat.zero_lt_of_lt hn)
    have hd : Delim (close ++ ch '\x7d' :: rest) :=
      delim_space_append hclose (delim_cons (by decide))
    have hws : skipWs (close ++ ch '\x7d' :: rest) = ch '\x7d' :: rest :=
      (skipWs_append hclose _).trans (skipWs_cons (by decide) rest)
    simp only [List.map_cons, List.map_nil, List.intercalate_singleton] at hn ⊢
    rw [scanPairs_member lvl (hkv kv List.mem_cons_self) hd n (by omega), hws]
    simp only [if_true]
  | kv :: kv' :: items, _, hkv, n, hn => by
    obtain ⟨n, rfl⟩ := Nat.exists_eq_add_one.mpr (Nat.zero_lt_of_lt hn)
    rw [List.map_cons, List.map_cons, List.intercalate_cons_cons, itemSep_eq] at hn ⊢
    rw [← List.map_cons] at hn ⊢
    -- what is printed behind the comma
    obtain ⟨tail, htail⟩ : ∃ tail, (ch ',' :: st.gap lvl).intercalate
        ((kv' :: items).map (memberText G st lvl)) ++ (close ++ ch '\x7d' :: rest) = tail :=
      ⟨_, rfl⟩
    have hrec := scanPairs_print (F := F) (G := G) st lvl rest hclose
      (kv' :: items) (List.cons_ne_nil kv' items) (fun z hz => hkv z (List.mem_cons_of_mem kv hz)) n
    rw [itemSep_eq, htail] at hrec
    simp only [List.append_assoc, List.cons_append, htail, List.length_append,
      List.length_cons] at hn hrec ⊢
    -- the next item starts where the white space ends
    obtain ⟨s', htail'⟩ := intercalate_head (ch ',' :: st.gap lvl) (memberText_cons G st lvl kv')
      (items.map (memberText G st lvl)) (close ++ ch '\x7d' :: rest)
    rw [← List.map_cons, htail] at htail'
    have hws : skipWs (st.gap lvl ++ tail) = tail := by
      rw [skipWs_append (allSpace_gap st lvl), htail', skipWs_cons (by decide)]
    rw [scanPairs_member lvl (hkv kv List.mem_cons_self) (delim_cons (by decide)) n
      (by simp only [List.length_append, List.length_cons]; omega),
      skipWs_cons (show isJsonSpace (ch ',') = false by decide)]
    simp only [if_neg (show ch ',' ≠ ch '\x7d' by decide), if_true, hws, hrec (by omega),
      Option.map_some, List.map_cons]

/-! ### Dictionaries without repeated keys -/

theorem dict_set_of_not_mem {d : PyDict} {k : PyKey} {v : PyVal} (h : k ∉ d.map Prod.fst) :
    PyDict.set d k v = d ++ [(k, v)] := by
  induction d with
  | nil => rfl
  | cons kv d ih =>
    obtain ⟨k', v'⟩ := kv
    rw [List.map_cons, List.mem_cons, not_or] at h
    rw [PyDict.set, if_neg fun heq => h.1 heq.symm, ih h.2]
    rfl

/-- Pairs without a repeated key are kept as they are. -/
theorem dictOfPairs_of_nodup {pairs : List (PyKey × PyVal)}
    (h : (pairs.map Prod.fst).Nodup) : dictOfPairs pairs = pairs := by
  have key : ∀ (l acc : List (PyKey × PyVal)), ((acc ++ l).map Prod.fst).Nodup →
      l.foldl (fun d kv => PyDict.set d kv.1 kv.2) acc = acc ++ l := by
    intro l
    induction l with
    | nil =>
      intro acc _
      simp
    | cons kv l ih =>
      intro acc hacc
      have hmem : kv.1 ∉ acc.map Prod.fst := by
        rw [List.map_append, List.nodup_append] at hacc
        intro hin
        exact hacc.2.2 _ hin _ (by simp) rfl
      rw [List.foldl_cons, dict_set_of_not_mem hmem, ih _ (by simpa using hacc)]
      simp
  simpa [dictOfPairs] using key pairs [] (by simpa using h)

/-! ### The round trip -/

theorem readsBack_list {F G : FloatOps} {st : DumpStyle} {xs : List PyVal}
    (hx : ∀ x ∈ xs, x.serializable = true ∧ ReadsBack F G st x) : ReadsBack F G st (.list xs) := by
  intro lvl rest n hr hn
  obtain ⟨n, rfl⟩ := Nat.exists_eq_add_one.mpr (Nat.zero_lt_of_lt hn)
  simp only [printVal, PyVal.jsonValue, printElems_eq_map, jsonElems_eq_map, bracketed,
    List.map_eq_nil_iff] at hn ⊢
  split at hn
  · rename_i hnil
    subst hnil
    simp only [List.cons_append, List.nil_append, scanValue, if_neg (show ch '[' ≠ 34 by decide),
      if_neg (show ch '[' ≠ ch '\x7b' by decide), if_true,
      skipWs_cons (show isJsonSpace (ch ']') = false by decide), List.map_nil]
  · rename_i hne
    rw [if_neg hne]
    simp only [List.cons_append, List.append_assoc, List.nil_append, List.length_cons] at hn ⊢
    have hscan := scanElems_print (F := F) (G := G) st (lvl + 1) rest
      (allSpace_newline st lvl) xs hne hx n
    obtain ⟨y, ys, rfl⟩ := List.exists_cons_of_ne_nil hne
    obtain ⟨c, s, hhead, hc⟩ := printVal_head G st (lvl + 1) y (hx y List.mem_cons_self).1
    obtain ⟨inner, hinner⟩ : ∃ inner, (st.itemSep (lvl + 1)).intercalate
        ((y :: ys).map (printVal G st (lvl + 1))) ++ (st.newline lvl ++ ch ']' :: rest) = inner :=
      ⟨_, rfl⟩
    obtain ⟨s', hinner'⟩ := intercalate_head (st.itemSep (lvl + 1)) ⟨s, hhead⟩
      (ys.map (printVal G st (lvl + 1))) (st.newline lvl ++ ch ']' :: rest)
    rw [← List.map_cons, hinner] at hinner'
    rw [hinner] at hn hscan ⊢
    have hws : skipWs (st.newline (lvl + 1) ++ inner) = c :: s' := by
      rw [skipWs_append (allSpace_newline st _), hinner',
        skipWs_cons (not_isJsonSpace_of_isValueHead hc)]
    rw [List.length_append] at hn
    rw [scanValue, if_neg (show ch '[' ≠ 34 by decide),
      if_neg (show ch '[' ≠ ch '\x7b' by decide), if_pos rfl, hws]
    simp only [if_neg (ne_bracket_of_isValueHead hc), ← hinner', hscan (by omega),
      Option.map_some]

theorem readsBack_dict {F G : FloatOps} {st : DumpStyle} {items : List (PyKey × PyVal)}
    (hkv : ∀ kv ∈ items, ItemOk F G st kv) : ReadsBack F G st (.dict items) := by
  intro lvl rest n hr hn
  obtain ⟨n, rfl⟩ := Nat.exists_eq_add_one.mpr (Nat.zero_lt_of_lt hn)
  -- from here on the sorted items
  obtain ⟨sorted, hsorted⟩ : ∃ sorted, sortItems G items = sorted := ⟨_, rfl⟩
  have hperm : sorted.Perm items := hsorted ▸ sortItems_perm G items
  have hok : ∀ kv ∈ sorted, ItemOk F G st kv := fun kv h => hkv kv (hperm.mem_iff.mp h)
  simp only [printVal, PyVal.jsonValue, printItems_eq_map, jsonItems_eq_map, sortItems_map, hsorted,
    List.map_map, Function.comp_def, bracketed, List.map_eq_nil_iff] at hn ⊢
  split at hn
  · rename_i hnil
    subst hnil
    simp only [List.cons_append, List.nil_append, scanValue,
      if_neg (show ch '\x7b' ≠ 34 by decide), if_true,
      skipWs_cons (show isJsonSpace (ch '\x7d') = false by decide), List.map_nil, dictOfPairs,
      List.foldl_nil]
  · rename_i hne
    rw [if_neg hne]
    simp only [List.cons_append, List.append_assoc, List.nil_append, List.length_cons] at hn ⊢
    have hscan := scanPairs_print (F := F) (G := G) st (lvl + 1) rest
      (allSpace_newline st lvl) sorted hne hok n
    obtain ⟨kv, kvs, rfl⟩ := List.exists_cons_of_ne_nil hne
    obtain ⟨inner, hinner⟩ : ∃ inner, (st.itemSep (lvl + 1)).intercalate
        ((kv :: kvs).map (memberText G st (lvl + 1)))
          ++ (st.newline lvl ++ ch '\x7d' :: rest) = inner := ⟨_, rfl⟩
    obtain ⟨s', hinner'⟩ := intercalate_head (st.itemSep (lvl + 1))
      (memberText_cons G st (lvl + 1) kv) (kvs.map (memberText G st (lvl + 1)))
      (st.newline lvl ++ ch '\x7d' :: rest)
    rw [← List.map_cons, hinner] at hinner'
    rw [hinner] at hn hscan ⊢
    have hws : skipWs (st.newline (lvl + 1) ++ inner) = 34 :: s' := by
      rw [skipWs_append (allSpace_newline st _), hinner', skipWs_cons (by decide)]
    rw [List.length_append] at hn
    rw [scanValue, if_neg (show ch '\x7b' ≠ 34 by decide), if_pos rfl, hws]
    simp only [if_neg (show (34 : CodePoint) ≠ ch '\x7d' by decide), ← hinner',
      hscan (by omega), Option.map_some]

mutual

/-- Every value that can be printed is read back as the JSON value it is. -/
theorem readsBack_val (F G : FloatOps) (st : DumpStyle) : ∀ v : PyVal, v.serializable = true →
    v.AllLeaves (StrKept st.ensureAscii) F.Keeps → ReadsBack F G st v
  | .null, _, _ => by
    intro lvl rest n hr hn
    obtain ⟨n, rfl⟩ := Nat.exists_eq_add_one.mpr (Nat.zero_lt_of_lt hn)
    simp only [printVal, PyVal.jsonValue]
    exact (scanValue_atom F n _ (by decide) (by decide) (by decide)).trans rfl
  | .bool b, _, _ => by
    intro lvl rest n hr hn
    obtain ⟨n, rfl⟩ := Nat.exists_eq_add_one.mpr (Nat.zero_lt_of_lt hn)
    simp only [printVal, PyVal.jsonValue]
    cases b
    · exact (scanValue_atom F n _ (by decide) (by decide) (by decide)).trans rfl
    · exact (scanValue_atom F n _ (by decide) (by decide) (by decide)).trans rfl
  | .int i, _, _ => by
    intro lvl rest n hr hn
    obtain ⟨n, rfl⟩ := Nat.exists_eq_add_one.mpr (Nat.zero_lt_of_lt hn)
    simp only [printVal, PyVal.jsonValue]
    rw [scanValue_number F n hr (matchNumber_intStr i), intOfText_intStr]
    rfl
  | .float f, _, hs => readsBack_float st fun t ht => by
    subst ht
    simpa only [PyVal.AllLeaves] using hs
  | .str s, _, hs => readsBack_str (by simpa only [PyVal.AllLeaves] using hs)
  | .list xs, hv, hs => by
    simp only [PyVal.serializable, PyVal.AllLeaves] at hv hs
    exact readsBack_list fun x hx =>
      ⟨elemsSerializable_iff.mp hv x hx, readsBack_elems F G st xs hv hs x hx⟩
  | .tuple xs, hv, hs => by
    simp only [PyVal.serializable, PyVal.AllLeaves] at hv hs
    -- a tuple is printed as the list of its elements
    have hlist : ReadsBack F G st (.list xs) := readsBack_list fun x hx =>
      ⟨elemsSerializable_iff.mp hv x hx, readsBack_elems F G st xs hv hs x hx⟩
    simpa only [ReadsBack, printVal, PyVal.jsonValue] using hlist
  | .dict items, hv, hs => by
    simp only [PyVal.serializable, Bool.and_eq_true, PyVal.AllLeaves] at hv hs
    exact readsBack_dict (readsBack_items F G st items hv.2 hs)
  | .object, hv, _ => by
    simp only [PyVal.serializable, Bool.false_eq_true] at hv

/-- `readsBack_val` for every element. -/
theorem readsBack_elems (F G : FloatOps) (st : DumpStyle) : ∀ xs : List PyVal,
    elemsSerializable xs = true → ElemsAllLeaves (StrKept st.ensureAscii) F.Keeps xs →
      ∀ x ∈ xs, ReadsBack F G st x
  | [], _, _ => by simp
  | y :: ys, hv, hs => by
    simp only [elemsSerializable, Bool.and_eq_true, ElemsAllLeaves] at hv hs
    exact List.forall_mem_cons.mpr
      ⟨readsBack_val F G st y hv.1 hs.1, readsBack_elems F G st ys hv.2 hs.2⟩

/-- `readsBack_val` for every item. -/
theorem readsBack_items (F G : FloatOps) (st : DumpStyle) : ∀ items : List (PyKey × PyVal),
    itemsSerializable items = true → ItemsAllLeaves (StrKept st.ensureAscii) F.Keeps items →
      ∀ kv ∈ items, ItemOk F G st kv
  | [], _, _ => by simp
  | (k, v) :: items, hv, hs => by
    simp only [itemsSerializable, Bool.and_eq_true, ItemsAllLeaves] at hv hs
    exact List.forall_mem_cons.mpr
      ⟨⟨hs.1, hv.1.2, readsBack_val F G st v hv.1.2 hs.2.1⟩,
        readsBack_items F G st items hv.2 hs.2.2⟩

end

/-- **The round trip**: `json.loads` undoes `json.dumps`, white space behind it or not. -/
theorem loads_printVal {F G : FloatOps} (st : DumpStyle) {v : PyVal} {rest : PyStr}
    (hv : v.serializable = true) (hs : v.AllLeaves (StrKept st.ensureAscii) F.Keeps)
    (hrest : AllSpace rest) : loads F (printVal G st 0 v ++ rest) = .ok (v.jsonValue G) := by
  obtain ⟨c, s, hhead, hc⟩ := printVal_head G st 0 v hv
  have hws : skipWs (printVal G st 0 v ++ rest) = printVal G st 0 v ++ rest := by
    rw [hhead, List.cons_append, skipWs_cons (not_isJsonSpace_of_isValueHead hc)]
  have hdelim : Delim rest := by
    have h := delim_space_append hrest delim_nil
    rwa [List.append_nil] at h
  have hskip : skipWs rest = [] := by
    have h := skipWs_append hrest []
    rwa [List.append_nil] at h
  have hscan := readsBack_val F G st v hv hs 0 rest (2 * (printVal G st 0 v ++ rest).length + 2)
    hdelim (by omega)
  simp only [loads, loads?, hws, hscan, Option.bind_eq_bind, Option.bind_some, hskip, if_true,
    Option.pure_def]

/-- Floats as tokens: the parser that returns the text it is given. -/
def tokenOps : FloatOps where
  parse t := if h : matchNumber t = some (t, true, []) then .fin ⟨t, h⟩ else .nan
  value _ := 0
  nanOrder keys := List.range keys.length
  nanOrder_perm _ := List.Perm.refl _

theorem tokenOps_keeps (t : FloatText) : tokenOps.Keeps t := by
  simp only [FloatOps.Keeps, tokenOps, dif_pos t.property]

/-- `json` reads the string back that it wrote in ASCII. -/
def JsonKeeps (s : PyStr) : Prop := ∀ F : FloatOps, loads F (printStr true s) = .ok (.str s)

/-- **The strings that JSON keeps** are those without a pair of surrogates. -/
theorem jsonKeeps_iff {s : PyStr} : JsonKeeps s ↔ Unpaired s := by
  have hkept : ∀ (F : FloatOps) {t : PyStr}, Unpaired t →
      loads F (printStr true t) = .ok (.str t) := by
    intro F t ht
    have hleaf : (PyVal.str t).AllLeaves (StrKept indentStyle.ensureAscii) F.Keeps := fun _ => ht
    have h := loads_printVal (F := F) (G := F) indentStyle (v := .str t) rfl hleaf allSpace_nil
    rw [List.append_nil] at h
    exact h
  constructor
  · intro h
    have hjoined := hkept tokenOps (unpaired_joinPairs s)
    rw [printStr_joinPairs, h, Except.ok.injEq, PyVal.str.injEq] at hjoined
    exact joinPairs_eq_self_iff.mp hjoined.symm
  · exact fun h F => hkept F h

/-! ### Injectivity -/

mutual

theorem allLeaves_of_forall {p : PyStr → Prop} {q : FloatText → Prop} (hp : ∀ s, p s)
    (hq : ∀ t, q t) : ∀ v : PyVal, v.AllLeaves p q
  | .null | .bool _ | .int _ | .object => by simp only [PyVal.AllLeaves]
  | .float (.fin t) => by
    simp only [PyVal.AllLeaves]
    exact hq t
  | .float .nan | .float (.inf _) => by simp only [PyVal.AllLeaves]
  | .str s => by
    simp only [PyVal.AllLeaves]
    exact hp s
  | .list xs | .tuple xs => by
    simp only [PyVal.AllLeaves]
    exact elemsAllLeaves_of_forall hp hq xs
  | .dict items => by
    simp only [PyVal.AllLeaves]
    exact itemsAllLeaves_of_forall hp hq items

theorem elemsAllLeaves_of_forall {p : PyStr → Prop} {q : FloatText → Prop} (hp : ∀ s, p s)
    (hq : ∀ t, q t) : ∀ xs : List PyVal, ElemsAllLeaves p q xs
  | [] => by simp only [ElemsAllLeaves]
  | x :: xs => by
    simp only [ElemsAllLeaves]
    exact ⟨allLeaves_of_forall hp hq x, elemsAllLeaves_of_forall hp hq xs⟩

theorem itemsAllLeaves_of_forall {p : PyStr → Prop} {q : FloatText → Prop} (hp : ∀ s, p s)
    (hq : ∀ t, q t) : ∀ items : List (PyKey × PyVal), ItemsAllLeaves p q items
  | [] => by simp only [ItemsAllLeaves]
  | (k, v) :: items => by
    simp only [ItemsAllLeaves]
    exact ⟨hp _, allLeaves_of_forall hp hq v, itemsAllLeaves_of_forall hp hq items⟩

end

mutual

/-- What holds of every leaf may be weakened. -/
theorem allLeaves_imp {p p' : PyStr → Prop} {q q' : FloatText → Prop} (hp : ∀ s, p s → p' s)
    (hq : ∀ t, q t → q' t) : ∀ v : PyVal, v.AllLeaves p q → v.AllLeaves p' q'
  | .null, _ | .bool _, _ | .int _, _ | .object, _ => by simp only [PyVal.AllLeaves]
  | .float (.fin t), h => by
    simp only [PyVal.AllLeaves] at h ⊢
    exact hq t h
  | .float .nan, _ | .float (.inf _), _ => by simp only [PyVal.AllLeaves]
  | .str s, h => by
    simp only [PyVal.AllLeaves] at h ⊢
    exact hp s h
  | .list xs, h | .tuple xs, h => by
    simp only [PyVal.AllLeaves] at h ⊢
    exact elemsAllLeaves_imp hp hq xs h
  | .dict items, h => by
    simp only [PyVal.AllLeaves] at h ⊢
    exact itemsAllLeaves_imp hp hq items h

theorem elemsAllLeaves_imp {p p' : PyStr → Prop} {q q' : FloatText → Prop} (hp : ∀ s, p s → p' s)
    (hq : ∀ t, q t → q' t) : ∀ xs : List PyVal, ElemsAllLeaves p q xs → ElemsAllLeaves p' q' xs
  | [], _ => by simp only [ElemsAllLeaves]
  | x :: xs, h => by
    simp only [ElemsAllLeaves] at h ⊢
    exact ⟨allLeaves_imp hp hq x h.1, elemsAllLeaves_imp hp hq xs h.2⟩

theorem itemsAllLeaves_imp {p p' : PyStr → Prop} {q q' : FloatText → Prop} (hp : ∀ s, p s → p' s)
    (hq : ∀ t, q t → q' t) : ∀ items : List (PyKey × PyVal),
    ItemsAllLeaves p q items → ItemsAllLeaves p' q' items
  | [], _ => by simp only [ItemsAllLeaves]
  | (k, v) :: items, h => by
    simp only [ItemsAllLeaves] at h ⊢
    exact ⟨hp _ h.1, allLeaves_imp hp hq v h.2.1, itemsAllLeaves_imp hp hq items h.2.2⟩

end

/-- **The compact text determines the value**, as JSON. -/
theorem printVal_compact_inj {G : FloatOps} {v w : PyVal} (hv : v.serializable = true)
    (hw : w.serializable = true)
    (h : printVal G compactStyle 0 v = printVal G compactStyle 0 w) :
    v.jsonValue G = w.jsonValue G := by
  have hv' := loads_printVal (G := G) compactStyle hv
    (allLeaves_of_forall strKept_raw tokenOps_keeps v) allSpace_nil
  have hw' := loads_printVal (G := G) compactStyle hw
    (allLeaves_of_forall strKept_raw tokenOps_keeps w) allSpace_nil
  rw [h, hw'] at hv'
  exact (Except.ok.inj hv').symm

/-! ### Values that are JSON to begin with -/

/-- Among string keys a key is its text. -/
theorem map_text_of_isStr {items : List (PyKey × PyVal)} (h : ∀ kv ∈ items, kv.1.isStr = true) :
    items.map (fun kv => (PyKey.str kv.1.text, kv.2)) = items := by
  conv_rhs => rw [← List.map_id items]
  refine List.map_congr_left fun kv hkv => ?_
  obtain ⟨k, v⟩ := kv
  have hk := h (k, v) hkv
  cases k with
  | str s => rfl
  | _ => simp only [PyKey.isStr, Bool.false_eq_true] at hk

/-- Among items without repeated keys, looking up is membership. -/
theorem lookup_eq_some_iff_mem {K V : Type} [DecidableEq K] {k : K} {v : V} :
    ∀ {l : List (K × V)}, (l.map Prod.fst).Nodup → (l.lookup k = some v ↔ (k, v) ∈ l)
  | [], _ => by simp
  | (k', v') :: l, h => by
    rw [List.map_cons, List.nodup_cons] at h
    rw [List.lookup_cons, List.mem_cons, Prod.mk.injEq, ← lookup_eq_some_iff_mem h.2]
    by_cases hk : k = k'
    · subst hk
      have hnone : l.lookup k = none := by
        rw [List.lookup_eq_none_iff]
        intro p hp
        simp only [bne_iff_ne, ne_eq]
        rintro rfl
        exact h.1 (List.mem_map.mpr ⟨p, hp, rfl⟩)
      simp [hnone, eq_comm]
    · have hbeq : (k == k') = false := by simpa using hk
      simp [hbeq, hk]

/-- **A dictionary with string keys is read back item by item.** -/
theorem get?_jsonValue (F : FloatOps) {items : PyDict} (hstr : ∀ kv ∈ items, kv.1.isStr = true)
    (hnodup : (items.map Prod.fst).Nodup) :
    ∃ items', (PyVal.dict items).jsonValue F = .dict items' ∧
      ∀ k, PyDict.get? items' k = (PyDict.get? items k).map (PyVal.jsonValue F) := by
  have hperm := sortItems_perm F (jsonItems F items)
  rw [jsonItems_eq_map] at hperm
  have hkeys : ∀ kv ∈ sortItems F (jsonItems F items), kv.1.isStr = true := by
    intro kv hkv
    rw [jsonItems_eq_map, hperm.mem_iff] at hkv
    obtain ⟨kv', hkv', rfl⟩ := List.mem_map.mp hkv
    exact hstr kv' hkv'
  have hnodup' : ((sortItems F (jsonItems F items)).map Prod.fst).Nodup := by
    rw [jsonItems_eq_map, (hperm.map Prod.fst).nodup_iff, List.map_map]
    exact hnodup
  refine ⟨sortItems F (jsonItems F items), ?_, fun k => Option.ext fun v => ?_⟩
  · simp only [PyVal.jsonValue, map_text_of_isStr hkeys, dictOfPairs_of_nodup hnodup']
  · rw [PyDict.get?, PyDict.get?, lookup_eq_some_iff_mem hnodup', jsonItems_eq_map,
      hperm.mem_iff, List.mem_map, Option.map_eq_some_iff]
    simp only [lookup_eq_some_iff_mem hnodup, Prod.mk.injEq, Prod.exists]
    constructor
    · rintro ⟨k', v', hmem, rfl, rfl⟩
      exact ⟨v', hmem, rfl⟩
    · rintro ⟨v', hmem, rfl⟩
      exact ⟨_, v', hmem, rfl, rfl⟩

mutual

/-- **A JSON value is read back as itself**, up to the order of keys. -/
theorem jsonValue_eq_canon (G : FloatOps) : ∀ v : PyVal, v.IsJson → v.jsonValue G = v.canon G
  | .null, _ | .bool _, _ | .int _, _ | .float _, _ | .str _, _ => by
    simp only [PyVal.jsonValue, PyVal.canon]
  | .list xs, hv => by
    simp only [PyVal.IsJson] at hv
    simp only [PyVal.jsonValue, PyVal.canon, jsonElems_eq_canonElems G xs hv]
  | .tuple _, hv | .object, hv => by simp only [PyVal.IsJson] at hv
  | .dict items, hv => by
    simp only [PyVal.IsJson] at hv
    have hperm := sortItems_perm G (canonItems G items)
    have hkeys : ∀ kv ∈ sortItems G (canonItems G items), kv.1.isStr = true := by
      intro kv hkv
      rw [hperm.mem_iff, canonItems_eq_map] at hkv
      obtain ⟨kv', hkv', rfl⟩ := List.mem_map.mp hkv
      exact (itemsJson_iff.mp hv.2 kv' hkv').1
    have hnodup : ((sortItems G (canonItems G items)).map Prod.fst).Nodup := by
      rw [(hperm.map Prod.fst).nodup_iff, canonItems_eq_map, List.map_map]
      exact hv.1
    simp only [PyVal.jsonValue, PyVal.canon, jsonItems_eq_canonItems G items hv.2,
      map_text_of_isStr hkeys, dictOfPairs_of_nodup hnodup]

/-- `jsonValue_eq_canon` for every element. -/
theorem jsonElems_eq_canonElems (G : FloatOps) : ∀ xs : List PyVal, ElemsJson xs →
    jsonElems G xs = canonElems G xs
  | [], _ => by simp only [jsonElems, canonElems]
  | x :: xs, hv => by
    simp only [ElemsJson] at hv
    simp only [jsonElems, canonElems, jsonValue_eq_canon G x hv.1,
      jsonElems_eq_canonElems G xs hv.2]

/-- `jsonValue_eq_canon` for every item. -/
theorem jsonItems_eq_canonItems (G : FloatOps) : ∀ items : List (PyKey × PyVal),
    ItemsJson items → jsonItems G items = canonItems G items
  | [], _ => by simp only [jsonItems, canonItems]
  | (k, v) :: items, hv => by
    simp only [ItemsJson] at hv
    simp only [jsonItems, canonItems, jsonValue_eq_canon G v hv.2.1,
      jsonItems_eq_canonItems G items hv.2.2]

end

end Python
