/-
AuditChain/JsonStrings.lean

JSON strings, there and back.

A style that keeps to ASCII writes a character above the basic plane as the escapes
of a pair of surrogates.  A Python string may hold surrogates of its own.  Each is
escaped by itself, and read by itself, unless it is a high one directly in front of
a low one: the two escapes are read as one character.

    scanString_body        a string without such pairs is read back as it was
    printStr_joinPairs     a string is written as the one with its pairs joined
-/
import AuditChain.JsonDumps
import AuditChain.JsonLoads

namespace Python

/-! ### Strings -/

/-- Half of a character above the basic plane. -/
def isSurrogate (c : CodePoint) : Bool := 0xd800 ≤ c.val && c.val < 0xe000

/-- The first half. -/
def isHigh (c : CodePoint) : Bool := 0xd800 ≤ c.val && c.val < 0xdc00

/-- The second half. -/
def isLow (c : CodePoint) : Bool := 0xdc00 ≤ c.val && c.val < 0xe000

theorem isHigh_iff {c : CodePoint} : isHigh c = true ↔ 0xd800 ≤ c.val ∧ c.val < 0xdc00 := by
  rw [isHigh, Bool.and_eq_true, decide_eq_true_eq, decide_eq_true_eq]

theorem isLow_iff {c : CodePoint} : isLow c = true ↔ 0xdc00 ≤ c.val ∧ c.val < 0xe000 := by
  rw [isLow, Bool.and_eq_true, decide_eq_true_eq, decide_eq_true_eq]

theorem hexFixed_four (n : ℕ) : hexFixed 4 n =
    [hexDigit (n / 16 / 16 / 16 % 16), hexDigit (n / 16 / 16 % 16), hexDigit (n / 16 % 16),
      hexDigit (n % 16)] := rfl

theorem scanHex4_hexFixed {n : ℕ} (h : n < 0x10000) (t : PyStr) :
    scanHex4 (hexFixed 4 n ++ t) = some (n, t) := by
  have hd : ∀ m : ℕ, hexVal (hexDigit (m % 16)) = some (m % 16) :=
    fun m => hexVal_hexDigit (Nat.mod_lt m (by norm_num))
  rw [hexFixed_four]
  simp only [List.cons_append, List.nil_append, scanHex4, hd, Option.bind_eq_bind,
    Option.bind_some, Option.pure_def, Option.some.injEq, Prod.mk.injEq, and_true]
  omega

/-- An escape that is not a high surrogate stands for itself. -/
theorem joinSurrogates_single {n : ℕ} (h : ¬(0xd800 ≤ n ∧ n < 0xdc00)) (t : PyStr) :
    joinSurrogates n t = (Fin.ofNat _ n, t) := by
  unfold joinSurrogates
  split
  · rw [if_neg fun hc => h ⟨hc.1, hc.2.1⟩]
  · rfl

/-- The escapes of a pair of surrogates stand for one character. -/
theorem joinSurrogates_pair {hi lo : ℕ} (hhi : 0xd800 ≤ hi ∧ hi < 0xdc00)
    (hlo : 0xdc00 ≤ lo ∧ lo < 0xe000) (t : PyStr) :
    joinSurrogates hi (uEscape lo ++ t)
      = (Fin.ofNat _ (0x10000 + (hi - 0xd800) * 0x400 + (lo - 0xdc00)), t) := by
  simp only [uEscape, List.cons_append, joinSurrogates, hhi.1, hhi.2, hlo.1, hlo.2, if_true,
    scanHex4_hexFixed (show lo < 0x10000 by omega), and_self]

theorem joinSurrogates_of_ne {c : CodePoint} (h : c ≠ 92) (n : ℕ) (t : PyStr) :
    joinSurrogates n (c :: t) = (Fin.ofNat _ n, c :: t) := by
  cases t with
  | nil => rfl
  | cons u t =>
    show (if _ then _ else _) = _
    rw [if_neg fun hc => h hc.2.2.1]

theorem joinSurrogates_of_ne_u {e : CodePoint} (h : e ≠ ch 'u') (n : ℕ) (t : PyStr) :
    joinSurrogates n (92 :: e :: t) = (Fin.ofNat _ n, 92 :: e :: t) := by
  show (if _ then _ else _) = _
  rw [if_neg fun hc => h hc.2.2.2]

/-- In front of an escape that is no low surrogate every escape stands for itself. -/
theorem joinSurrogates_uEscape {m : ℕ} (hm : m < 0x10000) (hlow : ¬(0xdc00 ≤ m ∧ m < 0xe000))
    (n : ℕ) (t : PyStr) :
    joinSurrogates n (uEscape m ++ t) = (Fin.ofNat _ n, uEscape m ++ t) := by
  simp only [uEscape, List.cons_append, joinSurrogates, scanHex4_hexFixed hm, if_neg hlow, ite_self]

theorem scanChar_uEscape {n : ℕ} (h : n < 0x10000) (t : PyStr) :
    scanChar (uEscape n ++ t) = some (joinSurrogates n t) := by
  simp only [uEscape, List.cons_append, scanChar, if_true, scanHex4_hexFixed h, Option.map_some]

theorem ne_u_of_unescape {e x : CodePoint} (h : unescape e = some x) : e ≠ ch 'u' := by
  intro he
  have hnone : unescape (ch 'u') = none := by decide
  rw [he, hnone] at h
  cases h

/-- A short escape reads back as its character. -/
theorem scanChar_short {e x : CodePoint} (h : unescape e = some x) (t : PyStr) :
    scanChar (92 :: e :: t) = some (x, t) := by
  simp only [scanChar, if_true, if_neg (ne_u_of_unescape h), h, Option.map_some]

/-- The ways of writing a character. -/
inductive Escaped (ascii : Bool) (c : CodePoint) : PyStr → Prop
  | short {e : CodePoint} (h : unescape e = some c) (hletter : 32 ≤ e.val ∧ e.val < 128)
    (hascii : c.val < 128) : Escaped ascii c [92, e]
  | unicode (h : c.val < 0x10000) (hneeded : c.val < 32 ∨ ascii = true ∧ 127 ≤ c.val) :
    Escaped ascii c (uEscape c.val)
  | plain (hquote : c ≠ 34) (hback : c ≠ 92) (hctl : 32 ≤ c.val)
    (hraw : ascii = false ∨ c.val < 127) : Escaped ascii c [c]
  | pair (hascii : ascii = true) (h : 0x10000 ≤ c.val) : Escaped ascii c
    (uEscape (0xd800 + (c.val - 0x10000) / 0x400) ++ uEscape (0xdc00 + (c.val - 0x10000) % 0x400))

/-- Every character is written in one of them. -/
theorem escaped_escapeChar (ascii : Bool) (c : CodePoint) :
    Escaped ascii c (escapeChar ascii c) := by
  unfold escapeChar
  split
  · rename_i h
    rcases h with rfl | rfl <;> exact .short (by decide) (by decide) (by decide)
  rename_i hquote
  iterate 5
    split
    · rename_i h
      subst h
      exact .short (by decide) (by decide) (by decide)
  split
  · exact .unicode (by omega) (Or.inl (by assumption))
  rename_i hctl
  split
  · exact .plain (fun h => hquote (Or.inl h)) (fun h => hquote (Or.inr h)) (not_lt.mp hctl)
      (by assumption)
  rename_i hraw
  obtain ⟨hascii, hbeyond⟩ := not_or.mp hraw
  split
  · exact .unicode (by assumption) (Or.inr ⟨by simpa using hascii, not_lt.mp hbeyond⟩)
  · exact .pair (by simpa using hascii) (by omega)

/-- An escaped character that is no low surrogate is not joined to what is in front. -/
theorem joinSurrogates_escapeChar {c : CodePoint} (h : isLow c = false) (n : ℕ) (t : PyStr) :
    joinSurrogates n (escapeChar true c ++ t) = (Fin.ofNat _ n, escapeChar true c ++ t) := by
  have hlow : ¬(0xdc00 ≤ c.val ∧ c.val < 0xe000) := fun hc => by
    rw [isLow_iff.mpr hc] at h
    cases h
  have hescaped := escaped_escapeChar true c
  generalize escapeChar true c = s at hescaped ⊢
  cases hescaped with
  | short he _ _ => exact joinSurrogates_of_ne_u (ne_u_of_unescape he) n t
  | unicode hbmp _ => exact joinSurrogates_uEscape hbmp hlow n t
  | plain _ hback _ _ => exact joinSurrogates_of_ne hback n t
  | pair _ hbeyond =>
    -- the first escape of a pair is a high surrogate
    have hbound := c.isLt
    rw [List.append_assoc]
    exact joinSurrogates_uEscape (by omega) (by omega) n _

/-- The scanner reads one printed character back, a high surrogate where nothing joins it. -/
theorem scanChar_escapeChar (ascii : Bool) (c : CodePoint) (t : PyStr)
    (hs : ascii = true → isHigh c = true → ∀ n, joinSurrogates n t = (Fin.ofNat _ n, t)) :
    scanChar (escapeChar ascii c ++ t) = some (c, t) := by
  have hescaped := escaped_escapeChar ascii c
  generalize escapeChar ascii c = s at hescaped ⊢
  cases hescaped with
  | short he _ _ => exact scanChar_short he t
  | unicode hbmp hneeded =>
    have hjoin : joinSurrogates c.val t = (Fin.ofNat _ c.val, t) := by
      by_cases hhigh : 0xd800 ≤ c.val ∧ c.val < 0xdc00
      · exact hs (hneeded.resolve_left (by omega)).1 (isHigh_iff.mpr hhigh) c.val
      · exact joinSurrogates_single hhigh t
    rw [scanChar_uEscape hbmp, hjoin]
    simp
  | plain _ hback hctl _ =>
    simp only [List.cons_append, List.nil_append, scanChar, if_neg hback, if_neg (not_lt.mpr hctl)]
  | pair _ hbeyond =>
    have hbound := c.isLt
    rw [List.append_assoc, scanChar_uEscape (by omega), joinSurrogates_pair (by omega) (by omega)]
    refine congrArg (fun x => some (x, t)) (Fin.ext ?_)
    rw [Fin.val_ofNat]
    omega

/-- An escaped character does not start with the closing quote. -/
theorem escapeChar_cons (ascii : Bool) (c : CodePoint) :
    ∃ x s, escapeChar ascii c = x :: s ∧ x ≠ 34 := by
  have hescaped := escaped_escapeChar ascii c
  generalize escapeChar ascii c = s at hescaped ⊢
  cases hescaped with
  | short _ _ _ | unicode _ _ | pair _ _ => exact ⟨92, _, rfl, by decide⟩
  | plain hquote _ _ _ => exact ⟨c, [], rfl, hquote⟩

/-- Strings that a style can read back. -/
def StrOk (ascii : Bool) (s : PyStr) : Prop :=
  ascii = true → ∀ c ∈ s, isSurrogate c = false

theorem strOk_of_all {ascii : Bool} {s : PyStr}
    (h : s.all (fun c => !isSurrogate c) = true) : StrOk ascii s := by
  intro _ c hc
  simpa using List.all_eq_true.mp h c hc

theorem strOk_hexStr {ascii : Bool} (b : Bytes) : StrOk ascii (hexStr b) := by
  intro _ c hc
  obtain ⟨n, hn, rfl⟩ := hexStr_chars c hc
  interval_cases n <;> decide

/-! ### Pairs of surrogates -/

/-- No high surrogate stands directly in front of a low one. -/
def Unpaired : PyStr → Prop
  | c :: d :: s => ¬(isHigh c = true ∧ isLow d = true) ∧ Unpaired (d :: s)
  | _ => True

/-- Strings that a style keeps. -/
def StrKept (ascii : Bool) (s : PyStr) : Prop := ascii = true → Unpaired s

theorem unpaired_of_forall {s : PyStr} (h : ∀ c ∈ s, isSurrogate c = false) : Unpaired s := by
  induction s with
  | nil => trivial
  | cons c s ih =>
    cases s with
    | nil => trivial
    | cons d s =>
      refine ⟨fun hpair => ?_, ih fun x hx => h x (List.mem_cons_of_mem c hx)⟩
      have hc := h c List.mem_cons_self
      have hhigh := isHigh_iff.mp hpair.1
      simp only [isSurrogate, Bool.and_eq_false_iff, decide_eq_false_iff_not] at hc
      omega

theorem StrOk.kept {ascii : Bool} {s : PyStr} (h : StrOk ascii s) : StrKept ascii s :=
  fun hascii => unpaired_of_forall (h hascii)

theorem strKept_of_all {ascii : Bool} {s : PyStr}
    (h : s.all (fun c => !isSurrogate c) = true) : StrKept ascii s := (strOk_of_all h).kept

theorem strKept_raw (s : PyStr) : StrKept false s := fun h => by cases h

theorem Unpaired.tail {c : CodePoint} {s : PyStr} (h : Unpaired (c :: s)) : Unpaired s := by
  cases s with
  | nil => trivial
  | cons d s => exact h.2

/-- What follows an escaped character does not join it. -/
theorem joinSurrogates_body {c : CodePoint} {s : PyStr} (h : Unpaired (c :: s))
    (hhigh : isHigh c = true) (rest : PyStr) (n : ℕ) :
    joinSurrogates n (s.flatMap (escapeChar true) ++ 34 :: rest)
      = (Fin.ofNat _ n, s.flatMap (escapeChar true) ++ 34 :: rest) := by
  cases s with
  | nil => exact joinSurrogates_of_ne (by decide) n rest
  | cons d s =>
    have hlow : isLow d = false := by
      rw [← Bool.not_eq_true]
      exact fun hd => h.1 ⟨hhigh, hd⟩
    rw [List.flatMap_cons, List.append_assoc, joinSurrogates_escapeChar hlow]

/-- **A string that is kept** is read back up to its closing quote. -/
theorem scanString_body (ascii : Bool) (s : PyStr) (rest : PyStr) (hs : StrKept ascii s) :
    ∀ n, (s.flatMap (escapeChar ascii) ++ 34 :: rest).length ≤ n →
      scanString n (s.flatMap (escapeChar ascii) ++ 34 :: rest) = some (s, rest) := by
  induction s with
  | nil =>
    intro n hn
    obtain ⟨n, rfl⟩ : ∃ m, n = m + 1 := ⟨n - 1, by simp at hn; omega⟩
    simp [scanString]
  | cons c s ih =>
    intro n hn
    obtain ⟨n, rfl⟩ : ∃ m, n = m + 1 := ⟨n - 1, by simp at hn; omega⟩
    obtain ⟨x, r, hx, hne⟩ := escapeChar_cons ascii c
    have hchar := scanChar_escapeChar ascii c (s.flatMap (escapeChar ascii) ++ 34 :: rest) (by
      rintro rfl hhigh
      exact joinSurrogates_body (hs rfl) hhigh rest)
    have htail := ih (fun h => (hs h).tail) n (by
      simp only [List.flatMap_cons, hx, List.cons_append, List.length_cons, List.append_assoc,
        List.length_append] at hn ⊢
      omega)
    rw [List.flatMap_cons, List.append_assoc]
    rw [hx, List.cons_append] at hchar ⊢
    simp only [scanString, if_neg hne, hchar, htail, Option.bind_eq_bind, Option.bind_some,
      Option.pure_def]

theorem scanString_printStr (ascii : Bool) (s rest : PyStr) (hs : StrKept ascii s) (n : ℕ)
    (hn : (printStr ascii s ++ rest).length ≤ n) :
    ∃ body, printStr ascii s ++ rest = 34 :: body ∧ body.length < n ∧
      ∀ m, body.length ≤ m → scanString m body = some (s, rest) := by
  refine ⟨s.flatMap (escapeChar ascii) ++ 34 :: rest, by simp [printStr], ?_, ?_⟩
  · simp only [printStr, List.cons_append, List.append_assoc, List.length_cons] at hn
    simpa using hn
  · exact fun m hm => scanString_body ascii s rest hs m hm

/-! ### Joined pairs -/

/-- The character that a pair of surrogates stands for. -/
def pairChar (c d : CodePoint) : CodePoint :=
  Fin.ofNat _ (0x10000 + (c.val - 0xd800) * 0x400 + (d.val - 0xdc00))

/-- The string with its pairs of surrogates joined. -/
def joinPairs : PyStr → PyStr
  | [] => []
  | [c] => [c]
  | c :: d :: s =>
    if isHigh c = true ∧ isLow d = true then pairChar c d :: joinPairs s
    else c :: joinPairs (d :: s)

theorem pairChar_val {c d : CodePoint} (hc : isHigh c = true) (hd : isLow d = true) :
    (pairChar c d).val = 0x10000 + (c.val - 0xd800) * 0x400 + (d.val - 0xdc00) := by
  have hc := isHigh_iff.mp hc
  have hd := isLow_iff.mp hd
  rw [pairChar, Fin.val_ofNat]
  omega

/-- A surrogate is escaped by itself. -/
theorem escapeChar_surrogate {c : CodePoint} (h : 0xd800 ≤ c.val ∧ c.val < 0xe000) :
    escapeChar true c = uEscape c.val := by
  have hescaped := escaped_escapeChar true c
  generalize escapeChar true c = s at hescaped ⊢
  cases hescaped with
  | short _ _ hascii => omega
  | unicode _ _ => rfl
  | plain _ _ _ hraw =>
    rcases hraw with hraw | hraw
    · cases hraw
    · omega
  | pair _ hbeyond => omega

/-- A pair of surrogates is escaped as the character it stands for. -/
theorem escapeChar_pairChar {c d : CodePoint} (hc : isHigh c = true) (hd : isLow d = true) :
    escapeChar true (pairChar c d) = escapeChar true c ++ escapeChar true d := by
  have hval := pairChar_val hc hd
  have hc := isHigh_iff.mp hc
  have hd := isLow_iff.mp hd
  rw [escapeChar_surrogate (c := c) (by omega), escapeChar_surrogate (c := d) (by omega)]
  have hescaped := escaped_escapeChar true (pairChar c d)
  generalize escapeChar true (pairChar c d) = s at hescaped ⊢
  cases hescaped with
  | short _ _ hascii => omega
  | unicode hbmp _ => omega
  | plain _ _ _ hraw =>
    rcases hraw with hraw | hraw
    · cases hraw
    · omega
  | pair _ _ =>
    have hfirst : 0xd800 + ((pairChar c d).val - 0x10000) / 0x400 = c.val := by omega
    have hsecond : 0xdc00 + ((pairChar c d).val - 0x10000) % 0x400 = d.val := by omega
    rw [hfirst, hsecond]

/-- **A string is written as the one with its pairs joined.** -/
theorem printStr_joinPairs (s : PyStr) : printStr true (joinPairs s) = printStr true s := by
  have hbody : (joinPairs s).flatMap (escapeChar true) = s.flatMap (escapeChar true) := by
    induction s using joinPairs.induct with
    | case1 => rfl
    | case2 c => rfl
    | case3 c d s hpair ih =>
      rw [joinPairs, if_pos hpair, List.flatMap_cons, ih, escapeChar_pairChar hpair.1 hpair.2,
        List.append_assoc]
      rfl
    | case4 c d s hpair ih =>
      rw [joinPairs, if_neg hpair, List.flatMap_cons, ih]
      rfl
  rw [printStr, printStr, hbody]

/-- The first character of the joined string is the first one, or no surrogate. -/
theorem joinPairs_cons (d : CodePoint) (s : PyStr) :
    ∃ e t, joinPairs (d :: s) = e :: t ∧ (e = d ∨ isLow e = false) := by
  cases s with
  | nil => exact ⟨d, [], rfl, Or.inl rfl⟩
  | cons e s =>
    rw [joinPairs]
    split
    · rename_i hpair
      refine ⟨pairChar d e, _, rfl, Or.inr ?_⟩
      have hval := pairChar_val hpair.1 hpair.2
      rw [← Bool.not_eq_true, isLow_iff]
      omega
    · exact ⟨d, _, rfl, Or.inl rfl⟩

/-- Joining leaves no pairs. -/
theorem unpaired_joinPairs (s : PyStr) : Unpaired (joinPairs s) := by
  have hcons : ∀ {c : CodePoint} {t : PyStr}, Unpaired t →
      (∀ e u, t = e :: u → ¬(isHigh c = true ∧ isLow e = true)) → Unpaired (c :: t) := by
    intro c t ht hhead
    cases t with
    | nil => trivial
    | cons e u => exact ⟨hhead e u rfl, ht⟩
  induction s using joinPairs.induct with
  | case1 => trivial
  | case2 c => trivial
  | case3 c d s hpair ih =>
    rw [joinPairs, if_pos hpair]
    have hval := pairChar_val hpair.1 hpair.2
    refine hcons ih fun e u _ h => ?_
    have hhigh := isHigh_iff.mp h.1
    omega
  | case4 c d s hpair ih =>
    rw [joinPairs, if_neg hpair]
    refine hcons ih fun e u heq h => ?_
    obtain ⟨e', t, hjoin, hhead⟩ := joinPairs_cons d s
    obtain ⟨rfl, -⟩ := List.cons.inj (heq.symm.trans hjoin)
    rcases hhead with rfl | hlow
    · exact hpair h
    · rw [hlow] at h
      cases h.2

/-- A string without pairs is left as it is. -/
theorem joinPairs_eq_self {s : PyStr} (h : Unpaired s) : joinPairs s = s := by
  induction s using joinPairs.induct with
  | case1 => rfl
  | case2 c => rfl
  | case3 c d s hpair ih => exact absurd hpair h.1
  | case4 c d s hpair ih => rw [joinPairs, if_neg hpair, ih h.2]

theorem joinPairs_eq_self_iff {s : PyStr} : joinPairs s = s ↔ Unpaired s :=
  ⟨fun h => h ▸ unpaired_joinPairs s, joinPairs_eq_self⟩

end Python
