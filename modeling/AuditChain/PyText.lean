/-
AuditChain/PyText.lean

Python's `str` and `bytes`, as far as text encodings go.

A `str` is a list of code points, not of characters: JSON escapes can put
lone surrogates into a `str`, and `.encode("utf-8")` refuses exactly those.
Four encodings are here, each with the fact that the others rest on:

    natStr / intStr      decimal digits          natOfDigits_natStr
    hexStr / fromHex     bytes.hex, fromhex      fromHex_hexStr
    asciiEncode          .encode("ascii")        asciiEncode_ok_iff
    utf8Encode           .encode("utf-8")        utf8Encode_inj

`fromHex` skips ASCII white space between the pairs of digits, as
`bytes.fromhex` does, so it is not injective and its inputs are compared by
what they decode to.
-/
import Mathlib.Data.List.Forall2
import Mathlib.Data.Nat.Digits.Lemmas
import Mathlib.Data.List.Lex
import Mathlib.Data.Fin.Basic

namespace Python

/-- A Unicode code point, surrogates included. -/
abbrev CodePoint := Fin 0x110000

instance neZero_codePoints : NeZero 0x110000 := ⟨by decide⟩

/-- A Python `str`. -/
abbrev PyStr := List CodePoint

/-- A Python `bytes`. -/
abbrev Bytes := List UInt8

/-- The code point of a character. -/
def ch (c : Char) : CodePoint := Fin.ofNat _ c.toNat

/-- A string literal of the source. -/
def lit (s : String) : PyStr := s.toList.map ch

/-! ### Exceptions -/

/-- The exception classes that the modelled code raises or catches. -/
inductive ExcClass
  | typeError
  | attributeError
  | keyError
  | indexError
  | overflowError
  | recursionError
  | valueError
  | unicodeEncodeError
  | unicodeDecodeError
  | jsonDecodeError
  /-- A class that a package defines itself, directly below `Exception`. -/
  | user (name : PyStr)
  deriving DecidableEq

/-- A raised exception: its class and `str(exc)`. -/
structure PyError where
  cls : ExcClass
  msg : PyStr
  deriving DecidableEq

/-- Would `except ValueError` catch it? -/
def PyError.isValueError (e : PyError) : Bool :=
  match e.cls with
  | .valueError | .unicodeEncodeError | .unicodeDecodeError | .jsonDecodeError => true
  | _ => false

section

variable {α β : Type}

@[simp] theorem ok_bind (a : α) (f : α → Except PyError β) : (Except.ok a >>= f) = f a := rfl

@[simp] theorem error_bind (e : PyError) (f : α → Except PyError β) :
    (Except.error e >>= f) = .error e := rfl

@[simp] theorem pure_eq_ok (a : α) : (pure a : Except PyError α) = .ok a := rfl

@[simp] theorem throw_eq_error (e : PyError) : (throw e : Except PyError α) = .error e := rfl

/-- What is computed in two parts returns when both do. -/
theorem bind_eq_ok {x : Except PyError α} {f : α → Except PyError β} {b : β} :
    x >>= f = .ok b ↔ ∃ a, x = .ok a ∧ f a = .ok b := by
  cases x <;> simp

/-- Every exception that the computation raises is of this kind. -/
def RaisesOnly (p : PyError → Prop) (x : Except PyError α) : Prop := ∀ e, x = .error e → p e

variable {p : PyError → Prop}

theorem raisesOnly_ok (a : α) : RaisesOnly p (.ok a : Except PyError α) := by
  intro e h
  cases h

theorem raisesOnly_error {e : PyError} : RaisesOnly p (.error e : Except PyError α) ↔ p e := by
  refine ⟨fun h => h e rfl, fun he e' h => ?_⟩
  rwa [← Except.error.inj h]

/-- A computation in two parts raises what its parts do. -/
theorem RaisesOnly.bind {x : Except PyError α} {f : α → Except PyError β} (hx : RaisesOnly p x)
    (hf : ∀ a, x = .ok a → RaisesOnly p (f a)) : RaisesOnly p (x >>= f) := by
  cases x with
  | error e => exact raisesOnly_error.mpr (hx e rfl)
  | ok a => exact hf a rfl

theorem RaisesOnly.mapM {f : α → Except PyError β} {l : List α}
    (hf : ∀ a, RaisesOnly p (f a)) : RaisesOnly p (l.mapM f) := by
  induction l with
  | nil => exact raisesOnly_ok _
  | cons a l ih =>
    rw [List.mapM_cons]
    exact (hf a).bind fun b _ => ih.bind fun bs _ => raisesOnly_ok _

end

/-- `ValueError(msg)`. -/
def valueError (msg : PyStr) : PyError := ⟨.valueError, msg⟩

/-- `TypeError(msg)`. -/
def typeError (msg : PyStr) : PyError := ⟨.typeError, msg⟩

@[simp] theorem isValueError_valueError (msg : PyStr) :
    (valueError msg).isValueError = true := rfl

/-! ### Decimal digits -/

/-- The digit for `d < 10`. -/
def digit (d : ℕ) : CodePoint := Fin.ofNat _ (48 + d)

/-- Is it one of `0`..`9`? -/
def isDigit (c : CodePoint) : Bool := 48 ≤ c.val && c.val ≤ 57

/-- `str(n)` for a natural number. -/
def natStr (n : ℕ) : PyStr :=
  if n = 0 then [digit 0] else (Nat.digits 10 n).reverse.map digit

/-- `str(i)` for an `int`. -/
def intStr : ℤ → PyStr
  | .ofNat n => natStr n
  | .negSucc n => ch '-' :: natStr (n + 1)

/-- The number a run of decimal digits denotes. -/
def natOfDigits (s : PyStr) : ℕ := s.foldl (fun acc c => 10 * acc + (c.val - 48)) 0

theorem digit_val {d : ℕ} (h : d < 10) : (digit d).val = 48 + d := by
  simp only [digit, Fin.val_ofNat]
  omega

theorem isDigit_digit {d : ℕ} (h : d < 10) : isDigit (digit d) = true := by
  simp only [isDigit, digit_val h, Bool.and_eq_true, decide_eq_true_eq]
  omega

theorem natStr_isDigit (n : ℕ) : ∀ c ∈ natStr n, isDigit c = true := by
  intro c hc
  unfold natStr at hc
  split at hc
  · rw [List.mem_singleton.mp hc]
    exact isDigit_digit (by norm_num)
  · obtain ⟨d, hd, rfl⟩ := List.mem_map.mp hc
    exact isDigit_digit (Nat.digits_lt_base (by norm_num) (List.mem_reverse.mp hd))

theorem natStr_ne_nil (n : ℕ) : natStr n ≠ [] := by
  unfold natStr
  split
  · simp
  · rename_i hn
    simpa using Nat.digits_ne_nil_iff_ne_zero.mpr hn

/-- The first digit of a positive number is not `0`. -/
theorem natStr_head_ne_zero {n : ℕ} (hn : n ≠ 0) (c : CodePoint) (rest : PyStr)
    (h : natStr n = c :: rest) : c ≠ digit 0 := by
  have hne : Nat.digits 10 n ≠ [] := Nat.digits_ne_nil_iff_ne_zero.mpr hn
  have hlast := Nat.getLast_digit_ne_zero 10 hn
  have hlt : (Nat.digits 10 n).getLast hne < 10 :=
    Nat.digits_lt_base (by norm_num) (List.getLast_mem hne)
  have hc : c = digit ((Nat.digits 10 n).getLast hne) := by
    have hhead : (natStr n).head? = some (digit ((Nat.digits 10 n).getLast hne)) := by
      simp [natStr, hn, List.head?_reverse, List.getLast?_eq_some_getLast hne]
    rw [h] at hhead
    simpa using hhead
  intro hz
  rw [hc] at hz
  have hv := congrArg Fin.val hz
  rw [digit_val hlt, digit_val (by norm_num)] at hv
  omega

/-- Reading digits most significant first is `Nat.ofDigits` of the reversal. -/
theorem foldl_digit_reverse (ds : List ℕ) (h : ∀ d ∈ ds, d < 10) :
    natOfDigits (ds.reverse.map digit) = Nat.ofDigits 10 ds := by
  unfold natOfDigits
  rw [List.foldl_map, List.foldl_reverse]
  induction ds with
  | nil => rfl
  | cons d ds ih =>
    rw [List.foldr_cons, ih fun x hx => h x (List.mem_cons_of_mem d hx), Nat.ofDigits_cons,
      digit_val (h d List.mem_cons_self)]
    omega

theorem natOfDigits_natStr (n : ℕ) : natOfDigits (natStr n) = n := by
  unfold natStr
  split
  · rename_i hn
    rw [hn]
    rfl
  · rw [foldl_digit_reverse _ fun d hd => Nat.digits_lt_base (by norm_num) hd,
      Nat.ofDigits_digits]

theorem natStr_inj {m n : ℕ} (h : natStr m = natStr n) : m = n := by
  rw [← natOfDigits_natStr m, h, natOfDigits_natStr]

/-- A number is printed with digits and at most a leading minus sign. -/
theorem intStr_chars (i : ℤ) : ∀ c ∈ intStr i, isDigit c = true ∨ c = ch '-' := by
  intro c hc
  rcases i with n | n
  · exact Or.inl (natStr_isDigit n c hc)
  · rcases List.mem_cons.mp hc with h | h
    · exact Or.inr h
    · exact Or.inl (natStr_isDigit _ c h)

theorem not_isDigit_minus : isDigit (ch '-') = false := by decide

theorem intStr_inj {i j : ℤ} (h : intStr i = intStr j) : i = j := by
  have hno : ∀ m n : ℕ, natStr m ≠ ch '-' :: natStr n := by
    intro m n hmn
    have := natStr_isDigit m (ch '-') (by rw [hmn]; exact List.mem_cons_self)
    rw [not_isDigit_minus] at this
    cases this
  rcases i with m | m <;> rcases j with n | n
  · exact congrArg Int.ofNat (natStr_inj h)
  · exact absurd h (hno _ _)
  · exact absurd h.symm (hno _ _)
  · have := natStr_inj (List.cons.inj h).2
    exact congrArg Int.negSucc (by omega)

/-! ### Hexadecimal -/

/-- The lower-case hexadecimal digit for `n < 16`. -/
def hexDigit (n : ℕ) : CodePoint := if n < 10 then digit n else Fin.ofNat _ (87 + n)

/-- The value of a hexadecimal digit, either case. -/
def hexVal (c : CodePoint) : Option ℕ :=
  if isDigit c then some (c.val - 48)
  else if 97 ≤ c.val ∧ c.val ≤ 102 then some (c.val - 87)
  else if 65 ≤ c.val ∧ c.val ≤ 70 then some (c.val - 55)
  else none

/-- `b.hex()`. -/
def hexStr (b : Bytes) : PyStr :=
  b.flatMap fun x => [hexDigit (x.toNat / 16), hexDigit (x.toNat % 16)]

/-- The white space that `bytes.fromhex` skips. -/
def isAsciiSpace (c : CodePoint) : Bool := c.val == 32 || (9 ≤ c.val && c.val ≤ 13)

/-- `bytes.fromhex(s)`: pairs of digits, white space allowed between pairs. -/
def fromHex? : PyStr → Option Bytes
  | [] => some []
  | c :: s =>
    if isAsciiSpace c then fromHex? s
    else
      match s with
      | [] => none
      | d :: s' => do
        let hi ← hexVal c
        let lo ← hexVal d
        let rest ← fromHex? s'
        return UInt8.ofNat (16 * hi + lo) :: rest

/-- `bytes.fromhex(s)`, with its exception (the position is left out of the text). -/
def fromHex (s : PyStr) : Except PyError Bytes :=
  match fromHex? s with
  | some b => .ok b
  | none => .error (valueError (lit "non-hexadecimal number found in fromhex() arg"))

theorem hexVal_hexDigit {n : ℕ} (h : n < 16) : hexVal (hexDigit n) = some n := by
  interval_cases n <;> decide

theorem isAsciiSpace_hexDigit {n : ℕ} (h : n < 16) : isAsciiSpace (hexDigit n) = false := by
  interval_cases n <;> decide

theorem hexStr_cons (x : UInt8) (b : Bytes) :
    hexStr (x :: b) = hexDigit (x.toNat / 16) :: hexDigit (x.toNat % 16) :: hexStr b := rfl

theorem fromHex?_hexStr (b : Bytes) : fromHex? (hexStr b) = some b := by
  induction b with
  | nil => rfl
  | cons x b ih =>
    have hx := x.toNat_lt
    have hbyte : UInt8.ofNat (16 * (x.toNat / 16) + x.toNat % 16) = x := by
      rw [show 16 * (x.toNat / 16) + x.toNat % 16 = x.toNat by omega]
      exact UInt8.ofNat_toNat
    have hhi : x.toNat / 16 < 16 := by omega
    have hlo : x.toNat % 16 < 16 := by omega
    rw [hexStr_cons, fromHex?, isAsciiSpace_hexDigit hhi]
    simp only [Bool.false_eq_true, if_false, hexVal_hexDigit hhi, hexVal_hexDigit hlo, ih,
      Option.bind_eq_bind, Option.bind_some, hbyte, Option.pure_def]

@[simp] theorem fromHex_hexStr (b : Bytes) : fromHex (hexStr b) = .ok b := by
  simp [fromHex, fromHex?_hexStr]

theorem fromHex_error_isValueError {s : PyStr} {e : PyError} (h : fromHex s = .error e) :
    e.isValueError = true := by
  unfold fromHex at h
  split at h
  · cases h
  · cases h
    rfl

theorem isSome_of_hexStr {l : List PyStr} (h : ∀ x ∈ l, ∃ b, x = hexStr b) :
    ∀ x ∈ l, (fromHex? x).isSome = true := by
  intro x hx
  obtain ⟨b, rfl⟩ := h x hx
  rw [fromHex?_hexStr]
  rfl

theorem hexStr_inj {a b : Bytes} (h : hexStr a = hexStr b) : a = b := by
  have := congrArg fromHex? h
  rwa [fromHex?_hexStr, fromHex?_hexStr, Option.some.injEq] at this

@[simp] theorem length_hexStr (b : Bytes) : (hexStr b).length = 2 * b.length := by
  induction b with
  | nil => rfl
  | cons x b ih =>
    simp only [hexStr_cons, List.length_cons, ih]
    omega

/-- The digits that `hexStr` writes. -/
theorem hexStr_chars {b : Bytes} : ∀ c ∈ hexStr b, ∃ n < 16, c = hexDigit n := by
  intro c hc
  obtain ⟨x, -, hx⟩ := List.mem_flatMap.mp hc
  have hlt := x.toNat_lt
  rcases List.mem_cons.mp hx with h | h
  · exact ⟨x.toNat / 16, by omega, h⟩
  · exact ⟨x.toNat % 16, by omega, List.mem_singleton.mp h⟩

/-! ### Case -/

/-- `s.lower()` on the ASCII letters.  No code point outside ASCII has a lower
case made of hexadecimal digits only, and the result is only ever compared with
a string of those, so the rest of the case table cannot change an outcome. -/
def lower (s : PyStr) : PyStr :=
  s.map fun c => if 65 ≤ c.val ∧ c.val ≤ 90 then Fin.ofNat _ (c.val + 32) else c

theorem lower_hexDigit {n : ℕ} (h : n < 16) :
    (if 65 ≤ (hexDigit n).val ∧ (hexDigit n).val ≤ 90 then
      (Fin.ofNat _ ((hexDigit n).val + 32) : CodePoint) else hexDigit n) = hexDigit n := by
  interval_cases n <;> decide

@[simp] theorem lower_hexStr (b : Bytes) : lower (hexStr b) = hexStr b := by
  unfold lower
  conv_rhs => rw [← List.map_id (hexStr b)]
  refine List.map_congr_left fun c hc => ?_
  obtain ⟨n, hn, rfl⟩ := hexStr_chars c hc
  exact lower_hexDigit hn

/-! ### Separators -/

/-- The first separator separates, when there is none in front of it. -/
theorem append_sep_inj {sep : CodePoint} : ∀ {a b c d : PyStr}, sep ∉ a → sep ∉ c →
    a ++ sep :: b = c ++ sep :: d → a = c ∧ b = d
  | [], _, [], _, _, _, h => ⟨rfl, (List.cons.inj h).2⟩
  | [], _, y :: _, _, _, hc, h => absurd ((List.cons.inj h).1 ▸ List.mem_cons_self) hc
  | x :: _, _, [], _, ha, _, h => absurd ((List.cons.inj h).1 ▸ List.mem_cons_self) ha
  | x :: a, b, y :: c, d, ha, hc, h => by
    rw [List.cons_append, List.cons_append] at h
    obtain ⟨rfl, htail⟩ := List.cons.inj h
    obtain ⟨rfl, rfl⟩ := append_sep_inj (fun hm => ha (List.mem_cons_of_mem x hm))
      (fun hm => hc (List.mem_cons_of_mem x hm)) htail
    exact ⟨rfl, rfl⟩

/-- There is no colon in a number. -/
theorem colon_not_mem_intStr (i : ℤ) : ch ':' ∉ intStr i := by
  intro hmem
  rcases intStr_chars i _ hmem with h | h
  · exact absurd h (by decide)
  · exact absurd h (by decide)

/-- There is no colon in a hexadecimal text. -/
theorem colon_not_mem_hexStr (b : Bytes) : ch ':' ∉ hexStr b := by
  intro hmem
  obtain ⟨n, hn, h⟩ := hexStr_chars _ hmem
  interval_cases n <;> exact absurd h (by decide)

/-! ### ASCII and UTF-8 -/

/-- `s.encode("ascii")`. -/
def asciiEncode? (s : PyStr) : Option Bytes :=
  s.mapM fun c => if c.val < 128 then some (UInt8.ofNat c.val) else none

/-- The character with this code point; surrogates have none. -/
def toChar? (c : CodePoint) : Option Char :=
  if h : c.val.isValidChar then some (Char.ofNatAux c.val h) else none

/-- `s.encode("utf-8")`. -/
def utf8Encode? (s : PyStr) : Option Bytes :=
  (s.mapM toChar?).map fun cs => cs.flatMap String.utf8EncodeChar

/-- `s.encode(codec)` for one of the two codecs above. -/
def encoded (b : Option Bytes) : Except PyError Bytes :=
  match b with
  | some b => .ok b
  | none => .error ⟨.unicodeEncodeError, lit "can't encode character"⟩

/-- `s.encode("ascii")`, with its exception. -/
def asciiEncode (s : PyStr) : Except PyError Bytes := encoded (asciiEncode? s)

/-- `s.encode("utf-8")`, with its exception. -/
def utf8Encode (s : PyStr) : Except PyError Bytes := encoded (utf8Encode? s)

theorem encoded_eq_ok {o : Option Bytes} {b : Bytes} : encoded o = .ok b ↔ o = some b := by
  cases o <;> simp [encoded]

/-- A list is mapped when each of its members is. -/
theorem mapM_eq_some {α β : Type} {f : α → Option β} : ∀ {l : List α} {l' : List β},
    l.mapM f = some l' ↔ List.Forall₂ (fun a b => f a = some b) l l'
  | [], l' => by simp [eq_comm]
  | a :: l, l' => by
    simp only [List.mapM_cons, Option.bind_eq_bind, Option.bind_eq_some_iff, Option.pure_def,
      Option.some.injEq, List.forall₂_cons_left_iff, mapM_eq_some]
    constructor
    · rintro ⟨b, hb, bs, hbs, rfl⟩
      exact ⟨b, bs, hb, hbs, rfl⟩
    · rintro ⟨b, bs, hb, hbs, rfl⟩
      exact ⟨b, hb, bs, hbs, rfl⟩

theorem exists_of_mem_of_mapM {α β : Type} {f : α → Option β} {l : List α} {l' : List β}
    (h : l.mapM f = some l') {b : β} (hb : b ∈ l') : ∃ a ∈ l, f a = some b := by
  have hall := mapM_eq_some.mp h
  obtain ⟨i, hi', rfl⟩ := List.getElem_of_mem hb
  have hi : i < l.length := hall.length_eq ▸ hi'
  exact ⟨l[i], List.getElem_mem hi, hall.get hi hi'⟩

/-- A list is determined by its image under an option-valued injection. -/
theorem mapM_option_inj {α β : Type} {f : α → Option β}
    (hf : ∀ x y z, f x = some z → f y = some z → x = y) {s t : List α} {b : List β}
    (hs : s.mapM f = some b) (ht : t.mapM f = some b) : s = t :=
  List.left_unique_forall₂' (fun x y z => hf x y z) (mapM_eq_some.mp hs) (mapM_eq_some.mp ht)

/-- ASCII characters only. -/
def IsAscii (s : PyStr) : Prop := ∀ c ∈ s, c.val < 128

instance decidableIsAscii (s : PyStr) : Decidable (IsAscii s) :=
  List.decidableBAll (fun c : CodePoint => c.val < 128) s

/-- **What can be encoded in ASCII.** -/
theorem asciiEncode_ok_iff {s : PyStr} : (∃ b, asciiEncode s = .ok b) ↔ IsAscii s := by
  simp only [asciiEncode, encoded_eq_ok, asciiEncode?, mapM_eq_some, IsAscii]
  induction s with
  | nil => simp
  | cons c s ih =>
    simp only [List.forall₂_cons_left_iff, List.forall_mem_cons, ← ih]
    constructor
    · rintro ⟨_, b, bs, hb, hbs, rfl⟩
      refine ⟨?_, bs, hbs⟩
      by_contra hc
      rw [if_neg hc] at hb
      cases hb
    · rintro ⟨hc, bs, hbs⟩
      exact ⟨_, _, bs, if_pos hc, hbs, rfl⟩

theorem isAscii_hexStr (b : Bytes) : IsAscii (hexStr b) := by
  intro c hc
  obtain ⟨n, hn, rfl⟩ := hexStr_chars c hc
  interval_cases n <;> decide

theorem isValidChar_of_toChar? {c : CodePoint} {x : Char} (h : toChar? c = some x) :
    c.val.isValidChar := by
  by_contra hnot
  rw [toChar?, dif_neg hnot] at h
  cases h

/-- A code point that is a character has its number. -/
theorem toChar?_toNat {c : CodePoint} {x : Char} (h : toChar? c = some x) : x.toNat = c.val := by
  rw [toChar?, dif_pos (isValidChar_of_toChar? h)] at h
  rw [← Option.some.inj h]
  rfl

theorem toChar?_inj {x y : CodePoint} {c : Char} (hx : toChar? x = some c)
    (hy : toChar? y = some c) : x = y :=
  Fin.ext (by rw [← toChar?_toNat hx, ← toChar?_toNat hy])

/-- UTF-8 as a list of bytes determines the characters. -/
theorem flatMap_utf8EncodeChar_inj {l l' : List Char}
    (h : l.flatMap String.utf8EncodeChar = l'.flatMap String.utf8EncodeChar) : l = l' := by
  have hb : l.utf8Encode = l'.utf8Encode := by
    simp only [List.utf8Encode, h]
  rw [← String.toByteArray_ofList, ← String.toByteArray_ofList] at hb
  simpa using congrArg String.toList (String.toByteArray_inj.mp hb)

theorem utf8Encode_inj {s t : PyStr} {b : Bytes} (hs : utf8Encode s = .ok b)
    (ht : utf8Encode t = .ok b) : s = t := by
  obtain ⟨cs, hcs, rfl⟩ := Option.map_eq_some_iff.mp (encoded_eq_ok.mp hs)
  obtain ⟨cs', hcs', hb⟩ := Option.map_eq_some_iff.mp (encoded_eq_ok.mp ht)
  obtain rfl := flatMap_utf8EncodeChar_inj hb
  exact mapM_option_inj (fun _ _ _ => toChar?_inj) hcs hcs'

end Python
