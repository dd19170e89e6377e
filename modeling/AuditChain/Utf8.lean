/-
AuditChain/Utf8.lean

Which texts have bytes, and reading the bytes back.

Of a Python `str` exactly those without surrogates can be encoded
(`utf8Encode_ok_iff`), and what was encoded is decoded to itself
(`utf8Decode_utf8Encode`).  The bytes of a text behind a text are the bytes of
the two in a row, so a file that grows by encoded texts holds their
concatenation.
-/
import AuditChain.JsonRoundTrip

namespace Python

/-- No surrogates. -/
def Encodable (s : PyStr) : Prop := ∀ c ∈ s, isSurrogate c = false

instance decidableEncodable (s : PyStr) : Decidable (Encodable s) :=
  List.decidableBAll (fun c : CodePoint => isSurrogate c = false) s

theorem encodable_nil : Encodable [] := by simp [Encodable]

theorem encodable_cons {c : CodePoint} {s : PyStr} :
    Encodable (c :: s) ↔ isSurrogate c = false ∧ Encodable s := List.forall_mem_cons

theorem encodable_append {s t : PyStr} : Encodable (s ++ t) ↔ Encodable s ∧ Encodable t :=
  List.forall_mem_append

theorem strOk_true_iff {s : PyStr} : StrOk true s ↔ Encodable s :=
  ⟨fun h => h rfl, fun h _ => h⟩

theorem Encodable.strOk {s : PyStr} (h : Encodable s) (ascii : Bool) : StrOk ascii s :=
  fun _ => h

theorem encodable_of_all {s : PyStr} (h : s.all (fun c => !isSurrogate c) = true) :
    Encodable s := by
  intro c hc
  simpa using List.all_eq_true.mp h c hc

theorem encodable_hexStr (b : Bytes) : Encodable (hexStr b) := strOk_true_iff.mp (strOk_hexStr b)

theorem encodable_intStr (i : ℤ) : Encodable (intStr i) := by
  intro c hc
  rcases intStr_chars i c hc with h | rfl
  · simp only [isDigit, Bool.and_eq_true, decide_eq_true_eq] at h
    simp only [isSurrogate, Bool.and_eq_false_iff, decide_eq_false_iff_not]
    omega
  · decide

/-! ### Encoding -/

/-- A code point that is no surrogate is a character. -/
theorem exists_toChar?_iff {c : CodePoint} : (∃ x, toChar? c = some x) ↔ isSurrogate c = false := by
  have hc := c.isLt
  simp only [isSurrogate, Bool.and_eq_false_iff, decide_eq_false_iff_not]
  constructor
  · rintro ⟨x, hx⟩
    rcases isValidChar_of_toChar? hx with hlow | ⟨hhigh, -⟩ <;> omega
  · intro h
    have hvalid : c.val.isValidChar := by
      unfold Nat.isValidChar
      omega
    exact ⟨_, dif_pos hvalid⟩

theorem exists_mapM_toChar?_iff {s : PyStr} : (∃ cs, s.mapM toChar? = some cs) ↔ Encodable s := by
  induction s with
  | nil => simp [encodable_nil]
  | cons c s ih =>
    rw [encodable_cons, ← exists_toChar?_iff, ← ih]
    simp only [List.mapM_cons, Option.bind_eq_bind, Option.pure_def, Option.bind_eq_some_iff,
      Option.some.injEq]
    constructor
    · rintro ⟨_, x, hx, cs, hcs, rfl⟩
      exact ⟨⟨x, hx⟩, cs, hcs⟩
    · rintro ⟨⟨x, hx⟩, cs, hcs⟩
      exact ⟨x :: cs, x, hx, cs, hcs, rfl⟩

/-- **What can be encoded**: text without surrogates. -/
theorem utf8Encode_ok_iff {s : PyStr} : (∃ b, utf8Encode s = .ok b) ↔ Encodable s := by
  simp only [utf8Encode, utf8Encode?, encoded_eq_ok, Option.map_eq_some_iff]
  rw [← exists_mapM_toChar?_iff]
  constructor
  · rintro ⟨_, cs, hcs, -⟩
    exact ⟨cs, hcs⟩
  · rintro ⟨cs, hcs⟩
    exact ⟨_, cs, hcs, rfl⟩

/-- What cannot be encoded raises a `ValueError`. -/
theorem utf8Encode_error_isValueError {s : PyStr} {e : PyError} (h : utf8Encode s = .error e) :
    e.isValueError = true := by
  unfold utf8Encode encoded at h
  split at h
  · cases h
  · rw [← Except.error.inj h]
    rfl

/-- Two texts in a row are encoded one after the other. -/
theorem utf8Encode_append {s t : PyStr} {a b : Bytes} (hs : utf8Encode s = .ok a)
    (ht : utf8Encode t = .ok b) : utf8Encode (s ++ t) = .ok (a ++ b) := by
  obtain ⟨cs, hcs, rfl⟩ := Option.map_eq_some_iff.mp (encoded_eq_ok.mp hs)
  obtain ⟨ds, hds, rfl⟩ := Option.map_eq_some_iff.mp (encoded_eq_ok.mp ht)
  refine encoded_eq_ok.mpr (Option.map_eq_some_iff.mpr ⟨cs ++ ds, ?_, List.flatMap_append⟩)
  rw [List.mapM_append, hcs, hds]
  rfl

/-! ### Decoding -/

/-- `b.decode("utf-8")`. -/
def utf8Decode (b : Bytes) : Except PyError PyStr :=
  match (ByteArray.mk b.toArray).utf8Decode? with
  | some cs => .ok (cs.toList.map ch)
  | none => .error ⟨.unicodeDecodeError, lit "can't decode byte"⟩

/-- A code point that became a character comes back. -/
theorem ch_of_toChar? {c : CodePoint} {x : Char} (h : toChar? c = some x) : ch x = c := by
  apply Fin.ext
  have hc := c.isLt
  rw [ch, toChar?_toNat h, Fin.val_ofNat]
  exact Nat.mod_eq_of_lt hc

theorem map_ch_of_mapM {s : PyStr} {cs : List Char} (h : s.mapM toChar? = some cs) :
    cs.map ch = s := by
  have hall := mapM_eq_some.mp h
  induction hall with
  | nil => rfl
  | cons hc _ ih => rw [List.map_cons, ch_of_toChar? hc, ih (mapM_eq_some.mpr ‹_›)]

theorem utf8Decode_flatMap (cs : List Char) :
    utf8Decode (cs.flatMap String.utf8EncodeChar) = .ok (cs.map ch) := by
  have hbytes : ByteArray.mk (cs.flatMap String.utf8EncodeChar).toArray = cs.utf8Encode := by
    apply ByteArray.ext
    simp [List.utf8Encode]
  rw [utf8Decode, hbytes, List.utf8Decode?_utf8Encode]

/-- **What was encoded is decoded to itself.** -/
theorem utf8Decode_utf8Encode {s : PyStr} {b : Bytes} (h : utf8Encode s = .ok b) :
    utf8Decode b = .ok s := by
  obtain ⟨cs, hcs, rfl⟩ := Option.map_eq_some_iff.mp (encoded_eq_ok.mp h)
  rw [utf8Decode_flatMap, map_ch_of_mapM hcs]

/-- **What can be decoded**: the bytes of characters. -/
theorem utf8Decode_eq_ok {b : Bytes} {s : PyStr} : utf8Decode b = .ok s ↔
    ∃ cs : List Char, b = cs.flatMap String.utf8EncodeChar ∧ s = cs.map ch := by
  constructor
  · intro h
    have hsome : (ByteArray.mk b.toArray).utf8Decode?.isSome = true := by
      rw [utf8Decode] at h
      split at h
      · rename_i cs hcs
        rw [hcs]
        rfl
      · cases h
    obtain ⟨cs, hcs⟩ := ByteArray.isSome_utf8Decode?_iff.mp hsome
    have hb : b = cs.flatMap String.utf8EncodeChar := by
      have hdata := congrArg (fun x => x.data.toList) hcs
      simpa [List.utf8Encode] using hdata
    refine ⟨cs, hb, ?_⟩
    rw [hb, utf8Decode_flatMap] at h
    exact (Except.ok.inj h).symm
  · rintro ⟨cs, rfl, rfl⟩
    exact utf8Decode_flatMap cs

/-- Behind decoded bytes the bytes of a text are decoded to the text. -/
theorem utf8Decode_append {a b : Bytes} {s t : PyStr} (hs : utf8Decode a = .ok s)
    (ht : utf8Encode t = .ok b) : utf8Decode (a ++ b) = .ok (s ++ t) := by
  obtain ⟨cs, rfl, rfl⟩ := utf8Decode_eq_ok.mp hs
  obtain ⟨ds, rfl, rfl⟩ := utf8Decode_eq_ok.mp (utf8Decode_utf8Encode ht)
  rw [← List.flatMap_append, utf8Decode_flatMap, List.map_append]

/-- No character begins with the bytes of another. -/
theorem eq_of_utf8EncodeChar_append {x y : Char} {a b : Bytes}
    (h : String.utf8EncodeChar x ++ a = String.utf8EncodeChar y ++ b) : x = y := by
  have hfirst : ∀ (z : Char) (c : Bytes), ByteArray.utf8DecodeChar?
      (ByteArray.mk (String.utf8EncodeChar z ++ c).toArray) 0 = some z := by
    intro z c
    have hbytes : ByteArray.mk (String.utf8EncodeChar z ++ c).toArray
        = [z].utf8Encode ++ ByteArray.mk c.toArray := by
      apply ByteArray.ext
      simp [List.utf8Encode]
    rw [hbytes, List.utf8DecodeChar?_utf8Encode_singleton_append]
  exact Option.some.inj ((hfirst x a).symm.trans (by rw [h, hfirst]))

/-- Characters that begin the bytes of a text begin the text. -/
theorem exists_flatMap_utf8EncodeChar {cs ds : List Char} {a : Bytes}
    (h : cs.flatMap String.utf8EncodeChar ++ a = ds.flatMap String.utf8EncodeChar) :
    ∃ es : List Char, ds = cs ++ es ∧ a = es.flatMap String.utf8EncodeChar := by
  induction cs generalizing ds with
  | nil => exact ⟨ds, rfl, h⟩
  | cons c cs ih =>
    rw [List.flatMap_cons, List.append_assoc] at h
    cases ds with
    | nil => exact absurd (List.append_eq_nil_iff.mp h).1 String.utf8EncodeChar_ne_nil
    | cons d ds =>
      rw [List.flatMap_cons] at h
      obtain rfl := eq_of_utf8EncodeChar_append h
      obtain ⟨es, rfl, ha⟩ := ih (List.append_cancel_left h)
      exact ⟨es, rfl, ha⟩

/-- **Behind decoded bytes** only the bytes of a text can be decoded. -/
theorem utf8Decode_append_iff {a b : Bytes} {s t : PyStr} (hs : utf8Decode a = .ok s) :
    utf8Decode (a ++ b) = .ok t ↔ ∃ u, utf8Decode b = .ok u ∧ t = s ++ u := by
  obtain ⟨cs, rfl, rfl⟩ := utf8Decode_eq_ok.mp hs
  constructor
  · intro h
    obtain ⟨ds, hds, rfl⟩ := utf8Decode_eq_ok.mp h
    obtain ⟨es, rfl, rfl⟩ := exists_flatMap_utf8EncodeChar hds
    exact ⟨es.map ch, utf8Decode_flatMap es, List.map_append⟩
  · rintro ⟨u, hu, rfl⟩
    obtain ⟨es, rfl, rfl⟩ := utf8Decode_eq_ok.mp hu
    rw [← List.flatMap_append, utf8Decode_flatMap, List.map_append]

/-- Only no bytes are decoded to no text. -/
theorem utf8Decode_eq_nil {b : Bytes} (h : utf8Decode b = .ok []) : b = [] := by
  obtain ⟨cs, rfl, hcs⟩ := utf8Decode_eq_ok.mp h
  rw [List.map_eq_nil_iff.mp hcs.symm]
  rfl

/-- An ASCII character is one byte, and any other character is bytes outside ASCII. -/
theorem utf8EncodeChar_cases (x : Char) :
    (x.toNat < 128 ∧ String.utf8EncodeChar x = [UInt8.ofNat x.toNat]) ∨
      128 ≤ x.toNat ∧ String.utf8EncodeChar x ≠ [] ∧
        ∀ b ∈ String.utf8EncodeChar x, 128 ≤ b.toNat := by
  have hbyte : ∀ n k : ℕ, 128 ≤ k → n + k < 256 → 128 ≤ (UInt8.ofNat (n + k)).toNat := by
    intro n k hk hlt
    rw [UInt8.toNat_ofNat']
    omega
  by_cases hascii : x.toNat < 128
  · left
    refine ⟨hascii, ?_⟩
    rw [String.utf8EncodeChar, if_pos (by show x.toNat ≤ 127; omega)]
    rfl
  · right
    refine ⟨by omega, String.utf8EncodeChar_ne_nil, ?_⟩
    unfold String.utf8EncodeChar
    rw [if_neg (by show ¬x.toNat ≤ 127; omega)]
    split
    · simp only [List.forall_mem_cons]
      exact ⟨hbyte _ _ (by omega) (by omega), hbyte _ _ (by omega) (by omega), by simp⟩
    · split
      · simp only [List.forall_mem_cons]
        exact ⟨hbyte _ _ (by omega) (by omega), hbyte _ _ (by omega) (by omega),
          hbyte _ _ (by omega) (by omega), by simp⟩
      · simp only [List.forall_mem_cons]
        exact ⟨hbyte _ _ (by omega) (by omega), hbyte _ _ (by omega) (by omega),
          hbyte _ _ (by omega) (by omega), hbyte _ _ (by omega) (by omega), by simp⟩

end Python
