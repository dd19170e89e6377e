/-
AuditChain/RawChars.lean

Characters outside ASCII in compact JSON.

The compact style writes such a character as it is, and everything it adds is
ASCII.  So a class of characters outside ASCII occurs in the text of a value
exactly when it occurs in one of its strings (`avoids_printVal`).  Two classes
matter: surrogates, which have no bytes, and line breaks.
-/
import AuditChain.CompactText
import AuditChain.Utf8

namespace Python

/-- No character of the class. -/
def Avoids (bad : CodePoint → Bool) (s : PyStr) : Prop := ∀ c ∈ s, bad c = false

/-- A class of characters outside ASCII. -/
def BeyondAscii (bad : CodePoint → Bool) : Prop := ∀ c, c.val < 128 → bad c = false

variable {bad : CodePoint → Bool}

theorem avoids_nil : Avoids bad [] := by simp [Avoids]

theorem avoids_cons {c : CodePoint} {s : PyStr} :
    Avoids bad (c :: s) ↔ bad c = false ∧ Avoids bad s := List.forall_mem_cons

theorem avoids_append {s t : PyStr} : Avoids bad (s ++ t) ↔ Avoids bad s ∧ Avoids bad t :=
  List.forall_mem_append

theorem BeyondAscii.avoids (h : BeyondAscii bad) {s : PyStr}
    (hs : s.all (fun c => c.val < 128) = true) : Avoids bad s := by
  intro c hc
  apply h
  simpa using List.all_eq_true.mp hs c hc

theorem beyondAscii_isSurrogate : BeyondAscii isSurrogate := by
  intro c hc
  simp only [isSurrogate, Bool.and_eq_false_iff, decide_eq_false_iff_not]
  omega

theorem NumText.avoids (h : BeyondAscii bad) {s : PyStr} (hs : NumText s) : Avoids bad s := by
  intro c hc
  apply h
  have hnum := hs c hc
  simp only [isNumChar, isDigit, Bool.or_eq_true, Bool.and_eq_true, decide_eq_true_eq,
    beq_iff_eq] at hnum
  rcases hnum with ((((⟨-, h57⟩ | rfl) | rfl) | rfl) | rfl) | rfl
  · omega
  all_goals decide

theorem avoids_intStr (h : BeyondAscii bad) (i : ℤ) : Avoids bad (intStr i) :=
  (numText_matchNumber (matchNumber_intStr i)).avoids h

theorem avoids_jsonText (h : BeyondAscii bad) (f : PyFloat) : Avoids bad f.jsonText := by
  cases f with
  | nan => exact h.avoids (by decide)
  | inf neg => cases neg <;> exact h.avoids (by decide)
  | fin t => exact (numText_matchNumber t.property).avoids h

/-! ### Strings -/

theorem hexFixed_ascii (k n : ℕ) : (hexFixed k n).all (fun c => c.val < 128) = true := by
  induction k generalizing n with
  | zero => rfl
  | succ k ih =>
    have hdigit : ∀ m < 16, (hexDigit m).val < 128 := by
      intro m hm
      interval_cases m <;> decide
    rw [hexFixed, List.all_append, ih, Bool.true_and, List.all_cons, List.all_nil, Bool.and_true,
      decide_eq_true_eq]
    exact hdigit _ (Nat.mod_lt n (by norm_num))

theorem uEscape_ascii (n : ℕ) : (uEscape n).all (fun c => c.val < 128) = true := by
  rw [uEscape, List.all_cons, List.all_cons, hexFixed_ascii]
  decide

/-- A character outside ASCII is written as it is. -/
theorem escapeChar_of_beyond {c : CodePoint} (hc : 128 ≤ c.val) : escapeChar false c = [c] := by
  have hescaped := escaped_escapeChar false c
  generalize escapeChar false c = s at hescaped ⊢
  cases hescaped with
  | short _ _ hascii => omega
  | unicode _ hneeded =>
    rcases hneeded with hctl | ⟨hascii, -⟩
    · omega
    · cases hascii
  | plain _ _ _ _ => rfl
  | pair hascii _ => cases hascii

/-- The others are written in ASCII. -/
theorem escapeChar_ascii {c : CodePoint} (hc : c.val < 128) :
    (escapeChar false c).all (fun c => c.val < 128) = true := by
  have hescaped := escaped_escapeChar false c
  generalize escapeChar false c = s at hescaped ⊢
  cases hescaped with
  | short _ hletter _ => simp [hletter.2]
  | unicode _ _ => exact uEscape_ascii _
  | plain _ _ _ _ => simpa using hc
  | pair hascii _ => cases hascii

theorem avoids_escapeChar (h : BeyondAscii bad) (c : CodePoint) :
    Avoids bad (escapeChar false c) ↔ bad c = false := by
  by_cases hc : c.val < 128
  · exact ⟨fun _ => h c hc, fun _ => h.avoids (escapeChar_ascii hc)⟩
  · rw [escapeChar_of_beyond (not_lt.mp hc), avoids_cons]
    exact and_iff_left avoids_nil

theorem avoids_printStr (h : BeyondAscii bad) (s : PyStr) :
    Avoids bad (printStr false s) ↔ Avoids bad s := by
  have hquote : bad 34 = false := h 34 (by decide)
  have hbody : Avoids bad (s.flatMap (escapeChar false)) ↔ Avoids bad s := by
    induction s with
    | nil => exact Iff.rfl
    | cons c s ih => rw [List.flatMap_cons, avoids_append, avoids_cons, avoids_escapeChar h, ih]
  rw [printStr, avoids_append, avoids_cons, hbody, avoids_cons]
  exact ⟨fun hs => hs.1.2, fun hs => ⟨⟨hquote, hs⟩, hquote, avoids_nil⟩⟩

/-! ### Values -/

theorem avoids_intercalate {sep : PyStr} (hsep : Avoids bad sep) :
    ∀ ms : List PyStr, Avoids bad (sep.intercalate ms) ↔ ∀ m ∈ ms, Avoids bad m
  | [] => by simp [avoids_nil]
  | [m] => by simp
  | m :: m' :: ms => by
    have hall : (∀ x ∈ m :: m' :: ms, Avoids bad x) ↔
        Avoids bad m ∧ ∀ x ∈ m' :: ms, Avoids bad x := List.forall_mem_cons
    rw [List.intercalate_cons_cons, avoids_append, avoids_append, avoids_intercalate hsep, hall]
    exact ⟨fun h => ⟨h.1.1, h.2⟩, fun h => ⟨⟨h.1, hsep⟩, h.2⟩⟩

theorem avoids_bracketed (lvl : ℕ) {l r : CodePoint} (hl : bad l = false) (hr : bad r = false)
    (hcomma : bad (ch ',') = false) (ms : List PyStr) :
    Avoids bad (bracketed compactStyle lvl l r ms) ↔ ∀ m ∈ ms, Avoids bad m := by
  have hlast : Avoids bad [r] := avoids_cons.mpr ⟨hr, avoids_nil⟩
  have hsep : Avoids bad (compactStyle.itemSep (lvl + 1)) :=
    avoids_cons.mpr ⟨hcomma, avoids_nil⟩
  unfold bracketed
  split
  · rename_i hnil
    rw [hnil]
    exact ⟨fun _ => by simp, fun _ => avoids_cons.mpr ⟨hl, hlast⟩⟩
  · rw [avoids_append, avoids_append, avoids_append, avoids_cons, avoids_intercalate hsep]
    exact ⟨fun h => h.1.1.2, fun h => ⟨⟨⟨⟨hl, avoids_nil⟩, h⟩, avoids_nil⟩, hlast⟩⟩

mutual

/-- **The characters of a compact text** outside ASCII are those of its strings. -/
theorem avoids_printVal (h : BeyondAscii bad) (F : FloatOps) (lvl : ℕ) : ∀ v : PyVal,
    Avoids bad (printVal F compactStyle lvl v) ↔ v.AllLeaves (Avoids bad) (fun _ => True)
  | .null => by
    simp only [printVal, PyVal.AllLeaves, iff_true]
    exact h.avoids (by decide)
  | .bool b => by
    simp only [printVal, PyVal.AllLeaves, iff_true]
    cases b <;> exact h.avoids (by decide)
  | .int i => by
    simp only [printVal, PyVal.AllLeaves, iff_true]
    exact avoids_intStr h i
  | .float f => by
    have hleaf : (PyVal.float f).AllLeaves (Avoids bad) (fun _ => True) := by
      cases f <;> simp only [PyVal.AllLeaves]
    simp only [printVal]
    exact iff_of_true (avoids_jsonText h f) hleaf
  | .str s => by
    simp only [printVal, PyVal.AllLeaves]
    exact avoids_printStr h s
  | .list xs | .tuple xs => by
    simp only [printVal, PyVal.AllLeaves, printElems_eq_map]
    rw [avoids_bracketed lvl (h _ (by decide)) (h _ (by decide)) (h _ (by decide))]
    exact avoids_elems h F (lvl + 1) xs
  | .dict items => by
    simp only [printVal, PyVal.AllLeaves, printItems_eq_map]
    rw [avoids_bracketed lvl (h _ (by decide)) (h _ (by decide)) (h _ (by decide)),
      ← avoids_items h F (lvl + 1) items]
    -- sorting does not change which members there are
    simp only [List.mem_map, (sortItems_perm F _).mem_iff]
  | .object => by
    simp only [printVal, PyVal.AllLeaves, iff_true]
    exact avoids_nil

theorem avoids_elems (h : BeyondAscii bad) (F : FloatOps) (lvl : ℕ) : ∀ xs : List PyVal,
    (∀ m ∈ xs.map (printVal F compactStyle lvl), Avoids bad m) ↔
      ElemsAllLeaves (Avoids bad) (fun _ => True) xs
  | [] => by simp [ElemsAllLeaves]
  | x :: xs => by
    rw [List.map_cons, List.forall_mem_cons, avoids_printVal h F lvl x, avoids_elems h F lvl xs]
    simp only [ElemsAllLeaves]

theorem avoids_items (h : BeyondAscii bad) (F : FloatOps) (lvl : ℕ) :
    ∀ items : List (PyKey × PyVal),
    (∀ m ∈ (items.map fun kv => (kv.1, memberText F compactStyle lvl kv)).map Prod.snd,
      Avoids bad m) ↔ ItemsAllLeaves (Avoids bad) (fun _ => True) items
  | [] => by simp [ItemsAllLeaves]
  | (k, v) :: items => by
    have hcolon : Avoids bad compactStyle.keySep := avoids_cons.mpr ⟨h _ (by decide), avoids_nil⟩
    rw [List.map_cons, List.map_cons, List.forall_mem_cons, avoids_items h F lvl items]
    simp only [memberText, avoids_append, ItemsAllLeaves, avoids_printVal h F lvl v]
    rw [show compactStyle.ensureAscii = false from rfl, avoids_printStr h]
    exact ⟨fun hs => ⟨hs.1.1.1, hs.1.2, hs.2⟩, fun hs => ⟨⟨⟨hs.1, hcolon⟩, hs.2.1⟩, hs.2.2⟩⟩

end

/-- **Which values have compact bytes**: those whose strings do. -/
theorem encodable_printVal (F : FloatOps) (v : PyVal) :
    Encodable (printVal F compactStyle 0 v) ↔ v.AllLeaves Encodable (fun _ => True) :=
  avoids_printVal beyondAscii_isSurrogate F 0 v

end Python
