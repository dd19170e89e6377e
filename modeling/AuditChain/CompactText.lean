/-
AuditChain/CompactText.lean

The bytes of compact JSON contain no zero.

Control characters are escaped inside strings and the compact style prints no
white space, so every character of the text is at least U+0020, and UTF-8
encodes no such character with a zero byte.  A zero byte in front of the text is
therefore a separator: it is the last one (`append_zero_inj`).
-/
import AuditChain.JsonRoundTrip

namespace Python

/-- No control characters. -/
def Printable (s : PyStr) : Prop := ∀ c ∈ s, 32 ≤ c.val

instance (s : PyStr) : Decidable (Printable s) :=
  List.decidableBAll (fun c : CodePoint => 32 ≤ c.val) s

theorem printable_nil : Printable [] := by simp [Printable]

theorem printable_cons {c : CodePoint} {s : PyStr} :
    Printable (c :: s) ↔ 32 ≤ c.val ∧ Printable s := List.forall_mem_cons

theorem printable_append {s t : PyStr} : Printable (s ++ t) ↔ Printable s ∧ Printable t :=
  List.forall_mem_append

/-! ### Numbers -/

/-- Number characters only. -/
def NumText (s : PyStr) : Prop := ∀ c ∈ s, isNumChar c = true

theorem numText_append {s t : PyStr} : NumText (s ++ t) ↔ NumText s ∧ NumText t :=
  List.forall_mem_append

theorem numText_cons {c : CodePoint} {s : PyStr} :
    NumText (c :: s) ↔ isNumChar c = true ∧ NumText s := List.forall_mem_cons

theorem numText_nil : NumText [] := by simp [NumText]

theorem isNumChar_of_isDigit {c : CodePoint} (h : isDigit c = true) : isNumChar c = true := by
  simp [isNumChar, h]

theorem numText_takeWhile (s : PyStr) : NumText (s.takeWhile isDigit) :=
  fun _ hc => isNumChar_of_isDigit (List.mem_takeWhile_imp hc)

theorem NumText.printable {s : PyStr} (h : NumText s) : Printable s := by
  intro c hc
  have hnum := h c hc
  simp only [isNumChar, isDigit, Bool.or_eq_true, Bool.and_eq_true, decide_eq_true_eq,
    beq_iff_eq] at hnum
  rcases hnum with ((((⟨h48, -⟩ | rfl) | rfl) | rfl) | rfl) | rfl
  · omega
  all_goals decide

theorem numText_scanSign (s : PyStr) : NumText (scanSign s).1 := by
  unfold scanSign
  split
  · split
    · rename_i hc
      rw [hc]
      exact numText_cons.mpr ⟨by decide, numText_nil⟩
    · exact numText_nil
  · exact numText_nil

theorem numText_scanInt {s : PyStr} {r : PyStr × PyStr} (h : scanInt s = some r) :
    NumText r.1 := by
  unfold scanInt at h
  split at h
  · split at h
    · rename_i hc
      rw [← Option.some.inj h, hc]
      exact numText_cons.mpr ⟨by decide, numText_nil⟩
    · split at h
      · rename_i hc
        rw [← Option.some.inj h]
        exact numText_cons.mpr ⟨isNumChar_of_isDigit hc, numText_takeWhile _⟩
      · cases h
  · cases h

theorem numText_scanFrac (s : PyStr) : NumText (scanFrac s).1 := by
  unfold scanFrac
  split
  · split
    · rename_i hc
      rw [hc.1]
      exact numText_cons.mpr ⟨by decide,
        numText_cons.mpr ⟨isNumChar_of_isDigit hc.2, numText_takeWhile _⟩⟩
    · exact numText_nil
  · exact numText_nil

theorem numText_scanExpDigits {pre s : PyStr} (hpre : NumText pre) (t : PyStr) :
    NumText ((scanExpDigits pre s).getD ([], t)).1 := by
  unfold scanExpDigits
  split
  · split
    · rename_i hd
      exact numText_append.mpr ⟨hpre,
        numText_cons.mpr ⟨isNumChar_of_isDigit hd, numText_takeWhile _⟩⟩
    · exact numText_nil
  · exact numText_nil

theorem numText_scanExp (s : PyStr) : NumText (scanExp s).1 := by
  unfold scanExp
  split
  · rename_i c d s
    split
    · rename_i hc
      have hmark : isNumChar c = true := by rcases hc with rfl | rfl <;> decide
      split
      · rename_i hd
        have hsign : isNumChar d = true := by rcases hd with rfl | rfl <;> decide
        exact numText_scanExpDigits
          (numText_cons.mpr ⟨hmark, numText_cons.mpr ⟨hsign, numText_nil⟩⟩) _
      · exact numText_scanExpDigits (numText_cons.mpr ⟨hmark, numText_nil⟩) _
    · exact numText_nil
  · exact numText_nil

theorem numText_matchNumber {s t rest : PyStr} {b : Bool}
    (h : matchNumber s = some (t, b, rest)) : NumText t := by
  unfold matchNumber at h
  obtain ⟨int, hint, htail⟩ := Option.bind_eq_some_iff.mp h
  simp only [Option.pure_def, Option.some.injEq, Prod.mk.injEq] at htail
  rw [← htail.1]
  exact numText_append.mpr ⟨numText_append.mpr ⟨numText_append.mpr
    ⟨numText_scanSign s, numText_scanInt hint⟩, numText_scanFrac _⟩, numText_scanExp _⟩

theorem printable_intStr (i : ℤ) : Printable (intStr i) :=
  (numText_matchNumber (matchNumber_intStr i)).printable

theorem printable_jsonText (f : PyFloat) : Printable f.jsonText := by
  cases f with
  | nan => decide
  | inf neg => cases neg <;> decide
  | fin t => exact (numText_matchNumber t.property).printable

/-! ### Strings -/

theorem hexDigit_ge {n : ℕ} (h : n < 16) : 32 ≤ (hexDigit n).val := by
  interval_cases n <;> decide

theorem printable_hexFixed (k n : ℕ) : Printable (hexFixed k n) := by
  induction k generalizing n with
  | zero => exact printable_nil
  | succ k ih =>
    rw [hexFixed, printable_append]
    exact ⟨ih _, printable_cons.mpr ⟨hexDigit_ge (Nat.mod_lt _ (by norm_num)), printable_nil⟩⟩

theorem printable_uEscape (n : ℕ) : Printable (uEscape n) :=
  printable_cons.mpr ⟨by decide, printable_cons.mpr ⟨by decide, printable_hexFixed 4 n⟩⟩

theorem printable_escapeChar (ascii : Bool) (c : CodePoint) : Printable (escapeChar ascii c) := by
  have hescaped := escaped_escapeChar ascii c
  generalize escapeChar ascii c = s at hescaped ⊢
  cases hescaped with
  | short _ hletter _ =>
    exact printable_cons.mpr ⟨by decide, printable_cons.mpr ⟨hletter.1, printable_nil⟩⟩
  | unicode _ _ => exact printable_uEscape _
  | plain _ _ hctl _ => exact printable_cons.mpr ⟨hctl, printable_nil⟩
  | pair _ _ => exact printable_append.mpr ⟨printable_uEscape _, printable_uEscape _⟩

theorem printable_printStr (ascii : Bool) (s : PyStr) : Printable (printStr ascii s) := by
  rw [printStr, printable_append, printable_cons]
  refine ⟨⟨by decide, fun c hc => ?_⟩, by decide⟩
  obtain ⟨d, -, hd⟩ := List.mem_flatMap.mp hc
  exact printable_escapeChar ascii d c hd

/-! ### Values -/

theorem printable_intercalate {sep : PyStr} (hsep : Printable sep) :
    ∀ {ms : List PyStr}, (∀ m ∈ ms, Printable m) → Printable (sep.intercalate ms)
  | [], _ => printable_nil
  | [m], h => by
    rw [List.intercalate_singleton]
    exact h m List.mem_cons_self
  | m :: m' :: ms, h => by
    rw [List.intercalate_cons_cons, printable_append, printable_append]
    exact ⟨⟨h m List.mem_cons_self, hsep⟩,
      printable_intercalate hsep fun x hx => h x (List.mem_cons_of_mem m hx)⟩

theorem printable_bracketed (lvl : ℕ) {l r : CodePoint} {ms : List PyStr} (hl : 32 ≤ l.val)
    (hr : 32 ≤ r.val) (hms : ∀ m ∈ ms, Printable m) :
    Printable (bracketed compactStyle lvl l r ms) := by
  have hlast : Printable [r] := printable_cons.mpr ⟨hr, printable_nil⟩
  unfold bracketed
  split
  · exact printable_cons.mpr ⟨hl, hlast⟩
  · have hsep : Printable (compactStyle.itemSep (lvl + 1)) := by
      show Printable [ch ',']
      decide
    exact printable_append.mpr ⟨printable_append.mpr ⟨printable_append.mpr
      ⟨printable_cons.mpr ⟨hl, printable_nil⟩, printable_intercalate hsep hms⟩, printable_nil⟩,
        hlast⟩

mutual

theorem printable_printVal (F : FloatOps) (lvl : ℕ) :
    ∀ v : PyVal, Printable (printVal F compactStyle lvl v)
  | .null => by simp only [printVal]; decide
  | .bool b => by cases b <;> simp only [printVal] <;> decide
  | .int i => by
    simp only [printVal]
    exact printable_intStr i
  | .float f => by
    simp only [printVal]
    exact printable_jsonText f
  | .str s => by
    simp only [printVal]
    exact printable_printStr _ s
  | .list xs => by
    simp only [printVal, printElems_eq_map]
    exact printable_bracketed lvl (by decide) (by decide) (printable_elems F (lvl + 1) xs)
  | .tuple xs => by
    simp only [printVal, printElems_eq_map]
    exact printable_bracketed lvl (by decide) (by decide) (printable_elems F (lvl + 1) xs)
  | .dict items => by
    simp only [printVal, printItems_eq_map]
    refine printable_bracketed lvl (by decide) (by decide) fun m hm => ?_
    obtain ⟨kt, hkt, rfl⟩ := List.mem_map.mp hm
    exact printable_items F (lvl + 1) items _
      (List.mem_map_of_mem ((sortItems_perm F _).mem_iff.mp hkt))
  | .object => by
    simp only [printVal]
    exact printable_nil

theorem printable_elems (F : FloatOps) (lvl : ℕ) :
    ∀ xs : List PyVal, ∀ m ∈ xs.map (printVal F compactStyle lvl), Printable m
  | [] => by simp
  | x :: xs => by
    rw [List.map_cons, List.forall_mem_cons]
    exact ⟨printable_printVal F lvl x, printable_elems F lvl xs⟩

theorem printable_items (F : FloatOps) (lvl : ℕ) : ∀ items : List (PyKey × PyVal),
    ∀ m ∈ (items.map fun kv => (kv.1, memberText F compactStyle lvl kv)).map Prod.snd, Printable m
  | [] => by simp
  | kv :: items => by
    rw [List.map_cons, List.map_cons, List.forall_mem_cons]
    refine ⟨?_, printable_items F lvl items⟩
    have hsep : Printable compactStyle.keySep := by
      show Printable [ch ':']
      decide
    exact printable_append.mpr ⟨printable_append.mpr ⟨printable_printStr _ _, hsep⟩,
      printable_printVal F lvl kv.2⟩

end

/-! ### Bytes -/

theorem ofNat_ne_zero {n : ℕ} (h0 : 0 < n) (h : n < 256) : UInt8.ofNat n ≠ 0 := by
  intro hz
  have hval : n % 256 = 0 := by simpa using congrArg UInt8.toNat hz
  omega

/-- UTF-8 has a zero byte for U+0000 only. -/
theorem utf8EncodeChar_ne_zero {c : Char} (h : 0 < c.toNat) :
    ∀ b ∈ String.utf8EncodeChar c, b ≠ 0 := by
  have hv : 0 < c.val.toNat := h
  unfold String.utf8EncodeChar
  intro b hb
  simp only at hb
  split at hb
  · obtain rfl := List.mem_singleton.mp hb
    exact ofNat_ne_zero hv (by omega)
  · split at hb
    · simp only [List.mem_cons, List.not_mem_nil, or_false] at hb
      rcases hb with rfl | rfl <;> exact ofNat_ne_zero (by omega) (by omega)
    · split at hb
      · simp only [List.mem_cons, List.not_mem_nil, or_false] at hb
        rcases hb with rfl | rfl | rfl <;> exact ofNat_ne_zero (by omega) (by omega)
      · simp only [List.mem_cons, List.not_mem_nil, or_false] at hb
        rcases hb with rfl | rfl | rfl | rfl <;> exact ofNat_ne_zero (by omega) (by omega)

/-- Text without control characters has no zero byte. -/
theorem zero_not_mem_utf8Encode {s : PyStr} {b : Bytes} (hs : Printable s)
    (h : utf8Encode s = .ok b) : (0 : UInt8) ∉ b := by
  obtain ⟨cs, hcs, rfl⟩ := Option.map_eq_some_iff.mp (encoded_eq_ok.mp h)
  intro hzero
  obtain ⟨x, hx, hb⟩ := List.mem_flatMap.mp hzero
  obtain ⟨c, hc, hcx⟩ := exists_of_mem_of_mapM hcs hx
  have hge := hs c hc
  exact utf8EncodeChar_ne_zero (by rw [toChar?_toNat hcx]; omega) 0 hb rfl

/-- The last zero byte separates. -/
theorem append_zero_inj : ∀ {a b c d : Bytes}, (0 : UInt8) ∉ b → (0 : UInt8) ∉ d →
    a ++ 0 :: b = c ++ 0 :: d → a = c ∧ b = d
  | [], b, [], d, _, _, h => ⟨rfl, (List.cons.inj h).2⟩
  | [], b, y :: c, d, hb, _, h => by
    rw [List.nil_append, List.cons_append] at h
    exact absurd ((List.cons.inj h).2 ▸ List.mem_append_right c List.mem_cons_self) hb
  | x :: a, b, [], d, _, hd, h => by
    rw [List.nil_append, List.cons_append] at h
    exact absurd ((List.cons.inj h).2 ▸ List.mem_append_right a List.mem_cons_self) hd
  | x :: a, b, y :: c, d, hb, hd, h => by
    rw [List.cons_append, List.cons_append] at h
    obtain ⟨rfl, htail⟩ := List.cons.inj h
    obtain ⟨rfl, rfl⟩ := append_zero_inj hb hd htail
    exact ⟨rfl, rfl⟩

end Python
