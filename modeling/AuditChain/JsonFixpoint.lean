/-
AuditChain/JsonFixpoint.lean

Printing, reading and printing again.

Compact texts separate themselves: of two texts with a delimiter behind each,
equal as a whole, the values in front are equal too (`separable_printVal`).  So
the text of what is read back is the text that was read exactly when this holds
of every part, and for a dictionary when its keys, in the order in which they
were printed, are in the order of their texts (`KeysOrdered`).  String keys
always are.  Numbers are sorted as numbers and read back as texts, so they need
not be.
-/
import AuditChain.JsonRoundTrip

namespace Python

/-! ### Texts that separate themselves -/

/-- With delimiters behind them, the texts are equal as soon as the whole is. -/
def Separable (a b : PyStr) : Prop :=
  ∀ rest rest', Delim rest → Delim rest' → a ++ rest = b ++ rest' → a = b

theorem separable_printVal {G : FloatOps} {v w : PyVal} (hv : v.serializable = true)
    (hw : w.serializable = true) (lvl lvl' : ℕ) :
    Separable (printVal G compactStyle lvl v) (printVal G compactStyle lvl' w) := by
  intro rest rest' hr hr' h
  have hv' := readsBack_val tokenOps G compactStyle v hv
    (allLeaves_of_forall strKept_raw tokenOps_keeps v) lvl rest
    (2 * (printVal G compactStyle lvl v ++ rest).length + 1) hr (by omega)
  have hw' := readsBack_val tokenOps G compactStyle w hw
    (allLeaves_of_forall strKept_raw tokenOps_keeps w) lvl' rest'
    (2 * (printVal G compactStyle lvl' w ++ rest').length + 1) hr' (by omega)
  -- one scan of one text leaves one rest
  rw [h, hw', Option.some.injEq, Prod.mk.injEq] at hv'
  obtain ⟨-, rfl⟩ := hv'
  exact List.append_cancel_right h

theorem printStr_append_inj {s t rest rest' : PyStr}
    (h : printStr false s ++ rest = printStr false t ++ rest') : s = t ∧ rest = rest' := by
  obtain ⟨body, hbody, -, hscan⟩ := scanString_printStr false s rest (strKept_raw s) _ le_rfl
  obtain ⟨body', hbody', -, hscan'⟩ := scanString_printStr false t rest' (strKept_raw t) _ le_rfl
  rw [h, hbody'] at hbody
  obtain rfl := (List.cons.inj hbody).2
  have hs := (hscan' _ le_rfl).symm.trans (hscan _ le_rfl)
  rw [Option.some.injEq, Prod.mk.injEq] at hs
  exact ⟨hs.1.symm, hs.2.symm⟩

/-- The text of an item determines the text of its key and that of its value. -/
theorem memberText_append_inj {G : FloatOps} {kv kw : PyKey × PyVal} {lvl lvl' : ℕ}
    (hv : kv.2.serializable = true) (hw : kw.2.serializable = true) {rest rest' : PyStr}
    (hr : Delim rest) (hr' : Delim rest')
    (h : memberText G compactStyle lvl kv ++ rest = memberText G compactStyle lvl' kw ++ rest') :
    kv.1.text = kw.1.text ∧
      printVal G compactStyle lvl kv.2 = printVal G compactStyle lvl' kw.2 := by
  simp only [memberText, List.append_assoc] at h
  obtain ⟨hkey, hrest⟩ := printStr_append_inj h
  exact ⟨hkey, separable_printVal hv hw lvl lvl' _ _ hr hr' (List.append_cancel_left hrest)⟩

theorem separable_memberText {G : FloatOps} {kv kw : PyKey × PyVal} {lvl lvl' : ℕ}
    (hv : kv.2.serializable = true) (hw : kw.2.serializable = true) :
    Separable (memberText G compactStyle lvl kv) (memberText G compactStyle lvl' kw) := by
  intro rest rest' hr hr' h
  obtain ⟨hkey, hval⟩ := memberText_append_inj hv hw hr hr' h
  rw [memberText, memberText, hkey, hval]

theorem memberText_inj {G : FloatOps} {kv kw : PyKey × PyVal} {lvl lvl' : ℕ}
    (hv : kv.2.serializable = true) (hw : kw.2.serializable = true)
    (h : memberText G compactStyle lvl kv = memberText G compactStyle lvl' kw) :
    kv.1.text = kw.1.text ∧
      printVal G compactStyle lvl kv.2 = printVal G compactStyle lvl' kw.2 :=
  memberText_append_inj hv hw delim_nil delim_nil (by rw [h])

/-- Members behind each other, up to a closing bracket. -/
theorem intercalate_inj {close : CodePoint} (hclose : isNumChar close = false)
    (hne : close ≠ ch ',') : ∀ {as bs : List PyStr}, as ≠ [] → bs ≠ [] →
      (∀ a ∈ as, ∀ b ∈ bs, Separable a b) → ∀ {r r' : PyStr},
      [ch ','].intercalate as ++ close :: r = [ch ','].intercalate bs ++ close :: r' → as = bs
  | [], _, hnil, _, _, _, _, _ => absurd rfl hnil
  | _, [], _, hnil, _, _, _, _ => absurd rfl hnil
  | [a], [b], _, _, hsep, r, r', h => by
    rw [List.intercalate_singleton, List.intercalate_singleton] at h
    rw [hsep a (by simp) b (by simp) _ _ (delim_cons hclose) (delim_cons hclose) h]
  | [a], b :: b' :: bs, _, _, hsep, r, r', h => by
    have hcomma : isNumChar (ch ',') = false := by decide
    rw [List.intercalate_singleton, List.intercalate_cons_cons] at h
    simp only [List.append_assoc, List.singleton_append] at h
    obtain rfl := hsep a (by simp) b (by simp) _ _ (delim_cons hclose) (delim_cons hcomma) h
    exact absurd (List.cons.inj (List.append_cancel_left h)).1 hne
  | a :: a' :: as, [b], _, _, hsep, r, r', h => by
    have hcomma : isNumChar (ch ',') = false := by decide
    rw [List.intercalate_singleton, List.intercalate_cons_cons] at h
    simp only [List.append_assoc, List.singleton_append] at h
    obtain rfl := hsep a (by simp) b (by simp) _ _ (delim_cons hcomma) (delim_cons hclose) h
    exact absurd (List.cons.inj (List.append_cancel_left h)).1.symm hne
  | a :: a' :: as, b :: b' :: bs, _, _, hsep, r, r', h => by
    have hcomma : isNumChar (ch ',') = false := by decide
    rw [List.intercalate_cons_cons, List.intercalate_cons_cons] at h
    simp only [List.append_assoc, List.singleton_append] at h
    obtain rfl := hsep a (by simp) b (by simp) _ _ (delim_cons hcomma) (delim_cons hcomma) h
    rw [intercalate_inj hclose hne (List.cons_ne_nil a' as) (List.cons_ne_nil b' bs)
      (fun x hx y hy => hsep x (List.mem_cons_of_mem a hx) y (List.mem_cons_of_mem a hy))
      (List.cons.inj (List.append_cancel_left h)).2]

/-- The bracketed text determines its members. -/
theorem bracketed_inj {l r : CodePoint} (hr : isNumChar r = false) (hne : r ≠ ch ',')
    {as bs : List PyStr} {lvl lvl' : ℕ} (hnil : as = [] ↔ bs = [])
    (hsep : ∀ a ∈ as, ∀ b ∈ bs, Separable a b)
    (h : bracketed compactStyle lvl l r as = bracketed compactStyle lvl' l r bs) : as = bs := by
  by_cases has : as = []
  · rw [has, hnil.mp has]
  · have hbs : bs ≠ [] := fun hbs => has (hnil.mpr hbs)
    rw [bracketed, bracketed, if_neg has, if_neg hbs] at h
    have hjoined : [ch ','].intercalate as ++ [r] = [ch ','].intercalate bs ++ [r] := by
      simpa [compactStyle, DumpStyle.newline, DumpStyle.itemSep] using h
    exact intercalate_inj hr hne has hbs hsep hjoined

/-! ### Keys in order -/

mutual

/-- The keys of every dictionary, printed in the order of the keys, are in the order of
their texts, none of them twice. -/
def PyVal.KeysOrdered (F : FloatOps) : PyVal → Prop
  | .list xs => ElemsKeysOrdered F xs
  | .tuple xs => ElemsKeysOrdered F xs
  | .dict items =>
    ((sortItems F items).map fun kv => kv.1.text).Pairwise (· < ·) ∧ ItemsKeysOrdered F items
  | _ => True

/-- `PyVal.KeysOrdered` of every element. -/
def ElemsKeysOrdered (F : FloatOps) : List PyVal → Prop
  | [] => True
  | x :: xs => PyVal.KeysOrdered F x ∧ ElemsKeysOrdered F xs

/-- `PyVal.KeysOrdered` of every value of a dictionary. -/
def ItemsKeysOrdered (F : FloatOps) : List (PyKey × PyVal) → Prop
  | [] => True
  | (_, v) :: items => PyVal.KeysOrdered F v ∧ ItemsKeysOrdered F items

end

theorem strKey_le_iff (F : FloatOps) (s t : PyStr) : PyKey.le F (.str s) (.str t) ↔ s ≤ t := by
  simp [PyKey.le, PyKey.lt]

theorem text_of_isStr {k : PyKey} (h : k.isStr = true) : k = .str k.text := by
  cases k with
  | str s => rfl
  | _ => cases h

/-- String keys are sorted by their texts. -/
theorem text_sortItems {α : Type} (F : FloatOps) {items : List (PyKey × α)}
    (h : ∀ kv ∈ items, kv.1.isStr = true) : (sortItems F items).map (fun kv => kv.1.text)
      = (items.map fun kv => kv.1.text).insertionSort (· ≤ ·) := by
  rw [sortItems_of_isStr F h]
  refine List.map_insertionSort _ _ _ _ fun a ha b hb => ?_
  rw [text_of_isStr (h a ha), text_of_isStr (h b hb), strKey_le_iff]
  rfl

/-- Distinct string keys are in order once they are sorted. -/
theorem pairwise_text_sortItems {α : Type} (F : FloatOps) {items : List (PyKey × α)}
    (h : ∀ kv ∈ items, kv.1.isStr = true) (hnodup : (items.map Prod.fst).Nodup) :
    ((sortItems F items).map fun kv => kv.1.text).Pairwise (· < ·) := by
  have hsorted : ((sortItems F items).map fun kv => kv.1.text).Pairwise (· ≤ ·) := by
    rw [text_sortItems F h]
    exact List.pairwise_insertionSort _ _
  have htexts : ((sortItems F items).map fun kv => kv.1.text).Nodup := by
    have hperm := (sortItems_perm F items).map fun kv => kv.1.text
    rw [hperm.nodup_iff]
    have hinj : (items.map fun kv => kv.1.text).map PyKey.str = items.map Prod.fst := by
      rw [List.map_map]
      exact List.map_congr_left fun kv hkv => (text_of_isStr (h kv hkv)).symm
    exact List.Nodup.of_map _ (hinj ▸ hnodup)
  exact (hsorted.and htexts).imp fun ⟨hle, hne⟩ => lt_of_le_of_ne hle hne

/-- Items under string keys in order are sorted already. -/
theorem sortItems_eq_self {α : Type} (F : FloatOps) {items : List (PyKey × α)}
    (h : ∀ kv ∈ items, kv.1.isStr = true)
    (hordered : (items.map fun kv => kv.1.text).Pairwise (· < ·)) : sortItems F items = items := by
  rw [sortItems_of_isStr F h]
  apply List.Pairwise.insertionSort_eq
  rw [List.pairwise_map] at hordered
  refine hordered.imp_of_mem fun {a b} ha hb hlt => ?_
  rw [text_of_isStr (h a ha), text_of_isStr (h b hb), strKey_le_iff]
  exact le_of_lt hlt

/-! ### What is read back -/

/-- `d[k] = v` adds the key if it is not there yet. -/
theorem map_fst_set (d : PyDict) (k : PyKey) (v : PyVal) :
    (PyDict.set d k v).map Prod.fst =
      if k ∈ d.map Prod.fst then d.map Prod.fst else d.map Prod.fst ++ [k] := by
  induction d with
  | nil => rfl
  | cons kv d ih =>
    obtain ⟨k', v'⟩ := kv
    rw [PyDict.set]
    by_cases hk : k' = k
    · rw [if_pos hk, if_pos (by simp [hk])]
      simp [hk]
    · have hk' : k ≠ k' := fun h => hk h.symm
      rw [if_neg hk]
      simp only [List.map_cons, List.mem_cons, hk', false_or, ih]
      split <;> rfl

theorem mem_set {d : PyDict} {k : PyKey} {v : PyVal} {kv : PyKey × PyVal}
    (h : kv ∈ PyDict.set d k v) : kv = (k, v) ∨ kv ∈ d := by
  induction d with
  | nil => exact Or.inl (List.mem_singleton.mp h)
  | cons kv' d ih =>
    obtain ⟨k', v'⟩ := kv'
    rw [PyDict.set] at h
    split at h
    · rcases List.mem_cons.mp h with h | h
      · exact Or.inl h
      · exact Or.inr (List.mem_cons_of_mem _ h)
    · rcases List.mem_cons.mp h with h | h
      · exact Or.inr (h ▸ List.mem_cons_self)
      · exact (ih h).imp_right (List.mem_cons_of_mem _)

/-- What a dictionary made of pairs is: their keys, once each, and values that stood there. -/
theorem dictOfPairs_spec (pairs : List (PyKey × PyVal)) :
    ((dictOfPairs pairs).map Prod.fst).Nodup ∧ (∀ kv ∈ dictOfPairs pairs, kv ∈ pairs) ∧
      ∀ k ∈ pairs.map Prod.fst, k ∈ (dictOfPairs pairs).map Prod.fst := by
  induction pairs using List.reverseRecOn with
  | nil => simp [dictOfPairs]
  | append_singleton pairs kv ih =>
    obtain ⟨hnodup, hsub, hkeys⟩ := ih
    have hset : dictOfPairs (pairs ++ [kv]) = PyDict.set (dictOfPairs pairs) kv.1 kv.2 := by
      simp [dictOfPairs]
    rw [hset]
    refine ⟨?_, ?_, ?_⟩
    · rw [map_fst_set]
      split
      · exact hnodup
      · rename_i hnew
        refine List.nodup_append.mpr ⟨hnodup, List.nodup_singleton _, ?_⟩
        intro a ha b hb hab
        rw [List.mem_singleton.mp hb] at hab
        exact hnew (hab ▸ ha)
    · intro kv' hmem
      rcases mem_set hmem with rfl | hmem
      · simp
      · exact List.mem_append_left _ (hsub kv' hmem)
    · intro k hk
      rw [map_fst_set]
      rw [List.map_append, List.mem_append] at hk
      split
      · rename_i hold
        rcases hk with hk | hk
        · exact hkeys k hk
        · rwa [List.mem_singleton.mp hk]
      · rcases hk with hk | hk
        · exact List.mem_append_left _ (hkeys k hk)
        · exact List.mem_append_right _ hk

/-- The items of a dictionary, sorted and as JSON. -/
def jsonPairs (F : FloatOps) (items : List (PyKey × PyVal)) : List (PyKey × PyVal) :=
  (sortItems F items).map fun kv => (.str kv.1.text, kv.2.jsonValue F)

theorem jsonValue_dict (F : FloatOps) (items : List (PyKey × PyVal)) :
    (PyVal.dict items).jsonValue F = .dict (dictOfPairs (jsonPairs F items)) := by
  simp only [PyVal.jsonValue, jsonItems_eq_map, sortItems_map, List.map_map, Function.comp_def,
    jsonPairs]

theorem isStr_jsonPairs (F : FloatOps) (items : List (PyKey × PyVal)) :
    ∀ kv ∈ jsonPairs F items, kv.1.isStr = true := by
  intro kv hkv
  obtain ⟨kw, -, rfl⟩ := List.mem_map.mp hkv
  rfl

theorem isStr_dictOfPairs (F : FloatOps) (items : List (PyKey × PyVal)) :
    ∀ kv ∈ dictOfPairs (jsonPairs F items), kv.1.isStr = true :=
  fun kv hkv => isStr_jsonPairs F items kv ((dictOfPairs_spec _).2.1 kv hkv)

theorem text_jsonPairs (F : FloatOps) (items : List (PyKey × PyVal)) :
    (jsonPairs F items).map (fun kv => kv.1.text)
      = (sortItems F items).map fun kv => kv.1.text := by
  rw [jsonPairs, List.map_map]
  rfl

theorem itemsSerializable_iff {items : List (PyKey × PyVal)} :
    itemsSerializable items = true ↔
      ∀ kv ∈ items, kv.1 ≠ .object ∧ kv.2.serializable = true := by
  induction items with
  | nil => simp [itemsSerializable]
  | cons kv items ih => simp [itemsSerializable, ih, and_assoc]

mutual

/-- What is read back can be printed. -/
theorem serializable_jsonValue (F : FloatOps) : ∀ v : PyVal, v.serializable = true →
    (v.jsonValue F).serializable = true
  | .null, _ | .bool _, _ | .int _, _ | .float _, _ | .str _, _ => by
    simp only [PyVal.jsonValue, PyVal.serializable]
  | .list xs, hv | .tuple xs, hv => by
    simp only [PyVal.serializable] at hv
    simp only [PyVal.jsonValue, PyVal.serializable, jsonElems_eq_map, elemsSerializable_iff,
      List.forall_mem_map]
    exact serializable_jsonElems F xs hv
  | .dict items, hv => by
    simp only [PyVal.serializable, Bool.and_eq_true] at hv
    rw [jsonValue_dict]
    simp only [PyVal.serializable, Bool.and_eq_true]
    constructor
    · simp only [sortable, Bool.or_eq_true, List.all_map, List.all_eq_true]
      exact Or.inl (Or.inr (isStr_dictOfPairs F items))
    · rw [itemsSerializable_iff]
      intro kv hkv
      obtain ⟨kw, hkw, rfl⟩ := List.mem_map.mp ((dictOfPairs_spec _).2.1 kv hkv)
      exact ⟨by simp, serializable_jsonItems F items hv.2 kw
        ((sortItems_perm F items).mem_iff.mp hkw)⟩
  | .object, hv => by simp only [PyVal.serializable, Bool.false_eq_true] at hv

theorem serializable_jsonElems (F : FloatOps) : ∀ xs : List PyVal,
    elemsSerializable xs = true → ∀ x ∈ xs, (x.jsonValue F).serializable = true
  | [], _ => by simp
  | x :: xs, hv => by
    simp only [elemsSerializable, Bool.and_eq_true] at hv
    exact List.forall_mem_cons.mpr
      ⟨serializable_jsonValue F x hv.1, serializable_jsonElems F xs hv.2⟩

theorem serializable_jsonItems (F : FloatOps) : ∀ items : List (PyKey × PyVal),
    itemsSerializable items = true → ∀ kv ∈ items, (kv.2.jsonValue F).serializable = true
  | [], _ => by simp
  | (k, v) :: items, hv => by
    simp only [itemsSerializable, Bool.and_eq_true] at hv
    exact List.forall_mem_cons.mpr
      ⟨serializable_jsonValue F v hv.1.2, serializable_jsonItems F items hv.2⟩

end

/-! ### The fixed points -/

theorem printVal_dict (G : FloatOps) (st : DumpStyle) (lvl : ℕ) (items : List (PyKey × PyVal)) :
    printVal G st lvl (.dict items) = bracketed st lvl (ch '\x7b') (ch '\x7d')
      ((sortItems G items).map (memberText G st (lvl + 1))) := by
  simp only [printVal, printItems_eq_map, sortItems_map, List.map_map, Function.comp_def]

/-- Equal members have equal keys and values. -/
theorem map_memberText_inj {G : FloatOps} {lvl : ℕ} : ∀ {xs ys : List (PyKey × PyVal)},
    (∀ kv ∈ xs, kv.2.serializable = true) → (∀ kv ∈ ys, kv.2.serializable = true) →
    xs.map (memberText G compactStyle lvl) = ys.map (memberText G compactStyle lvl) →
      xs.map (fun kv => kv.1.text) = ys.map (fun kv => kv.1.text) ∧
        xs.map (fun kv => printVal G compactStyle lvl kv.2)
          = ys.map fun kv => printVal G compactStyle lvl kv.2
  | [], [], _, _, _ => ⟨rfl, rfl⟩
  | [], _ :: _, _, _, h => by cases h
  | _ :: _, [], _, _, h => by cases h
  | x :: xs, y :: ys, hx, hy, h => by
    rw [List.map_cons, List.map_cons, List.cons.injEq] at h
    rw [List.forall_mem_cons] at hx hy
    obtain ⟨hkey, hval⟩ := memberText_inj hx.1 hy.1 h.1
    obtain ⟨hkeys, hvals⟩ := map_memberText_inj hx.2 hy.2 h.2
    simp only [List.map_cons, hkey, hval, hkeys, hvals, and_self]

/-- Under ordered keys, what is read back are the sorted items. -/
theorem dictOfPairs_jsonPairs {F : FloatOps} {items : List (PyKey × PyVal)}
    (h : ((sortItems F items).map fun kv => kv.1.text).Pairwise (· < ·)) :
    dictOfPairs (jsonPairs F items) = jsonPairs F items ∧
      sortItems F (jsonPairs F items) = jsonPairs F items := by
  rw [← text_jsonPairs] at h
  refine ⟨dictOfPairs_of_nodup ?_, sortItems_eq_self F (isStr_jsonPairs F items) h⟩
  have hkeys : (jsonPairs F items).map Prod.fst
      = ((jsonPairs F items).map fun kv => kv.1.text).map PyKey.str := by
    rw [List.map_map]
    exact List.map_congr_left fun kv hkv => text_of_isStr (isStr_jsonPairs F items kv hkv)
  rw [hkeys]
  exact (h.imp ne_of_lt).map PyKey.str fun a b hne heq => hne (PyKey.str.inj heq)

theorem dictOfPairs_eq_nil {F : FloatOps} {items : List (PyKey × PyVal)} :
    dictOfPairs (jsonPairs F items) = [] ↔ items = [] := by
  have hperm := sortItems_perm F items
  constructor
  · intro h
    have hkeys := (dictOfPairs_spec (jsonPairs F items)).2.2
    rw [h] at hkeys
    have hnil : jsonPairs F items = [] := List.eq_nil_iff_forall_not_mem.mpr fun kv hkv =>
      absurd (hkeys kv.1 (List.mem_map_of_mem hkv)) (by simp)
    rw [jsonPairs, List.map_eq_nil_iff] at hnil
    exact (hnil ▸ hperm).symm.eq_nil
  · rintro rfl
    rfl

/-- One dictionary. -/
theorem printVal_jsonPairs_iff {G : FloatOps} {items : List (PyKey × PyVal)} (lvl : ℕ)
    (hv : itemsSerializable items = true) :
    printVal G compactStyle lvl (.dict (dictOfPairs (jsonPairs G items)))
        = printVal G compactStyle lvl (.dict items) ↔
      ((sortItems G items).map fun kv => kv.1.text).Pairwise (· < ·) ∧
        ∀ kv ∈ items, printVal G compactStyle (lvl + 1) (kv.2.jsonValue G)
          = printVal G compactStyle (lvl + 1) kv.2 := by
  have hser : ∀ kv ∈ sortItems G items, kv.2.serializable = true := fun kv hkv =>
    (itemsSerializable_iff.mp hv kv ((sortItems_perm G items).mem_iff.mp hkv)).2
  have hser' : ∀ kv ∈ sortItems G (dictOfPairs (jsonPairs G items)), kv.2.serializable = true := by
    intro kv hkv
    rw [(sortItems_perm G _).mem_iff] at hkv
    obtain ⟨kw, hkw, rfl⟩ := List.mem_map.mp ((dictOfPairs_spec _).2.1 kv hkv)
    exact serializable_jsonValue G kw.2 (hser kw hkw)
  rw [printVal_dict, printVal_dict]
  constructor
  · intro h
    -- the members are the same, so the keys are, and those of a dictionary are in order
    have hmembers := bracketed_inj (by decide) (by decide) (by
      rw [List.map_eq_nil_iff, List.map_eq_nil_iff, ← List.length_eq_zero_iff,
        (sortItems_perm G _).length_eq, List.length_eq_zero_iff, dictOfPairs_eq_nil,
        ← List.length_eq_zero_iff, ← (sortItems_perm G items).length_eq, List.length_eq_zero_iff])
      (by
        intro a ha b hb
        obtain ⟨kv, hkv, rfl⟩ := List.mem_map.mp ha
        obtain ⟨kw, hkw, rfl⟩ := List.mem_map.mp hb
        exact separable_memberText (hser' kv hkv) (hser kw hkw)) h
    obtain ⟨hkeys, hvals⟩ := map_memberText_inj hser' hser hmembers
    have hordered : ((sortItems G items).map fun kv => kv.1.text).Pairwise (· < ·) := by
      rw [← hkeys]
      exact pairwise_text_sortItems G (isStr_dictOfPairs G items) (dictOfPairs_spec _).1
    refine ⟨hordered, fun kv hkv => ?_⟩
    obtain ⟨hd, hsorted⟩ := dictOfPairs_jsonPairs hordered
    rw [hd, hsorted, jsonPairs, List.map_map] at hvals
    exact List.map_inj_left.mp hvals kv ((sortItems_perm G items).mem_iff.mpr hkv)
  · rintro ⟨hordered, hvals⟩
    obtain ⟨hd, hsorted⟩ := dictOfPairs_jsonPairs hordered
    rw [hd, hsorted, jsonPairs, List.map_map]
    refine congrArg _ (List.map_congr_left fun kv hkv => ?_)
    simp only [Function.comp_def, memberText,
      hvals kv ((sortItems_perm G items).mem_iff.mp hkv)]
    rfl

mutual

/-- **Printing again what was read back gives the text that was read**, exactly for values
with their keys in order. -/
theorem printVal_jsonValue_iff (G : FloatOps) : ∀ (v : PyVal) (lvl : ℕ), v.serializable = true →
    (printVal G compactStyle lvl (v.jsonValue G) = printVal G compactStyle lvl v ↔
      v.KeysOrdered G)
  | .null, _, _ | .bool _, _, _ | .int _, _, _ | .float _, _, _ | .str _, _, _ => by
    simp only [PyVal.jsonValue, PyVal.KeysOrdered]
  | .list xs, lvl, hv | .tuple xs, lvl, hv => by
    simp only [PyVal.serializable] at hv
    simp only [PyVal.jsonValue, PyVal.KeysOrdered, printVal, printElems_eq_map, jsonElems_eq_map,
      List.map_map]
    rw [← printElems_jsonElems_iff G xs (lvl + 1) hv, ← List.map_inj_left]
    refine ⟨fun h => ?_, fun h => congrArg _ h⟩
    refine bracketed_inj (by decide) (by decide) (by simp) ?_ h
    intro a ha b hb
    obtain ⟨x, hx, rfl⟩ := List.mem_map.mp ha
    obtain ⟨y, hy, rfl⟩ := List.mem_map.mp hb
    exact separable_printVal (serializable_jsonElems G xs hv x hx)
      (elemsSerializable_iff.mp hv y hy) _ _
  | .dict items, lvl, hv => by
    simp only [PyVal.serializable, Bool.and_eq_true] at hv
    rw [jsonValue_dict, printVal_jsonPairs_iff lvl hv.2]
    simp only [PyVal.KeysOrdered, printItems_jsonItems_iff G items (lvl + 1) hv.2]
  | .object, _, hv => by simp only [PyVal.serializable, Bool.false_eq_true] at hv

theorem printElems_jsonElems_iff (G : FloatOps) : ∀ (xs : List PyVal) (lvl : ℕ),
    elemsSerializable xs = true →
    ((∀ x ∈ xs, printVal G compactStyle lvl (x.jsonValue G) = printVal G compactStyle lvl x) ↔
      ElemsKeysOrdered G xs)
  | [], _, _ => by simp [ElemsKeysOrdered]
  | x :: xs, lvl, hv => by
    simp only [elemsSerializable, Bool.and_eq_true] at hv
    rw [List.forall_mem_cons, printVal_jsonValue_iff G x lvl hv.1,
      printElems_jsonElems_iff G xs lvl hv.2]
    simp only [ElemsKeysOrdered]

theorem printItems_jsonItems_iff (G : FloatOps) : ∀ (items : List (PyKey × PyVal)) (lvl : ℕ),
    itemsSerializable items = true →
    ((∀ kv ∈ items, printVal G compactStyle lvl (kv.2.jsonValue G)
        = printVal G compactStyle lvl kv.2) ↔ ItemsKeysOrdered G items)
  | [], _, _ => by simp [ItemsKeysOrdered]
  | (k, v) :: items, lvl, hv => by
    simp only [itemsSerializable, Bool.and_eq_true] at hv
    rw [List.forall_mem_cons, printVal_jsonValue_iff G v lvl hv.1.2,
      printItems_jsonItems_iff G items lvl hv.2]
    simp only [ItemsKeysOrdered]

end

/-! ### JSON values have their keys in order -/

mutual

theorem keysOrdered_of_isJson (F : FloatOps) : ∀ v : PyVal, v.IsJson → v.KeysOrdered F
  | .null, _ | .bool _, _ | .int _, _ | .float _, _ | .str _, _ => by
    simp only [PyVal.KeysOrdered]
  | .list xs, hv => by
    simp only [PyVal.IsJson] at hv
    simp only [PyVal.KeysOrdered]
    exact elemsKeysOrdered_of_json F xs hv
  | .tuple _, hv | .object, hv => by simp only [PyVal.IsJson] at hv
  | .dict items, hv => by
    simp only [PyVal.IsJson] at hv
    simp only [PyVal.KeysOrdered]
    exact ⟨pairwise_text_sortItems F (fun kv hkv => (itemsJson_iff.mp hv.2 kv hkv).1) hv.1,
      itemsKeysOrdered_of_json F items hv.2⟩

theorem elemsKeysOrdered_of_json (F : FloatOps) : ∀ xs : List PyVal, ElemsJson xs →
    ElemsKeysOrdered F xs
  | [], _ => by simp only [ElemsKeysOrdered]
  | x :: xs, hv => by
    simp only [ElemsJson] at hv
    simp only [ElemsKeysOrdered]
    exact ⟨keysOrdered_of_isJson F x hv.1, elemsKeysOrdered_of_json F xs hv.2⟩

theorem itemsKeysOrdered_of_json (F : FloatOps) : ∀ items : List (PyKey × PyVal),
    ItemsJson items → ItemsKeysOrdered F items
  | [], _ => by simp only [ItemsKeysOrdered]
  | (k, v) :: items, hv => by
    simp only [ItemsJson] at hv
    simp only [ItemsKeysOrdered]
    exact ⟨keysOrdered_of_isJson F v hv.2.1, itemsKeysOrdered_of_json F items hv.2.2⟩

end

/-! ### JSON values -/

mutual

/-- A JSON value can be printed. -/
theorem serializable_of_isJson : ∀ v : PyVal, v.IsJson → v.serializable = true
  | .null, _ | .bool _, _ | .int _, _ | .float _, _ | .str _, _ => by simp only [PyVal.serializable]
  | .list xs, hv => by
    simp only [PyVal.IsJson] at hv
    simp only [PyVal.serializable]
    exact serializable_of_elemsJson xs hv
  | .tuple _, hv | .object, hv => by simp only [PyVal.IsJson] at hv
  | .dict items, hv => by
    simp only [PyVal.IsJson] at hv
    have hkeys : sortable (items.map Prod.fst) = true := by
      simp only [sortable, Bool.or_eq_true, List.all_map, List.all_eq_true]
      exact Or.inl (Or.inr fun kv hkv => (itemsJson_iff.mp hv.2 kv hkv).1)
    simp only [PyVal.serializable, hkeys, Bool.true_and]
    exact serializable_of_itemsJson items hv.2

theorem serializable_of_elemsJson : ∀ xs : List PyVal, ElemsJson xs → elemsSerializable xs = true
  | [], _ => by simp only [elemsSerializable]
  | x :: xs, hv => by
    simp only [ElemsJson] at hv
    simp only [elemsSerializable, serializable_of_isJson x hv.1, serializable_of_elemsJson xs hv.2,
      Bool.and_self]

theorem serializable_of_itemsJson : ∀ items : List (PyKey × PyVal), ItemsJson items →
    itemsSerializable items = true
  | [], _ => by simp only [itemsSerializable]
  | (k, v) :: items, hv => by
    simp only [ItemsJson] at hv
    have hk : k ≠ .object := by
      rintro rfl
      cases hv.1
    simp only [itemsSerializable, serializable_of_isJson v hv.2.1,
      serializable_of_itemsJson items hv.2.2, ne_eq, hk, not_false_eq_true, decide_true,
      Bool.and_self]

end

mutual

/-- **Sorting by keys once is enough.** -/
theorem canon_canon (F : FloatOps) : ∀ v : PyVal, v.IsJson → (v.canon F).canon F = v.canon F
  | .null, _ | .bool _, _ | .int _, _ | .float _, _ | .str _, _ => by simp only [PyVal.canon]
  | .list xs, hv => by
    simp only [PyVal.IsJson] at hv
    simp only [PyVal.canon, canonElems_canonElems F xs hv]
  | .tuple _, hv | .object, hv => by simp only [PyVal.IsJson] at hv
  | .dict items, hv => by
    simp only [PyVal.IsJson] at hv
    have hkeys : ∀ kv ∈ canonItems F items, kv.1.isStr = true := by
      intro kv hkv
      rw [canonItems_eq_map] at hkv
      obtain ⟨kv', hkv', rfl⟩ := List.mem_map.mp hkv
      exact (itemsJson_iff.mp hv.2 kv' hkv').1
    have hnodup : ((canonItems F items).map Prod.fst).Nodup := by
      rw [canonItems_eq_map, List.map_map]
      exact hv.1
    -- what is sorted is canonical item by item
    have hsorted : canonItems F (sortItems F (canonItems F items))
        = sortItems F (canonItems F items) := by
      rw [canonItems_eq_map F (sortItems F _)]
      rw [← sortItems_map F (fun kv : PyKey × PyVal => kv.2.canon F), ← canonItems_eq_map,
        canonItems_canonItems F items hv.2]
    simp only [PyVal.canon, hsorted]
    rw [sortItems_eq_self F (fun kv hkv => hkeys kv ((sortItems_perm F _).mem_iff.mp hkv))
      (pairwise_text_sortItems F hkeys hnodup)]

theorem canonElems_canonElems (F : FloatOps) : ∀ xs : List PyVal, ElemsJson xs →
    canonElems F (canonElems F xs) = canonElems F xs
  | [], _ => by simp only [canonElems]
  | x :: xs, hv => by
    simp only [ElemsJson] at hv
    simp only [canonElems, canon_canon F x hv.1, canonElems_canonElems F xs hv.2]

theorem canonItems_canonItems (F : FloatOps) : ∀ items : List (PyKey × PyVal),
    ItemsJson items → canonItems F (canonItems F items) = canonItems F items
  | [], _ => by simp only [canonItems]
  | (k, v) :: items, hv => by
    simp only [ItemsJson] at hv
    simp only [canonItems, canon_canon F v hv.2.1, canonItems_canonItems F items hv.2.2]

end

end Python
