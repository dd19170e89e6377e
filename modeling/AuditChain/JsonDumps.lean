/-
AuditChain/JsonDumps.lean

`json.dumps(v, sort_keys=True, ...)`.

The encoder is split in two.  `Serializable` is the part that can fail: a value
of another type, a key of another type, keys that cannot be compared.  All of
these are `TypeError`s, and none of them leaves anything behind, so it does not
matter in which order the encoder would meet them.  `printVal` is the total part
that writes the text.

What the text keeps of a value is its `jsonValue`, the value that `json.loads`
reads back.  `canon` only sorts the dictionaries; on a value that is JSON already
the two agree.
-/
import AuditChain.PyValue
import Mathlib.Data.List.Sort

namespace Python

/-! ### Options -/

/-- The options of `json.dumps` that shape the text.  `itemGap` and `keyGap`
count the blanks after `,` and `:`. -/
structure DumpStyle where
  ensureAscii : Bool
  indent : Option ℕ
  itemGap : ℕ
  keyGap : ℕ

/-- `ensure_ascii=False, separators=(",", ":")`. -/
def compactStyle : DumpStyle := ⟨false, none, 0, 0⟩

/-- `indent=2`, everything else by default. -/
def indentStyle : DumpStyle := ⟨true, some 2, 0, 1⟩

/-- A new line at nesting level `lvl`, when indenting. -/
def DumpStyle.newline (st : DumpStyle) (lvl : ℕ) : PyStr :=
  match st.indent with
  | none => []
  | some n => ch '\n' :: List.replicate (n * lvl) (ch ' ')

/-- The separator between the members of a list or a dictionary. -/
def DumpStyle.itemSep (st : DumpStyle) (lvl : ℕ) : PyStr :=
  ch ',' :: List.replicate st.itemGap (ch ' ') ++ st.newline lvl

/-- The separator between a key and its value. -/
def DumpStyle.keySep (st : DumpStyle) : PyStr :=
  ch ':' :: List.replicate st.keyGap (ch ' ')

/-! ### Strings -/

/-- `\uXXXX`. -/
def uEscape (n : ℕ) : PyStr := 92 :: ch 'u' :: hexFixed 4 n

/-- One character inside a JSON string. -/
def escapeChar (ascii : Bool) (c : CodePoint) : PyStr :=
  if c = 34 ∨ c = 92 then [92, c]
  else if c = 10 then [92, ch 'n']
  else if c = 13 then [92, ch 'r']
  else if c = 9 then [92, ch 't']
  else if c = 12 then [92, ch 'f']
  else if c = 8 then [92, ch 'b']
  else if c.val < 32 then uEscape c.val
  else if ascii = false ∨ c.val < 127 then [c]
  else if c.val < 0x10000 then uEscape c.val
  else
    -- above the basic plane: a pair of surrogates
    uEscape (0xd800 + (c.val - 0x10000) / 0x400) ++ uEscape (0xdc00 + (c.val - 0x10000) % 0x400)

/-- A JSON string. -/
def printStr (ascii : Bool) (s : PyStr) : PyStr :=
  34 :: s.flatMap (escapeChar ascii) ++ [34]

/-! ### Keys -/

/-- A boolean as JSON. -/
def boolText (b : Bool) : PyStr := if b then lit "true" else lit "false"

/-- The string a key is written as. -/
def PyKey.text : PyKey → PyStr
  | .null => lit "null"
  | .bool b => boolText b
  | .int i => intStr i
  | .float f => f.jsonText
  | .str s => s
  | .object => []

/-- Is it a string? -/
def PyKey.isStr : PyKey → Bool
  | .str _ => true
  | _ => false

/-- Is it a number?  Booleans are. -/
def PyKey.isNum : PyKey → Bool
  | .bool _ | .int _ | .float _ => true
  | _ => false

/-- Where a numeric key stands in the order of numbers; NaN stands nowhere. -/
def PyKey.position (F : FloatOps) : PyKey → Option (WithBot (WithTop ℚ))
  | .bool b => some ((if b then 1 else 0 : ℚ) : WithTop ℚ)
  | .int i => some ((i : ℚ) : WithTop ℚ)
  | .float (.fin t) => some ((F.value t : ℚ) : WithTop ℚ)
  | .float (.inf neg) => some (if neg then ⊥ else (⊤ : WithTop ℚ))
  | _ => none

/-- `a < b` on keys that can be compared. -/
def PyKey.lt (F : FloatOps) (a b : PyKey) : Bool :=
  match a, b with
  | .str s, .str t => decide (s < t)
  | a, b =>
    match a.position F, b.position F with
    | some x, some y => decide (x < y)
    | _, _ => false

/-- The order that `sorted` puts the items in. -/
def PyKey.le (F : FloatOps) (a b : PyKey) : Prop := PyKey.lt F b a = false

instance (F : FloatOps) : DecidableRel (PyKey.le F) := fun a b => by
  unfold PyKey.le; infer_instance

/-- Is it NaN? -/
def PyKey.isNan : PyKey → Bool
  | .float .nan => true
  | _ => false

/-- `sorted` of items, by key: a stable sort, unless a key is NaN. -/
def sortItems {α : Type*} (F : FloatOps) (items : List (PyKey × α)) : List (PyKey × α) :=
  if items.any fun kv => kv.1.isNan then
    (F.nanOrder (items.map Prod.fst)).filterMap fun i => items[i]?
  else items.insertionSort fun a b => PyKey.le F a.1 b.1

/-- Can `sorted` compare these keys with each other? -/
def sortable (keys : List PyKey) : Bool :=
  keys.length ≤ 1 || keys.all PyKey.isStr || keys.all PyKey.isNum

/-! ### Printing -/

/-- Members, separated and indented, between an opening and a closing bracket. -/
def bracketed (st : DumpStyle) (lvl : ℕ) (l r : CodePoint) (members : List PyStr) : PyStr :=
  if members = [] then [l, r]
  else l :: st.newline (lvl + 1) ++ (st.itemSep (lvl + 1)).intercalate members
    ++ st.newline lvl ++ [r]

mutual

/-- The text of a value at nesting level `lvl`. -/
def printVal (F : FloatOps) (st : DumpStyle) (lvl : ℕ) : PyVal → PyStr
  | .null => lit "null"
  | .bool b => boolText b
  | .int i => intStr i
  | .float f => f.jsonText
  | .str s => printStr st.ensureAscii s
  | .list xs => bracketed st lvl (ch '[') (ch ']') (printElems F st (lvl + 1) xs)
  | .tuple xs => bracketed st lvl (ch '[') (ch ']') (printElems F st (lvl + 1) xs)
  | .dict items =>
    bracketed st lvl (ch '\x7b') (ch '\x7d')
      ((sortItems F (printItems F st (lvl + 1) items)).map Prod.snd)
  | .object => []

/-- The texts of the elements of a list. -/
def printElems (F : FloatOps) (st : DumpStyle) (lvl : ℕ) : List PyVal → List PyStr
  | [] => []
  | x :: xs => printVal F st lvl x :: printElems F st lvl xs

/-- The texts of the items of a dictionary, each with its key. -/
def printItems (F : FloatOps) (st : DumpStyle) (lvl : ℕ) :
    List (PyKey × PyVal) → List (PyKey × PyStr)
  | [] => []
  | (k, v) :: items =>
    (k, printStr st.ensureAscii k.text ++ st.keySep ++ printVal F st lvl v)
      :: printItems F st lvl items

end

mutual

/-- Does the encoder accept the value? -/
def PyVal.serializable : PyVal → Bool
  | .list xs => elemsSerializable xs
  | .tuple xs => elemsSerializable xs
  | .dict items => sortable (items.map Prod.fst) && itemsSerializable items
  | .object => false
  | _ => true

/-- `PyVal.serializable` of every element. -/
def elemsSerializable : List PyVal → Bool
  | [] => true
  | x :: xs => PyVal.serializable x && elemsSerializable xs

/-- `PyVal.serializable` of every item, and no key of another type. -/
def itemsSerializable : List (PyKey × PyVal) → Bool
  | [] => true
  | (k, v) :: items => k ≠ .object && PyVal.serializable v && itemsSerializable items

end

/-- `json.dumps(v, sort_keys=True, ...)`. -/
def dumps (F : FloatOps) (st : DumpStyle) (v : PyVal) : Except PyError PyStr :=
  if v.serializable then .ok (printVal F st 0 v)
  else .error (typeError (lit "Object is not JSON serializable"))

/-! ### JSON values and their canonical form -/

mutual

/-- A JSON value: no tuples, no foreign objects, string keys, no key twice. -/
def PyVal.IsJson : PyVal → Prop
  | .list xs => ElemsJson xs
  | .dict items => (items.map Prod.fst).Nodup ∧ ItemsJson items
  | .tuple _ => False
  | .object => False
  | _ => True

/-- `PyVal.IsJson` of every element. -/
def ElemsJson : List PyVal → Prop
  | [] => True
  | x :: xs => PyVal.IsJson x ∧ ElemsJson xs

/-- `PyVal.IsJson` of every item, under a string key. -/
def ItemsJson : List (PyKey × PyVal) → Prop
  | [] => True
  | (k, v) :: items => k.isStr = true ∧ PyVal.IsJson v ∧ ItemsJson items

end

mutual

/-- `p` holds of every string in the value, the keys included, and `q` of every float
that is a number. -/
def PyVal.AllLeaves (p : PyStr → Prop) (q : FloatText → Prop) : PyVal → Prop
  | .str s => p s
  | .float (.fin t) => q t
  | .list xs => ElemsAllLeaves p q xs
  | .tuple xs => ElemsAllLeaves p q xs
  | .dict items => ItemsAllLeaves p q items
  | _ => True

/-- `PyVal.AllLeaves` of every element. -/
def ElemsAllLeaves (p : PyStr → Prop) (q : FloatText → Prop) : List PyVal → Prop
  | [] => True
  | x :: xs => PyVal.AllLeaves p q x ∧ ElemsAllLeaves p q xs

/-- `PyVal.AllLeaves` of every item. -/
def ItemsAllLeaves (p : PyStr → Prop) (q : FloatText → Prop) : List (PyKey × PyVal) → Prop
  | [] => True
  | (k, v) :: items => p k.text ∧ PyVal.AllLeaves p q v ∧ ItemsAllLeaves p q items

end

mutual

/-- The JSON value that the text of a value stands for: a tuple is a list, every key
is its text, and of two keys with one text the later wins. -/
def PyVal.jsonValue (F : FloatOps) : PyVal → PyVal
  | .list xs => .list (jsonElems F xs)
  | .tuple xs => .list (jsonElems F xs)
  | .dict items =>
    .dict (dictOfPairs ((sortItems F (jsonItems F items)).map fun kv => (.str kv.1.text, kv.2)))
  | v => v

/-- `PyVal.jsonValue` of every element. -/
def jsonElems (F : FloatOps) : List PyVal → List PyVal
  | [] => []
  | x :: xs => PyVal.jsonValue F x :: jsonElems F xs

/-- `PyVal.jsonValue` of every item. -/
def jsonItems (F : FloatOps) : List (PyKey × PyVal) → List (PyKey × PyVal)
  | [] => []
  | (k, v) :: items => (k, PyVal.jsonValue F v) :: jsonItems F items

end

mutual

/-- Every dictionary, at any depth, sorted by its keys. -/
def PyVal.canon (F : FloatOps) : PyVal → PyVal
  | .list xs => .list (canonElems F xs)
  | .tuple xs => .tuple (canonElems F xs)
  | .dict items => .dict (sortItems F (canonItems F items))
  | v => v

/-- `PyVal.canon` of every element. -/
def canonElems (F : FloatOps) : List PyVal → List PyVal
  | [] => []
  | x :: xs => PyVal.canon F x :: canonElems F xs

/-- `PyVal.canon` of every item. -/
def canonItems (F : FloatOps) : List (PyKey × PyVal) → List (PyKey × PyVal)
  | [] => []
  | (k, v) :: items => (k, PyVal.canon F v) :: canonItems F items

end

theorem printElems_eq_map (F : FloatOps) (st : DumpStyle) (lvl : ℕ) (xs : List PyVal) :
    printElems F st lvl xs = xs.map (printVal F st lvl) := by
  induction xs with
  | nil => simp only [printElems, List.map_nil]
  | cons x xs ih => simp only [printElems, List.map_cons, ih]

theorem jsonElems_eq_map (F : FloatOps) (xs : List PyVal) :
    jsonElems F xs = xs.map (PyVal.jsonValue F) := by
  induction xs with
  | nil => simp only [jsonElems, List.map_nil]
  | cons x xs ih => simp only [jsonElems, List.map_cons, ih]

theorem jsonItems_eq_map (F : FloatOps) (items : List (PyKey × PyVal)) :
    jsonItems F items = items.map fun kv => (kv.1, kv.2.jsonValue F) := by
  induction items with
  | nil => simp only [jsonItems, List.map_nil]
  | cons kv items ih => simp only [jsonItems, List.map_cons, ih]

theorem canonItems_eq_map (F : FloatOps) (items : List (PyKey × PyVal)) :
    canonItems F items = items.map fun kv => (kv.1, kv.2.canon F) := by
  induction items with
  | nil => simp only [canonItems, List.map_nil]
  | cons kv items ih => simp only [canonItems, List.map_cons, ih]

/-- The text of one item of a dictionary. -/
def memberText (F : FloatOps) (st : DumpStyle) (lvl : ℕ) (kv : PyKey × PyVal) : PyStr :=
  printStr st.ensureAscii kv.1.text ++ st.keySep ++ printVal F st lvl kv.2

theorem printItems_eq_map (F : FloatOps) (st : DumpStyle) (lvl : ℕ)
    (items : List (PyKey × PyVal)) :
    printItems F st lvl items = items.map fun kv => (kv.1, memberText F st lvl kv) := by
  induction items with
  | nil => simp only [printItems, List.map_nil]
  | cons kv items ih => simp only [printItems, List.map_cons, ih, memberText]

theorem elemsSerializable_iff {xs : List PyVal} :
    elemsSerializable xs = true ↔ ∀ x ∈ xs, x.serializable = true := by
  induction xs with
  | nil => simp [elemsSerializable]
  | cons x xs ih => simp [elemsSerializable, ih]

theorem itemsJson_iff {items : List (PyKey × PyVal)} :
    ItemsJson items ↔ ∀ kv ∈ items, kv.1.isStr = true ∧ kv.2.IsJson := by
  induction items with
  | nil => simp [ItemsJson]
  | cons kv items ih => simp [ItemsJson, ih, and_assoc]

/-- Sorting looks at the keys only. -/
theorem sortItems_map {α β : Type*} (F : FloatOps) (g : PyKey × α → β)
    (items : List (PyKey × α)) :
    sortItems F (items.map fun kv => (kv.1, g kv))
      = (sortItems F items).map fun kv => (kv.1, g kv) := by
  have hkeys : (items.map fun kv => (kv.1, g kv)).map Prod.fst = items.map Prod.fst := by
    rw [List.map_map]
    rfl
  have hnan : (items.map fun kv => (kv.1, g kv)).any (fun kv => kv.1.isNan)
      = items.any fun kv => kv.1.isNan := by
    rw [List.any_map]
    rfl
  unfold sortItems
  rw [hkeys, hnan, apply_ite (List.map fun kv => (kv.1, g kv))]
  congr 1
  · rw [List.map_filterMap]
    simp only [List.getElem?_map]
  · exact (List.map_insertionSort (fun a b : PyKey × α => PyKey.le F a.1 b.1)
      (fun a b : PyKey × β => PyKey.le F a.1 b.1) (fun kv => (kv.1, g kv)) items
      fun _ _ _ _ => Iff.rfl).symm

theorem filterMap_range_getElem? {α : Type*} (xs : List α) :
    ((List.range xs.length).filterMap fun i => xs[i]?) = xs := by
  induction xs with
  | nil => rfl
  | cons x xs ih =>
    rw [List.length_cons, List.range_succ_eq_map, List.filterMap_cons, List.filterMap_map]
    exact congrArg (x :: ·) ih

theorem sortItems_perm {α : Type*} (F : FloatOps) (items : List (PyKey × α)) :
    (sortItems F items).Perm items := by
  unfold sortItems
  split
  · have hperm := (F.nanOrder_perm (items.map Prod.fst)).filterMap fun i => items[i]?
    rwa [List.length_map, filterMap_range_getElem?] at hperm
  · exact List.perm_insertionSort _ items

theorem PyKey.isNan_of_isStr {k : PyKey} (h : k.isStr = true) : k.isNan = false := by
  cases k with
  | str s => rfl
  | _ => cases h

/-- String keys are sorted. -/
theorem sortItems_of_isStr {α : Type*} (F : FloatOps) {items : List (PyKey × α)}
    (h : ∀ kv ∈ items, kv.1.isStr = true) :
    sortItems F items = items.insertionSort fun a b => PyKey.le F a.1 b.1 := by
  have hnan : (items.any fun kv => kv.1.isNan) = false :=
    List.any_eq_false.mpr fun kv hkv => by simp [PyKey.isNan_of_isStr (h kv hkv)]
  rw [sortItems, hnan, if_neg Bool.false_ne_true]

end Python
