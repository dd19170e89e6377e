/-
AuditChain/PyValue.lean

Python values as the JSON codec sees them: None, booleans, integers, floats,
strings, lists, tuples, dictionaries, and everything else as one opaque case.

Floats are tokens.  A finite float is the text that `repr` prints for it, which
determines it; what arithmetic would do with it is not modelled.  The two
places where a float's value matters (ordering dictionary keys, `int(x)`) go
through `FloatOps`, the interpreter's conversions, and the Unicode tables that
`int(s)` and `repr(s)` consult are in `UnicodeData`.  Both are parameters.

Dictionaries are association lists in insertion order.  Their keys are
distinct in Python; `PyVal.IsJson` says so where a proof needs it.
-/
import AuditChain.PyText
import Mathlib.Order.WithBot
import Mathlib.Data.Rat.Defs
import Mathlib.Algebra.Order.Ring.Unbundled.Rat

namespace Python

/-! ### The number grammar -/

/-- An optional minus sign. -/
def scanSign : PyStr → PyStr × PyStr
  | c :: s => if c = ch '-' then ([c], s) else ([], c :: s)
  | [] => ([], [])

/-- `0|[1-9][0-9]*`. -/
def scanInt : PyStr → Option (PyStr × PyStr)
  | c :: s =>
    if c = digit 0 then some ([c], s)
    else if isDigit c then some (c :: s.takeWhile isDigit, s.dropWhile isDigit)
    else none
  | [] => none

/-- `(\.[0-9]+)?`. -/
def scanFrac : PyStr → PyStr × PyStr
  | c :: d :: s =>
    if c = ch '.' ∧ isDigit d then (c :: d :: s.takeWhile isDigit, s.dropWhile isDigit)
    else ([], c :: d :: s)
  | s => ([], s)

/-- `[0-9]+`, after an exponent mark and its sign. -/
def scanExpDigits (pre : PyStr) : PyStr → Option (PyStr × PyStr)
  | d :: s =>
    if isDigit d then some (pre ++ d :: s.takeWhile isDigit, s.dropWhile isDigit) else none
  | [] => none

/-- `([eE][-+]?[0-9]+)?`. -/
def scanExp : PyStr → PyStr × PyStr
  | c :: d :: s =>
    if c = ch 'e' ∨ c = ch 'E' then
      if d = ch '+' ∨ d = ch '-' then (scanExpDigits [c, d] s).getD ([], c :: d :: s)
      else (scanExpDigits [c] (d :: s)).getD ([], c :: d :: s)
    else ([], c :: d :: s)
  | s => ([], s)

/-- Match a JSON number at the start of a text: what matched, whether it is a
float (it has a fraction or an exponent), and what is left. -/
def matchNumber (s : PyStr) : Option (PyStr × Bool × PyStr) := do
  let sign := scanSign s
  let int ← scanInt sign.2
  let frac := scanFrac int.2
  let exp := scanExp frac.2
  return (sign.1 ++ int.1 ++ frac.1 ++ exp.1, !(frac.1 ++ exp.1).isEmpty, exp.2)

/-! ### Floats -/

/-- The text of a finite float: a whole number token with a fraction or an exponent. -/
abbrev FloatText := { t : PyStr // matchNumber t = some (t, true, []) }

/-- A Python `float`. -/
inductive PyFloat
  | nan
  | inf (neg : Bool)
  | fin (text : FloatText)
  deriving DecidableEq

/-- `repr(f)`. -/
def PyFloat.repr : PyFloat → PyStr
  | .nan => lit "nan"
  | .inf neg => if neg then lit "-inf" else lit "inf"
  | .fin t => t.val

/-- `json.dumps(f)`. -/
def PyFloat.jsonText : PyFloat → PyStr
  | .nan => lit "NaN"
  | .inf neg => if neg then lit "-Infinity" else lit "Infinity"
  | .fin t => t.val

/-! ### Values -/

/-- A dictionary key. -/
inductive PyKey
  | null
  | bool (b : Bool)
  | int (i : ℤ)
  | float (f : PyFloat)
  | str (s : PyStr)
  /-- Any other hashable object, a tuple for one. -/
  | object
  deriving DecidableEq

/-- A value. -/
inductive PyVal
  | null
  | bool (b : Bool)
  | int (i : ℤ)
  | float (f : PyFloat)
  | str (s : PyStr)
  | list (xs : List PyVal)
  | tuple (xs : List PyVal)
  | dict (items : List (PyKey × PyVal))
  /-- Any other object. -/
  | object

/-- What the interpreter makes of floats. -/
structure FloatOps where
  /-- `float(text)` for a JSON number with a fraction or an exponent. -/
  parse : PyStr → PyFloat
  /-- The exact value of a finite float. -/
  value : FloatText → ℚ
  /-- The order in which `sorted` leaves keys of which one is NaN, by their places.  No
  comparison with NaN holds, so it depends on which keys are compared. -/
  nanOrder : List PyKey → List ℕ
  nanOrder_perm : ∀ keys, (nanOrder keys).Perm (List.range keys.length)

/-- The text is read as the float that is written so. -/
def FloatOps.Keeps (F : FloatOps) (t : FloatText) : Prop := F.parse t.val = .fin t

/-- The items of a dictionary. -/
abbrev PyDict := List (PyKey × PyVal)

/-- `d.get(k)` for a string key. -/
def PyDict.get? (d : PyDict) (k : PyStr) : Option PyVal := d.lookup (.str k)

/-- `d[k] = v`: an existing key keeps its place. -/
def PyDict.set (d : PyDict) (k : PyKey) (v : PyVal) : PyDict :=
  match d with
  | [] => [(k, v)]
  | (k', v') :: d => if k' = k then (k, v) :: d else (k', v') :: PyDict.set d k v

/-- The dictionary of a list of pairs: a repeated key overwrites. -/
def dictOfPairs (pairs : List (PyKey × PyVal)) : PyDict :=
  pairs.foldl (fun d kv => PyDict.set d kv.1 kv.2) []

/-! ### Unicode tables, `repr` and `str` -/

/-- The interpreter's Unicode tables. -/
structure UnicodeData where
  isSpace : CodePoint → Bool
  /-- The value of a decimal digit, in any script. -/
  decimal : CodePoint → Option ℕ
  isPrintable : CodePoint → Bool

/-- `s.strip()`. -/
def strip (U : UnicodeData) (s : PyStr) : PyStr :=
  ((s.dropWhile U.isSpace).reverse.dropWhile U.isSpace).reverse

/-- `n` as exactly `width` hexadecimal digits. -/
def hexFixed : ℕ → ℕ → PyStr
  | 0, _ => []
  | width + 1, n => hexFixed width (n / 16) ++ [hexDigit (n % 16)]

/-- One character inside `repr(s)`, where `q` is the quote in use. -/
def reprChar (U : UnicodeData) (q c : CodePoint) : PyStr :=
  if c = q ∨ c = 92 then [92, c]
  else if c = 10 then lit "\\n"
  else if c = 13 then lit "\\r"
  else if c = 9 then lit "\\t"
  else if c.val < 32 ∨ c.val = 127 then lit "\\x" ++ hexFixed 2 c.val
  else if c.val < 127 ∨ U.isPrintable c then [c]
  else if c.val < 0x100 then lit "\\x" ++ hexFixed 2 c.val
  else if c.val < 0x10000 then lit "\\u" ++ hexFixed 4 c.val
  else lit "\\U" ++ hexFixed 8 c.val

/-- `repr(s)`: single quotes, unless only double quotes avoid an escape. -/
def strRepr (U : UnicodeData) (s : PyStr) : PyStr :=
  let q : CodePoint := if 39 ∈ s ∧ 34 ∉ s then 34 else 39
  q :: s.flatMap (reprChar U q) ++ [q]

/-- `repr` of a boolean. -/
def boolRepr (b : Bool) : PyStr := if b then lit "True" else lit "False"

/-- `repr` of a dictionary key. -/
def PyKey.repr (U : UnicodeData) : PyKey → PyStr
  | .null => lit "None"
  | .bool b => boolRepr b
  | .int i => intStr i
  | .float f => f.repr
  | .str s => strRepr U s
  | .object => lit "<object>"

mutual

/-- `repr(v)`. -/
def PyVal.repr (U : UnicodeData) : PyVal → PyStr
  | .null => lit "None"
  | .bool b => boolRepr b
  | .int i => intStr i
  | .float f => f.repr
  | .str s => strRepr U s
  | .list xs => lit "[" ++ (lit ", ").intercalate (reprElems U xs) ++ lit "]"
  | .tuple [x] => lit "(" ++ PyVal.repr U x ++ lit ",)"
  | .tuple xs => lit "(" ++ (lit ", ").intercalate (reprElems U xs) ++ lit ")"
  | .dict items => lit "\x7b" ++ (lit ", ").intercalate (reprItems U items) ++ lit "\x7d"
  | .object => lit "<object>"

/-- `repr` of each element. -/
def reprElems (U : UnicodeData) : List PyVal → List PyStr
  | [] => []
  | x :: xs => PyVal.repr U x :: reprElems U xs

/-- `repr` of each item. -/
def reprItems (U : UnicodeData) : List (PyKey × PyVal) → List PyStr
  | [] => []
  | (k, v) :: items => (k.repr U ++ lit ": " ++ PyVal.repr U v) :: reprItems U items

end

/-- `str(v)`. -/
def PyVal.toStr (U : UnicodeData) : PyVal → PyStr
  | .str s => s
  | v => v.repr U

@[simp] theorem PyVal.toStr_str (U : UnicodeData) (s : PyStr) : (PyVal.str s).toStr U = s := rfl

/-! ### `int` -/

/-- The digits of `int(s)` after the first, single underscores allowed between. -/
def readDigits (U : UnicodeData) (acc : ℕ) : PyStr → Option ℕ
  | [] => some acc
  | c :: s =>
    match U.decimal c with
    | some d => readDigits U (10 * acc + d) s
    | none =>
      match s with
      | d :: s' =>
        if c = ch '_' then (U.decimal d).bind fun d => readDigits U (10 * acc + d) s' else none
      | [] => none

/-- `int(s)` for a string without surrounding blanks and sign. -/
def readNat (U : UnicodeData) : PyStr → Option ℕ
  | c :: s => (U.decimal c).bind fun d => readDigits U d s
  | [] => none

/-- `int(s)` for a string. -/
def intOfStr (U : UnicodeData) (s : PyStr) : Option ℤ :=
  match strip U s with
  | c :: t =>
    if c = ch '-' then (readNat U t).map fun n => -(n : ℤ)
    else if c = ch '+' then (readNat U t).map Int.ofNat
    else (readNat U (c :: t)).map Int.ofNat
  | [] => none

/-- `int(v)`. -/
def PyVal.toInt (U : UnicodeData) (F : FloatOps) : PyVal → Except PyError ℤ
  | .int i => .ok i
  | .bool b => .ok (if b then 1 else 0)
  | .float .nan => .error (valueError (lit "cannot convert float NaN to integer"))
  | .float (.inf _) => .error ⟨.overflowError, lit "cannot convert float infinity to integer"⟩
  | .float (.fin t) => .ok ((F.value t).num.tdiv (F.value t).den)
  | .str s =>
    match intOfStr U s with
    | some i => .ok i
    | none => .error (valueError (lit "invalid literal for int() with base 10: " ++ strRepr U s))
  | _ => .error (typeError (lit "int() argument must be a string or a real number"))

@[simp] theorem PyVal.toInt_int (U : UnicodeData) (F : FloatOps) (i : ℤ) :
    (PyVal.int i).toInt U F = .ok i := rfl

end Python
