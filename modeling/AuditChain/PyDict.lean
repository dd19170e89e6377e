/-
AuditChain/PyDict.lean

What `bool(v)` and `dict(v)` make of a JSON value.

`dict(v)` takes more than dictionaries: a list of pairs, where a pair is a list
of two values, a string of two characters or a dictionary with two keys.  Keys
are compared as Python does, so `True`, `1` and `1.0` are one key.
-/
import AuditChain.JsonDumps

namespace Python

variable (F : FloatOps)

/-- `bool(v)`. -/
def PyVal.truthy : PyVal → Bool
  | .null => false
  | .bool b => b
  | .int i => i ≠ 0
  | .float (.fin t) => F.value t ≠ 0
  | .float _ => true
  | .str s => !s.isEmpty
  | .list xs => !xs.isEmpty
  | .tuple xs => !xs.isEmpty
  | .dict items => !items.isEmpty
  | .object => true

/-- The key that a JSON value makes; lists and dictionaries are not hashable. -/
def PyVal.jsonKey? : PyVal → Option PyKey
  | .null => some .null
  | .bool b => some (.bool b)
  | .int i => some (.int i)
  | .float f => some (.float f)
  | .str s => some (.str s)
  | _ => none

/-- A key as a value. -/
def PyKey.toVal : PyKey → PyVal
  | .null => .null
  | .bool b => .bool b
  | .int i => .int i
  | .float f => .float f
  | .str s => .str s
  | .object => .object

/-- Are they one key? -/
def PyKey.same (a b : PyKey) : Bool :=
  a = b ||
    match a.position F, b.position F with
    | some x, some y => decide (x = y)
    | _, _ => false

/-- `d[k] = v`, where the key may be there in another form. -/
def PyDict.put (d : PyDict) (k : PyKey) (v : PyVal) : PyDict :=
  match d with
  | [] => [(k, v)]
  | (k', v') :: d => if PyKey.same F k' k then (k', v) :: d else (k', v') :: PyDict.put d k v

/-- The two parts of an element of `dict([...])`. -/
def pairOf : PyVal → Except PyError (PyVal × PyVal)
  | .list [a, b] => .ok (a, b)
  | .tuple [a, b] => .ok (a, b)
  | .str [a, b] => .ok (.str [a], .str [b])
  | .dict [(a, _), (b, _)] => .ok (a.toVal, b.toVal)
  | .list _ | .tuple _ | .str _ | .dict _ =>
    .error (valueError (lit "dictionary update sequence element has the wrong length"))
  | _ => .error (typeError (lit "cannot convert dictionary update sequence element to a sequence"))

/-- `dict([...])`, from the dictionary so far. -/
def dictOfSequence : PyDict → List PyVal → Except PyError PyDict
  | d, [] => .ok d
  | d, x :: xs => do
    let (a, b) ← pairOf x
    match a.jsonKey? with
    | some k => dictOfSequence (PyDict.put F d k b) xs
    | none => .error (typeError (lit "unhashable type"))

/-- `dict(v)`. -/
def dictOf : PyVal → Except PyError PyDict
  | .dict items => .ok items
  | .list xs => dictOfSequence F [] xs
  | .tuple xs => dictOfSequence F [] xs
  | .str s => dictOfSequence F [] (s.map fun c => .str [c])
  | _ => .error (typeError (lit "object is not iterable"))

end Python
