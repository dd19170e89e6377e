/-
AuditChain/JsonLoads.lean

`json.loads(s)`.

The scanner is a recursive descent over the text with an explicit bound on the
depth of calls.  Of two nested calls at least one consumes a character, so twice
the length of the text is never used up.  Every way to fail is a
`JSONDecodeError`, so the scanner returns an `Option`.

What this decoder accepts beyond the grammar is kept: `NaN`, `Infinity` and
`-Infinity`, lone surrogates in `\u` escapes, and repeated keys, of which the
last value wins.
-/
import AuditChain.PyValue

namespace Python

/-- JSON white space. -/
def isJsonSpace (c : CodePoint) : Bool := c.val == 32 || c.val == 9 || c.val == 10 || c.val == 13

/-- Skip white space. -/
def skipWs (s : PyStr) : PyStr := s.dropWhile isJsonSpace

/-! ### Strings -/

/-- Four hexadecimal digits. -/
def scanHex4 : PyStr → Option (ℕ × PyStr)
  | a :: b :: c :: d :: s => do
    let a ← hexVal a
    let b ← hexVal b
    let c ← hexVal c
    let d ← hexVal d
    return (4096 * a + 256 * b + 16 * c + d, s)
  | _ => none

/-- What follows `\u` and its first four digits, which denote `n`: a high
surrogate takes the low surrogate of a second escape with it. -/
def joinSurrogates (n : ℕ) (s : PyStr) : CodePoint × PyStr :=
  match s with
  | b :: u :: t =>
    if 0xd800 ≤ n ∧ n < 0xdc00 ∧ b = 92 ∧ u = ch 'u' then
      match scanHex4 t with
      | some (m, t') =>
        if 0xdc00 ≤ m ∧ m < 0xe000 then
          (Fin.ofNat _ (0x10000 + (n - 0xd800) * 0x400 + (m - 0xdc00)), t')
        else (Fin.ofNat _ n, s)
      | none => (Fin.ofNat _ n, s)
    else (Fin.ofNat _ n, s)
  | _ => (Fin.ofNat _ n, s)

/-- The character that `\` and `c` stand for, other than `\u`. -/
def unescape (c : CodePoint) : Option CodePoint :=
  if c = 34 ∨ c = 92 ∨ c = ch '/' then some c
  else if c = ch 'n' then some 10
  else if c = ch 'r' then some 13
  else if c = ch 't' then some 9
  else if c = ch 'f' then some 12
  else if c = ch 'b' then some 8
  else none

/-- The first character of a string's body, or of what is left of it, and the rest.
Not for the closing quote. -/
def scanChar : PyStr → Option (CodePoint × PyStr)
  | c :: s =>
    if c = 92 then
      match s with
      | e :: t =>
        if e = ch 'u' then (scanHex4 t).map fun r => joinSurrogates r.1 r.2
        else (unescape e).map fun x => (x, t)
      | [] => none
    else if c.val < 32 then none
    else some (c, s)
  | [] => none

/-- The body of a string, up to and with the closing quote. -/
def scanString : ℕ → PyStr → Option (PyStr × PyStr)
  | 0, _ => none
  | _ + 1, [] => none
  | n + 1, q :: s =>
    if q = 34 then some ([], s)
    else do
      let (c, t) ← scanChar (q :: s)
      let (cs, t) ← scanString n t
      return (c :: cs, t)

/-! ### Values -/

/-- Drop a literal from the front of a text. -/
def dropLit (p : PyStr) (s : PyStr) : Option PyStr :=
  if p.isPrefixOf s then some (s.drop p.length) else none

/-- The `int` that a matched number text denotes. -/
def intOfText (t : PyStr) : ℤ :=
  let sign := scanSign t
  if sign.1 = [] then (natOfDigits sign.2 : ℤ) else -(natOfDigits sign.2 : ℤ)

/-- A number or a named constant.  No text starts with both. -/
def scanAtom (F : FloatOps) (s : PyStr) : Option (PyVal × PyStr) :=
  match matchNumber s with
  | some m => some (if m.2.1 then .float (F.parse m.1) else .int (intOfText m.1), m.2.2)
  | none =>
    (dropLit (lit "null") s).map (fun t => (.null, t))
    <|> (dropLit (lit "true") s).map (fun t => (.bool true, t))
    <|> (dropLit (lit "false") s).map (fun t => (.bool false, t))
    <|> (dropLit (lit "NaN") s).map (fun t => (.float .nan, t))
    <|> (dropLit (lit "Infinity") s).map (fun t => (.float (.inf false), t))
    <|> (dropLit (lit "-Infinity") s).map (fun t => (.float (.inf true), t))

mutual

/-- A value. -/
def scanValue (F : FloatOps) : ℕ → PyStr → Option (PyVal × PyStr)
  | 0, _ => none
  | _ + 1, [] => none
  | n + 1, c :: s =>
    if c = 34 then (scanString n s).map fun r => (.str r.1, r.2)
    else if c = ch '\x7b' then
      match skipWs s with
      | [] => none
      | d :: t =>
        if d = ch '\x7d' then some (.dict [], t)
        else (scanPairs F n (d :: t)).map fun r => (.dict (dictOfPairs r.1), r.2)
    else if c = ch '[' then
      match skipWs s with
      | [] => none
      | d :: t =>
        if d = ch ']' then some (.list [], t)
        else (scanElems F n (d :: t)).map fun r => (.list r.1, r.2)
    else scanAtom F (c :: s)

/-- The elements of a list that is not empty, up to and with the bracket. -/
def scanElems (F : FloatOps) : ℕ → PyStr → Option (List PyVal × PyStr)
  | 0, _ => none
  | n + 1, s => do
    let (v, s) ← scanValue F n s
    match skipWs s with
    | [] => none
    | c :: s =>
      if c = ch ']' then return ([v], s)
      else if c = ch ',' then
        let (vs, s) ← scanElems F n (skipWs s)
        return (v :: vs, s)
      else none

/-- The pairs of an object that is not empty, up to and with the brace. -/
def scanPairs (F : FloatOps) : ℕ → PyStr → Option (List (PyKey × PyVal) × PyStr)
  | 0, _ => none
  | _ + 1, [] => none
  | n + 1, q :: s =>
    if q = 34 then do
      let (k, s) ← scanString n s
      match skipWs s with
      | [] => none
      | c :: s =>
        if c = ch ':' then
          let (v, s) ← scanValue F n (skipWs s)
          match skipWs s with
          | [] => none
          | c :: s =>
            if c = ch '\x7d' then return ([(.str k, v)], s)
            else if c = ch ',' then
              let (kvs, s) ← scanPairs F n (skipWs s)
              return ((.str k, v) :: kvs, s)
            else none
        else none
    else none

end

/-- A whole text. -/
def loads? (F : FloatOps) (s : PyStr) : Option PyVal := do
  let t := skipWs s
  let (v, rest) ← scanValue F (2 * t.length + 2) t
  if skipWs rest = [] then return v else none

/-- `json.loads(s)`. -/
def loads (F : FloatOps) (s : PyStr) : Except PyError PyVal :=
  match loads? F s with
  | some v => .ok v
  | none => .error ⟨.jsonDecodeError, lit "malformed JSON"⟩

end Python
