/-
AuditChain/ProofFiles.lean

Inclusion proofs as files.

A proof is written as a JSON object and read back field by field.  The reader
looks at the type of every field, so of a file that somebody else made it either
makes a proof or complains.

    load_save    a saved proof is loaded as it was, if its texts have bytes
-/
import AuditChain.Inclusion
import AuditChain.JsonLoads
import AuditChain.Utf8

namespace AuditChain

open Python

/-! ### Writing -/

/-- `ProofStep.to_json`. -/
def ProofStep.toJson (step : ProofStep) : PyVal :=
  .dict [(.str (lit "side"), .str step.side), (.str (lit "hash"), .str step.hash)]

/-- `InclusionProof.to_json`. -/
def InclusionProof.toJson (p : InclusionProof) : PyDict :=
  [(.str (lit "version"), .int 1),
   (.str (lit "seq"), .int p.seq),
   (.str (lit "size"), .int p.size),
   (.str (lit "leaf"), .str p.leaf),
   (.str (lit "root"), .str p.root),
   (.str (lit "path"), .list (p.path.map ProofStep.toJson))]

/-- The style of `json.dumps` by default, with this `indent`. -/
def defaultStyle (indent : Option ℕ) : DumpStyle :=
  ⟨true, indent, if indent.isNone then 1 else 0, 1⟩

variable (P : Runtime)

/-- `InclusionProof.dumps`. -/
def InclusionProof.dumps (p : InclusionProof) (indent : Option ℕ) : Except PyError PyStr :=
  Python.dumps P.floats (defaultStyle indent) (.dict p.toJson)

/-- `InclusionProof.save`: the text of the file. -/
def InclusionProof.save (p : InclusionProof) : Except PyError PyStr := do
  let text ← p.dumps P (some 2)
  return text ++ lit "\n"

/-! ### Reading -/

/-- `malformed inclusion proof: ...`. -/
def malformed (what : PyStr) : PyError := valueError (lit "malformed inclusion proof: " ++ what)

/-- `_as_int`. -/
def asInt (value : PyVal) (fieldName : PyStr) : Except PyError ℤ :=
  match value with
  | .int i => .ok i
  | _ => .error (malformed (fieldName ++ lit " must be an integer"))

/-- `_as_str`. -/
def asStr (value : PyVal) (fieldName : PyStr) : Except PyError PyStr :=
  match value with
  | .str s => .ok s
  | _ => .error (malformed (fieldName ++ lit " must be a string"))

/-- `value[key]`, for a string key. -/
def subscript (value : PyVal) (key : PyStr) : Except PyError PyVal :=
  match value with
  | .dict items =>
    match PyDict.get? items key with
    | some v => .ok v
    | none => .error ⟨.keyError, strRepr P.unicode key⟩
  | .list _ => .error (typeError (lit "list indices must be integers or slices, not str"))
  | .tuple _ => .error (typeError (lit "tuple indices must be integers or slices, not str"))
  | .str _ => .error (typeError (lit "string indices must be integers, not 'str'"))
  | .null => .error (typeError (lit "'NoneType' object is not subscriptable"))
  | .bool _ => .error (typeError (lit "'bool' object is not subscriptable"))
  | .int _ => .error (typeError (lit "'int' object is not subscriptable"))
  | .float _ => .error (typeError (lit "'float' object is not subscriptable"))
  | .object => .error (typeError (lit "'object' object is not subscriptable"))

/-- One step of the path. -/
def ProofStep.fromJson (value : PyVal) : Except PyError ProofStep := do
  let side ← asStr (← subscript P value (lit "side")) (lit "side")
  let hash ← asStr (← subscript P value (lit "hash")) (lit "hash")
  return ⟨side, hash⟩

/-- The `try` block of `from_json`. -/
def InclusionProof.fromFields (payload : PyVal) (rawPath : List PyVal) :
    Except PyError InclusionProof := do
  let path ← rawPath.mapM (ProofStep.fromJson P)
  let seq ← asInt (← subscript P payload (lit "seq")) (lit "seq")
  let size ← asInt (← subscript P payload (lit "size")) (lit "size")
  let leaf ← asStr (← subscript P payload (lit "leaf")) (lit "leaf")
  let root ← asStr (← subscript P payload (lit "root")) (lit "root")
  return { seq := seq, size := size, leaf := leaf, root := root, path := path }

/-- `except (KeyError, TypeError) as exc: raise ValueError(...) from exc`. -/
def malformedField (e : PyError) : PyError :=
  if e.cls = .keyError ∨ e.cls = .typeError then malformed e.msg else e

/-- `InclusionProof.from_json`. -/
def InclusionProof.fromJson (payload : PyVal) : Except PyError InclusionProof :=
  match payload with
  | .dict items =>
    match (PyDict.get? items (lit "path")).getD (.list []) with
    | .list rawPath => (InclusionProof.fromFields P payload rawPath).mapError malformedField
    | _ => .error (malformed (lit "path must be a list"))
  | _ => .error ⟨.attributeError, lit "object has no attribute 'get'"⟩

/-- `InclusionProof.load`. -/
def InclusionProof.load (text : PyStr) : Except PyError InclusionProof := do
  let payload ← loads P.floats text
  InclusionProof.fromJson P payload

variable {P}

/-! ### There and back -/

/-- The texts of a proof. -/
def InclusionProof.texts (p : InclusionProof) : List PyStr :=
  p.leaf :: p.root :: p.path.flatMap fun step => [step.side, step.hash]

theorem ProofStep.jsonValue_toJson (step : ProofStep) (F : FloatOps) :
    ∃ items, step.toJson.jsonValue F = .dict items ∧
      PyDict.get? items (lit "side") = some (.str step.side) ∧
        PyDict.get? items (lit "hash") = some (.str step.hash) := by
  have hkeys : [PyKey.str (lit "side"), PyKey.str (lit "hash")].Nodup := by decide
  have hstr : ∀ kv ∈ ([(.str (lit "side"), .str step.side), (.str (lit "hash"), .str step.hash)] :
      PyDict), kv.1.isStr = true := by simp [PyKey.isStr]
  obtain ⟨items, hitems, hget⟩ := get?_jsonValue F hstr hkeys
  refine ⟨items, hitems, ?_, ?_⟩
  · rw [hget]
    rfl
  · rw [hget]
    rfl

/-- A step that was written is read as it was. -/
theorem ProofStep.fromJson_toJson (step : ProofStep) :
    ProofStep.fromJson P (step.toJson.jsonValue P.floats) = .ok step := by
  obtain ⟨items, hitems, hside, hhash⟩ := step.jsonValue_toJson P.floats
  rw [hitems]
  simp only [ProofStep.fromJson, subscript, hside, hhash, ok_bind, asStr, pure_eq_ok]

theorem mapM_fromJson (steps : List ProofStep) :
    ((steps.map ProofStep.toJson).map (PyVal.jsonValue P.floats)).mapM (ProofStep.fromJson P)
      = .ok steps := by
  induction steps with
  | nil => rfl
  | cons step steps ih =>
    rw [List.map_cons, List.map_cons, List.mapM_cons, step.fromJson_toJson, ih]
    rfl

theorem InclusionProof.serializable_toJson (p : InclusionProof) :
    (PyVal.dict p.toJson).serializable = true := by
  have hsteps : ∀ steps : List ProofStep,
      elemsSerializable (steps.map ProofStep.toJson) = true := by
    intro steps
    induction steps with
    | nil => rfl
    | cons step steps ih =>
      rw [List.map_cons, elemsSerializable, ih, Bool.and_true]
      rfl
  simp only [PyVal.serializable, InclusionProof.toJson, itemsSerializable, hsteps, Bool.and_true,
    List.map_cons, List.map_nil]
  rfl

theorem InclusionProof.allLeaves_toJson {p : InclusionProof} {q : FloatText → Prop}
    (h : ∀ s ∈ p.texts, StrKept true s) : (PyVal.dict p.toJson).AllLeaves (StrKept true) q := by
  have hsteps : ∀ steps : List ProofStep,
      (∀ s ∈ steps.flatMap fun step => [step.side, step.hash], StrKept true s) →
        ElemsAllLeaves (StrKept true) q (steps.map ProofStep.toJson) := by
    intro steps hall
    induction steps with
    | nil => trivial
    | cons step steps ih =>
      simp only [List.flatMap_cons, List.cons_append, List.nil_append, List.forall_mem_cons] at hall
      obtain ⟨hside, hhash, hrest⟩ := hall
      refine ⟨?_, ih hrest⟩
      simp (disch := decide) only [ProofStep.toJson, PyVal.AllLeaves, ItemsAllLeaves, PyKey.text,
        strKept_of_all, hside, hhash, and_self]
  simp only [InclusionProof.texts, List.forall_mem_cons] at h
  obtain ⟨hleaf, hroot, hpath⟩ := h
  simp (disch := decide) only [InclusionProof.toJson, PyVal.AllLeaves, ItemsAllLeaves, PyKey.text,
    strKept_of_all, hleaf, hroot, hsteps _ hpath, and_self]

theorem InclusionProof.get?_toJson (p : InclusionProof) (F : FloatOps) :
    ∃ items, (PyVal.dict p.toJson).jsonValue F = .dict items ∧
      ∀ key, PyDict.get? items key = (PyDict.get? p.toJson key).map (PyVal.jsonValue F) := by
  have hkeys : (p.toJson.map Prod.fst).Nodup := by
    show [PyKey.str (lit "version"), .str (lit "seq"), .str (lit "size"), .str (lit "leaf"),
      .str (lit "root"), .str (lit "path")].Nodup
    decide
  exact get?_jsonValue F (by simp [InclusionProof.toJson, PyKey.isStr]) hkeys

/-- The texts of a proof that was built are hexadecimal, or name a side. -/
theorem texts_merkleProof {hs : List PyStr} (hne : hs ≠ []) (hhex : ∀ x ∈ hs, ∃ b, x = hexStr b)
    {i : ℕ} (hi : i < hs.length) {p : InclusionProof} (hp : merkleProof P hs i = .ok p) :
    ∀ s ∈ p.texts, StrOk true s := by
  obtain ⟨bs, h⟩ := exists_decodes fun x hx => by
    obtain ⟨b, rfl⟩ := hhex x hx
    rw [fromHex?_hexStr]
    rfl
  obtain ⟨ds, -, hproof⟩ := merkleProof_eq (P := P) h (h.ne_nil hne) hi
    (by rw [h.length_eq]; exact hi)
  obtain rfl := Except.ok.inj (hproof.symm.trans hp)
  simp only [InclusionProof.texts, List.forall_mem_cons]
  refine ⟨?_, strOk_hexStr _, ?_⟩
  · obtain ⟨b, hb⟩ := hhex _ (List.getElem_mem hi)
    rw [hb]
    exact strOk_hexStr b
  · intro s hs
    obtain ⟨step, hstep, hs⟩ := List.mem_flatMap.mp hs
    rw [List.mem_reverse, ← List.map_uncurry_zip_eq_zipWith] at hstep
    obtain ⟨⟨side, d⟩, -, rfl⟩ := List.mem_map.mp hstep
    simp only [Function.uncurry, siblingStep, List.mem_cons, List.not_mem_nil, or_false] at hs
    rcases hs with rfl | rfl
    · cases side <;> exact strOk_of_all (by decide)
    · exact strOk_hexStr d.val

/-- **What was dumped is read as it was**, white space behind it or not, if no text holds a
pair of surrogates. -/
theorem InclusionProof.fromJson_dumps {p : InclusionProof} (h : ∀ s ∈ p.texts, StrKept true s)
    (indent : Option ℕ) {rest : PyStr} (hrest : AllSpace rest) :
    ∃ text, p.dumps P indent = .ok text ∧ InclusionProof.load P (text ++ rest) = .ok p := by
  obtain ⟨items, hitems, hget⟩ := p.get?_toJson P.floats
  have hloads := loads_printVal (F := P.floats) (G := P.floats) (defaultStyle indent)
    p.serializable_toJson (p.allLeaves_toJson h) hrest
  have hseq : subscript P (.dict items) (lit "seq") = .ok (.int p.seq) := by
    simp only [subscript, hget]
    rfl
  have hsize : subscript P (.dict items) (lit "size") = .ok (.int p.size) := by
    simp only [subscript, hget]
    rfl
  have hleaf : subscript P (.dict items) (lit "leaf") = .ok (.str p.leaf) := by
    simp only [subscript, hget]
    rfl
  have hroot : subscript P (.dict items) (lit "root") = .ok (.str p.root) := by
    simp only [subscript, hget]
    rfl
  have hpath : PyDict.get? items (lit "path")
      = some (.list ((p.path.map ProofStep.toJson).map (PyVal.jsonValue P.floats))) := by
    rw [hget]
    show some (PyVal.list (jsonElems P.floats _)) = _
    rw [jsonElems_eq_map]
  have hfields : InclusionProof.fromFields P (.dict items)
      ((p.path.map ProofStep.toJson).map (PyVal.jsonValue P.floats)) = .ok p := by
    simp only [InclusionProof.fromFields, mapM_fromJson, hseq, hsize, hleaf, hroot, ok_bind, asInt,
      asStr, pure_eq_ok]
  refine ⟨printVal P.floats (defaultStyle indent) 0 (.dict p.toJson), ?_, ?_⟩
  · simp only [InclusionProof.dumps, Python.dumps, if_pos p.serializable_toJson]
  · rw [InclusionProof.load, hloads, hitems, ok_bind]
    simp only [InclusionProof.fromJson, hpath, Option.getD_some, hfields]
    rfl

/-- **A saved proof is loaded as it was**, if its texts hold no surrogates. -/
theorem InclusionProof.load_save {p : InclusionProof} (h : ∀ s ∈ p.texts, StrOk true s) :
    ∃ text, p.save P = .ok text ∧ InclusionProof.load P text = .ok p := by
  have hspace : AllSpace (lit "\n") := by
    simp [AllSpace, lit]
    decide
  obtain ⟨text, hdumps, hload⟩ :=
    p.fromJson_dumps (P := P) (fun s hs => (h s hs).kept) (some 2) hspace
  refine ⟨text ++ lit "\n", ?_, hload⟩
  rw [InclusionProof.save, hdumps]
  rfl

end AuditChain
