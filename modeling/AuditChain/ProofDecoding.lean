/-
AuditChain/ProofDecoding.lean

What `from_json` makes of any JSON value.

A proof is made exactly of an object in which every field is found, with its type
(`fromJson_eq_ok`), and on an object nothing but `ValueError` is raised.  A value
that is no object has no `get`, and the `AttributeError` of that is not caught.

On the other side, what `dumps` wrote is read back as it was, except that a pair of
surrogates in a text comes back as one character.

    decodes_iff    for which proof and which value the codec does all it should
-/
import AuditChain.ProofFiles

namespace AuditChain

open Python

variable {P : Runtime}

/-! ### Reading -/

/-- The step is what the value says. -/
def ProofStep.FoundIn (step : ProofStep) (v : PyVal) : Prop :=
  ∃ items, v = .dict items ∧ PyDict.get? items (lit "side") = some (.str step.side) ∧
    PyDict.get? items (lit "hash") = some (.str step.hash)

/-- Every field of the proof is found in the value, with its type; a path may be missing and
is empty then. -/
def InclusionProof.FoundIn (p : InclusionProof) (v : PyVal) : Prop :=
  ∃ items rawPath, v = .dict items ∧
    PyDict.get? items (lit "seq") = some (.int p.seq) ∧
    PyDict.get? items (lit "size") = some (.int p.size) ∧
    PyDict.get? items (lit "leaf") = some (.str p.leaf) ∧
    PyDict.get? items (lit "root") = some (.str p.root) ∧
    (PyDict.get? items (lit "path")).getD (.list []) = .list rawPath ∧
    List.Forall₂ ProofStep.FoundIn p.path rawPath

theorem asInt_eq_ok {v : PyVal} {fieldName : PyStr} {i : ℤ} :
    asInt v fieldName = .ok i ↔ v = .int i := by
  cases v <;> simp [asInt]

theorem asStr_eq_ok {v : PyVal} {fieldName s : PyStr} : asStr v fieldName = .ok s ↔ v = .str s := by
  cases v <;> simp [asStr]

theorem subscript_eq_ok {v w : PyVal} {key : PyStr} :
    subscript P v key = .ok w ↔ ∃ items, v = .dict items ∧ PyDict.get? items key = some w := by
  cases v with
  | dict items =>
    simp only [subscript, PyVal.dict.injEq, exists_eq_left']
    cases PyDict.get? items key with
    | none => simp
    | some w' => simp
  | _ => simp [subscript]

theorem ProofStep.fromJson_eq_ok {v : PyVal} {step : ProofStep} :
    ProofStep.fromJson P v = .ok step ↔ step.FoundIn v := by
  simp only [ProofStep.fromJson, bind_eq_ok, subscript_eq_ok, asStr_eq_ok, pure_eq_ok,
    Except.ok.injEq]
  constructor
  · rintro ⟨_, ⟨items, rfl, hside⟩, side, rfl, _, ⟨_, heq, hhash⟩, hash, rfl, rfl⟩
    obtain rfl := PyVal.dict.inj heq
    exact ⟨items, rfl, hside, hhash⟩
  · rintro ⟨items, rfl, hside, hhash⟩
    exact ⟨_, ⟨items, rfl, hside⟩, step.side, rfl, _, ⟨items, rfl, hhash⟩, step.hash, rfl, rfl⟩

theorem mapM_fromJson_eq_ok {rawPath : List PyVal} {path : List ProofStep} :
    rawPath.mapM (ProofStep.fromJson P) = .ok path ↔
      List.Forall₂ ProofStep.FoundIn path rawPath := by
  induction rawPath generalizing path with
  | nil =>
    rw [List.mapM_nil, List.forall₂_nil_right_iff, pure_eq_ok, Except.ok.injEq, eq_comm]
  | cons v rawPath ih =>
    rw [List.mapM_cons, List.forall₂_cons_right_iff]
    simp only [bind_eq_ok, ProofStep.fromJson_eq_ok, ih, pure_eq_ok, Except.ok.injEq]
    constructor
    · rintro ⟨step, hstep, steps, hsteps, rfl⟩
      exact ⟨step, steps, hstep, hsteps, rfl⟩
    · rintro ⟨step, steps, hstep, hsteps, rfl⟩
      exact ⟨step, hstep, steps, hsteps, rfl⟩

/-- Caught, or a `ValueError` to begin with. -/
def Malformed (e : PyError) : Prop := (malformedField e).cls = .valueError

theorem raises_subscript (v : PyVal) (key : PyStr) : RaisesOnly Malformed (subscript P v key) := by
  cases v with
  | dict items =>
    rw [subscript]
    split
    · exact raisesOnly_ok _
    · exact raisesOnly_error.mpr rfl
  | _ => exact raisesOnly_error.mpr rfl

theorem raises_asInt (v : PyVal) (fieldName : PyStr) :
    RaisesOnly Malformed (asInt v fieldName) := by
  cases v with
  | int i => exact raisesOnly_ok i
  | _ => exact raisesOnly_error.mpr rfl

theorem raises_asStr (v : PyVal) (fieldName : PyStr) :
    RaisesOnly Malformed (asStr v fieldName) := by
  cases v with
  | str s => exact raisesOnly_ok s
  | _ => exact raisesOnly_error.mpr rfl

theorem raises_step (v : PyVal) : RaisesOnly Malformed (ProofStep.fromJson P v) := by
  unfold ProofStep.fromJson
  apply (raises_subscript _ _).bind; intro side _
  apply (raises_asStr _ _).bind; intro sideText _
  apply (raises_subscript _ _).bind; intro hash _
  apply (raises_asStr _ _).bind; intro hashText _
  exact raisesOnly_ok _

/-- The fields fail with the exceptions that are caught, or with `ValueError`. -/
theorem raises_fromFields (v : PyVal) (rawPath : List PyVal) :
    RaisesOnly Malformed (InclusionProof.fromFields P v rawPath) := by
  unfold InclusionProof.fromFields
  apply (RaisesOnly.mapM raises_step).bind; intro path _
  apply (raises_subscript _ _).bind; intro seq _
  apply (raises_asInt _ _).bind; intro seqValue _
  apply (raises_subscript _ _).bind; intro size _
  apply (raises_asInt _ _).bind; intro sizeValue _
  apply (raises_subscript _ _).bind; intro leaf _
  apply (raises_asStr _ _).bind; intro leafText _
  apply (raises_subscript _ _).bind; intro root _
  apply (raises_asStr _ _).bind; intro rootText _
  exact raisesOnly_ok _

namespace InclusionProof

theorem fromFields_eq_ok {items : PyDict} {rawPath : List PyVal} {p : InclusionProof} :
    fromFields P (.dict items) rawPath = .ok p ↔
      PyDict.get? items (lit "seq") = some (.int p.seq) ∧
      PyDict.get? items (lit "size") = some (.int p.size) ∧
      PyDict.get? items (lit "leaf") = some (.str p.leaf) ∧
      PyDict.get? items (lit "root") = some (.str p.root) ∧
      List.Forall₂ ProofStep.FoundIn p.path rawPath := by
  simp only [fromFields, bind_eq_ok, mapM_fromJson_eq_ok, subscript_eq_ok, asInt_eq_ok,
    asStr_eq_ok, pure_eq_ok, Except.ok.injEq, PyVal.dict.injEq, exists_eq_left']
  constructor
  · rintro ⟨path, hpath, _, hseq, seq, rfl, _, hsize, size, rfl, _, hleaf, leaf, rfl, _, hroot,
      root, rfl, rfl⟩
    exact ⟨hseq, hsize, hleaf, hroot, hpath⟩
  · rintro ⟨hseq, hsize, hleaf, hroot, hpath⟩
    exact ⟨_, hpath, _, hseq, _, rfl, _, hsize, _, rfl, _, hleaf, _, rfl, _, hroot, _, rfl, rfl⟩

theorem foundIn_dict {items : PyDict} {p : InclusionProof} :
    p.FoundIn (.dict items) ↔ ∃ rawPath,
      (PyDict.get? items (lit "path")).getD (.list []) = .list rawPath ∧
        PyDict.get? items (lit "seq") = some (.int p.seq) ∧
        PyDict.get? items (lit "size") = some (.int p.size) ∧
        PyDict.get? items (lit "leaf") = some (.str p.leaf) ∧
        PyDict.get? items (lit "root") = some (.str p.root) ∧
        List.Forall₂ ProofStep.FoundIn p.path rawPath := by
  constructor
  · rintro ⟨items', rawPath, heq, hseq, hsize, hleaf, hroot, hraw, hpath⟩
    obtain rfl := PyVal.dict.inj heq
    exact ⟨rawPath, hraw, hseq, hsize, hleaf, hroot, hpath⟩
  · rintro ⟨rawPath, hraw, hseq, hsize, hleaf, hroot, hpath⟩
    exact ⟨items, rawPath, rfl, hseq, hsize, hleaf, hroot, hraw, hpath⟩

/-- **What becomes a proof**: the values in which every field is found. -/
theorem fromJson_eq_ok {v : PyVal} {p : InclusionProof} :
    InclusionProof.fromJson P v = .ok p ↔ p.FoundIn v := by
  cases v with
  | dict items =>
    rw [fromJson, foundIn_dict]
    cases (PyDict.get? items (lit "path")).getD (.list []) with
    | list rawPath =>
      have hmap : ∀ x : Except PyError InclusionProof,
          x.mapError malformedField = .ok p ↔ x = .ok p := by
        intro x
        cases x <;> simp [Except.mapError]
      rw [hmap, fromFields_eq_ok]
      simp only [PyVal.list.injEq, exists_eq_left']
    | _ => simp
  | _ => simp [fromJson, FoundIn]

/-- **On an object** nothing but `ValueError` is raised. -/
theorem fromJson_dict_error {items : PyDict} {e : PyError}
    (h : InclusionProof.fromJson P (.dict items) = .error e) : e.cls = .valueError := by
  rw [fromJson] at h
  split at h
  · rename_i rawPath _
    cases hfields : fromFields P (.dict items) rawPath with
    | ok p =>
      rw [hfields] at h
      cases h
    | error e' =>
      rw [hfields] at h
      rw [← Except.error.inj h]
      exact raises_fromFields _ _ e' hfields
  · rw [← Except.error.inj h]
    rfl

end InclusionProof

/-! ### Writing and reading -/

/-- The step with its texts as they are read back. -/
def ProofStep.joined (step : ProofStep) : ProofStep := ⟨joinPairs step.side, joinPairs step.hash⟩

namespace InclusionProof

/-- The proof with its texts as they are read back. -/
def joined (p : InclusionProof) : InclusionProof where
  seq := p.seq
  size := p.size
  leaf := joinPairs p.leaf
  root := joinPairs p.root
  path := p.path.map ProofStep.joined

theorem texts_joined (p : InclusionProof) : p.joined.texts = p.texts.map joinPairs := by
  simp only [texts, joined, List.map_cons, List.map_flatMap, List.flatMap_map, ProofStep.joined,
    List.map_nil]

/-- Both are written alike. -/
theorem dumps_joined (p : InclusionProof) (indent : Option ℕ) :
    p.joined.dumps P indent = p.dumps P indent := by
  have hsteps : ∀ (lvl : ℕ) (steps : List ProofStep),
      printElems P.floats (defaultStyle indent) lvl
          ((steps.map ProofStep.joined).map ProofStep.toJson)
        = printElems P.floats (defaultStyle indent) lvl (steps.map ProofStep.toJson) := by
    intro lvl steps
    simp only [printElems_eq_map, List.map_map]
    apply List.map_congr_left
    intro step _
    show printVal _ _ lvl step.joined.toJson = printVal _ _ lvl step.toJson
    simp only [ProofStep.toJson, ProofStep.joined, printVal, printItems, defaultStyle,
      printStr_joinPairs]
  have hprint : printVal P.floats (defaultStyle indent) 0 (.dict p.joined.toJson)
      = printVal P.floats (defaultStyle indent) 0 (.dict p.toJson) := by
    simp only [toJson, joined, printVal, printItems, hsteps]
    simp only [defaultStyle, printStr_joinPairs]
  rw [dumps, dumps, Python.dumps, Python.dumps, if_pos p.serializable_toJson,
    if_pos p.joined.serializable_toJson, hprint]

/-- **The round trip** gives the proof with the pairs of surrogates in its texts joined. -/
theorem fromJson_dumps_joined (p : InclusionProof) (indent : Option ℕ) :
    ∃ text, p.dumps P indent = .ok text ∧ InclusionProof.load P text = .ok p.joined := by
  have htexts : ∀ s ∈ p.joined.texts, StrKept true s := by
    rw [texts_joined]
    intro s hs _
    obtain ⟨t, -, rfl⟩ := List.mem_map.mp hs
    exact unpaired_joinPairs t
  obtain ⟨text, hdumps, hload⟩ := p.joined.fromJson_dumps (P := P) htexts indent allSpace_nil
  rw [List.append_nil] at hload
  exact ⟨text, (p.dumps_joined indent).symm.trans hdumps, hload⟩

/-- The proof comes back as it was exactly when no text of it holds such a pair. -/
theorem joined_eq_self_iff {p : InclusionProof} : p.joined = p ↔ ∀ s ∈ p.texts, Unpaired s := by
  constructor
  · intro h s hs
    rw [← h, texts_joined] at hs
    obtain ⟨t, -, rfl⟩ := List.mem_map.mp hs
    exact unpaired_joinPairs t
  · intro h
    have hleaf := joinPairs_eq_self (h p.leaf (by simp [texts]))
    have hroot := joinPairs_eq_self (h p.root (by simp [texts]))
    have hpath : p.path.map ProofStep.joined = p.path := by
      conv_rhs => rw [← List.map_id p.path]
      apply List.map_congr_left
      intro step hstep
      have hmem : ∀ s ∈ [step.side, step.hash], s ∈ p.texts := fun s hs =>
        List.mem_cons_of_mem _ (List.mem_cons_of_mem _ (List.mem_flatMap.mpr ⟨step, hstep, hs⟩))
      rw [ProofStep.joined, joinPairs_eq_self (h _ (hmem _ (by simp))),
        joinPairs_eq_self (h _ (hmem _ (by simp)))]
      rfl
    rw [joined, hleaf, hroot, hpath]

/-- **The codec of proof files** does all it should for a proof and a value exactly when no
text of the proof holds a pair of surrogates and the value is an object. -/
theorem decodes_iff (p : InclusionProof) (indent : Option ℕ) (v : PyVal) :
    ((∃ text, p.dumps P indent = .ok text ∧
        (do let w ← loads P.floats text; InclusionProof.fromJson P w) = .ok p) ∧
      (∀ e, InclusionProof.fromJson P v = .error e → e.cls = .valueError) ∧
      ∀ q, InclusionProof.fromJson P v = .ok q → q.FoundIn v) ↔
    (∀ s ∈ p.texts, Unpaired s) ∧ ∃ items, v = .dict items := by
  obtain ⟨text, hdumps, hload⟩ := p.fromJson_dumps_joined (P := P) indent
  constructor
  · rintro ⟨⟨text', hdumps', hload'⟩, herror, -⟩
    refine ⟨?_, ?_⟩
    · obtain rfl := Except.ok.inj (hdumps.symm.trans hdumps')
      exact joined_eq_self_iff.mp (Except.ok.inj (hload.symm.trans hload'))
    · cases v with
      | dict items => exact ⟨items, rfl⟩
      | _ => cases herror _ rfl
  · rintro ⟨htexts, items, rfl⟩
    rw [joined_eq_self_iff.mpr htexts] at hload
    exact ⟨⟨text, hdumps, hload⟩, fun e he => fromJson_dict_error he,
      fun q hq => fromJson_eq_ok.mp hq⟩

/-- The value `[]`. -/
theorem decodes_counterexample : ¬∀ (P : Runtime) (p : InclusionProof) (v : PyVal),
    (∃ text, p.dumps P none = .ok text ∧
      (do let w ← loads P.floats text; InclusionProof.fromJson P w) = .ok p) ∧
    (∀ e, InclusionProof.fromJson P v = .error e → e.cls = .valueError) ∧
    ∀ q, InclusionProof.fromJson P v = .ok q → q.FoundIn v := by
  intro hclaim
  obtain ⟨-, herror, -⟩ := hclaim referenceRuntime ⟨0, 1, [], [], []⟩ (.list [])
  cases herror _ rfl

end InclusionProof

end AuditChain
