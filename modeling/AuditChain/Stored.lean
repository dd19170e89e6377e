/-
AuditChain/Stored.lean

Records in storage.

`serialize` is the line that the JSONL backend writes for a record, `rowValues`
the row of the SQLite backend, and `fromStored` rebuilds a record from either.
A record comes back with its metadata as JSON, everything else as it was
(`fromStored_serialize`, `fromRow_rowValues`).  Whether it still has its hash is
a question about the keys of its metadata.

    survives_iff    a sealed record keeps its payload bytes and its hash exactly when
                    the keys in its metadata are in the order of their texts
-/
import AuditChain.Checkpoint
import AuditChain.JsonFixpoint
import AuditChain.LogSteps
import AuditChain.Payload
import AuditChain.PyDict
import AuditChain.Rotation

namespace AuditChain

open Python

variable (P : Runtime)

/-! ### The code -/

/-- `stored.get(key)`. -/
def getField (stored : PyVal) (key : PyStr) : Except PyError (Option PyVal) :=
  match stored with
  | .dict items => .ok (PyDict.get? items key)
  | _ => .error ⟨.attributeError, lit "object has no attribute 'get'"⟩

/-- `stored.get("meta") or {}`. -/
def storedMeta (found : Option PyVal) : PyVal :=
  match found with
  | some v => if v.truthy P.floats then v else .dict []
  | none => .dict []

/-- Rebuild a record from backend storage. -/
def AuditRecord.fromStored (stored : PyVal) : Except PyError AuditRecord := do
  let found ← getField stored (lit "meta")
  let seq ← (← getItem P stored (lit "seq")).toInt P.unicode P.floats
  let timestamp ← getItem P stored (lit "ts")
  let actor ← getItem P stored (lit "actor")
  let action ← getItem P stored (lit "action")
  let subject ← getText P stored (lit "subject")
  let metadata ← dictOf P.floats (storedMeta P found)
  let prevHash ← getItem P stored (lit "prev_hash")
  let hash ← getItem P stored (lit "hash")
  let keyId ← getText P stored (lit "key_id")
  let signerId ← getText P stored (lit "signer_id")
  let signature ← getText P stored (lit "signature")
  return {
    seq := seq
    timestamp := timestamp.toStr P.unicode
    actor := actor.toStr P.unicode
    action := action.toStr P.unicode
    subject := subject
    metadata := metadata
    prevHash := prevHash.toStr P.unicode
    hash := hash.toStr P.unicode
    keyId := keyId
    signerId := signerId
    signature := signature }

/-- The JSON object on a line. -/
def AuditRecord.linePayload (r : AuditRecord) : PyDict :=
  [(.str (lit "seq"), .int r.seq),
   (.str (lit "ts"), .str r.timestamp),
   (.str (lit "actor"), .str r.actor),
   (.str (lit "action"), .str r.action),
   (.str (lit "subject"), .str r.subject),
   (.str (lit "meta"), .dict r.metadata),
   (.str (lit "prev_hash"), .str r.prevHash),
   (.str (lit "hash"), .str r.hash)]
  ++ (if r.keyId ≠ [] then [(.str (lit "key_id"), .str r.keyId)] else [])
  ++ (if r.signerId ≠ [] then [(.str (lit "signer_id"), .str r.signerId)] else [])
  ++ (if r.signature ≠ [] then [(.str (lit "signature"), .str r.signature)] else [])

/-- `JsonlBackend._serialize`: the line for a record, without its end. -/
def AuditRecord.serialize (r : AuditRecord) : Except PyError PyStr :=
  dumps P.floats compactStyle (.dict r.linePayload)

/-- A row of the table. -/
structure SqliteRow where
  seq : ℤ
  ts : PyStr
  actor : PyStr
  action : PyStr
  subject : PyStr
  metaText : PyStr
  prevHash : PyStr
  hash : PyStr
  keyId : PyStr
  signerId : PyStr
  signature : PyStr

/-- `SqliteBackend._row_values`. -/
def AuditRecord.rowValues (r : AuditRecord) : Except PyError SqliteRow := do
  let metaText ← dumps P.floats compactStyle (.dict r.metadata)
  return {
    seq := r.seq
    ts := r.timestamp
    actor := r.actor
    action := r.action
    subject := r.subject
    metaText := metaText
    prevHash := r.prevHash
    hash := r.hash
    keyId := r.keyId
    signerId := r.signerId
    signature := r.signature }

/-- The dictionary that a row is rebuilt from. -/
def SqliteRow.fields (row : SqliteRow) (metadata : PyVal) : PyDict :=
  [(.str (lit "seq"), .int row.seq),
   (.str (lit "ts"), .str row.ts),
   (.str (lit "actor"), .str row.actor),
   (.str (lit "action"), .str row.action),
   (.str (lit "subject"), .str row.subject),
   (.str (lit "meta"), metadata),
   (.str (lit "prev_hash"), .str row.prevHash),
   (.str (lit "hash"), .str row.hash),
   (.str (lit "key_id"), .str row.keyId),
   (.str (lit "signer_id"), .str row.signerId),
   (.str (lit "signature"), .str row.signature)]

/-- `SqliteBackend._from_row`. -/
def SqliteRow.fromRow (row : SqliteRow) : Except PyError AuditRecord := do
  let metadata ← loads P.floats row.metaText
  AuditRecord.fromStored P (.dict (row.fields metadata))

/-! ### What comes back -/

/-- The record with its metadata as JSON. -/
def AuditRecord.reloaded (r : AuditRecord) : AuditRecord :=
  { r with metadata := dictOfPairs (jsonPairs P.floats r.metadata) }

variable {P}

theorem jsonMetadata_eq (r : AuditRecord) : r.jsonMetadata P = .dict (r.reloaded P).metadata :=
  jsonValue_dict P.floats r.metadata

theorem storedMeta_dict (items : PyDict) : storedMeta P (some (.dict items)) = .dict items := by
  cases items <;> rfl

/-- A dictionary with these fields gives the record back. -/
theorem fromStored_of_get? {r : AuditRecord} {items : PyDict}
    (hseq : PyDict.get? items (lit "seq") = some (.int r.seq))
    (hts : PyDict.get? items (lit "ts") = some (.str r.timestamp))
    (hactor : PyDict.get? items (lit "actor") = some (.str r.actor))
    (haction : PyDict.get? items (lit "action") = some (.str r.action))
    (hsubject : getText P (.dict items) (lit "subject") = .ok r.subject)
    (hmeta : PyDict.get? items (lit "meta") = some (.dict r.metadata))
    (hprev : PyDict.get? items (lit "prev_hash") = some (.str r.prevHash))
    (hhash : PyDict.get? items (lit "hash") = some (.str r.hash))
    (hkeyId : getText P (.dict items) (lit "key_id") = .ok r.keyId)
    (hsignerId : getText P (.dict items) (lit "signer_id") = .ok r.signerId)
    (hsignature : getText P (.dict items) (lit "signature") = .ok r.signature) :
    AuditRecord.fromStored P (.dict items) = .ok r := by
  have hitem : ∀ {key v}, PyDict.get? items key = some v → getItem P (.dict items) key = .ok v := by
    intro key v h
    simp only [getItem, h]
  simp only [AuditRecord.fromStored, getField, hmeta, storedMeta_dict, hitem hseq, hitem hts,
    hitem hactor, hitem haction, hsubject, hitem hprev, hitem hhash, hkeyId, hsignerId, hsignature,
    dictOf, ok_bind, pure_eq_ok, PyVal.toInt_int, PyVal.toStr_str]

/-- A field that is left out when it is empty. -/
theorem forall_optional {p : PyKey × PyVal → Prop} {key text : PyStr} :
    (∀ kv ∈ if text ≠ [] then [(PyKey.str key, PyVal.str text)] else [], p kv) ↔
      (text ≠ [] → p (.str key, .str text)) := by
  by_cases h : text = [] <;> simp [h]

theorem isStr_linePayload (r : AuditRecord) : ∀ kv ∈ r.linePayload, kv.1.isStr = true := by
  rw [AuditRecord.linePayload]
  simp only [List.forall_mem_append, forall_optional]
  exact ⟨⟨⟨by simp [PyKey.isStr], fun _ => rfl⟩, fun _ => rfl⟩, fun _ => rfl⟩

theorem nodup_linePayload (r : AuditRecord) : (r.linePayload.map Prod.fst).Nodup := by
  unfold AuditRecord.linePayload
  split <;> split <;> split <;>
    (simp only [List.append_nil, List.cons_append, List.nil_append, List.map_cons, List.map_nil]
     decide)

theorem serializable_linePayload {r : AuditRecord}
    (h : (PyVal.dict r.metadata).serializable = true) :
    (PyVal.dict r.linePayload).serializable = true := by
  have hmeta := h
  simp only [PyVal.serializable, Bool.and_eq_true] at hmeta
  have hkeys : sortable (r.linePayload.map Prod.fst) = true := by
    simp only [sortable, Bool.or_eq_true, List.all_map, List.all_eq_true]
    exact Or.inl (Or.inr (isStr_linePayload r))
  simp only [PyVal.serializable, hkeys, Bool.true_and]
  unfold AuditRecord.linePayload
  split <;> split <;> split <;>
    simp [itemsSerializable, PyVal.serializable, hmeta.1, hmeta.2]

/-- The text fields. -/
def AuditRecord.texts (r : AuditRecord) : List PyStr :=
  [r.timestamp, r.actor, r.action, r.subject, r.prevHash, r.hash, r.keyId, r.signerId,
    r.signature]

/-- `p` holds of every text of the record, those in the metadata included, and `q` of
every float in the metadata. -/
def AuditRecord.AllLeaves (r : AuditRecord) (p : PyStr → Prop) (q : FloatText → Prop) : Prop :=
  (∀ s ∈ r.texts, p s) ∧ (PyVal.dict r.metadata).AllLeaves p q

theorem itemsAllLeaves_append {p : PyStr → Prop} {q : FloatText → Prop} (xs ys : PyDict) :
    ItemsAllLeaves p q (xs ++ ys) ↔ ItemsAllLeaves p q xs ∧ ItemsAllLeaves p q ys := by
  induction xs with
  | nil => simp [ItemsAllLeaves]
  | cons x xs ih =>
    rw [List.cons_append, ItemsAllLeaves, ItemsAllLeaves, ih, and_assoc, and_assoc]

theorem itemsAllLeaves_optional {p : PyStr → Prop} {q : FloatText → Prop} {key text : PyStr}
    (hkey : text ≠ [] → p (PyKey.str key).text) (hnil : p []) :
    ItemsAllLeaves p q (if text ≠ [] then [(.str key, .str text)] else []) ↔ p text := by
  split
  · rename_i hne
    simp [ItemsAllLeaves, PyVal.AllLeaves, hkey hne]
  · rename_i hempty
    rw [not_not.mp hempty]
    simp [ItemsAllLeaves, hnil]

/-- The leaves of a line are the leaves of the record. -/
theorem allLeaves_linePayload {r : AuditRecord} {p : PyStr → Prop} {q : FloatText → Prop}
    (hkeys : ∀ kv ∈ r.linePayload, p kv.1.text) (hnil : p []) :
    (PyVal.dict r.linePayload).AllLeaves p q ↔ r.AllLeaves p q := by
  unfold AuditRecord.linePayload at hkeys ⊢
  simp only [List.forall_mem_append, List.forall_mem_cons, forall_optional] at hkeys
  obtain ⟨⟨⟨⟨hseq, hts, hactor, haction, hsubject, hmeta, hprev, hhash, -⟩, hkeyId⟩, hsignerId⟩,
    hsignature⟩ := hkeys
  rw [PyVal.AllLeaves, itemsAllLeaves_append, itemsAllLeaves_append, itemsAllLeaves_append,
    itemsAllLeaves_optional hkeyId hnil, itemsAllLeaves_optional hsignerId hnil,
    itemsAllLeaves_optional hsignature hnil, AuditRecord.AllLeaves, AuditRecord.texts]
  simp only [ItemsAllLeaves, PyVal.AllLeaves, hseq, hts, hactor, haction, hsubject, hmeta, hprev,
    hhash, List.forall_mem_cons, List.not_mem_nil, true_and]
  constructor
  · rintro ⟨⟨⟨⟨ts, actor, action, subject, metadata, prev, hash, -⟩, keyId⟩, signerId⟩, signature⟩
    exact ⟨⟨ts, actor, action, subject, prev, hash, keyId, signerId, signature, nofun⟩, metadata⟩
  · rintro ⟨⟨ts, actor, action, subject, prev, hash, keyId, signerId, signature, -⟩, metadata⟩
    exact ⟨⟨⟨⟨ts, actor, action, subject, metadata, prev, hash, trivial⟩, keyId⟩, signerId⟩,
      signature⟩

/-- What is left out of a line is read as empty. -/
theorem linePayload_optional (F : FloatOps) (r : AuditRecord) :
    ((PyDict.get? r.linePayload (lit "key_id")).map (PyVal.jsonValue F)).getD (.str [])
        = .str r.keyId ∧
      ((PyDict.get? r.linePayload (lit "signer_id")).map (PyVal.jsonValue F)).getD (.str [])
        = .str r.signerId ∧
      ((PyDict.get? r.linePayload (lit "signature")).map (PyVal.jsonValue F)).getD (.str [])
        = .str r.signature := by
  unfold AuditRecord.linePayload
  by_cases hkeyId : r.keyId = [] <;> by_cases hsignerId : r.signerId = [] <;>
    by_cases hsignature : r.signature = [] <;>
      simp only [hkeyId, hsignerId, hsignature, ne_eq, not_true_eq_false, not_false_eq_true,
        if_true, if_false] <;> exact ⟨rfl, rfl, rfl⟩

variable (P) in
/-- The floats in the metadata are read back as the tokens they are printed as. -/
def AuditRecord.FloatsKept (r : AuditRecord) : Prop :=
  (PyVal.dict r.metadata).AllLeaves (fun _ => True) P.floats.Keeps

/-- **A line gives its record back**, with the metadata as JSON. -/
theorem fromStored_serialize {r : AuditRecord} (hser : (PyVal.dict r.metadata).serializable = true)
    (hfloats : r.FloatsKept P) :
    ∃ v, r.serialize P = .ok (printVal P.floats compactStyle 0 (.dict r.linePayload)) ∧
      loads P.floats (printVal P.floats compactStyle 0 (.dict r.linePayload)) = .ok v ∧
        AuditRecord.fromStored P v = .ok (r.reloaded P) := by
  have hser' := serializable_linePayload hser
  have hleaves : (PyVal.dict r.linePayload).AllLeaves (StrKept compactStyle.ensureAscii)
      P.floats.Keeps := by
    refine (allLeaves_linePayload (fun kv _ => strKept_raw _) (strKept_raw _)).mpr ?_
    exact ⟨fun s _ => strKept_raw s,
      allLeaves_imp (fun s _ => strKept_raw s) (fun _ ht => ht) _ hfloats⟩
  obtain ⟨items, hitems, hget⟩ :=
    get?_jsonValue P.floats (isStr_linePayload r) (nodup_linePayload r)
  obtain ⟨hkeyId, hsignerId, hsignature⟩ := linePayload_optional P.floats r
  refine ⟨.dict items, ?_, ?_, fromStored_of_get? ?_ ?_ ?_ ?_ ?_ ?_ ?_ ?_ ?_ ?_ ?_⟩
  · rw [AuditRecord.serialize, dumps, if_pos hser']
  · have h := loads_printVal (G := P.floats) compactStyle hser' hleaves allSpace_nil
    rwa [List.append_nil, hitems] at h
  · exact (hget _).trans rfl
  · exact (hget _).trans rfl
  · exact (hget _).trans rfl
  · exact (hget _).trans rfl
  · rw [getText, hget]
    rfl
  · rw [← jsonMetadata_eq]
    exact (hget _).trans rfl
  · exact (hget _).trans rfl
  · exact (hget _).trans rfl
  · rw [getText, hget, hkeyId]
    rfl
  · rw [getText, hget, hsignerId]
    rfl
  · rw [getText, hget, hsignature]
    rfl

/-- **A row gives its record back**, with the metadata as JSON. -/
theorem fromRow_rowValues {r : AuditRecord} (hser : (PyVal.dict r.metadata).serializable = true)
    (hfloats : r.FloatsKept P) :
    ∃ row, r.rowValues P = .ok row ∧ row.fromRow P = .ok (r.reloaded P) := by
  have hloads : loads P.floats (printVal P.floats compactStyle 0 (.dict r.metadata))
      = .ok (.dict (r.reloaded P).metadata) := by
    have hleaves := allLeaves_imp (fun s _ => strKept_raw s) (fun _ ht => ht) _ hfloats
    have h := loads_printVal (G := P.floats) compactStyle hser hleaves allSpace_nil
    rw [List.append_nil] at h
    rw [h, ← jsonMetadata_eq]
    rfl
  refine ⟨_, by rw [AuditRecord.rowValues, dumps, if_pos hser]; rfl, ?_⟩
  rw [SqliteRow.fromRow, hloads, ok_bind]
  exact fromStored_of_get? rfl rfl rfl rfl rfl rfl rfl rfl rfl rfl rfl

/-! ### The hash of what comes back -/

theorem serializable_reloaded {r : AuditRecord}
    (h : (PyVal.dict r.metadata).serializable = true) :
    (PyVal.dict (r.reloaded P).metadata).serializable = true := by
  rw [← jsonMetadata_eq]
  exact serializable_jsonValue P.floats _ h

/-- The payload of what comes back is what is read back of the payload. -/
theorem printVal_reloaded (r : AuditRecord) :
    printVal P.floats compactStyle 0 (.dict (r.reloaded P).toPayloadDict)
      = printVal P.floats compactStyle 0 ((PyVal.dict r.toPayloadDict).jsonValue P.floats) := by
  rw [jsonValue_payloadDict, jsonMetadata_eq, printVal_dict, printVal_dict]
  rfl

theorem keysOrdered_payloadDict {F : FloatOps} {r : AuditRecord} :
    (PyVal.dict r.toPayloadDict).KeysOrdered F ↔ (PyVal.dict r.metadata).KeysOrdered F := by
  have hkeys : ((sortItems F r.toPayloadDict).map fun kv => kv.1.text).Pairwise (· < ·) :=
    pairwise_text_sortItems F (by simp [AuditRecord.toPayloadDict, PyKey.isStr])
      (by simp only [AuditRecord.toPayloadDict, List.map_cons, List.map_nil]; decide)
  simp only [PyVal.KeysOrdered, hkeys, true_and]
  simp [AuditRecord.toPayloadDict, ItemsKeysOrdered, PyVal.KeysOrdered]

/-- **When the payload survives**: when the keys in the metadata are in order. -/
theorem toPayloadBytes_reloaded_iff {r : AuditRecord} {b : Bytes}
    (h : r.toPayloadBytes P = .ok b) : (r.reloaded P).toPayloadBytes P = r.toPayloadBytes P ↔
      (PyVal.dict r.metadata).KeysOrdered P.floats := by
  obtain ⟨hser, hencode⟩ := toPayloadBytes_eq_ok h
  have hser' : (PyVal.dict (r.reloaded P).toPayloadDict).serializable = true :=
    serializable_payloadDict.mpr (serializable_reloaded (serializable_payloadDict.mp hser))
  have hbytes : (r.reloaded P).toPayloadBytes P
      = utf8Encode (printVal P.floats compactStyle 0 (.dict (r.reloaded P).toPayloadDict)) := by
    rw [AuditRecord.toPayloadBytes, dumps, if_pos hser', ok_bind]
  rw [← keysOrdered_payloadDict, ← printVal_jsonValue_iff P.floats _ 0 hser, ← printVal_reloaded,
    h, hbytes]
  constructor
  · intro heq
    exact utf8Encode_inj heq hencode
  · intro heq
    rw [heq, hencode]

variable (P) in
/-- The record has the payload bytes of the other, and still its hash. -/
structure KeepsHash (r₁ r : AuditRecord) (key : Option Bytes) : Prop where
  payload : r₁.toPayloadBytes P = r.toPayloadBytes P
  hash : computeRecordHash P r₁ key = .ok r.hash

variable (P) in
/-- Whichever backend stores it, the record comes back with its payload and its hash. -/
structure SurvivesStorage (r : AuditRecord) (key : Option Bytes) : Prop where
  jsonl : ∃ line v r₁, r.serialize P = .ok line ∧ loads P.floats line = .ok v ∧
    AuditRecord.fromStored P v = .ok r₁ ∧ KeepsHash P r₁ r key
  sqlite : ∃ row r₁, r.rowValues P = .ok row ∧ row.fromRow P = .ok r₁ ∧ KeepsHash P r₁ r key

/-- What sealing guarantees for storage: a payload and a hash over it. -/
theorem payload_of_seal {log : AuditLog P} {r r' : AuditRecord} (h : log.seal r = .ok r') :
    ∃ prev b, asciiEncode r'.prevHash = .ok prev ∧ r'.toPayloadBytes P = .ok b ∧
      r'.hash = (P.seal log.sealKey (prev ++ 0 :: b)).hex := by
  obtain ⟨recordHash, signature, rfl, ⟨data, hdata, hhash⟩, -, -⟩ := seal_spec h
  obtain ⟨prev, b, hprev, hb, rfl⟩ := hashInput_eq_ok hdata
  exact ⟨prev, b, hprev, hb, hhash⟩

/-- **When a sealed record survives storage**: when the keys in its metadata are in order. -/
theorem survives_iff {log : AuditLog P} {r r' : AuditRecord} (h : log.seal r = .ok r')
    (hfloats : r'.FloatsKept P) :
    SurvivesStorage P r' log.sealKey ↔ (PyVal.dict r'.metadata).KeysOrdered P.floats := by
  obtain ⟨prev, b, hprev, hb, hhash⟩ := payload_of_seal h
  have hser : (PyVal.dict r'.metadata).serializable = true :=
    serializable_payloadDict.mp (toPayloadBytes_eq_ok hb).1
  obtain ⟨v, hline, hloads, hstored⟩ := fromStored_serialize hser hfloats
  obtain ⟨row, hrow, hfrom⟩ := fromRow_rowValues hser hfloats
  rw [← toPayloadBytes_reloaded_iff hb]
  constructor
  · intro hsurvives
    obtain ⟨row', r₁, hrow', hfrom', hkeeps⟩ := hsurvives.sqlite
    obtain rfl := Except.ok.inj (hrow.symm.trans hrow')
    obtain rfl := Except.ok.inj (hfrom.symm.trans hfrom')
    exact hkeeps.payload
  · intro hpayload
    have hkeeps : KeepsHash P (r'.reloaded P) r' log.sealKey := by
      refine ⟨hpayload, computeRecordHash_eq_ok.mpr ⟨prev ++ 0 :: b, ?_, hhash⟩⟩
      rw [hashInput, hpayload, hb, show (r'.reloaded P).prevHash = r'.prevHash from rfl, hprev]
      rfl
    exact ⟨⟨_, v, _, hline, hloads, hstored, hkeeps⟩, ⟨row, _, hrow, hfrom, hkeeps⟩⟩

/-- A record with these metadata, before it is sealed by a log without keys. -/
def metaRecord (metadata : PyDict) : AuditRecord :=
  plainLog.buildRecord (lit "alice") (lit "login") [] metadata (some (lit "now")) [] none

/-- Sealing without keys changes the hash only. -/
theorem seal_metaRecord (metadata : PyDict)
    (h : (plainLog.seal (metaRecord metadata)).toOption.isSome = true) :
    ∃ r', plainLog.seal (metaRecord metadata) = .ok r' ∧ r'.metadata = metadata := by
  cases hseal : plainLog.seal (metaRecord metadata) with
  | error e =>
    rw [hseal] at h
    cases h
  | ok r' =>
    obtain ⟨recordHash, signature, rfl, -⟩ := seal_spec hseal
    exact ⟨_, rfl, rfl⟩

/-- The keys 1 and 2 are in order, as numbers and as texts. -/
theorem survives_sample : ∃ r', plainLog.seal (metaRecord [(.int 1, .null), (.int 2, .null)])
    = .ok r' ∧ SurvivesStorage referenceRuntime r' none := by
  obtain ⟨r', hseal, hmeta⟩ := seal_metaRecord [(.int 1, .null), (.int 2, .null)]
    (by decide +kernel)
  refine ⟨r', hseal, (survives_iff hseal ?_).mpr ?_⟩
  · rw [AuditRecord.FloatsKept, hmeta]
    simp [PyVal.AllLeaves, ItemsAllLeaves]
  · rw [hmeta]
    refine ⟨by decide +kernel, trivial, trivial, trivial⟩

/-- The keys 9 and 10 come back in the other order. -/
theorem survives_counterexample :
    ¬∀ (P : Runtime) (log : AuditLog P) (r r' : AuditRecord), log.seal r = .ok r' →
      r'.FloatsKept P → SurvivesStorage P r' log.sealKey := by
  intro hclaim
  obtain ⟨r', hseal, hmeta⟩ := seal_metaRecord [(.int 9, .null), (.int 10, .null)]
    (by decide +kernel)
  have hfloats : r'.FloatsKept referenceRuntime := by
    rw [AuditRecord.FloatsKept, hmeta]
    simp [PyVal.AllLeaves, ItemsAllLeaves]
  obtain ⟨prev, b, -, hb, -⟩ := payload_of_seal hseal
  have hser : (PyVal.dict r'.metadata).serializable = true :=
    serializable_payloadDict.mp (toPayloadBytes_eq_ok hb).1
  obtain ⟨row, r₁, hrow, hfrom, hkeeps⟩ := (hclaim _ _ _ _ hseal hfloats).sqlite
  obtain ⟨row', hrow', hfrom'⟩ := fromRow_rowValues hser hfloats
  obtain rfl := Except.ok.inj (hrow.symm.trans hrow')
  obtain rfl := Except.ok.inj (hfrom.symm.trans hfrom')
  have hordered := (toPayloadBytes_reloaded_iff hb).mp hkeeps.payload
  rw [hmeta] at hordered
  exact absurd hordered.1 (by decide +kernel)

end AuditChain
