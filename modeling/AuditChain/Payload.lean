/-
AuditChain/Payload.lean

The hashed bytes determine the hashed fields.

`hashInput_inj` reads a record back from what is hashed for it: the previous
hash up to the last zero byte, the payload behind it.  Metadata come back up to
the order of their keys, which is all that Python's `==` sees of it.

    exists_hashInput_iff    which records can be hashed
    hashInput_eq_iff        two records of JSON have the same bytes exactly when
                            they have the same content
-/
import AuditChain.JsonFixpoint
import AuditChain.RawChars
import AuditChain.Records
import AuditChain.Reference
import AuditChain.Signing

namespace AuditChain

open Python

variable (P : Runtime)

/-- The metadata are a string-keyed JSON object. -/
def AuditRecord.JsonMetadata (r : AuditRecord) : Prop := (PyVal.dict r.metadata).IsJson

/-- The JSON value of the metadata. -/
def AuditRecord.jsonMetadata (r : AuditRecord) : PyVal :=
  (PyVal.dict r.metadata).jsonValue P.floats

/-- The metadata with every dictionary sorted by its keys. -/
def AuditRecord.sortedMetadata (r : AuditRecord) : PyVal := (PyVal.dict r.metadata).canon P.floats

/-- Two records agree on every field that is hashed. -/
structure SameContent (r s : AuditRecord) : Prop where
  seq : r.seq = s.seq
  timestamp : r.timestamp = s.timestamp
  actor : r.actor = s.actor
  action : r.action = s.action
  subject : r.subject = s.subject
  metadata : r.jsonMetadata P = s.jsonMetadata P
  prevHash : r.prevHash = s.prevHash

variable {P}

/-- JSON metadata agree up to the order of keys. -/
theorem SameContent.sortedMetadata {r s : AuditRecord} (h : SameContent P r s)
    (hr : r.JsonMetadata) (hs : s.JsonMetadata) : r.sortedMetadata P = s.sortedMetadata P := by
  have hmeta := h.metadata
  rwa [AuditRecord.jsonMetadata, AuditRecord.jsonMetadata, jsonValue_eq_canon _ _ hr,
    jsonValue_eq_canon _ _ hs] at hmeta

theorem jsonMetadata_of_nil {r : AuditRecord} (h : r.metadata = []) : r.JsonMetadata := by
  rw [AuditRecord.JsonMetadata, h]
  trivial

/-- The payload as JSON, key by key. -/
theorem jsonValue_payloadDict (r : AuditRecord) :
    (PyVal.dict r.toPayloadDict).jsonValue P.floats =
      .dict [(.str (lit "action"), .str r.action), (.str (lit "actor"), .str r.actor),
        (.str (lit "meta"), r.jsonMetadata P), (.str (lit "prev"), .str r.prevHash),
        (.str (lit "seq"), .int r.seq), (.str (lit "subject"), .str r.subject),
        (.str (lit "ts"), .str r.timestamp)] := by
  rfl

theorem sameContent_of_jsonValue {r s : AuditRecord}
    (h : (PyVal.dict r.toPayloadDict).jsonValue P.floats
      = (PyVal.dict s.toPayloadDict).jsonValue P.floats) : SameContent P r s := by
  rw [jsonValue_payloadDict, jsonValue_payloadDict] at h
  injection h with h
  simp only [List.cons.injEq, Prod.mk.injEq, PyVal.str.injEq, PyVal.int.injEq, true_and,
    and_true] at h
  obtain ⟨haction, hactor, hmeta, hprev, hseq, hsubject, hts⟩ := h
  exact ⟨hseq, hts, hactor, haction, hsubject, hmeta, hprev⟩

/-- What `to_payload_bytes` returns. -/
theorem toPayloadBytes_eq_ok {r : AuditRecord} {b : Bytes} (h : r.toPayloadBytes P = .ok b) :
    (PyVal.dict r.toPayloadDict).serializable = true ∧
      utf8Encode (printVal P.floats compactStyle 0 (.dict r.toPayloadDict)) = .ok b := by
  obtain ⟨text, htext, hb⟩ := bind_eq_ok.mp h
  unfold dumps at htext
  split at htext
  · rename_i hser
    obtain rfl := Except.ok.inj htext
    exact ⟨hser, hb⟩
  · cases htext

/-- What is hashed, in two parts. -/
theorem hashInput_eq_ok {r : AuditRecord} {data : Bytes} (h : hashInput P r = .ok data) :
    ∃ prev payload, asciiEncode r.prevHash = .ok prev ∧ r.toPayloadBytes P = .ok payload ∧
      data = prev ++ 0 :: payload := by
  obtain ⟨prev, hprev, h⟩ := bind_eq_ok.mp h
  obtain ⟨payload, hpayload, h⟩ := bind_eq_ok.mp h
  exact ⟨prev, payload, hprev, hpayload, (Except.ok.inj h).symm⟩

/-- **Hashing is injective on contents.** -/
theorem hashInput_inj {r s : AuditRecord} {data : Bytes} (hr : hashInput P r = .ok data)
    (hs : hashInput P s = .ok data) : SameContent P r s := by
  obtain ⟨prev, payload, -, hpay, rfl⟩ := hashInput_eq_ok hr
  obtain ⟨prev', payload', -, hpay', heq⟩ := hashInput_eq_ok hs
  obtain ⟨hser, htext⟩ := toPayloadBytes_eq_ok hpay
  obtain ⟨hser', htext'⟩ := toPayloadBytes_eq_ok hpay'
  obtain ⟨-, rfl⟩ := append_zero_inj
    (zero_not_mem_utf8Encode (printable_printVal _ _ _) htext)
    (zero_not_mem_utf8Encode (printable_printVal _ _ _) htext') heq
  exact sameContent_of_jsonValue (printVal_compact_inj hser hser' (utf8Encode_inj htext htext'))

/-! ### When a record can be hashed -/

/-- Every text of the payload, in the metadata too, has UTF-8. -/
def AuditRecord.EncodablePayload (r : AuditRecord) : Prop :=
  (PyVal.dict r.toPayloadDict).AllLeaves Encodable fun _ => True

theorem encodablePayload_iff {r : AuditRecord} : r.EncodablePayload ↔
    Encodable r.timestamp ∧ Encodable r.actor ∧ Encodable r.action ∧ Encodable r.subject ∧
      Encodable r.prevHash ∧ (PyVal.dict r.metadata).AllLeaves Encodable fun _ => True := by
  have hkeys : ∀ key ∈ ["seq", "ts", "actor", "action", "subject", "meta", "prev"],
      Encodable (lit key) := by decide
  simp only [List.forall_mem_cons, List.not_mem_nil, false_implies, implies_true, and_true] at hkeys
  obtain ⟨hseq, hts, hactor, haction, hsubject, hmeta, hprev⟩ := hkeys
  simp only [AuditRecord.EncodablePayload, AuditRecord.toPayloadDict, PyVal.AllLeaves,
    ItemsAllLeaves, PyKey.text, hseq, hts, hactor, haction, hsubject, hmeta, hprev, true_and,
    and_true]
  tauto

theorem serializable_payloadDict {r : AuditRecord} :
    (PyVal.dict r.toPayloadDict).serializable = true ↔
      (PyVal.dict r.metadata).serializable = true := by
  have hkeys : sortable (r.toPayloadDict.map Prod.fst) = true := rfl
  simp only [PyVal.serializable, hkeys, Bool.true_and]
  simp [AuditRecord.toPayloadDict, itemsSerializable, PyVal.serializable]

theorem exists_toPayloadBytes_iff {r : AuditRecord} : (∃ b, r.toPayloadBytes P = .ok b) ↔
    (PyVal.dict r.metadata).serializable = true ∧ r.EncodablePayload := by
  rw [← serializable_payloadDict, AuditRecord.EncodablePayload, ← encodable_printVal P.floats,
    ← utf8Encode_ok_iff]
  constructor
  · rintro ⟨b, hb⟩
    obtain ⟨hser, htext⟩ := toPayloadBytes_eq_ok hb
    exact ⟨hser, b, htext⟩
  · rintro ⟨hser, b, hb⟩
    exact ⟨b, by rw [AuditRecord.toPayloadBytes, dumps, if_pos hser, ok_bind, hb]⟩

/-- **Which records can be hashed.** -/
theorem exists_hashInput_iff {r : AuditRecord} : (∃ b, hashInput P r = .ok b) ↔
    IsAscii r.prevHash ∧ (PyVal.dict r.metadata).serializable = true ∧ r.EncodablePayload := by
  rw [← asciiEncode_ok_iff, ← exists_toPayloadBytes_iff (P := P)]
  constructor
  · rintro ⟨b, hb⟩
    obtain ⟨prev, payload, hprev, hpayload, -⟩ := hashInput_eq_ok hb
    exact ⟨⟨prev, hprev⟩, payload, hpayload⟩
  · rintro ⟨⟨prev, hprev⟩, payload, hpayload⟩
    exact ⟨_, by rw [hashInput, hprev, ok_bind, hpayload]; rfl⟩

/-- Which texts can be signed. -/
theorem encodable_recordSigningText (seq : ℤ) (hash signerId : PyStr) :
    Encodable (recordSigningText seq hash signerId) ↔ Encodable hash ∧ Encodable signerId := by
  have hcolon : isSurrogate (ch ':') = false := by decide
  rw [recordSigningText, encodable_append, encodable_cons, encodable_append, encodable_cons]
  simp only [encodable_intStr, hcolon, true_and]

/-! ### Records of JSON -/

theorem isJson_toPayloadDict {r : AuditRecord} (h : r.JsonMetadata) :
    (PyVal.dict r.toPayloadDict).IsJson := by
  have hmeta : (PyVal.dict r.metadata).IsJson := h
  have hkeys : r.toPayloadDict.map Prod.fst = [.str (lit "seq"), .str (lit "ts"),
      .str (lit "actor"), .str (lit "action"), .str (lit "subject"), .str (lit "meta"),
      .str (lit "prev")] := rfl
  rw [PyVal.IsJson, hkeys]
  refine ⟨by decide, ?_⟩
  simp only [AuditRecord.toPayloadDict, ItemsJson, PyKey.isStr, PyVal.IsJson, true_and, and_true]
  exact hmeta

/-- What is hashed depends on the content only. -/
theorem hashInput_congr {r s : AuditRecord} (hr : r.JsonMetadata) (hs : s.JsonMetadata)
    (h : SameContent P r s) : hashInput P r = hashInput P s := by
  have hvalue : (PyVal.dict r.toPayloadDict).jsonValue P.floats
      = (PyVal.dict s.toPayloadDict).jsonValue P.floats := by
    rw [jsonValue_payloadDict, jsonValue_payloadDict, h.seq, h.timestamp, h.actor, h.action,
      h.subject, h.metadata, h.prevHash]
  have hprint : ∀ {t : AuditRecord}, t.JsonMetadata → t.toPayloadBytes P = utf8Encode
      (printVal P.floats compactStyle 0 ((PyVal.dict t.toPayloadDict).jsonValue P.floats)) := by
    intro t ht
    have hjson := isJson_toPayloadDict ht
    have hser := serializable_of_isJson _ hjson
    rw [(printVal_jsonValue_iff P.floats _ 0 hser).mpr (keysOrdered_of_isJson _ _ hjson),
      AuditRecord.toPayloadBytes, dumps, if_pos hser, ok_bind]
  rw [hashInput, hashInput, hprint hr, hprint hs, hvalue, h.prevHash]

/-- **The sealed bytes determine the content.**  Two records whose metadata are JSON have
the same bytes exactly when their fields are equal, metadata up to the order of keys. -/
theorem hashInput_eq_iff (r s : AuditRecord) (hr : r.JsonMetadata) (hs : s.JsonMetadata)
    (hprev : IsAscii r.prevHash) (hprev' : IsAscii s.prevHash) (htext : r.EncodablePayload)
    (htext' : s.EncodablePayload) :
    ∃ b c, hashInput P r = .ok b ∧ hashInput P s = .ok c ∧
      (b = c ↔ r.seq = s.seq ∧ r.timestamp = s.timestamp ∧ r.actor = s.actor ∧
        r.action = s.action ∧ r.subject = s.subject ∧
          r.sortedMetadata P = s.sortedMetadata P ∧ r.prevHash = s.prevHash) := by
  obtain ⟨b, hb⟩ := exists_hashInput_iff (P := P).mpr ⟨hprev, serializable_of_isJson _ hr, htext⟩
  obtain ⟨c, hc⟩ :=
    exists_hashInput_iff (P := P).mpr ⟨hprev', serializable_of_isJson _ hs, htext'⟩
  refine ⟨b, c, hb, hc, ?_, ?_⟩
  · rintro rfl
    have hsame := hashInput_inj hb hc
    exact ⟨hsame.seq, hsame.timestamp, hsame.actor, hsame.action, hsame.subject,
      hsame.sortedMetadata hr hs, hsame.prevHash⟩
  · rintro ⟨hseq, hts, hactor, haction, hsubject, hmeta, hprevHash⟩
    have hvalue : r.jsonMetadata P = s.jsonMetadata P := by
      rw [AuditRecord.jsonMetadata, AuditRecord.jsonMetadata, jsonValue_eq_canon _ _ hr,
        jsonValue_eq_canon _ _ hs]
      exact hmeta
    have hsame : SameContent P r s :=
      ⟨hseq, hts, hactor, haction, hsubject, hvalue, hprevHash⟩
    rw [hashInput_congr hr hs hsame, hc] at hb
    exact (Except.ok.inj hb).symm

/-- A record that is given its metadata and the hash before it. -/
def metadataRecord (metadata : PyDict) (prevHash : PyStr) : AuditRecord where
  seq := 0
  timestamp := lit "2024-01-01T00:00:00+00:00"
  actor := lit "alice"
  action := lit "login"
  subject := lit "door \x7b7\x7d"
  metadata := metadata
  prevHash := prevHash
  hash := []

theorem encodable_metadataRecord {metadata : PyDict} {prevHash : PyStr}
    (hmeta : (PyVal.dict metadata).AllLeaves Encodable fun _ => True) (hprev : Encodable prevHash) :
    (metadataRecord metadata prevHash).EncodablePayload := by
  have htexts : ∀ s ∈ [lit "2024-01-01T00:00:00+00:00", lit "alice", lit "login",
      lit "door \x7b7\x7d"], Encodable s := by decide
  simp only [List.forall_mem_cons, List.not_mem_nil, false_implies, implies_true, and_true]
    at htexts
  obtain ⟨hts, hactor, haction, hsubject⟩ := htexts
  exact encodablePayload_iff.mpr ⟨hts, hactor, haction, hsubject, hprev, hmeta⟩

/-- The order of keys is not hashed, and a previous hash may hold anything in ASCII. -/
theorem hashInput_reordered : hashInput referenceRuntime
      (metadataRecord [(.str (lit "a"), .int 1), (.str (lit "b"), .list [.null])] [0, 34])
    = hashInput referenceRuntime
      (metadataRecord [(.str (lit "b"), .list [.null]), (.str (lit "a"), .int 1)] [0, 34]) := by
  obtain ⟨b, c, hb, hc, hiff⟩ := hashInput_eq_iff (P := referenceRuntime)
    (metadataRecord [(.str (lit "a"), .int 1), (.str (lit "b"), .list [.null])] [0, 34])
    (metadataRecord [(.str (lit "b"), .list [.null]), (.str (lit "a"), .int 1)] [0, 34])
    ⟨by decide, rfl, trivial, rfl, ⟨trivial, trivial⟩, trivial⟩
    ⟨by decide, rfl, ⟨trivial, trivial⟩, rfl, trivial, trivial⟩ (by decide) (by decide)
    (encodable_metadataRecord ⟨by decide, trivial, by decide, ⟨trivial, trivial⟩, trivial⟩
      (by decide))
    (encodable_metadataRecord ⟨by decide, ⟨trivial, trivial⟩, by decide, trivial, trivial⟩
      (by decide))
  rw [hb, hc, hiff.mpr ⟨rfl, rfl, rfl, rfl, rfl, rfl, rfl⟩]

end AuditChain
