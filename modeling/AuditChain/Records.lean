/-
AuditChain/Records.lean

The record and its hash.

`hashInput` is the byte string that is hashed for a record, the previous hash, a
zero byte and the canonical payload.  `key_id`, `signer_id` and `signature` are
not part of it.
-/
import AuditChain.Runtime
import AuditChain.JsonDumps

namespace AuditChain

open Python

/-- `prev_hash` of the first record. -/
def GENESIS_HASH : PyStr := List.replicate 64 (ch '0')

/-- One entry of a hash-chained audit log. -/
structure AuditRecord where
  seq : ℤ
  timestamp : PyStr
  actor : PyStr
  action : PyStr
  subject : PyStr
  metadata : PyDict
  prevHash : PyStr
  hash : PyStr
  /-- The key that sealed the record; not hashed. -/
  keyId : PyStr := []
  /-- The key that signed the record; not hashed. -/
  signerId : PyStr := []
  /-- Hex signature over `seq:hash:signer_id`. -/
  signature : PyStr := []

/-- All fields that participate in the hash. -/
def AuditRecord.toPayloadDict (r : AuditRecord) : PyDict :=
  [(.str (lit "seq"), .int r.seq),
   (.str (lit "ts"), .str r.timestamp),
   (.str (lit "actor"), .str r.actor),
   (.str (lit "action"), .str r.action),
   (.str (lit "subject"), .str r.subject),
   (.str (lit "meta"), .dict r.metadata),
   (.str (lit "prev"), .str r.prevHash)]

variable (P : Runtime)

/-- Canonical bytes for a record. -/
def AuditRecord.toPayloadBytes (r : AuditRecord) : Except PyError Bytes := do
  let text ← dumps P.floats compactStyle (.dict r.toPayloadDict)
  utf8Encode text

/-- What is hashed for a record: `prev_hash`, a zero byte, the payload. -/
def hashInput (r : AuditRecord) : Except PyError Bytes := do
  let prev ← asciiEncode r.prevHash
  let payload ← r.toPayloadBytes P
  return prev ++ 0 :: payload

/-- Hash a record: HMAC-SHA256 with a key, plain SHA-256 without. -/
def computeRecordHash (r : AuditRecord) (sealKey : Option Bytes) : Except PyError PyStr := do
  let data ← hashInput P r
  return (P.seal sealKey data).hex

variable {P}

theorem computeRecordHash_eq_ok {r : AuditRecord} {k : Option Bytes} {h : PyStr} :
    computeRecordHash P r k = .ok h ↔
      ∃ data, hashInput P r = .ok data ∧ h = (P.seal k data).hex := by
  rw [computeRecordHash, bind_eq_ok]
  refine exists_congr fun data => and_congr_right fun _ => ?_
  rw [pure_eq_ok, Except.ok.injEq, eq_comm]

end AuditChain
