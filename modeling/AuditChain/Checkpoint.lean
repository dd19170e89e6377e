/-
AuditChain/Checkpoint.lean

Checkpoints: making, saving and loading an anchor.

`loadCheckpoint` is split in two.  `readCheckpoint` turns the text of the file
into a checkpoint, with the defaults of fields that are absent; `authenticate`
then decides whether the caller gets it.  Everything that can go wrong with a
checkpoint file is decided in the second half, by which signatures are present
and which keys were given.
-/
import AuditChain.JsonLoads
import AuditChain.Signing

namespace AuditChain

open Python

/-- An anchor: `hash` is the hash of the record at `seq`. -/
structure Checkpoint where
  seq : ℤ
  hash : PyStr
  keyId : PyStr := []
  timestamp : PyStr := []
  /-- HMAC, when the log was opened with a seal key. -/
  signature : PyStr := []
  merkleRoot : PyStr := []
  signerId : PyStr := []
  /-- Ed25519 signature, when the log was opened with a signing key. -/
  signatureEd25519 : PyStr := []
  deriving DecidableEq

/-- The text that a checkpoint signature covers: `seq:hash:key_id`, and the Merkle
root behind another colon when there is one. -/
def checkpointText (seq : ℤ) (recordHash keyId merkleRoot : PyStr) : PyStr :=
  let data := intStr seq ++ ch ':' :: (recordHash ++ ch ':' :: keyId)
  if merkleRoot ≠ [] then data ++ ch ':' :: merkleRoot else data

/-- The bytes that a checkpoint signature covers. -/
def checkpointMessage (seq : ℤ) (recordHash keyId merkleRoot : PyStr) : Except PyError Bytes :=
  utf8Encode (checkpointText seq recordHash keyId merkleRoot)

/-- The bytes that the signatures of this checkpoint cover. -/
def Checkpoint.message (c : Checkpoint) : Except PyError Bytes :=
  checkpointMessage c.seq c.hash c.keyId c.merkleRoot

variable (P : Runtime)

/-- Check a checkpoint's Ed25519 signature against a public key. -/
def verifyCheckpointSignature (c : Checkpoint) (publicKey : KeyArg P.PublicKey) :
    Except PyError Bool :=
  if c.signatureEd25519 = [] then .ok false
  else do
    let message ← c.message
    verifySignature P c.signatureEd25519 message publicKey

/-- `_signature`: HMAC over `checkpointMessage` with the seal key. -/
def checkpointSignature (seq : ℤ) (recordHash keyId : PyStr) (sealKey : Bytes)
    (merkleRoot : PyStr) : Except PyError PyStr := do
  let message ← checkpointMessage seq recordHash keyId merkleRoot
  return (P.hmacSha256 sealKey message).hex

/-- Build a checkpoint for a record.  An empty seal key counts as none. -/
def makeCheckpoint (record : AuditRecord) (sealKey : Option Bytes) (merkleRoot : PyStr)
    (signingKey : Option (KeyArg P.PrivateKey)) (signerId : PyStr) :
    Except PyError Checkpoint := do
  let signature ← (
    match sealKey with
    | some (b :: key) =>
      checkpointSignature P record.seq record.hash record.keyId (b :: key) merkleRoot
    | _ => .ok [])
  let ed25519 ← (
    match signingKey with
    | some key => do
      let message ← checkpointMessage record.seq record.hash record.keyId merkleRoot
      signMessage P message key
    | none => .ok [])
  return {
    seq := record.seq
    hash := record.hash
    keyId := record.keyId
    timestamp := record.timestamp
    signature := signature
    merkleRoot := merkleRoot
    signerId := if ed25519 ≠ [] then signerId else []
    signatureEd25519 := ed25519 }

/-- The version number written into a file. -/
def Checkpoint.version (c : Checkpoint) : ℤ :=
  if c.signatureEd25519 ≠ [] then 3 else if c.merkleRoot ≠ [] then 2 else 1

/-- The JSON object written into a file. -/
def Checkpoint.payload (c : Checkpoint) : PyDict :=
  [(.str (lit "version"), .int c.version),
   (.str (lit "seq"), .int c.seq),
   (.str (lit "hash"), .str c.hash),
   (.str (lit "key_id"), .str c.keyId),
   (.str (lit "ts"), .str c.timestamp),
   (.str (lit "sig"), .str c.signature)]
  ++ (if c.merkleRoot ≠ [] then [(.str (lit "merkle_root"), .str c.merkleRoot)] else [])
  ++ (if c.signatureEd25519 ≠ [] then
        [(.str (lit "signer_id"), .str c.signerId),
         (.str (lit "signature_ed25519"), .str c.signatureEd25519)]
      else [])

/-- `save_checkpoint`: the text of the file. -/
def saveCheckpoint (c : Checkpoint) : Except PyError PyStr := do
  let text ← dumps P.floats indentStyle (.dict c.payload)
  return text ++ lit "\n"

/-- `payload[key]`. -/
def getItem (payload : PyVal) (key : PyStr) : Except PyError PyVal :=
  match payload with
  | .dict items =>
    match PyDict.get? items key with
    | some v => .ok v
    | none => .error ⟨.keyError, strRepr P.unicode key⟩
  | _ => .error (typeError (lit "string indices are not supported"))

/-- `str(payload.get(key, ""))`. -/
def getText (payload : PyVal) (key : PyStr) : Except PyError PyStr :=
  match payload with
  | .dict items => .ok (((PyDict.get? items key).getD (.str [])).toStr P.unicode)
  | _ => .error ⟨.attributeError, lit "object has no attribute 'get'"⟩

/-- The first half of `load_checkpoint`: the checkpoint that a file describes. -/
def readCheckpoint (text : PyStr) : Except PyError Checkpoint := do
  let payload ← loads P.floats text
  let seq ← (← getItem P payload (lit "seq")).toInt P.unicode P.floats
  let hash ← getItem P payload (lit "hash")
  return {
    seq := seq
    hash := hash.toStr P.unicode
    keyId := ← getText P payload (lit "key_id")
    timestamp := ← getText P payload (lit "ts")
    signature := ← getText P payload (lit "sig")
    merkleRoot := ← getText P payload (lit "merkle_root")
    signerId := ← getText P payload (lit "signer_id")
    signatureEd25519 := ← getText P payload (lit "signature_ed25519") }

/-- The Ed25519 half of the check.  Returns `signed_asymmetrically`. -/
def checkEd25519 (c : Checkpoint) (publicKey : Option (KeyArg P.PublicKey)) :
    Except PyError Bool :=
  if c.signatureEd25519 = [] then .ok false
  else
    match publicKey with
    | none =>
      .error (valueError
        (lit "checkpoint is signed with Ed25519; pass the public key to verify it"))
    | some key => do
      if ← verifyCheckpointSignature P c key then return true
      else throw (valueError (lit "checkpoint signature mismatch: the checkpoint was modified"))

/-- The HMAC half of the check. -/
def checkHmac (c : Checkpoint) (sealKey : Option Bytes) (signedAsymmetrically : Bool) :
    Except PyError Unit :=
  if c.signature = [] ∨ signedAsymmetrically = true then .ok ()
  else
    match sealKey with
    | none => .error (valueError (lit "checkpoint is signed; pass the seal key to load it"))
    | some key => do
      let expected ← checkpointSignature P c.seq c.hash c.keyId key c.merkleRoot
      if ← compareDigest c.signature expected then return ()
      else throw (valueError (lit "checkpoint signature mismatch: the checkpoint was modified"))

/-- The second half of `load_checkpoint`: is the checkpoint handed out? -/
def authenticate (c : Checkpoint) (sealKey : Option Bytes)
    (publicKey : Option (KeyArg P.PublicKey)) : Except PyError Unit := do
  let signedAsymmetrically ← checkEd25519 P c publicKey
  checkHmac P c sealKey signedAsymmetrically

/-- Read a checkpoint file. -/
def loadCheckpoint (text : PyStr) (sealKey : Option Bytes)
    (publicKey : Option (KeyArg P.PublicKey)) : Except PyError Checkpoint := do
  let c ← readCheckpoint P text
  authenticate P c sealKey publicKey
  return c

variable {P}

/-! ### What a checkpoint says -/

/-- A checkpoint names the record, and carries the signature it was asked for. -/
structure Checkpoint.MadeFor (c : Checkpoint) (r : AuditRecord) (root : PyStr)
    (signingKey : Option (KeyArg P.PrivateKey)) : Prop where
  seq : c.seq = r.seq
  hash : c.hash = r.hash
  keyId : c.keyId = r.keyId
  merkleRoot : c.merkleRoot = root
  signed : ∀ key, signingKey = some key → ∃ message,
    c.message = .ok message ∧ signMessage P message key = .ok c.signatureEd25519

theorem makeCheckpoint_spec {r : AuditRecord} {sealKey : Option Bytes} {root : PyStr}
    {signingKey : Option (KeyArg P.PrivateKey)} {signerId : PyStr} {c : Checkpoint}
    (h : makeCheckpoint P r sealKey root signingKey signerId = .ok c) :
    c.MadeFor r root signingKey := by
  unfold makeCheckpoint at h
  obtain ⟨signature, -, h⟩ := bind_eq_ok.mp h
  obtain ⟨ed25519, hsign, h⟩ := bind_eq_ok.mp h
  obtain rfl := Except.ok.inj h
  refine ⟨rfl, rfl, rfl, rfl, ?_⟩
  rintro key rfl
  exact bind_eq_ok.mp hsign

/-! ### When a signature is accepted -/

theorem verifyCheckpointSignature_eq_true {c : Checkpoint} {publicKey : KeyArg P.PublicKey} :
    verifyCheckpointSignature P c publicKey = .ok true ↔ c.signatureEd25519 ≠ [] ∧
      ∃ message, c.message = .ok message ∧
        verifySignature P c.signatureEd25519 message publicKey = .ok true := by
  unfold verifyCheckpointSignature
  by_cases hsig : c.signatureEd25519 = []
  · simp [hsig]
  · rw [if_neg hsig, bind_eq_ok]
    exact (and_iff_right hsig).symm

theorem checkpointSignature_eq_ok {seq : ℤ} {h k m s : PyStr} {key : Bytes} :
    checkpointSignature P seq h k key m = .ok s ↔
      ∃ message, checkpointMessage seq h k m = .ok message ∧
        s = (P.hmacSha256 key message).hex := by
  rw [checkpointSignature, bind_eq_ok]
  refine exists_congr fun message => and_congr_right fun _ => ?_
  rw [pure_eq_ok, Except.ok.injEq, eq_comm]

theorem Digest.all_ascii_hex (d : Digest) : d.hex.all (fun c => c.val < 128) = true := by
  rw [List.all_eq_true]
  intro c hc
  obtain ⟨n, hn, rfl⟩ := hexStr_chars c hc
  interval_cases n <;> decide

/-- Digests are compared without an exception. -/
theorem compareDigest_of_ne {d e : Digest} (h : d.hex ≠ e.hex) :
    compareDigest d.hex e.hex = .ok false := by
  rw [compareDigest, List.all_append, d.all_ascii_hex, e.all_ascii_hex, Bool.and_true, if_pos rfl,
    beq_eq_false_iff_ne.mpr h]

theorem compareDigest_hex {s : PyStr} {d : Digest} :
    compareDigest s d.hex = .ok true ↔ s = d.hex := by
  have hhex := d.all_ascii_hex
  unfold compareDigest
  rw [List.all_append, hhex, Bool.and_true]
  constructor
  · intro h
    split at h
    · simpa using h
    · cases h
  · rintro rfl
    rw [if_pos hhex, beq_self_eq_true]

/-- The Ed25519 half passes when there is no such signature, or it verifies. -/
theorem checkEd25519_eq_ok {c : Checkpoint} {publicKey : Option (KeyArg P.PublicKey)} {b : Bool} :
    checkEd25519 P c publicKey = .ok b ↔
      (c.signatureEd25519 = [] ∧ b = false) ∨
      (b = true ∧ ∃ key, publicKey = some key ∧ verifyCheckpointSignature P c key = .ok true) := by
  unfold checkEd25519
  by_cases hsig : c.signatureEd25519 = []
  · rw [if_pos hsig]
    constructor
    · intro h
      exact Or.inl ⟨hsig, (Except.ok.inj h).symm⟩
    · rintro (⟨-, rfl⟩ | ⟨-, key, -, hver⟩)
      · rfl
      · exact absurd hsig (verifyCheckpointSignature_eq_true.mp hver).1
  · rw [if_neg hsig]
    cases publicKey with
    | none => simp [hsig]
    | some key =>
      cases hver : verifyCheckpointSignature P c key with
      | error e => simp [hsig, hver]
      | ok v => cases v <;> simp [hsig, hver, eq_comm]

/-- The HMAC half passes when nothing is asked of it, or the tag is the right one. -/
theorem checkHmac_eq_ok {c : Checkpoint} {sealKey : Option Bytes} {b : Bool} :
    checkHmac P c sealKey b = .ok () ↔
      (c.signature = [] ∨ b = true) ∨ ∃ key, sealKey = some key ∧
        checkpointSignature P c.seq c.hash c.keyId key c.merkleRoot = .ok c.signature := by
  unfold checkHmac
  by_cases hskip : c.signature = [] ∨ b = true
  · rw [if_pos hskip]
    simp [hskip]
  · rw [if_neg hskip]
    cases sealKey with
    | none => simp [hskip]
    | some key =>
      simp only [hskip, false_or, Option.some.injEq, exists_eq_left', bind_eq_ok]
      constructor
      · rintro ⟨expected, hexpected, v, hcompare, hv⟩
        obtain ⟨message, -, rfl⟩ := checkpointSignature_eq_ok.mp hexpected
        cases v with
        | false => cases hv
        | true => rw [hexpected, compareDigest_hex.mp hcompare]
      · intro hexpected
        obtain ⟨message, -, hsig⟩ := checkpointSignature_eq_ok.mp hexpected
        refine ⟨c.signature, hexpected, true, ?_, rfl⟩
        rw [hsig]
        exact compareDigest_hex.mpr rfl

theorem authenticate_eq_ok {c : Checkpoint} {sealKey : Option Bytes}
    {publicKey : Option (KeyArg P.PublicKey)} :
    authenticate P c sealKey publicKey = .ok () ↔
      ∃ b, checkEd25519 P c publicKey = .ok b ∧ checkHmac P c sealKey b = .ok () := by
  rw [authenticate, bind_eq_ok]

/-- A file is loaded when it describes a checkpoint that passes. -/
theorem loadCheckpoint_eq_ok {text : PyStr} {sealKey : Option Bytes}
    {publicKey : Option (KeyArg P.PublicKey)} {c : Checkpoint} :
    loadCheckpoint P text sealKey publicKey = .ok c ↔
      readCheckpoint P text = .ok c ∧ authenticate P c sealKey publicKey = .ok () := by
  simp only [loadCheckpoint, bind_eq_ok, pure_eq_ok, Except.ok.injEq]
  constructor
  · rintro ⟨c', hread, _, hauth, rfl⟩
    exact ⟨hread, hauth⟩
  · rintro ⟨hread, hauth⟩
    exact ⟨c, hread, (), hauth, rfl⟩

end AuditChain
