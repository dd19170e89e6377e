/-
AuditChain/Log.lean

The audit log: append, read, rotate keys, checkpoint and verify.

An `AuditLog` cannot be built with a short seal key, without its current key in
the keyring, or with a signing key and no signer id; the constructor checks
these or establishes them, and every operation keeps them.  A `World` is a log
together with the storage behind it.
-/
import AuditChain.Backend
import AuditChain.Verify

namespace AuditChain

open Python

/-- Seal keys have at least this many bytes. -/
def MIN_KEY_LENGTH : ℕ := 16

/-- `seal_key must be at least 16 bytes`. -/
def shortKey : PyError :=
  valueError (lit "seal_key must be at least " ++ natStr MIN_KEY_LENGTH ++ lit " bytes")

variable (P : Runtime)

/-- An audit log: its keys, and what it remembers of the storage. -/
structure AuditLog where
  sealKey : Option Bytes
  keyId : PyStr
  keyring : StrDict Bytes
  signingKey : Option P.PrivateKey
  signerId : PyStr
  /-- Do several processes share the storage? -/
  shared : Bool
  /-- The cached tail. -/
  last : Option AuditRecord
  inited : Bool
  longKey : ∀ key, sealKey = some key → MIN_KEY_LENGTH ≤ key.length
  currentKey : ∀ key, sealKey = some key → keyring.lookup keyId = some key
  signs : signingKey.isSome = true → signerId ≠ [] ∧ P.cryptographyAvailable = true

/-- The arguments of the constructor.  `lock` says of a given lock whether it is
more than `NoLock`. -/
structure Config where
  sealKey : Option Bytes := none
  keyId : PyStr := lit "k0"
  keyring : Option (StrDict Bytes) := none
  signingKey : Option (KeyArg P.PrivateKey) := none
  signerId : PyStr := lit "s0"
  lock : Option Bool := none
  lockPath : Option PyStr := none

variable {P}

/-- The keyring that the constructor builds. -/
def Config.initialKeyring (cfg : Config P) : StrDict Bytes :=
  match cfg.sealKey with
  | some key => AList.insert cfg.keyId key (cfg.keyring.getD ∅)
  | none => cfg.keyring.getD ∅

/-- `AuditLog(...)`. -/
def AuditLog.new (cfg : Config P) : Except PyError (AuditLog P) :=
  if hlong : cfg.sealKey.any (fun key => key.length < MIN_KEY_LENGTH) = true then .error shortKey
  else
    match hkey : cfg.signingKey.mapM (loadPrivateKey P) with
    | .error e => .error e
    | .ok signingKey =>
      if hsigner : signingKey.isSome = true ∧ cfg.signerId = [] then
        .error (valueError (lit "signer_id must not be empty when signing_key is set"))
      else if cfg.lock.isSome && cfg.lockPath.isSome then
        .error (valueError (lit "pass either lock or lock_path, not both"))
      else .ok {
        sealKey := cfg.sealKey
        keyId := cfg.keyId
        keyring := cfg.initialKeyring
        signingKey := signingKey
        signerId := cfg.signerId
        shared := cfg.lock.getD (cfg.lockPath.any (· ≠ []))
        last := none
        inited := false
        longKey := by
          intro key hsome
          simpa [hsome] using hlong
        currentKey := by
          intro key hsome
          rw [Config.initialKeyring, hsome, AList.lookup_insert]
        signs := by
          intro hsome
          refine ⟨fun hnil => hsigner ⟨hsome, hnil⟩, ?_⟩
          cases harg : cfg.signingKey with
          | none =>
            rw [harg] at hkey
            obtain rfl := Except.ok.inj hkey
            cases hsome
          | some arg =>
            cases hload : loadPrivateKey P arg with
            | error e => simp [harg, hload] at hkey
            | ok k => exact available_of_loadPrivateKey hload }

/-- `timestamp or _utcnow()`. -/
def timestampOr (timestamp : Option PyStr) (now : PyStr) : PyStr :=
  if timestamp.getD [] = [] then now else timestamp.getD []

/-- The record before it is sealed. -/
def AuditLog.buildRecord (log : AuditLog P) (actor action subject : PyStr) (metadata : PyDict)
    (timestamp : Option PyStr) (now : PyStr) (prev : Option AuditRecord) : AuditRecord where
  seq := match prev with
    | none => 0
    | some p => p.seq + 1
  timestamp := timestampOr timestamp now
  actor := actor
  action := action
  subject := subject
  metadata := metadata
  prevHash := match prev with
    | none => GENESIS_HASH
    | some p => p.hash
  hash := []
  keyId := if log.sealKey.isSome then log.keyId else []
  signerId := if log.signingKey.isSome then log.signerId else []

/-- Hash, and sign if there is a key to sign with. -/
def AuditLog.seal (log : AuditLog P) (r : AuditRecord) : Except PyError AuditRecord :=
  match computeRecordHash P r log.sealKey with
  | .error e =>
    -- `except TypeError`; any other exception is passed on
    if e.cls = .typeError then
      .error (valueError (lit "metadata must be JSON-serializable"))
    else .error e
  | .ok recordHash =>
    -- the signature covers the finished hash
    let r := { r with hash := recordHash }
    match log.signingKey with
    | none => .ok r
    | some key => do
      let signature ← signRecord P r (.object key)
      return { r with signature := signature }

/-- One entry of a batch. -/
structure BatchEntry where
  actor : PyStr
  action : PyStr
  subject : PyStr
  metadata : Option PyDict

/-- The loop of `append_many`: each record is built on the one before it, and stamped
with the reading of the clock at that moment. -/
def AuditLog.sealMany (log : AuditLog P) :
    List BatchEntry → (clock : ℕ → PyStr) → Option AuditRecord → Except PyError (List AuditRecord)
  | [], _, _ => .ok []
  | e :: es, clock, prev => do
    let r ← log.seal
      (log.buildRecord e.actor e.action e.subject (e.metadata.getD []) none (clock 0) prev)
    let rs ← log.sealMany es (fun i => clock (i + 1)) (some r)
    return r :: rs

/-- Take a new seal key, and keep it in the keyring. -/
def AuditLog.withKey (log : AuditLog P) (key : Bytes) (keyId : PyStr)
    (h : MIN_KEY_LENGTH ≤ key.length) : AuditLog P :=
  { log with
    sealKey := some key
    keyId := keyId
    keyring := AList.insert keyId key log.keyring
    longKey := fun key' hkey' => Option.some.inj hkey' ▸ h
    currentKey := fun key' hkey' => by rw [AList.lookup_insert, hkey'] }

/-- The metadata of a rotation marker. -/
def AuditLog.rotationMetadata (log : AuditLog P) (newKeyId : PyStr) : PyDict :=
  [(.str (lit "from_key_id"), if log.sealKey.isSome then .str log.keyId else .null),
   (.str (lit "to_key_id"), .str newKeyId)]

/-- The keys that `AuditLog.verify` passes on. -/
def AuditLog.keyMaterial (log : AuditLog P) (signers : Option (StrDict (KeyArg P.PublicKey))) :
    KeyMaterial P where
  sealKey := log.sealKey
  keyring :=
    match log.sealKey with
    | some key => (log.keyring.setdefault log.keyId key).orNone
    | none => log.keyring.orNone
  signers :=
    match log.signingKey with
    | some key =>
      ((signers.getD ∅).setdefault log.signerId (.object (P.publicKey key))).orNone
    | none => (signers.getD ∅).orNone

variable (P) in
/-- A log and the storage behind it. -/
structure World (B : StorageBackend) where
  log : AuditLog P
  store : B.State

namespace World

variable {B : StorageBackend}

/-- Operations on a world. -/
abbrev Op (P : Runtime) (B : StorageBackend) (α : Type) := Operation PyError (World P B) α

/-- An operation of the storage. -/
def storage {α : Type} (x : Operation PyError B.State α) : Op P B α :=
  Operation.zoom World.store (fun s w => { w with store := s }) x

/-- Change the log. -/
def modifyLog (f : AuditLog P → AuditLog P) : Op P B Unit :=
  Operation.modify fun w => { w with log := f w.log }

/-- Open the storage and restore the chain state. -/
def init : Op P B Unit := do
  storage B.init
  let records ← storage B.load
  modifyLog fun log => { log with last := records.getLast?, inited := true }

/-- `if not self._inited: await self.init()`. -/
def ensureInited : Op P B Unit := do
  let w ← Operation.get
  if w.log.inited then pure () else init

/-- Re-read the tail, when the storage is shared. -/
def refreshTail : Op P B Unit := do
  let w ← Operation.get
  if w.log.shared then do
    let last ← storage B.loadLast
    modifyLog fun log => { log with last := last }
  else pure ()

/-- Append one record and return it. -/
def append (actor action subject : PyStr) (metadata : Option PyDict)
    (timestamp : Option PyStr) (now : PyStr) : Op P B AuditRecord := do
  ensureInited
  refreshTail
  let w ← Operation.get
  let r ← Operation.ofExcept (w.log.seal
    (w.log.buildRecord actor action subject (metadata.getD []) timestamp now w.log.last))
  storage (B.append r)
  modifyLog fun log => { log with last := some r }
  return r

/-- Append several records and return them. -/
def appendMany (entries : List BatchEntry) (clock : ℕ → PyStr) : Op P B (List AuditRecord) := do
  ensureInited
  refreshTail
  let w ← Operation.get
  let rs ← Operation.ofExcept (w.log.sealMany entries clock w.log.last)
  if rs.isEmpty then return []
  storage (B.appendMany rs)
  modifyLog fun log => { log with last := rs.getLast? }
  return rs

/-- Switch the sealing key and record the rotation in the chain itself. -/
def rotate (newSealKey : Bytes) (newKeyId actor now : PyStr) : Op P B AuditRecord :=
  if h : MIN_KEY_LENGTH ≤ newSealKey.length then do
    ensureInited
    let w ← Operation.get
    -- the marker is still sealed with the old key
    let marker ← append actor (lit "key.rotate") (lit "key:" ++ newKeyId)
      (some (w.log.rotationMetadata newKeyId)) none now
    modifyLog fun log => log.withKey newSealKey newKeyId h
    return marker
  else Operation.raise shortKey

/-- Load every record. -/
def read : Op P B (List AuditRecord) := do
  ensureInited
  storage B.load

/-- Anchor the current end of the chain. -/
def checkpoint : Op P B Checkpoint := do
  let records ← read
  match records.getLast? with
  | none => Operation.raise (valueError (lit "cannot checkpoint an empty log"))
  | some r => do
    let w ← Operation.get
    let root ← Operation.ofExcept (AuditChain.merkleRoot P (records.map AuditRecord.hash))
    Operation.ofExcept (makeCheckpoint P r w.log.sealKey root
      (w.log.signingKey.map KeyArg.object) w.log.signerId)

/-- Merkle root over every record in the log. -/
def merkleRoot : Op P B PyStr := do
  let records ← read
  Operation.ofExcept (AuditChain.merkleRoot P (records.map AuditRecord.hash))

/-- Prove that a record is part of this log. -/
def inclusionProof (seq : ℤ) : Op P B InclusionProof := do
  let records ← read
  Operation.ofExcept (merkleProof P (records.map AuditRecord.hash) seq)

/-- Check the whole chain.  A failure to read is a report, not an exception. -/
def verify (expectedCount : Option ℤ) (checkpoint : Option Checkpoint)
    (signers : Option (StrDict (KeyArg P.PublicKey))) : Op P B VerifyReport := fun w =>
  match read w with
  | (.error e, w') =>
    (.ok { ok := false, recordsChecked := 0, firstErrorSeq := none, reason := some e.msg }, w')
  | (.ok records, w') =>
    -- the keys are those after the read, which may have opened the log
    (verifyChain records (w'.log.keyMaterial signers) expectedCount checkpoint, w')

end World

end AuditChain
