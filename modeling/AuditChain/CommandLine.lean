/-
AuditChain/CommandLine.lean

The commands `checkpoint`, `proof` and `verify-proof`.

The operator anchors the log and proves a record; whoever holds the anchor checks
the proof without the log.  Each command is a function of the files it is given
and says which file it writes.  `checkpoint` can sign the anchor with Ed25519, and
then `proof` cannot open it: it has no option for the public key.

    workflow_iff            all three go through, if the anchor was not signed so
    workflow_unanchored     they always do, if `proof` is not given the anchor
-/
import AuditChain.Anchors
import AuditChain.OwnAnchors
import AuditChain.ProofFiles

namespace AuditChain

open Python HashChain Machine

namespace CommandLine

/-! ### The code -/

/-- A text file: its path, as it is printed, and its text. -/
structure TextFile where
  path : PyStr
  text : PyStr

/-- A key option: it names a file, or else it is the key in hexadecimal. -/
inductive KeyOption
  | file (raw : Bytes)
  | hex (value : PyStr)

/-- What is given to `load_private_key` or `load_public_key`. -/
def KeyOption.arg {K : Type} : KeyOption → KeyArg K
  | .file raw => .bytes raw
  | .hex value => .text value

/-- What a command leaves behind. -/
structure Ran where
  exitCode : ℕ
  written : Option TextFile := none
  stdout : PyStr := []
  stderr : PyStr := []

/-- The keys that `checkpoint` is given: the content of the file with the seal key, and
the signing key with the name to sign under. -/
structure AnchorKeys where
  sealKey : Option Bytes
  signingKey : Option KeyOption
  signerId : PyStr

variable (P : Runtime)

/-- `_read_public_key`. -/
def readPublicKey (value : Option KeyOption) : Except PyError (Option (KeyArg P.PublicKey)) :=
  match value with
  | none => .ok none
  | some value => do
    let key ← loadPublicKey P value.arg
    return some (.object key)

/-- The arguments of `AuditLog` in `_checkpoint`. -/
def AnchorKeys.config (keys : AnchorKeys) : Config P where
  sealKey := keys.sealKey
  signingKey := keys.signingKey.map KeyOption.arg
  signerId := keys.signerId

/-- The end of `main`: what was raised is printed. -/
def finish (x : Except PyError Ran) : Ran :=
  match x with
  | .ok ran => ran
  | .error e => { exitCode := 2, stderr := lit "error: " ++ e.msg ++ lit "\n" }

variable {P} in
/-- Open a log on the storage, use it and close it. -/
def withLog {B : StorageBackend} {α : Type} (cfg : Config P) (op : World.Op P B α) :
    Operation PyError B.State α := do
  let log ← Operation.ofExcept (AuditLog.new cfg)
  fun store => ((op ⟨log, store⟩).1, (op ⟨log, store⟩).2.store)

/-- What `_checkpoint` prints. -/
def checkpointLine (out : PyStr) (cp : Checkpoint) : PyStr :=
  lit "checkpoint written to " ++ out ++ lit ": seq " ++ intStr cp.seq ++
    (if cp.signatureEd25519 ≠ [] then lit " (Ed25519-signed by " ++ cp.signerId ++ lit ")\n"
     else if cp.signature ≠ [] then lit " (signed)\n"
     else lit " (unsigned — log has no seal key)\n")

/-- The anchor that `_checkpoint` makes. -/
def anchor (B : StorageBackend) (keys : AnchorKeys) : Operation PyError B.State Checkpoint :=
  withLog (keys.config P) World.checkpoint

/-- `checkpoint`. -/
def checkpointCommand (B : StorageBackend) (keys : AnchorKeys) (out : PyStr) :
    Operation PyError B.State Ran := do
  let cp ← anchor P B keys
  let text ← Operation.ofExcept (saveCheckpoint P cp)
  return { exitCode := 0, written := some ⟨out, text⟩, stdout := checkpointLine out cp }

/-- `_proof`. -/
def buildProof (B : StorageBackend) (seq : ℤ) (checkpoint : Option Checkpoint)
    (sealKey : Option Bytes) : Operation PyError B.State InclusionProof :=
  withLog (P := P) { sealKey := sealKey } do
    let proof ← World.inclusionProof seq
    match checkpoint with
    | none => return proof
    | some c =>
      if c.merkleRoot ≠ [] ∧ c.merkleRoot ≠ proof.root then
        Operation.raise (valueError (lit "merkle root mismatch: the log does not match the "
          ++ lit "checkpoint; refusing to produce a proof"))
      else return proof

/-- `proof`. -/
def proofCommand (B : StorageBackend) (seq : ℤ) (checkpoint : Option TextFile)
    (sealKey : Option Bytes) (output : Option PyStr) : Operation PyError B.State Ran := do
  -- `getattr(args, "public_key", None)`, and the parser of `proof` defines no such option
  let publicKey ← Operation.ofExcept (readPublicKey P none)
  let checkpoint ← Operation.ofExcept
    (checkpoint.mapM fun file => loadCheckpoint P file.text sealKey publicKey)
  let proof ← buildProof P B seq checkpoint sealKey
  match output with
  | some out => do
    let text ← Operation.ofExcept (proof.save P)
    return {
      exitCode := 0
      written := some ⟨out, text⟩
      stdout := lit "proof for seq " ++ intStr proof.seq ++ lit " written to " ++ out ++ lit "\n" }
  | none => do
    let text ← Operation.ofExcept (proof.dumps P (some 2))
    return { exitCode := 0, stdout := text ++ lit "\n" }

/-- The root that `_verify_proof` checks against. -/
def trustedRoot (proof : InclusionProof) (root : Option PyStr) (checkpoint : Option TextFile)
    (sealKey : Option Bytes) (publicKey : Option (KeyArg P.PublicKey)) : Except PyError PyStr :=
  match root, checkpoint with
  | some root, _ => .ok root
  | none, some file => do
    let c ← loadCheckpoint P file.text sealKey publicKey
    if c.merkleRoot = [] then
      throw (valueError (file.path ++ lit " carries no merkle root to check against"))
    else if c.seq < proof.seq then
      throw (valueError (lit "the proof is for seq " ++ intStr proof.seq
        ++ lit ", beyond the checkpoint (seq " ++ intStr c.seq ++ lit ")"))
    else if proof.size ≠ c.seq + 1 then
      throw (valueError (lit "the proof covers " ++ intStr proof.size
        ++ lit " record(s) but the checkpoint covers " ++ intStr (c.seq + 1)))
    else return c.merkleRoot
  | none, none =>
    .error (valueError (lit "pass --root HEX or --checkpoint to say which root to check against"))

/-- `_verify_proof`. -/
def verifyProof (proofFile : TextFile) (root : Option PyStr) (checkpoint : Option TextFile)
    (sealKey : Option Bytes) (publicKey : Option (KeyArg P.PublicKey)) : Except PyError Bool := do
  let proof ← InclusionProof.load P proofFile.text
  let expected ← trustedRoot P proof root checkpoint sealKey publicKey
  proof.verify P (some expected)

/-- `verify-proof`. -/
def verifyProofCommand (proofFile : TextFile) (root : Option PyStr) (checkpoint : Option TextFile)
    (sealKey : Option Bytes) (publicKey : Option KeyOption) : Except PyError Ran := do
  let publicKey ← readPublicKey P publicKey
  let ok ← verifyProof P proofFile root checkpoint sealKey publicKey
  let proof ← InclusionProof.load P proofFile.text
  if ok then
    return {
      exitCode := 0
      stdout := lit "OK: record " ++ intStr proof.seq ++ lit " is part of the log of "
        ++ intStr proof.size ++ lit " record(s)\nmerkle root: " ++ proof.root ++ lit "\n" }
  else
    return { exitCode := 1, stderr := lit "FAILED: the proof does not match the trusted root\n" }

/-! ### The workflow -/

/-- The seal key of whoever checks a proof: none is needed beside an Ed25519 signature. -/
def AnchorKeys.verifierSealKey (keys : AnchorKeys) : Option Bytes :=
  if keys.signingKey.isSome then none else keys.sealKey

/-- The public key of whoever checks a proof, if the anchor is signed with Ed25519. -/
def AnchorKeys.verifierPublicKey (keys : AnchorKeys) (publicKey : KeyOption) : Option KeyOption :=
  if keys.signingKey.isSome then some publicKey else none

/-- The command succeeded and wrote this file. -/
def Ran.Wrote (ran : Ran) (file : TextFile) : Prop := ran.exitCode = 0 ∧ ran.written = some file

/-- One use of the three commands. -/
structure Workflow where
  keys : AnchorKeys
  /-- The key that whoever checks the proof is given for the signing key. -/
  publicKey : KeyOption
  seq : ℤ
  anchorPath : PyStr
  proofPath : PyStr
  /-- Is `proof` given the anchor? -/
  compares : Bool

/-- `--checkpoint` of `proof`. -/
def Workflow.proofAnchor (f : Workflow) (anchorFile : TextFile) : Option TextFile :=
  if f.compares then some anchorFile else none

/-- The operator writes the anchor and the proof, both files say what was made, and the
proof is accepted.  The log is in the state `s₁` for `checkpoint` and `s₂` for `proof`. -/
structure Workflow.GoesThrough (f : Workflow) (B : StorageBackend) (s₁ s₂ : B.State)
    (c : Checkpoint) (p : InclusionProof) (anchorFile proofFile : TextFile) : Prop where
  anchor : (anchor P B f.keys s₁).1 = .ok c
  wroteAnchor : (finish (checkpointCommand P B f.keys f.anchorPath s₁).1).Wrote anchorFile
  anchorKept : ∃ publicKey,
    readPublicKey P (f.keys.verifierPublicKey f.publicKey) = .ok publicKey ∧
      loadCheckpoint P anchorFile.text f.keys.verifierSealKey publicKey = .ok c
  proof : (buildProof P B f.seq none f.keys.sealKey s₂).1 = .ok p
  wroteProof : (finish (proofCommand P B f.seq (f.proofAnchor anchorFile) f.keys.sealKey
    (some f.proofPath) s₂).1).Wrote proofFile
  proofKept : InclusionProof.load P proofFile.text = .ok p
  verified : (finish (verifyProofCommand P proofFile none (some anchorFile)
    f.keys.verifierSealKey (f.keys.verifierPublicKey f.publicKey))).exitCode = 0

/-! ### The logs that the commands open -/

variable {P}

theorem withLog_fst {B : StorageBackend} {α : Type} {cfg : Config P} {log : AuditLog P}
    (hnew : AuditLog.new cfg = .ok log) (op : World.Op P B α) (s : B.State) :
    (withLog cfg op s).1 = (op ⟨log, s⟩).1 :=
  congrArg Prod.fst (Operation.bind_ofExcept_ok hnew _ s)

/-- A seal key that one log accepts, another one accepts on its own. -/
theorem exists_new_sealKey {cfg : Config P} {log : AuditLog P} (hnew : AuditLog.new cfg = .ok log) :
    ∃ log', AuditLog.new ({ sealKey := cfg.sealKey } : Config P) = .ok log' := by
  have hlong : ¬cfg.sealKey.any (fun key => key.length < MIN_KEY_LENGTH) = true := by
    intro hshort
    rw [AuditLog.new, dif_pos hshort] at hnew
    cases hnew
  exact ⟨_, dif_neg hlong⟩

variable {B : OrderedBackend}

/-- **checkpoint** anchors the last record and the root over all of them. -/
theorem anchor_eq_ok {keys : AnchorKeys} {log : AuditLog P}
    (hnew : AuditLog.new (keys.config P) = .ok log) (s : B.State) {c : Checkpoint} :
    (anchor P B.toStorageBackend keys s).1 = .ok c ↔
      ∃ r root, (B.contents s).getLast? = some r ∧
        merkleRoot P ((B.contents s).map AuditRecord.hash) = .ok root ∧
          makeCheckpoint P r log.sealKey root (log.signingKey.map KeyArg.object) log.signerId
            = .ok c := by
  rw [anchor, withLog_fst hnew]
  exact World.checkpoint_eq_ok (tailOk_of_new hnew s)

/-- **proof** proves the record, unless the anchor has another root. -/
theorem buildProof_eq_ok {sealKey : Option Bytes} {log : AuditLog P}
    (hnew : AuditLog.new ({ sealKey := sealKey } : Config P) = .ok log) (s : B.State) {seq : ℤ}
    {checkpoint : Option Checkpoint} {p : InclusionProof}
    (hp : merkleProof P ((B.contents s).map AuditRecord.hash) seq = .ok p)
    (hroot : ∀ c, checkpoint = some c → c.merkleRoot = p.root) :
    (buildProof P B.toStorageBackend seq checkpoint sealKey s).1 = .ok p := by
  obtain ⟨s', hread, -⟩ := World.read_spec (tailOk_of_new hnew s)
  have hproof : World.inclusionProof seq (⟨log, s⟩ : World P B.toStorageBackend)
      = (.ok p, World.opened log s') := by
    rw [World.inclusionProof, Operation.bind_ok hread, Operation.ofExcept_apply]
    exact Prod.ext hp rfl
  rw [buildProof, withLog_fst hnew, Operation.bind_ok hproof]
  cases checkpoint with
  | none => rfl
  | some c =>
    have hsame : ¬(c.merkleRoot ≠ [] ∧ c.merkleRoot ≠ p.root) := fun h => h.2 (hroot c rfl)
    simp only [if_neg hsame]
    rfl

/-! ### The commands -/

theorem checkpointCommand_ok {B : StorageBackend} {keys : AnchorKeys} {s : B.State}
    {c : Checkpoint} (hc : (anchor P B keys s).1 = .ok c) {text : PyStr}
    (hsave : saveCheckpoint P c = .ok text) (out : PyStr) :
    (finish (checkpointCommand P B keys out s).1).Wrote ⟨out, text⟩ := by
  have hanchor : anchor P B keys s = (.ok c, (anchor P B keys s).2) := Prod.ext hc rfl
  rw [checkpointCommand, Operation.bind_ok hanchor, Operation.bind_ofExcept_ok hsave]
  exact ⟨rfl, rfl⟩

theorem proofCommand_ok {B : StorageBackend} {seq : ℤ} {file : Option TextFile}
    {sealKey : Option Bytes} {s : B.State} {checkpoint : Option Checkpoint}
    (hload : (file.mapM fun file => loadCheckpoint P file.text sealKey none) = .ok checkpoint)
    {p : InclusionProof} (hp : (buildProof P B seq checkpoint sealKey s).1 = .ok p) {text : PyStr}
    (hsave : p.save P = .ok text) (out : PyStr) :
    (finish (proofCommand P B seq file sealKey (some out) s).1).Wrote ⟨out, text⟩ := by
  have hkey : readPublicKey P none = .ok none := rfl
  have hproof : buildProof P B seq checkpoint sealKey s
      = (.ok p, (buildProof P B seq checkpoint sealKey s).2) := Prod.ext hp rfl
  rw [proofCommand, Operation.bind_ofExcept_ok hkey, Operation.bind_ofExcept_ok hload,
    Operation.bind_ok hproof]
  simp only [Operation.bind_ofExcept_ok hsave]
  exact ⟨rfl, rfl⟩

/-- An anchor that cannot be loaded stops `proof`. -/
theorem proofCommand_refused {B : StorageBackend} {seq : ℤ} {file : TextFile}
    {sealKey : Option Bytes} {s : B.State} {e : PyError}
    (hload : loadCheckpoint P file.text sealKey none = .error e) (out : Option PyStr) :
    (finish (proofCommand P B seq (some file) sealKey out s).1).exitCode = 2 := by
  have hkey : readPublicKey P none = .ok none := rfl
  have hfile : ((some file).mapM fun file => loadCheckpoint P file.text sealKey none)
      = .error e := by
    rw [Option.mapM_some, hload]
    rfl
  rw [proofCommand, Operation.bind_ofExcept_ok hkey, Operation.bind_ofExcept_error hfile]
  rfl

theorem verifyProofCommand_ok {proofFile anchorFile : TextFile} {p : InclusionProof}
    {c : Checkpoint} {sealKey : Option Bytes} {key : Option KeyOption}
    {publicKey : Option (KeyArg P.PublicKey)} (hkey : readPublicKey P key = .ok publicKey)
    (hload : loadCheckpoint P anchorFile.text sealKey publicKey = .ok c)
    (hproof : InclusionProof.load P proofFile.text = .ok p) (hroot : c.merkleRoot = p.root)
    (hne : p.root ≠ []) (hseq : p.seq ≤ c.seq) (hsize : p.size = c.seq + 1)
    (hverify : p.verify P (some p.root) = .ok true) :
    (finish (verifyProofCommand P proofFile none (some anchorFile) sealKey key)).exitCode = 0 := by
  have htrusted : trustedRoot P p none (some anchorFile) sealKey publicKey = .ok p.root := by
    simp only [trustedRoot, hload, ok_bind, hroot, if_neg hne, if_neg (not_lt.mpr hseq),
      if_neg (not_not.mpr hsize), pure_eq_ok]
  simp only [verifyProofCommand, hkey, ok_bind, verifyProof, hproof, htrusted, hverify, if_true]
  rfl

/-! ### An honest log -/

/-- What a checkpoint signature covers has bytes, if the texts in it do. -/
theorem exists_checkpointMessage (seq : ℤ) {recordHash keyId root : PyStr}
    (hhash : Encodable recordHash) (hkeyId : Encodable keyId) (hroot : Encodable root) :
    ∃ m, checkpointMessage seq recordHash keyId root = .ok m := by
  apply utf8Encode_ok_iff.mpr
  have hcolon : isSurrogate (ch ':') = false := by decide
  rw [checkpointText_eq, recordSigningText, encodable_append, encodable_cons, encodable_append,
    encodable_cons]
  refine ⟨encodable_intStr seq, hcolon, hhash, hcolon, ?_⟩
  split
  · exact hkeyId
  · rw [encodable_append, encodable_cons]
    exact ⟨hkeyId, hcolon, hroot⟩

/-- A checkpoint can be made if its message has bytes and the signing key can be loaded. -/
theorem exists_makeCheckpoint {r : AuditRecord} {root : PyStr} {message : Bytes}
    (hmessage : checkpointMessage r.seq r.hash r.keyId root = .ok message)
    {signingKey : Option (KeyArg P.PrivateKey)}
    (hsign : ∀ arg, signingKey = some arg → ∃ k, loadPrivateKey P arg = .ok k)
    (sealKey : Option Bytes) (signerId : PyStr) :
    ∃ c, makeCheckpoint P r sealKey root signingKey signerId = .ok c := by
  have hseal : ∀ b key, ∃ sig,
      checkpointSignature P r.seq r.hash r.keyId (b :: key) root = .ok sig :=
    fun b key => ⟨_, checkpointSignature_eq_ok.mpr ⟨message, hmessage, rfl⟩⟩
  cases signingKey with
  | none =>
    match sealKey with
    | none | some [] => exact ⟨_, rfl⟩
    | some (b :: key) =>
      obtain ⟨sig, hsig⟩ := hseal b key
      simp only [makeCheckpoint, hsig, ok_bind, pure_eq_ok]
      exact ⟨_, rfl⟩
  | some arg =>
    obtain ⟨k, hk⟩ := hsign arg rfl
    match sealKey with
    | none | some [] =>
      simp only [makeCheckpoint, hmessage, signMessage, hk, ok_bind, pure_eq_ok]
      exact ⟨_, rfl⟩
    | some (b :: key) =>
      obtain ⟨sig, hsig⟩ := hseal b key
      simp only [makeCheckpoint, hsig, hmessage, signMessage, hk, ok_bind, pure_eq_ok]
      exact ⟨_, rfl⟩

/-- The last record of an honest log, which the anchor is about. -/
theorem exists_last (run : HonestRun P) (hne : run.chain ≠ []) :
    ∃ r ∈ run.chain, run.chain.getLast? = some r ∧ r.seq + 1 = run.chain.length ∧
      Encodable r.hash ∧ Encodable r.timestamp := by
  have hpos := List.length_pos_of_ne_nil hne
  have hlast := List.getLast?_eq_some_getLast hne
  have hmem := List.getLast_mem hne
  obtain ⟨e, he, hrecord⟩ := HonestRun.exists_entry hmem
  have hwritten := hrecord ▸ run.written e he
  obtain ⟨data, hdata, -⟩ := hwritten.hashed
  refine ⟨_, hmem, hlast, ?_, hwritten.encodable_hash, encodable_timestamp hdata⟩
  rw [List.getLast_eq_getElem, run.chained.seq_getElem _ (by omega)]
  omega

variable (P) in
/-- The anchor that `log` makes of these records, and the proof of one of them. -/
structure Anchors (log : AuditLog P) (records : List AuditRecord) (i : ℕ) (c : Checkpoint)
    (p : InclusionProof) : Prop where
  made : ∃ r root, records.getLast? = some r ∧
    merkleRoot P (records.map AuditRecord.hash) = .ok root ∧
      makeCheckpoint P r log.sealKey root (log.signingKey.map KeyArg.object) log.signerId = .ok c
  kept : (log.signingKey.isSome = true → Encodable log.signerId) →
    ∃ text, saveCheckpoint P c = .ok text ∧ readCheckpoint P text = .ok c
  proof : merkleProof P (records.map AuditRecord.hash) i = .ok p
  texts : ∀ s ∈ p.texts, StrOk true s
  root : c.merkleRoot = p.root ∧ p.root ≠ []
  seq : p.seq ≤ c.seq
  size : p.size = c.seq + 1
  verified : p.verify P (some p.root) = .ok true

/-- **What an honest log anchors and proves.** -/
theorem exists_anchors (run : HonestRun P) (hids : ∀ r ∈ run.chain, Encodable r.keyId)
    (log : AuditLog P) {i : ℕ} (hi : i < run.chain.length) :
    ∃ c p, Anchors P log run.chain i c p := by
  have hne : run.chain ≠ [] := List.ne_nil_of_length_pos (by omega)
  have hhashes : run.chain.map AuditRecord.hash ≠ [] := by simpa using hne
  have hlength : (run.chain.map AuditRecord.hash).length = run.chain.length := List.length_map ..
  obtain ⟨bs, hdec⟩ := exists_decodes fun x hx => by
    obtain ⟨b, rfl⟩ := run.hash_hex x hx
    rw [fromHex?_hexStr]
    rfl
  have hbs := hdec.ne_nil hhashes
  obtain ⟨p, hp, hseq, hsize, hroot, hverify⟩ := exists_merkleProof (P := P) hdec hbs
    (i := i) (by omega)
  have hmerkle := merkleRoot_eq (P := P) hdec hbs
  rw [← hroot] at hmerkle
  obtain ⟨r, hr, hlast, hrseq, hhash, hts⟩ := exists_last run hne
  have hrootOk : Encodable p.root := hroot ▸ encodable_hexStr _
  obtain ⟨message, hmessage⟩ := exists_checkpointMessage r.seq hhash (hids r hr) hrootOk
  have hsign : ∀ arg, log.signingKey.map KeyArg.object = some arg →
      ∃ k, loadPrivateKey P arg = .ok k := by
    intro arg harg
    obtain ⟨k, hk, rfl⟩ := Option.map_eq_some_iff.mp harg
    exact ⟨k, loadPrivateKey_object (log.signs (by rw [hk]; rfl)).2 k⟩
  obtain ⟨c, hc⟩ := exists_makeCheckpoint hmessage hsign log.sealKey log.signerId
  have hfor := makeCheckpoint_spec hc
  refine ⟨c, p, ⟨r, p.root, hlast, hmerkle, hc⟩, fun hsigner => ?_, hp,
    texts_merkleProof hhashes run.hash_hex (by omega) hp, ⟨hfor.merkleRoot, ?_⟩, ?_, ?_, hverify⟩
  · exact readCheckpoint_made hc hhash (hids r hr) hts hrootOk
      (by rw [Option.isSome_map]; exact hsigner)
  · exact merkleRoot_ne_nil hmerkle
  · rw [hseq, hfor.seq]
    omega
  · rw [hsize, hfor.seq, hrseq, hlength]

/-- The log meets its anchor. -/
theorem Anchors.anchored {run : HonestRun P} {log : AuditLog P} {i : ℕ} {c : Checkpoint}
    {p : InclusionProof} (h : Anchors P log run.chain i c p) : Anchored run.chain c ∧
      merkleRoot P (run.chain.map AuditRecord.hash) = .ok c.merkleRoot := by
  obtain ⟨r, root, hlast, hroot, hmade⟩ := h.made
  have hfor := makeCheckpoint_spec hmade
  rw [List.getLast?_eq_getElem?] at hlast
  obtain ⟨hlt, hget⟩ := List.getElem?_eq_some_iff.mp hlast
  refine ⟨anchored_of_getElem (k := run.chain.length - 1) ?_ hlt ?_, by rw [hroot, hfor.merkleRoot]⟩
  · rw [hfor.seq, ← hget, run.chained.seq_getElem _ hlt]
  · rw [hget, hfor.hash]

/-! ### What goes through -/

/-- The public key that whoever checks the proof was given belongs to the signing key. -/
def Workflow.KeysBelong (f : Workflow) (log : AuditLog P) : Prop :=
  ∀ k, log.signingKey = some k → loadPublicKey P f.publicKey.arg = .ok (P.publicKey k)

/-- What `_checkpoint` makes of its keys. -/
theorem anchorKeys_spec {keys : AnchorKeys} {log : AuditLog P}
    (hnew : AuditLog.new (keys.config P) = .ok log) : log.sealKey = keys.sealKey ∧
      log.signerId = keys.signerId ∧ (log.signingKey = none ↔ keys.signingKey = none) := by
  obtain ⟨hseal, -, hsigner, hkey⟩ := new_spec hnew
  refine ⟨hseal, hsigner, ?_⟩
  simp only [AnchorKeys.config] at hkey
  cases hsigning : keys.signingKey with
  | none =>
    rw [hsigning] at hkey
    exact iff_of_true (Except.ok.inj hkey).symm rfl
  | some option =>
    rw [hsigning, Option.map_some, Option.mapM_some] at hkey
    obtain ⟨k, -, hk⟩ := bind_eq_ok.mp hkey
    rw [← Except.ok.inj hk]
    exact iff_of_false nofun nofun

/-- The anchor is opened by whoever checks the proof. -/
theorem loads_anchor (hP : P.SignaturesVerify) {f : Workflow} {log : AuditLog P}
    (hnew : AuditLog.new (f.keys.config P) = .ok log) (hbelong : f.KeysBelong log)
    {records : List AuditRecord} {i : ℕ} {c : Checkpoint} {p : InclusionProof}
    (h : Anchors P log records i c p) {text : PyStr} (hread : readCheckpoint P text = .ok c) :
    ∃ publicKey, readPublicKey P (f.keys.verifierPublicKey f.publicKey) = .ok publicKey ∧
      loadCheckpoint P text f.keys.verifierSealKey publicKey = .ok c := by
  obtain ⟨hseal, -, hsigning⟩ := anchorKeys_spec hnew
  obtain ⟨r, root, -, -, hc⟩ := h.made
  cases hkey : log.signingKey with
  | none =>
    rw [hkey, hseal] at hc
    have hnone := hsigning.mp hkey
    refine ⟨none, ?_, ?_⟩
    · rw [AnchorKeys.verifierPublicKey, hnone]
      rfl
    · rw [AnchorKeys.verifierSealKey, hnone]
      exact loadCheckpoint_eq_ok.mpr ⟨hread, authenticate_unsigned hc⟩
  | some k =>
    rw [hkey] at hc
    obtain ⟨option, hoption⟩ := Option.ne_none_iff_exists'.mp
      (fun hnone => by simp [hsigning.mpr hnone] at hkey : f.keys.signingKey ≠ none)
    have hav := (log.signs (by rw [hkey]; rfl)).2
    refine ⟨some (.object (P.publicKey k)), ?_, ?_⟩
    · simp only [AnchorKeys.verifierPublicKey, hoption, Option.isSome_some, if_true, readPublicKey,
        hbelong k hkey, ok_bind, pure_eq_ok]
    · exact loadCheckpoint_eq_ok.mpr ⟨hread, authenticate_signed hP (loadPrivateKey_object hav k) hc
        (loadPublicKey_object hav _) _⟩

/-- The workflow goes through, if `proof` can open the anchor or is not given it. -/
theorem goesThrough (hP : P.SignaturesVerify) {f : Workflow} {log : AuditLog P}
    (hnew : AuditLog.new (f.keys.config P) = .ok log) (hbelong : f.KeysBelong log)
    (hsigner : log.signingKey.isSome = true → Encodable log.signerId) {s₁ s₂ : B.State}
    (hlog : B.contents s₂ = B.contents s₁) {i : ℕ} (hseq : f.seq = i) {c : Checkpoint}
    {p : InclusionProof} (h : Anchors P log (B.contents s₁) i c p)
    (hopen : f.compares = false ∨ f.keys.signingKey = none) :
    ∃ anchorFile proofFile, f.GoesThrough P B.toStorageBackend s₁ s₂ c p anchorFile proofFile := by
  obtain ⟨text, hsave, hread⟩ := h.kept hsigner
  obtain ⟨proofText, hproofSave, hproofLoad⟩ := InclusionProof.load_save (P := P) h.texts
  obtain ⟨publicKey, hpublic, hload⟩ := loads_anchor hP hnew hbelong h hread
  obtain ⟨log', hnew'⟩ := exists_new_sealKey hnew
  have hanchor := (anchor_eq_ok hnew s₁).mpr h.made
  have hproof := h.proof
  rw [← hlog] at hproof
  have hbuilt : (buildProof P B.toStorageBackend i none f.keys.sealKey s₂).1 = .ok p :=
    buildProof_eq_ok hnew' s₂ hproof nofun
  refine ⟨⟨f.anchorPath, text⟩, ⟨f.proofPath, proofText⟩, hanchor,
    checkpointCommand_ok hanchor hsave _, ⟨publicKey, hpublic, hload⟩, ?_, ?_, hproofLoad,
    verifyProofCommand_ok hpublic hload hproofLoad h.root.1 h.root.2 h.seq h.size h.verified⟩
  · rw [hseq]
    exact hbuilt
  · rw [hseq]
    cases hcompares : f.compares with
    | false =>
      rw [Workflow.proofAnchor, hcompares]
      exact proofCommand_ok rfl hbuilt hproofSave _
    | true =>
      have hnone := hopen.resolve_left (by simp [hcompares])
      obtain ⟨r, root, -, -, hc⟩ := h.made
      rw [(anchorKeys_spec hnew).2.2.mpr hnone, (anchorKeys_spec hnew).1] at hc
      have hown : loadCheckpoint P text f.keys.sealKey none = .ok c :=
        loadCheckpoint_eq_ok.mpr ⟨hread, authenticate_unsigned hc⟩
      have hopened : (some ⟨f.anchorPath, text⟩ : Option TextFile).mapM
          (fun file => loadCheckpoint P file.text f.keys.sealKey none) = .ok (some c) := by
        rw [Option.mapM_some, hown]
        rfl
      have hcompared : (buildProof P B.toStorageBackend i (some c) f.keys.sealKey s₂).1 = .ok p :=
        buildProof_eq_ok hnew' s₂ hproof fun c' hc' => by rw [← Option.some.inj hc', h.root.1]
      rw [Workflow.proofAnchor, hcompares]
      exact proofCommand_ok hopened hcompared hproofSave _

/-- `proof` cannot open an anchor that is signed with Ed25519. -/
theorem signingKey_of_goesThrough {f : Workflow} (hcompares : f.compares = true) {log : AuditLog P}
    (hnew : AuditLog.new (f.keys.config P) = .ok log) {s₁ s₂ : B.State} {c : Checkpoint}
    {p : InclusionProof} {anchorFile proofFile : TextFile}
    (h : f.GoesThrough P B.toStorageBackend s₁ s₂ c p anchorFile proofFile) :
    f.keys.signingKey = none := by
  refine (anchorKeys_spec hnew).2.2.mp ?_
  obtain ⟨publicKey, -, hload⟩ := h.anchorKept
  obtain ⟨r, root, -, -, hc⟩ := (anchor_eq_ok hnew s₁).mp h.anchor
  cases hkey : log.signingKey with
  | none => rfl
  | some k =>
    rw [hkey] at hc
    have hrefused : loadCheckpoint P anchorFile.text f.keys.sealKey none = .error (valueError
        (lit "checkpoint is signed with Ed25519; pass the public key to verify it")) := by
      rw [loadCheckpoint, (loadCheckpoint_eq_ok.mp hload).1, ok_bind,
        authenticate_signed_none hc, error_bind]
    have hwrote := h.wroteProof.1
    rw [Workflow.proofAnchor, hcompares, if_pos rfl, proofCommand_refused hrefused] at hwrote
    cases hwrote

/-- **The documented workflow** goes through for an anchor without an Ed25519 signature, and
for no other: `proof` cannot be given the public key.  A log file holds UTF-8, and with it
the key ids. -/
theorem workflow_iff (hP : P.SignaturesVerify) (run : HonestRun P)
    (hids : ∀ r ∈ run.chain, Encodable r.keyId) (f : Workflow) (hcompares : f.compares = true)
    (log : AuditLog P) (hnew : AuditLog.new (f.keys.config P) = .ok log) (s₁ s₂ : B.State)
    (hs₁ : B.contents s₁ = run.chain) (hs₂ : B.contents s₂ = run.chain) (i : ℕ)
    (hi : i < run.chain.length) (hseq : f.seq = i) :
    (∃ c p anchorFile proofFile,
        f.GoesThrough P B.toStorageBackend s₁ s₂ c p anchorFile proofFile) ↔
      f.keys.signingKey = none := by
  constructor
  · rintro ⟨c, p, anchorFile, proofFile, h⟩
    exact signingKey_of_goesThrough hcompares hnew h
  · intro hnone
    have hkey := (anchorKeys_spec hnew).2.2.mpr hnone
    obtain ⟨c, p, h⟩ := exists_anchors run hids log hi
    rw [← hs₁] at h
    exact ⟨c, p, goesThrough hP hnew (by simp [Workflow.KeysBelong, hkey]) (by simp [hkey])
      (hs₂.trans hs₁.symm) hseq h (Or.inr hnone)⟩

/-- The first record of the log is proven, against an anchor made with these keys. -/
def sampleWorkflow (signingKey : Option KeyOption) : Workflow where
  keys := ⟨some (List.replicate 16 7), signingKey, lit "s0"⟩
  publicKey := .file (Sha256.hash (List.replicate 32 1)).val
  seq := 0
  anchorPath := lit "audit.checkpoint"
  proofPath := lit "0.proof"
  compares := true

/-- The raw bytes of a public key are the key. -/
theorem loadPublicKey_file (hav : P.cryptographyAvailable = true) (key : RawKey) :
    loadPublicKey P (KeyOption.file key.val).arg = .ok (P.publicFromBytes key) := by
  simp [loadPublicKey, requireCryptography, hav, KeyOption.arg, keyBytes, key.property]

theorem rotatedRun_length : rotatedRun.chain.length = 1 := by decide +kernel

theorem encodable_rotatedRun : ∀ r ∈ rotatedRun.chain, Encodable r.keyId := by
  have hall : rotatedRun.chain.all (fun r => r.keyId.all fun c => !isSurrogate c) = true := by
    decide +kernel
  exact fun r hr => encodable_of_all (List.all_eq_true.mp hall r hr)

/-- Three records, the last one behind a rotation. -/
theorem workflow_sample : ∃ c p anchorFile proofFile, (sampleWorkflow none).GoesThrough
    referenceRuntime memoryBackend.toStorageBackend longRun.world.store longRun.world.store
      c p anchorFile proofFile := by
  have hids : longRun.chain.map AuditRecord.keyId = [lit "k0", lit "k0", lit "k1"] := by
    decide +kernel
  have hlength : longRun.chain.length = 3 := by
    simpa using congrArg List.length hids
  have hencodable : ∀ r ∈ longRun.chain, Encodable r.keyId := by
    intro r hr
    have hmem : r.keyId ∈ [lit "k0", lit "k0", lit "k1"] := hids ▸ List.mem_map_of_mem hr
    have hall : ∀ id ∈ [lit "k0", lit "k0", lit "k1"], id.all (fun c => !isSurrogate c) = true := by
      decide
    exact encodable_of_all (hall _ hmem)
  exact (workflow_iff referenceRuntime_signaturesVerify longRun hencodable (sampleWorkflow none) rfl
    sealedLog new_sealedLog longRun.world.store longRun.world.store rfl rfl 0 (by omega)
    rfl).mpr rfl

/-- With a signing key it does not. -/
theorem workflow_counterexample :
    ¬∀ (P : Runtime) (run : HonestRun P) (B : OrderedBackend) (f : Workflow) (log : AuditLog P)
      (s : B.State) (i : ℕ), P.SignaturesVerify → (∀ r ∈ run.chain, Encodable r.keyId) →
        f.compares = true → AuditLog.new (f.keys.config P) = .ok log → f.KeysBelong log →
          B.contents s = run.chain → i < run.chain.length → f.seq = i →
            ∃ c p anchorFile proofFile,
              f.GoesThrough P B.toStorageBackend s s c p anchorFile proofFile := by
  intro hclaim
  -- the seed of `sampleLog`, and its public key
  have hbelong : (sampleWorkflow (some (.file (List.replicate 32 1)))).KeysBelong sampleLog := by
    intro k hk
    rw [← Option.some.inj hk]
    exact loadPublicKey_file rfl _
  have hnew : AuditLog.new ((sampleWorkflow (some (.file (List.replicate 32 1)))).keys.config
      referenceRuntime) = .ok sampleLog := rfl
  obtain ⟨c, p, anchorFile, proofFile, h⟩ := hclaim referenceRuntime rotatedRun memoryBackend
    (sampleWorkflow (some (.file (List.replicate 32 1)))) sampleLog rotatedRun.world.store 0
    referenceRuntime_signaturesVerify encodable_rotatedRun rfl hnew hbelong rfl
    (by rw [rotatedRun_length]; exact Nat.one_pos) rfl
  exact nomatch signingKey_of_goesThrough rfl hnew h

/-- Without the comparison with the anchor, the workflow goes through whatever it was signed
with, if the public key is the right one and the name of the signer has bytes. -/
theorem workflow_unanchored (hP : P.SignaturesVerify) (run : HonestRun P)
    (hids : ∀ r ∈ run.chain, Encodable r.keyId) (f : Workflow) (hcompares : f.compares = false)
    (log : AuditLog P) (hnew : AuditLog.new (f.keys.config P) = .ok log)
    (hbelong : f.KeysBelong log) (hsigner : Encodable f.keys.signerId) (s₁ s₂ : B.State)
    (hs₁ : B.contents s₁ = run.chain) (hs₂ : B.contents s₂ = run.chain) (i : ℕ)
    (hi : i < run.chain.length) (hseq : f.seq = i) : ∃ c p anchorFile proofFile,
      f.GoesThrough P B.toStorageBackend s₁ s₂ c p anchorFile proofFile := by
  obtain ⟨c, p, h⟩ := exists_anchors run hids log hi
  rw [← hs₁] at h
  refine ⟨c, p, goesThrough hP hnew hbelong (fun _ => ?_) (hs₂.trans hs₁.symm) hseq h
    (Or.inl hcompares)⟩
  rw [(anchorKeys_spec hnew).2.1]
  exact hsigner

end CommandLine

end AuditChain
