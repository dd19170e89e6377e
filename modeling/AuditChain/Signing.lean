/-
AuditChain/Signing.lean

Ed25519 signatures over records, and the key handling in front of them.

A key argument may be a key object, raw bytes or hexadecimal text; loading it is
the only thing here that can fail for a reason other than the text encoding.
Verification turns a signature that is not hexadecimal, or that does not verify,
into `False`.
-/
import AuditChain.Records

namespace AuditChain

open Python

/-- A key argument: a key object, raw bytes, hexadecimal text, or something else. -/
inductive KeyArg (K : Type)
  | object (key : K)
  | bytes (raw : Bytes)
  | text (hex : PyStr)
  | other

/-- `SignatureError(msg)`. -/
def signatureError (msg : PyStr) : PyError := ⟨.user (lit "SignatureError"), msg⟩

/-- `SignatureUnavailableError(INSTALL_HINT)`. -/
def signatureUnavailable : PyError :=
  ⟨.user (lit "SignatureUnavailableError"),
    lit "Ed25519 signatures require the cryptography package: pip install \"auditchain[ed25519]\""⟩

variable (P : Runtime)

/-- `_require_cryptography()`. -/
def requireCryptography : Except PyError Unit :=
  if P.cryptographyAvailable then .ok () else .error signatureUnavailable

/-- Normalize a raw or hex key into 32 bytes. -/
def keyBytes {K : Type} (key : KeyArg K) (kind : PyStr) : Except PyError RawKey := do
  let raw ←
    match key with
    | .text s =>
      match fromHex (strip P.unicode s) with
      | .ok b => .ok b
      | .error _ => .error (signatureError (kind ++ lit " must be raw bytes or hex"))
    | .bytes b => .ok b
    | _ => .error (signatureError (kind ++ lit " must be bytes or a hex string"))
  if h : raw.length = 32 then .ok ⟨raw, h⟩
  else .error (signatureError (kind ++ lit " must be 32 bytes, got " ++ natStr raw.length))

/-- Accept a raw or hex seed or a private key, and return a private key. -/
def loadPrivateKey (key : KeyArg P.PrivateKey) : Except PyError P.PrivateKey := do
  requireCryptography P
  match key with
  | .object k => return k
  | key => return P.privateFromBytes (← keyBytes P key (lit "private key"))

/-- Accept a raw or hex public key or a public key object, and return a public key. -/
def loadPublicKey (key : KeyArg P.PublicKey) : Except PyError P.PublicKey := do
  requireCryptography P
  match key with
  | .object k => return k
  | key => return P.publicFromBytes (← keyBytes P key (lit "public key"))

/-- The text covered by a record signature, `seq:hash:signer_id`. -/
def recordSigningText (seq : ℤ) (hash signerId : PyStr) : PyStr :=
  intStr seq ++ ch ':' :: (hash ++ ch ':' :: signerId)

/-- The bytes covered by a record signature. -/
def recordSigningMessage (r : AuditRecord) : Except PyError Bytes :=
  utf8Encode (recordSigningText r.seq r.hash r.signerId)

/-- Sign arbitrary bytes and return the hex signature. -/
def signMessage (message : Bytes) (privateKey : KeyArg P.PrivateKey) : Except PyError PyStr := do
  let key ← loadPrivateKey P privateKey
  return hexStr (P.sign key message).val

/-- Check a hex signature over `message`. -/
def verifySignature (signature : PyStr) (message : Bytes) (publicKey : KeyArg P.PublicKey) :
    Except PyError Bool := do
  let key ← loadPublicKey P publicKey
  match fromHex signature with
  | .ok sig => return P.verify key sig message
  | .error _ => return false

/-- The hex signature for a record. -/
def signRecord (r : AuditRecord) (privateKey : KeyArg P.PrivateKey) : Except PyError PyStr := do
  let message ← recordSigningMessage r
  signMessage P message privateKey

/-- Check a record's signature against a public key. -/
def verifyRecordSignature (r : AuditRecord) (publicKey : KeyArg P.PublicKey) :
    Except PyError Bool := do
  let message ← recordSigningMessage r
  verifySignature P r.signature message publicKey

variable {P}

theorem verifySignature_eq_true {signature : PyStr} {message : Bytes}
    {publicKey : KeyArg P.PublicKey} :
    verifySignature P signature message publicKey = .ok true ↔
      ∃ key sig, loadPublicKey P publicKey = .ok key ∧ fromHex signature = .ok sig ∧
        P.verify key sig message = true := by
  unfold verifySignature
  rw [bind_eq_ok]
  refine exists_congr fun key => ?_
  cases fromHex signature <;> simp

theorem verifyRecordSignature_eq_true {r : AuditRecord} {publicKey : KeyArg P.PublicKey} :
    verifyRecordSignature P r publicKey = .ok true ↔
      ∃ message, recordSigningMessage r = .ok message ∧
        verifySignature P r.signature message publicKey = .ok true := by
  rw [verifyRecordSignature, bind_eq_ok]

theorem loadPrivateKey_object (h : P.cryptographyAvailable = true) (k : P.PrivateKey) :
    loadPrivateKey P (.object k) = .ok k := by
  simp [loadPrivateKey, requireCryptography, h]

theorem loadPublicKey_object (h : P.cryptographyAvailable = true) (k : P.PublicKey) :
    loadPublicKey P (.object k) = .ok k := by
  simp [loadPublicKey, requireCryptography, h]

/-- Loading a key takes the `cryptography` package. -/
theorem available_of_loadPrivateKey {key : KeyArg P.PrivateKey} {k : P.PrivateKey}
    (h : loadPrivateKey P key = .ok k) : P.cryptographyAvailable = true := by
  obtain ⟨_, hrequire, -⟩ := bind_eq_ok.mp h
  by_contra hno
  unfold requireCryptography at hrequire
  rw [if_neg hno] at hrequire
  cases hrequire

/-- **The signed text is injective** in position, hash and signer, as long as the
hashes are hexadecimal; the signer id may hold anything, it comes last. -/
theorem recordSigningText_inj {i j : ℤ} {a b : Bytes} {s t : PyStr}
    (h : recordSigningText i (hexStr a) s = recordSigningText j (hexStr b) t) :
    i = j ∧ hexStr a = hexStr b ∧ s = t := by
  obtain ⟨hseq, hrest⟩ := append_sep_inj (colon_not_mem_intStr i) (colon_not_mem_intStr j) h
  obtain ⟨hhash, hsigner⟩ := append_sep_inj (colon_not_mem_hexStr a) (colon_not_mem_hexStr b) hrest
  exact ⟨intStr_inj hseq, hhash, hsigner⟩

/-- A private key object signs, and what it signs verifies. -/
theorem signMessage_object (h : P.cryptographyAvailable = true) (k : P.PrivateKey)
    (message : Bytes) :
    signMessage P message (.object k) = .ok (hexStr (P.sign k message).val) := by
  rw [signMessage, loadPrivateKey_object h]
  rfl

theorem verifySignature_sign (h : P.cryptographyAvailable = true) (hP : P.SignaturesVerify)
    (k : P.PrivateKey) (message : Bytes) :
    verifySignature P (hexStr (P.sign k message).val) message (.object (P.publicKey k))
      = .ok true :=
  verifySignature_eq_true.mpr
    ⟨_, _, loadPublicKey_object h _, fromHex_hexStr _, hP k message⟩

theorem hexStr_signature_ne_nil (s : RawSignature) : hexStr s.val ≠ [] := by
  intro h
  have := congrArg List.length h
  rw [length_hexStr, s.property] at this
  cases this

end AuditChain
