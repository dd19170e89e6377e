/-
AuditChain/Runtime.lean

Everything the package computes with but does not define: SHA-256 and HMAC of
`hashlib` and `hmac`, Ed25519 of the optional `cryptography` package, and the
interpreter's float conversions and Unicode tables.

All of it is one parameter, `P : Runtime`.  Nothing is assumed of the functions
beyond the lengths of what they return, which the types carry; a theorem that
needs more (signatures verify, no collision among these inputs) says so in a
hypothesis.
-/
import AuditChain.PyValue

namespace AuditChain

open Python

/-- The output of SHA-256 and of HMAC-SHA256. -/
abbrev Digest := { b : Bytes // b.length = 32 }

/-- The raw form of an Ed25519 key. -/
abbrev RawKey := { b : Bytes // b.length = 32 }

/-- An Ed25519 signature. -/
abbrev RawSignature := { b : Bytes // b.length = 64 }

/-- What the package takes from outside. -/
structure Runtime where
  unicode : UnicodeData
  floats : FloatOps
  /-- `hashlib.sha256(data).digest()`. -/
  sha256 : Bytes → Digest
  /-- `hmac.new(key, data, hashlib.sha256).digest()`. -/
  hmacSha256 : Bytes → Bytes → Digest
  /-- Was `cryptography` importable? -/
  cryptographyAvailable : Bool
  PrivateKey : Type
  PublicKey : Type
  /-- `Ed25519PrivateKey.from_private_bytes(raw)`. -/
  privateFromBytes : RawKey → PrivateKey
  /-- `Ed25519PublicKey.from_public_bytes(raw)`. -/
  publicFromBytes : RawKey → PublicKey
  /-- `key.public_key()`. -/
  publicKey : PrivateKey → PublicKey
  /-- `key.sign(message)`. -/
  sign : PrivateKey → Bytes → RawSignature
  /-- Does `key.verify(signature, message)` return without an exception? -/
  verify : PublicKey → Bytes → Bytes → Bool

/-- A key accepts what its private half signed. -/
def Runtime.SignaturesVerify (P : Runtime) : Prop :=
  ∀ (k : P.PrivateKey) (m : Bytes), P.verify (P.publicKey k) (P.sign k m).val m = true

/-- The hexadecimal text of a digest. -/
def Digest.hex (d : Digest) : PyStr := hexStr d.val

theorem Digest.hex_inj {d e : Digest} (h : d.hex = e.hex) : d = e :=
  Subtype.ext (hexStr_inj h)

@[simp] theorem Digest.length_hex (d : Digest) : d.hex.length = 64 := by
  simp [Digest.hex, d.property]

@[simp] theorem Digest.lower_hex (d : Digest) : lower d.hex = d.hex := lower_hexStr d.val

/-- `hmac.compare_digest(a, b)` on strings. -/
def compareDigest (a b : PyStr) : Except PyError Bool :=
  if (a ++ b).all fun c => c.val < 128 then .ok (a == b)
  else .error (typeError (lit "comparing strings with non-ASCII characters is not supported"))

/-- The key of a keyed hash, or none for plain SHA-256: `hmac.new` or `hashlib.sha256`. -/
def Runtime.seal (P : Runtime) (key : Option Bytes) (data : Bytes) : Digest :=
  match key with
  | some k => P.hmacSha256 k data
  | none => P.sha256 data

end AuditChain
