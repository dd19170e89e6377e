/-
AuditChain/Reference.lean

A runtime to compute with.

SHA-256 and HMAC are the real ones.  Ed25519 is stood in for by a deterministic
scheme of the same shape: 64-byte signatures, a public key derived from the
private one by hashing, and a verifier that accepts exactly the signature that
signing returns.  The Unicode tables are those of ASCII.
-/
import AuditChain.JsonRoundTrip
import AuditChain.Runtime
import AuditChain.Sha256

namespace AuditChain

open Python

/-- The Unicode tables, on ASCII. -/
def asciiTables : UnicodeData where
  isSpace := isAsciiSpace
  decimal c := if isDigit c then some (c.val - 48) else none
  isPrintable c := 32 ≤ c.val && c.val < 127

/-- A signature that depends on the public key and the message. -/
def standInSign (publicKey : RawKey) (message : Bytes) : RawSignature :=
  ⟨(Sha256.hmac publicKey.val message).val ++ (Sha256.hmac publicKey.val (0 :: message)).val, rfl⟩

/-- The reference runtime. -/
def referenceRuntime : Runtime where
  unicode := asciiTables
  floats := tokenOps
  sha256 := Sha256.hash
  hmacSha256 := Sha256.hmac
  cryptographyAvailable := true
  PrivateKey := RawKey
  PublicKey := RawKey
  privateFromBytes := id
  publicFromBytes := id
  publicKey k := Sha256.hash k.val
  sign k m := standInSign (Sha256.hash k.val) m
  verify k sig m := sig == (standInSign k m).val

theorem referenceRuntime_signaturesVerify : referenceRuntime.SignaturesVerify :=
  fun k m => beq_self_eq_true (standInSign (Sha256.hash k.val) m).val

end AuditChain
