/-
AuditChain/CheckpointRoundTrip.lean

Checkpoint files of all versions.

Which fields a file has, which version it names and which key it takes to load it
depend on the Merkle root and on the two signatures.  Whatever they are, the file of a
checkpoint that was made is loaded as that checkpoint by the keys that made it, and by
no others:

    checkpoint_roundTrip    with the right keys the checkpoint, without them or with
                            wrong ones a `ValueError`
-/
import AuditChain.OwnAnchors
import AuditChain.SignedText

namespace AuditChain

open Python

variable {P : Runtime}

/-- The call ends with a `ValueError`. -/
def Refused (x : Except PyError Checkpoint) : Prop := ∃ msg, x = .error (valueError msg)

/-! ### Refusals -/

variable {c : Checkpoint}

/-- What is not authenticated is not loaded. -/
theorem refused_of_authenticate {text : PyStr} (hread : readCheckpoint P text = .ok c)
    {sealKey : Option Bytes} {publicKey : Option (KeyArg P.PublicKey)} {msg : PyStr}
    (h : authenticate P c sealKey publicKey = .error (valueError msg)) :
    Refused (loadCheckpoint P text sealKey publicKey) := by
  refine ⟨msg, ?_⟩
  rw [loadCheckpoint, hread, ok_bind, h]
  rfl

/-- Without an Ed25519 signature it is left to the HMAC. -/
theorem authenticate_of_unsigned (hed : c.signatureEd25519 = []) (sealKey : Option Bytes)
    (publicKey : Option (KeyArg P.PublicKey)) :
    authenticate P c sealKey publicKey = checkHmac P c sealKey false := by
  have hnone : checkEd25519 P c publicKey = .ok false :=
    checkEd25519_eq_ok.mpr (Or.inl ⟨hed, rfl⟩)
  rw [authenticate, hnone, ok_bind]

/-- An HMAC needs a seal key. -/
theorem checkHmac_missing (hsig : c.signature ≠ []) : checkHmac P c none false
    = .error (valueError (lit "checkpoint is signed; pass the seal key to load it")) := by
  rw [checkHmac, if_neg (not_or.mpr ⟨hsig, Bool.false_ne_true⟩)]

/-- And one that gives the same HMAC. -/
theorem checkHmac_wrong {key own : Bytes} (hne : c.signature ≠ [])
    (hown : checkpointSignature P c.seq c.hash c.keyId own c.merkleRoot = .ok c.signature)
    (hkey : checkpointSignature P c.seq c.hash c.keyId key c.merkleRoot ≠ .ok c.signature) :
    checkHmac P c (some key) false = .error (valueError
      (lit "checkpoint signature mismatch: the checkpoint was modified")) := by
  obtain ⟨message, hmessage, hsig⟩ := checkpointSignature_eq_ok.mp hown
  have htag : checkpointSignature P c.seq c.hash c.keyId key c.merkleRoot
      = .ok (P.hmacSha256 key message).hex :=
    checkpointSignature_eq_ok.mpr ⟨message, hmessage, rfl⟩
  have hcompare : compareDigest c.signature (P.hmacSha256 key message).hex = .ok false := by
    rw [htag, hsig] at hkey
    rw [hsig]
    exact compareDigest_of_ne fun h => hkey (by rw [h])
  rw [checkHmac, if_neg (not_or.mpr ⟨hne, Bool.false_ne_true⟩)]
  simp only [htag, ok_bind, hcompare]
  rfl

/-- An Ed25519 signature needs a public key that verifies it. -/
theorem checkEd25519_wrong {arg : KeyArg P.PublicKey} {k : P.PublicKey} {message : Bytes}
    (hed : c.signatureEd25519 ≠ []) (hmessage : c.message = .ok message)
    (harg : loadPublicKey P arg = .ok k)
    (hkey : verifyCheckpointSignature P c arg ≠ .ok true) :
    checkEd25519 P c (some arg) = .error (valueError
      (lit "checkpoint signature mismatch: the checkpoint was modified")) := by
  have hver : verifyCheckpointSignature P c arg = .ok false := by
    have htotal : ∃ b, verifyCheckpointSignature P c arg = .ok b := by
      rw [verifyCheckpointSignature, if_neg hed, hmessage, ok_bind, verifySignature, harg, ok_bind]
      split <;> exact ⟨_, rfl⟩
    obtain ⟨b, hb⟩ := htotal
    cases b with
    | false => exact hb
    | true => exact absurd hb hkey
  rw [checkEd25519, if_neg hed]
  simp only [hver, ok_bind]
  rfl

/-! ### The round trip -/

/-- What is made can be saved, and the file says all of it. -/
theorem readCheckpoint_of_make {r : AuditRecord} {sealKey : Option Bytes} {root : PyStr}
    {signingKey : Option (KeyArg P.PrivateKey)} {signerId : PyStr}
    (h : makeCheckpoint P r sealKey root signingKey signerId = .ok c)
    (hjson : ∀ s ∈ [r.hash, r.keyId, r.timestamp, root, signerId], JsonKeeps s) :
    ∃ text, saveCheckpoint P c = .ok text ∧ readCheckpoint P text = .ok c := by
  simp only [List.forall_mem_cons] at hjson
  obtain ⟨hhash, hkeyId, hts, hroot, hsigner, -⟩ := hjson
  have hhex : ∀ b, JsonKeeps (hexStr b) := fun b => jsonKeeps_iff.mpr ((strOk_hexStr b).kept rfl)
  have htexts := texts_made hhex (jsonKeeps_iff.mpr trivial) h hhash hkeyId hts hroot
    fun _ => hsigner
  refine readCheckpoint_saveCheckpoint (fun s hs _ => jsonKeeps_iff.mp (htexts s hs)) fun hed => ?_
  rw [(makeCheckpoint_madeWith h).signerId, hed]
  rfl

/-- **Checkpoint files round-trip** in all versions.  With the seal key that made it, or with the
public key if it was signed, the file of a checkpoint is loaded as that checkpoint; without
the key it takes, or with one for which the check comes out differently, it is refused. -/
theorem checkpoint_roundTrip (hP : P.SignaturesVerify) (r : AuditRecord) (sealKey : Option Bytes)
    (root : PyStr) (signingKey : Option (KeyArg P.PrivateKey)) (signerId : PyStr) (c : Checkpoint)
    (hmake : makeCheckpoint P r sealKey root signingKey signerId = .ok c)
    (hjson : ∀ s ∈ [r.hash, r.keyId, r.timestamp, root, signerId], JsonKeeps s) :
    ∃ text, saveCheckpoint P c = .ok text ∧
      (c.signatureEd25519 = [] →
        loadCheckpoint P text sealKey none = .ok c ∧
        (c.signature ≠ [] → ∀ publicKey,
          Refused (loadCheckpoint P text none publicKey) ∧
          ∀ key, checkpointSignature P c.seq c.hash c.keyId key c.merkleRoot ≠ .ok c.signature →
            Refused (loadCheckpoint P text (some key) publicKey))) ∧
      (c.signatureEd25519 ≠ [] → ∃ arg k, signingKey = some arg ∧ loadPrivateKey P arg = .ok k ∧
        (∀ publicArg, loadPublicKey P publicArg = .ok (P.publicKey k) →
          loadCheckpoint P text none (some publicArg) = .ok c) ∧
        ∀ callerKey, Refused (loadCheckpoint P text callerKey none) ∧
          ∀ publicArg otherKey, loadPublicKey P publicArg = .ok otherKey →
            verifyCheckpointSignature P c publicArg ≠ .ok true →
              Refused (loadCheckpoint P text callerKey (some publicArg))) := by
  obtain ⟨text, hsave, hread⟩ := readCheckpoint_of_make hmake hjson
  have hmade := makeCheckpoint_spec hmake
  have hwith := makeCheckpoint_madeWith hmake
  refine ⟨text, hsave, fun hed => ⟨?_, fun hsig publicKey => ⟨?_, fun key hkey => ?_⟩⟩,
    fun hed => ?_⟩
  · cases signingKey with
    | none => exact loadCheckpoint_eq_ok.mpr ⟨hread, authenticate_unsigned hmake⟩
    | some arg => exact absurd hed (signed_of_signingKey hmake)
  · have hcheck := authenticate_of_unsigned (P := P) hed none publicKey
    rw [checkHmac_missing hsig] at hcheck
    exact refused_of_authenticate hread hcheck
  · cases sealKey with
    | none => exact absurd (hwith.unsealed rfl) hsig
    | some own =>
      have hne : own ≠ [] := by
        rintro rfl
        exact hsig (hwith.unsealed rfl)
      have hcheck := authenticate_of_unsigned (P := P) hed (some key) publicKey
      rw [checkHmac_wrong hsig (hwith.sealed own rfl hne) hkey] at hcheck
      exact refused_of_authenticate hread hcheck
  · cases signingKey with
    | none => exact absurd (hwith.unsigned rfl) hed
    | some arg =>
      obtain ⟨message, hmessage, hsign⟩ := hmade.signed arg rfl
      obtain ⟨k, hk, -⟩ := bind_eq_ok.mp hsign
      refine ⟨arg, k, rfl, hk, fun publicArg hpublic => ?_, fun callerKey => ⟨?_, ?_⟩⟩
      · exact loadCheckpoint_eq_ok.mpr ⟨hread, authenticate_signed hP hk hmake hpublic none⟩
      · exact refused_of_authenticate hread (authenticate_signed_none hmake callerKey)
      · intro publicArg otherKey hpublic hwrong
        have hcheck := checkEd25519_wrong hed hmessage hpublic hwrong
        apply refused_of_authenticate hread
        rw [authenticate, hcheck, error_bind]

/-- A signed anchor, with its public key and without. -/
theorem checkpoint_roundTrip_sample : ∃ (c : Checkpoint) (text : PyStr),
    saveCheckpoint referenceRuntime c = .ok text ∧
      loadCheckpoint referenceRuntime text none (some (.object
        (referenceRuntime.publicKey ⟨List.replicate 32 1, rfl⟩))) = .ok c ∧
      Refused (loadCheckpoint referenceRuntime text none none) := by
  obtain ⟨c, m, hmake, -, hsig, -, -⟩ := exists_plainAnchor ⟨List.replicate 32 1, rfl⟩
  have hkept : ∀ s ∈ [plainRecord.hash, plainRecord.keyId, plainRecord.timestamp, [], lit "s0"],
      JsonKeeps s := by
    have hkeeps : ∀ {s : PyStr}, s.all (fun x => !isSurrogate x) = true → JsonKeeps s :=
      fun h => jsonKeeps_iff.mpr (strKept_of_all h rfl)
    simp only [List.forall_mem_cons]
    exact ⟨hkeeps (by decide), hkeeps rfl, hkeeps rfl, hkeeps rfl, hkeeps (by decide), by simp⟩
  obtain ⟨text, hsave, -, hsigned⟩ := checkpoint_roundTrip referenceRuntime_signaturesVerify
    plainRecord none [] (some (.object ⟨List.replicate 32 1, rfl⟩)) (lit "s0") c hmake hkept
  obtain ⟨arg, k, harg, hk, hload, hrefused⟩ := hsigned (hsig ▸ hexStr_signature_ne_nil _)
  obtain rfl := Option.some.inj harg
  obtain rfl := Except.ok.inj hk
  exact ⟨c, text, hsave, hload _ rfl, (hrefused none).1⟩

end AuditChain
