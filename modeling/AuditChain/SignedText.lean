/-
AuditChain/SignedText.lean

What the signature of a checkpoint fixes.

Both signatures cover one text, `seq:hash:key_id` and the Merkle root behind
another colon if there is one.  Two things are not fixed by it.

    signaturePins_iff   the border between key id and root: a key id that ends in a
                        colon and a root has the text of the shorter key id with
                        that root
    load_edited_iff     the other fields: a file that keeps the Ed25519 signature is
                        refused exactly when the text that it spells has changed, and
                        `ts` and `signer_id` are not in the text
-/
import AuditChain.CheckpointFiles

namespace AuditChain

open Python

variable {P : Runtime}

/-! ### Facts and their text -/

/-- 64 hexadecimal digits, of either case. -/
def IsHexDigest (s : PyStr) : Prop := s.length = 64 ∧ ∀ c ∈ s, (hexVal c).isSome = true

instance decidableIsHexDigest (s : PyStr) : Decidable (IsHexDigest s) :=
  inferInstanceAs (Decidable (_ ∧ _))

/-- What a checkpoint states about a log. -/
@[ext] structure AnchoredFacts where
  seq : ℤ
  hash : PyStr
  keyId : PyStr
  merkleRoot : PyStr
  hash_digest : IsHexDigest hash
  root_digest : merkleRoot = [] ∨ IsHexDigest merkleRoot

namespace AnchoredFacts

/-- The text that a signature over the facts covers. -/
def text (a : AnchoredFacts) : PyStr := checkpointText a.seq a.hash a.keyId a.merkleRoot

/-- The bytes that a signature over the facts covers. -/
def message (a : AnchoredFacts) : Except PyError Bytes :=
  checkpointMessage a.seq a.hash a.keyId a.merkleRoot

/-- The key id of `a`, which has no root, is the key id of `b` with the root of `b`
behind a colon; everything else is the same. -/
def Respells (a b : AnchoredFacts) : Prop :=
  a.seq = b.seq ∧ a.hash = b.hash ∧ a.merkleRoot = [] ∧ b.merkleRoot ≠ [] ∧
    a.keyId = b.keyId ++ ch ':' :: b.merkleRoot

/-- What stands behind the hash. -/
def tail (a : AnchoredFacts) : PyStr :=
  if a.merkleRoot = [] then a.keyId else a.keyId ++ ch ':' :: a.merkleRoot

theorem Respells.ne {a b : AnchoredFacts} (h : a.Respells b) : a ≠ b := by
  rintro rfl
  exact h.2.2.2.1 h.2.2.1

end AnchoredFacts

/-- There is no colon in a digest. -/
theorem IsHexDigest.colon_not_mem {s : PyStr} (h : IsHexDigest s) : ch ':' ∉ s := by
  intro hmem
  have hval := h.2 _ hmem
  revert hval
  decide

theorem encodable_of_hexVal {s : PyStr} (h : ∀ c ∈ s, (hexVal c).isSome = true) :
    Encodable s := by
  intro c hc
  have hval := h c hc
  simp only [isSurrogate, Bool.and_eq_false_iff, decide_eq_false_iff_not]
  by_contra hcon
  have hbig : ¬(48 ≤ c.val ∧ c.val ≤ 57) ∧ ¬(97 ≤ c.val ∧ c.val ≤ 102) ∧
      ¬(65 ≤ c.val ∧ c.val ≤ 70) := by omega
  simp [hexVal, isDigit, hbig] at hval

theorem isHexDigest_replicate {c : CodePoint} (h : (hexVal c).isSome = true) :
    IsHexDigest (List.replicate 64 c) := by
  refine ⟨List.length_replicate, fun d hd => ?_⟩
  rw [List.eq_of_mem_replicate hd]
  exact h

theorem IsHexDigest.encodable {s : PyStr} (h : IsHexDigest s) : Encodable s :=
  encodable_of_hexVal h.2

namespace AnchoredFacts

variable {a b : AnchoredFacts}

theorem text_eq (a : AnchoredFacts) :
    a.text = intStr a.seq ++ ch ':' :: (a.hash ++ ch ':' :: a.tail) :=
  checkpointText_eq a.seq a.hash a.keyId a.merkleRoot

/-- **The text fixes the facts**, up to the border between key id and root. -/
theorem text_eq_iff : a.text = b.text ↔ a = b ∨ a.Respells b ∨ b.Respells a := by
  constructor
  · intro h
    rw [text_eq, text_eq] at h
    obtain ⟨hseq, hrest⟩ :=
      append_sep_inj (colon_not_mem_intStr a.seq) (colon_not_mem_intStr b.seq) h
    obtain ⟨hhash, htail⟩ :=
      append_sep_inj a.hash_digest.colon_not_mem b.hash_digest.colon_not_mem hrest
    have hseq' : a.seq = b.seq := intStr_inj hseq
    unfold tail at htail
    -- which of the two has a root
    by_cases ha : a.merkleRoot = [] <;> by_cases hb : b.merkleRoot = []
    · rw [if_pos ha, if_pos hb] at htail
      exact Or.inl (AnchoredFacts.ext hseq' hhash htail (ha.trans hb.symm))
    · rw [if_pos ha, if_neg hb] at htail
      exact Or.inr (Or.inl ⟨hseq', hhash, ha, hb, htail⟩)
    · rw [if_neg ha, if_pos hb] at htail
      exact Or.inr (Or.inr ⟨hseq'.symm, hhash.symm, hb, ha, htail.symm⟩)
    · rw [if_neg ha, if_neg hb] at htail
      -- two roots are of one length, so the borders fall together
      have hlen : (ch ':' :: a.merkleRoot).length = (ch ':' :: b.merkleRoot).length := by
        rw [List.length_cons, List.length_cons, (a.root_digest.resolve_left ha).1,
          (b.root_digest.resolve_left hb).1]
      obtain ⟨hkeyId, hroot⟩ := List.append_inj' htail hlen
      exact Or.inl (AnchoredFacts.ext hseq' hhash hkeyId (List.cons.inj hroot).2)
  · have hrespells : ∀ {x y : AnchoredFacts}, x.Respells y → x.text = y.text := by
      rintro x y ⟨hseq, hhash, hx, hy, hkeyId⟩
      rw [text_eq, text_eq, tail, tail, if_pos hx, if_neg hy, hseq, hhash, hkeyId]
    rintro (rfl | h | h)
    · rfl
    · exact hrespells h
    · exact (hrespells h).symm

/-- The facts have a message when the key id has bytes. -/
theorem exists_message_iff (a : AnchoredFacts) : (∃ m, a.message = .ok m) ↔ Encodable a.keyId := by
  have hcolon : isSurrogate (ch ':') = false := by decide
  have htext : (∃ m, a.message = .ok m) ↔ Encodable a.text := utf8Encode_ok_iff
  rw [htext, text_eq]
  simp only [encodable_append, encodable_cons, encodable_intStr, a.hash_digest.encodable, hcolon,
    true_and, tail]
  split
  · rfl
  · rename_i hroot
    simp only [encodable_append, encodable_cons, hcolon,
      (a.root_digest.resolve_left hroot).encodable, and_true]

theorem message_eq_iff {m : Bytes} (ha : a.message = .ok m) :
    b.message = .ok m ↔ a.text = b.text := by
  constructor
  · intro hb
    exact utf8Encode_inj ha hb
  · intro h
    have hb : b.message = utf8Encode b.text := rfl
    rw [hb, ← h]
    exact ha

end AnchoredFacts

variable (P) in
/-- A signature over `a` is one over `a` only, as far as `b` goes: by its bytes, and, if
the two messages do not collide, by either kind of signature. -/
structure SignaturePins (a b : AnchoredFacts) : Prop where
  bytes : ∀ m, a.message = .ok m → b.message = .ok m → a = b
  hmac : ∀ key m m', a.message = .ok m → b.message = .ok m' →
    (P.hmacSha256 key m = P.hmacSha256 key m' → m = m') →
      P.hmacSha256 key m = P.hmacSha256 key m' → a = b
  ed25519 : ∀ k m m', a.message = .ok m → b.message = .ok m' →
    (P.verify (P.publicKey k) (P.sign k m).val m' = true → m' = m) →
      P.verify (P.publicKey k) (P.sign k m).val m' = true → a = b

theorem signaturePins_of_bytes {a b : AnchoredFacts}
    (h : ∀ m, a.message = .ok m → b.message = .ok m → a = b) : SignaturePins P a b where
  bytes := h
  hmac _ m _ ha hb hno heq := h m ha ((hno heq).symm ▸ hb)
  ed25519 _ m _ ha hb hno heq := h m ha ((hno heq) ▸ hb)

variable (P) in
/-- **When a signature pins its facts**: unless one of the two key ids runs on to the root
of the other. -/
theorem signaturePins_iff (a b : AnchoredFacts) :
    SignaturePins P a b ↔ ¬(Encodable a.keyId ∧ (a.Respells b ∨ b.Respells a)) := by
  constructor
  · rintro h ⟨hkeyId, hrespells⟩
    obtain ⟨m, hm⟩ := a.exists_message_iff.mpr hkeyId
    have htext : a.text = b.text := AnchoredFacts.text_eq_iff.mpr (Or.inr hrespells)
    have heq : a = b := h.bytes m hm ((AnchoredFacts.message_eq_iff hm).mpr htext)
    rcases hrespells with hab | hba
    · exact hab.ne heq
    · exact hba.ne heq.symm
  · intro hnot
    refine signaturePins_of_bytes fun m ha hb => ?_
    have hkeyId : Encodable a.keyId := a.exists_message_iff.mp ⟨m, ha⟩
    rcases AnchoredFacts.text_eq_iff.mp ((AnchoredFacts.message_eq_iff ha).mp hb) with
      heq | hrespells
    · exact heq
    · exact absurd ⟨hkeyId, hrespells⟩ hnot

/-- The root of one checkpoint in the key id of another. -/
theorem signaturePins_counterexample :
    ¬∀ (a b : AnchoredFacts) (m : Bytes), a.message = .ok m → b.message = .ok m → a = b := by
  intro hclaim
  let a : AnchoredFacts := {
    seq := 3
    hash := List.replicate 64 (ch 'a')
    keyId := lit "k0" ++ ch ':' :: List.replicate 64 (ch 'b')
    merkleRoot := []
    hash_digest := isHexDigest_replicate (by decide)
    root_digest := Or.inl rfl }
  let b : AnchoredFacts := {
    seq := 3
    hash := List.replicate 64 (ch 'a')
    keyId := lit "k0"
    merkleRoot := List.replicate 64 (ch 'b')
    hash_digest := isHexDigest_replicate (by decide)
    root_digest := Or.inr (isHexDigest_replicate (by decide)) }
  have hab : a.Respells b := ⟨rfl, rfl, rfl, List.cons_ne_nil _ _, rfl⟩
  have hkeyId : Encodable a.keyId := encodable_append.mpr
    ⟨encodable_of_all (by decide), encodable_of_all (by decide)⟩
  obtain ⟨m, hm⟩ := a.exists_message_iff.mpr hkeyId
  refine hab.ne (hclaim a b m hm ((AnchoredFacts.message_eq_iff hm).mpr ?_))
  exact AnchoredFacts.text_eq_iff.mpr (Or.inr (Or.inl hab))

/-! ### Edited files -/

/-- The text that the signature covers. -/
def Checkpoint.text (c : Checkpoint) : PyStr := checkpointText c.seq c.hash c.keyId c.merkleRoot

/-- An integer or a string. -/
def isScalar : PyVal → Bool
  | .int _ | .str _ => true
  | _ => false

/-- A file that keeps the Ed25519 signature of `c`.  Whatever else it holds, `seq` is an
integer or a string, and `hash` is there. -/
structure KeepsSignature (c : Checkpoint) (items : PyDict) : Prop where
  seq : ∃ v, PyDict.get? items (lit "seq") = some v ∧ isScalar v = true
  hash : ∃ v, PyDict.get? items (lit "hash") = some v
  signature : PyDict.get? items (lit "signature_ed25519") = some (.str c.signatureEd25519)

/-- The fields that the checkpoint was made from. -/
def editableFields : List PyStr :=
  [lit "seq", lit "hash", lit "key_id", lit "ts", lit "merkle_root", lit "signer_id"]

/-- One or several of these fields hold another integer or string, and nothing else changes. -/
structure Edited (items items' : PyDict) : Prop where
  kept : ∀ key, key ∉ editableFields → PyDict.get? items' key = PyDict.get? items key
  replaced : ∀ key ∈ editableFields, PyDict.get? items' key = PyDict.get? items key ∨
    ∃ v, PyDict.get? items' key = some v ∧ isScalar v = true
  changed : ∃ key ∈ editableFields, PyDict.get? items' key ≠ PyDict.get? items key

variable (P) in
/-- The text that the fields of a file spell: `int(seq)`, and `str` of the others. -/
def spelledText (items : PyDict) : Except PyError PyStr := do
  let seq ← (← getItem P (.dict items) (lit "seq")).toInt P.unicode P.floats
  let hash ← getItem P (.dict items) (lit "hash")
  let keyId ← getText P (.dict items) (lit "key_id")
  let merkleRoot ← getText P (.dict items) (lit "merkle_root")
  return checkpointText seq (hash.toStr P.unicode) keyId merkleRoot

variable (P) in
/-- As far as the file goes, the signature of `c` under `k` verifies only for the message
it was made over. -/
def SignsOnly (k : P.PrivateKey) (c : Checkpoint) (items : PyDict) : Prop :=
  ∀ t m m', c.message = .ok m → spelledText P items = .ok t → utf8Encode t = .ok m' →
    P.verify (P.publicKey k) (P.sign k m).val m' = true → m' = m

/-- A file that spells the signed text has no other message. -/
theorem signsOnly_of_spelled {k : P.PrivateKey} {c : Checkpoint} {items : PyDict}
    (h : spelledText P items = .ok c.text) : SignsOnly P k c items := by
  intro t m m' hm ht hm' _
  rw [h, Except.ok.injEq] at ht
  rw [← ht] at hm'
  exact Except.ok.inj (hm'.symm.trans hm)

theorem getText_dict (items : PyDict) (key : PyStr) : getText P (.dict items) key =
    .ok (((PyDict.get? items key).getD (.str [])).toStr P.unicode) := rfl

theorem getItem_dict {items : PyDict} {key : PyStr} {v : PyVal}
    (h : PyDict.get? items key = some v) : getItem P (.dict items) key = .ok v := by
  rw [getItem]
  simp only [h]

/-- An edit of a saved file keeps the signature. -/
theorem Edited.keepsSignature {c : Checkpoint} {items items' : PyDict}
    (hget : ∀ key, PyDict.get? items key = PyDict.get? c.payload key)
    (hsigned : c.signatureEd25519 ≠ []) (h : Edited items items') : KeepsSignature c items' := by
  have hseq : PyDict.get? items (lit "seq") = some (.int c.seq) := (hget _).trans rfl
  have hhash : PyDict.get? items (lit "hash") = some (.str c.hash) := (hget _).trans rfl
  refine ⟨?_, ?_, ?_⟩
  · rcases h.replaced (lit "seq") (by decide) with hkept | hnew
    · exact ⟨_, hkept.trans hseq, rfl⟩
    · exact hnew
  · rcases h.replaced (lit "hash") (by decide) with hkept | ⟨v, hnew, -⟩
    · exact ⟨_, hkept.trans hhash⟩
    · exact ⟨v, hnew⟩
  · rw [h.kept _ (by decide), hget]
    unfold Checkpoint.payload
    rw [if_pos hsigned]
    split <;> rfl

/-- What is wrong with the fields of such a file is a `ValueError`. -/
theorem KeepsSignature.spelled_error {c : Checkpoint} {items : PyDict} (h : KeepsSignature c items)
    {e : PyError} (he : spelledText P items = .error e) : e.isValueError = true := by
  obtain ⟨v, hv, hscalar⟩ := h.seq
  obtain ⟨w, hw⟩ := h.hash
  rw [spelledText, getItem_dict hv, getItem_dict hw] at he
  simp only [ok_bind, getText_dict] at he
  cases v with
  | int i =>
    rw [PyVal.toInt_int] at he
    cases he
  | str s =>
    rw [PyVal.toInt] at he
    cases hint : intOfStr P.unicode s with
    | none =>
      simp only [hint, error_bind, Except.error.injEq] at he
      rw [← he]
      rfl
    | some i =>
      simp only [hint] at he
      cases he
  | _ => cases hscalar

/-- Reading a file fails as its text does, or gives a checkpoint with that text. -/
theorem readCheckpoint_spelled {text : PyStr} {items : PyDict} {signature : PyStr}
    (hloads : loads P.floats text = .ok (.dict items))
    (hsig : PyDict.get? items (lit "signature_ed25519") = some (.str signature)) :
    (∃ e, spelledText P items = .error e ∧ readCheckpoint P text = .error e) ∨
      ∃ c, spelledText P items = .ok c.text ∧ readCheckpoint P text = .ok c ∧
        c.signatureEd25519 = signature := by
  have hsigned : getText P (.dict items) (lit "signature_ed25519") = .ok signature := by
    rw [getText_dict, hsig]
    rfl
  simp only [spelledText, readCheckpoint, hloads, hsigned, getText_dict, ok_bind]
  cases getItem P (.dict items) (lit "seq") with
  | error e => exact Or.inl ⟨e, rfl, rfl⟩
  | ok v =>
    simp only [ok_bind]
    cases v.toInt P.unicode P.floats with
    | error e => exact Or.inl ⟨e, rfl, rfl⟩
    | ok seq =>
      simp only [ok_bind]
      cases getItem P (.dict items) (lit "hash") with
      | error e => exact Or.inl ⟨e, rfl, rfl⟩
      | ok hash => exact Or.inr ⟨_, rfl, rfl, rfl⟩

/-- What a checkpoint made with a signing key carries. -/
theorem signature_of_makeCheckpoint {r : AuditRecord} {sealKey : Option Bytes} {root : PyStr}
    {arg : KeyArg P.PrivateKey} {signerId : PyStr} {c : Checkpoint} {k : P.PrivateKey}
    (harg : loadPrivateKey P arg = .ok k)
    (h : makeCheckpoint P r sealKey root (some arg) signerId = .ok c) :
    ∃ m, utf8Encode c.text = .ok m ∧ c.signatureEd25519 = hexStr (P.sign k m).val := by
  obtain ⟨m, hm, hsign⟩ := (makeCheckpoint_spec h).signed arg rfl
  rw [signMessage, harg] at hsign
  exact ⟨m, hm, (Except.ok.inj hsign).symm⟩

/-- Loading a file with an Ed25519 signature comes down to verifying it. -/
theorem loadCheckpoint_signed {text : PyStr} {sealKey : Option Bytes}
    {publicArg : KeyArg P.PublicKey} {key : P.PublicKey} {c : Checkpoint} {s : RawSignature}
    (hread : readCheckpoint P text = .ok c) (hpublic : loadPublicKey P publicArg = .ok key)
    (hsig : c.signatureEd25519 = hexStr s.val) :
    loadCheckpoint P text sealKey (some publicArg) = (utf8Encode c.text >>= fun message =>
      if P.verify key s.val message then .ok c
      else .error (valueError
        (lit "checkpoint signature mismatch: the checkpoint was modified"))) := by
  have hne : c.signatureEd25519 ≠ [] := hsig ▸ hexStr_signature_ne_nil s
  have hmessage : c.message = utf8Encode c.text := rfl
  simp only [loadCheckpoint, hread, ok_bind, authenticate, checkEd25519, if_neg hne,
    verifyCheckpointSignature, hmessage]
  cases utf8Encode c.text with
  | error e => rfl
  | ok m =>
    simp only [ok_bind, verifySignature, hpublic, hsig, fromHex_hexStr, pure_eq_ok]
    cases hver : P.verify key s.val m with
    | false => rfl
    | true => simp [checkHmac]

/-- **Which edits are detected**: a file that keeps the Ed25519 signature is refused with a
`ValueError` exactly when its fields spell another text than the one that was signed. -/
theorem load_edited_iff {r : AuditRecord} {sealKey : Option Bytes} {root signerId : PyStr}
    {arg : KeyArg P.PrivateKey} {publicArg : KeyArg P.PublicKey} {k : P.PrivateKey}
    {c : Checkpoint} (hP : P.SignaturesVerify) (harg : loadPrivateKey P arg = .ok k)
    (hpublic : loadPublicKey P publicArg = .ok (P.publicKey k))
    (hmade : makeCheckpoint P r sealKey root (some arg) signerId = .ok c)
    {text : PyStr} {items : PyDict} (hloads : loads P.floats text = .ok (.dict items))
    (hkeeps : KeepsSignature c items) (honly : SignsOnly P k c items)
    (callerKey : Option Bytes) :
    (∃ e, loadCheckpoint P text callerKey (some publicArg) = .error e ∧ e.isValueError = true) ↔
      spelledText P items ≠ .ok c.text := by
  obtain ⟨m, hm, hsig⟩ := signature_of_makeCheckpoint harg hmade
  rcases readCheckpoint_spelled hloads hkeeps.signature with
    ⟨e, hspelled, hread⟩ | ⟨c', hspelled, hread, hsig'⟩
  · have hload : loadCheckpoint P text callerKey (some publicArg) = .error e := by
      rw [loadCheckpoint, hread, error_bind]
    rw [hspelled, hload]
    exact ⟨fun _ h => (by cases h), fun _ => ⟨e, rfl, hkeeps.spelled_error hspelled⟩⟩
  · rw [loadCheckpoint_signed hread hpublic (hsig'.trans hsig), hspelled]
    constructor
    -- the signed text is accepted
    · rintro ⟨e, he, -⟩ heq
      rw [Except.ok.inj heq, hm, ok_bind, if_pos (hP k m)] at he
      cases he
    -- any other text has no bytes, or bytes that were not signed
    · intro hne
      cases hm' : utf8Encode c'.text with
      | error e => exact ⟨e, rfl, utf8Encode_error_isValueError hm'⟩
      | ok m' =>
        refine ⟨_, if_neg fun hver => hne ?_, rfl⟩
        obtain rfl := honly _ _ _ hm hspelled hm' hver
        rw [utf8Encode_inj hm' hm]

/-- The checkpoint with another time and another signer name. -/
def Checkpoint.renamed (c : Checkpoint) (timestamp signerId : PyStr) : Checkpoint :=
  { c with timestamp := timestamp, signerId := signerId }

/-- Every other field is written as before. -/
theorem get?_renamed (c : Checkpoint) (timestamp signerId : PyStr) {key : PyStr}
    (hts : key ≠ lit "ts") (hsigner : key ≠ lit "signer_id") :
    PyDict.get? (c.renamed timestamp signerId).payload key = PyDict.get? c.payload key := by
  have hts' : (PyKey.str key == .str (lit "ts")) = false := by simpa using hts
  have hsigner' : (PyKey.str key == .str (lit "signer_id")) = false := by simpa using hsigner
  unfold Checkpoint.payload Checkpoint.renamed Checkpoint.version PyDict.get?
  by_cases hroot : c.merkleRoot = [] <;> by_cases hed : c.signatureEd25519 = [] <;>
    simp only [hroot, hed, ne_eq, not_true_eq_false, not_false_eq_true, if_true, if_false,
      List.append_nil, List.cons_append, List.nil_append, List.lookup_cons, hts', hsigner']

theorem get?_renamed_signerId {c : Checkpoint} (hsigned : c.signatureEd25519 ≠ [])
    (timestamp signerId : PyStr) :
    PyDict.get? (c.renamed timestamp signerId).payload (lit "signer_id")
      = some (.str signerId) := by
  unfold Checkpoint.payload Checkpoint.renamed
  rw [if_pos hsigned]
  split <;> rfl

/-- Renaming is an edit of the file. -/
theorem edited_renamed {c : Checkpoint} (hsigned : c.signatureEd25519 ≠ [])
    {timestamp signerId : PyStr} (hne : timestamp ≠ c.timestamp ∨ signerId ≠ c.signerId)
    {items items' : PyDict} (hget : ∀ key, PyDict.get? items key = PyDict.get? c.payload key)
    (hget' : ∀ key, PyDict.get? items' key
      = PyDict.get? (c.renamed timestamp signerId).payload key) : Edited items items' := by
  have hts : PyDict.get? items' (lit "ts") = some (.str timestamp) := (hget' _).trans rfl
  have hsigner : PyDict.get? items' (lit "signer_id") = some (.str signerId) :=
    (hget' _).trans (get?_renamed_signerId hsigned timestamp signerId)
  have hrest : ∀ key, key ≠ lit "ts" → key ≠ lit "signer_id" →
      PyDict.get? items' key = PyDict.get? items key := by
    intro key h₁ h₂
    rw [hget', hget, get?_renamed c timestamp signerId h₁ h₂]
  refine ⟨?_, ?_, ?_⟩
  · intro key hkey
    refine hrest key ?_ ?_
    · rintro rfl
      exact hkey (by decide)
    · rintro rfl
      exact hkey (by decide)
  · intro key _
    by_cases h₁ : key = lit "ts"
    · exact Or.inr ⟨_, h₁ ▸ hts, rfl⟩
    · by_cases h₂ : key = lit "signer_id"
      · exact Or.inr ⟨_, h₂ ▸ hsigner, rfl⟩
      · exact Or.inl (hrest key h₁ h₂)
  · rcases hne with h | h
    · refine ⟨lit "ts", by decide, fun heq => h ?_⟩
      rw [hts, hget] at heq
      exact PyVal.str.inj (Option.some.inj heq)
    · refine ⟨lit "signer_id", by decide, fun heq => h ?_⟩
      have hold : PyDict.get? c.payload (lit "signer_id") = some (.str c.signerId) :=
        get?_renamed_signerId hsigned c.timestamp c.signerId
      rw [hsigner, hget, hold] at heq
      exact PyVal.str.inj (Option.some.inj heq)

/-- **The signer name and the time of an anchor can be replaced.** -/
theorem load_renamed {c : Checkpoint} {k : P.PrivateKey} (hP : P.SignaturesVerify)
    (hav : P.cryptographyAvailable = true) {m : Bytes} (hm : utf8Encode c.text = .ok m)
    (hsig : c.signatureEd25519 = hexStr (P.sign k m).val)
    (htexts : ∀ s ∈ c.texts, StrOk true s) {timestamp signerId : PyStr}
    (hts : Encodable timestamp) (hsigner : Encodable signerId)
    (hne : timestamp ≠ c.timestamp ∨ signerId ≠ c.signerId) :
    ∃ text text' items items', saveCheckpoint P c = .ok text ∧
      loads P.floats text = .ok (.dict items) ∧ loads P.floats text' = .ok (.dict items') ∧
      Edited items items' ∧ KeepsSignature c items' ∧ spelledText P items' = .ok c.text ∧
      ∀ callerKey, loadCheckpoint P text' callerKey (some (.object (P.publicKey k)))
        = .ok (c.renamed timestamp signerId) := by
  have hsigned : c.signatureEd25519 ≠ [] := hsig ▸ hexStr_signature_ne_nil _
  have htexts' : ∀ s ∈ (c.renamed timestamp signerId).texts, StrOk true s := by
    simp only [Checkpoint.texts, Checkpoint.renamed, List.forall_mem_cons] at htexts ⊢
    obtain ⟨hhash, hkeyId, -, hsig, hroot, -, hed, hnil⟩ := htexts
    exact ⟨hhash, hkeyId, hts.strOk true, hsig, hroot, hsigner.strOk true, hed, hnil⟩
  obtain ⟨text, items, hsave, hloads, hget⟩ :=
    loads_saveCheckpoint (P := P) fun s hs => (htexts s hs).kept
  obtain ⟨text', items', -, hloads', hget'⟩ :=
    loads_saveCheckpoint (P := P) fun s hs => (htexts' s hs).kept
  have hedited : Edited items items' := edited_renamed hsigned hne hget hget'
  have hkeeps : KeepsSignature c items' := hedited.keepsSignature hget hsigned
  have hread : readCheckpoint P text' = .ok (c.renamed timestamp signerId) :=
    readCheckpoint_of_get? hloads' hget' fun h => absurd h hsigned
  refine ⟨text, text', items, items', hsave, hloads, hloads', hedited, hkeeps, ?_, ?_⟩
  · rcases readCheckpoint_spelled hloads' hkeeps.signature with
      ⟨e, -, herror⟩ | ⟨c', hspelled, hread', -⟩
    · rw [hread] at herror
      cases herror
    · rw [hread] at hread'
      obtain rfl := Except.ok.inj hread'
      exact hspelled
  · intro callerKey
    have hm' : utf8Encode (c.renamed timestamp signerId).text = .ok m := hm
    rw [loadCheckpoint_signed hread (loadPublicKey_object hav _) hsig, hm', ok_bind,
      if_pos (hP k m)]

/-- A record to anchor. -/
def plainRecord : AuditRecord where
  seq := 0
  timestamp := []
  actor := []
  action := []
  subject := []
  metadata := []
  prevHash := GENESIS_HASH
  hash := GENESIS_HASH

/-- An anchor of it, and what is known of the anchor. -/
theorem exists_plainAnchor (k : referenceRuntime.PrivateKey) :
    ∃ c m,
      makeCheckpoint referenceRuntime plainRecord none [] (some (.object k)) (lit "s0") = .ok c ∧
      utf8Encode c.text = .ok m ∧
      c.signatureEd25519 = hexStr (referenceRuntime.sign k m).val ∧
      c.signerId = lit "s0" ∧ ∀ s ∈ c.texts, StrOk true s := by
  have htext : Encodable (checkpointText 0 GENESIS_HASH [] []) := encodable_of_all (by decide)
  obtain ⟨m, hm⟩ := utf8Encode_ok_iff.mpr htext
  have hmessage : checkpointMessage 0 GENESIS_HASH [] [] = .ok m := hm
  have hne := hexStr_signature_ne_nil (referenceRuntime.sign k m)
  refine ⟨{
    seq := 0
    hash := GENESIS_HASH
    signerId := lit "s0"
    signatureEd25519 := hexStr (referenceRuntime.sign k m).val }, m, ?_, hm, rfl, rfl, ?_⟩
  · simp only [makeCheckpoint, plainRecord, hmessage, ok_bind, signMessage_object rfl k m,
      pure_eq_ok, ne_eq, hne, not_false_eq_true, if_true]
  · have hhash : StrOk true GENESIS_HASH := strOk_of_all (by decide)
    have hsigner : StrOk true (lit "s0") := strOk_of_all rfl
    have hnil : StrOk true [] := strOk_of_all rfl
    simp only [Checkpoint.texts, List.forall_mem_cons]
    exact ⟨hhash, hnil, hnil, hnil, hnil, hsigner, strOk_hexStr _, by simp⟩

/-- Another signer name, and nothing is noticed. -/
theorem load_edited_sample : ∃ (text : PyStr) (c : Checkpoint),
    makeCheckpoint referenceRuntime plainRecord none []
      (some (.object ⟨List.replicate 32 1, rfl⟩)) (lit "s0") = .ok c ∧
    ¬∃ e, loadCheckpoint referenceRuntime text none
      (some (.object (referenceRuntime.publicKey ⟨List.replicate 32 1, rfl⟩))) = .error e ∧
        e.isValueError = true := by
  obtain ⟨c, m, hmade, hm, hsig, hname, htexts⟩ := exists_plainAnchor ⟨List.replicate 32 1, rfl⟩
  obtain ⟨text, text', items, items', -, -, hloads', -, hkeeps, hspelled, -⟩ :=
    load_renamed referenceRuntime_signaturesVerify rfl hm hsig htexts
      (encodable_of_all rfl : Encodable (lit "now")) (encodable_of_all rfl : Encodable (lit "me"))
      (Or.inr (by rw [hname]; decide))
  refine ⟨text', c, hmade, fun hdetected => ?_⟩
  have hiff := load_edited_iff referenceRuntime_signaturesVerify (loadPrivateKey_object rfl _)
    (loadPublicKey_object rfl _) hmade hloads' hkeeps (signsOnly_of_spelled hspelled) none
  exact hiff.mp hdetected hspelled

/-- The edit of a signer name is not detected. -/
theorem load_edited_counterexample :
    ¬∀ (P : Runtime) (r : AuditRecord) (sealKey : Option Bytes) (root signerId : PyStr)
      (k : P.PrivateKey) (c : Checkpoint) (text text' : PyStr) (items items' : PyDict)
      (callerKey : Option Bytes), P.SignaturesVerify →
      makeCheckpoint P r sealKey root (some (.object k)) signerId = .ok c →
      saveCheckpoint P c = .ok text → loads P.floats text = .ok (.dict items) →
      loads P.floats text' = .ok (.dict items') → Edited items items' →
      SignsOnly P k c items' →
      ∃ e, loadCheckpoint P text' callerKey (some (.object (P.publicKey k))) = .error e ∧
        e.isValueError = true := by
  intro hclaim
  obtain ⟨c, m, hmade, hm, hsig, hname, htexts⟩ := exists_plainAnchor ⟨List.replicate 32 1, rfl⟩
  obtain ⟨text, text', items, items', hsave, hloads, hloads', hedited, -, hspelled, hload⟩ :=
    load_renamed referenceRuntime_signaturesVerify rfl hm hsig htexts
      (encodable_of_all rfl : Encodable (lit "now")) (encodable_of_all rfl : Encodable (lit "me"))
      (Or.inr (by rw [hname]; decide))
  obtain ⟨e, he, -⟩ := hclaim referenceRuntime plainRecord none [] (lit "s0") _ c text text'
    items items' none referenceRuntime_signaturesVerify hmade hsave hloads hloads' hedited
    (signsOnly_of_spelled hspelled)
  rw [hload] at he
  cases he

end AuditChain
