/-
AuditChain/CheckpointFiles.lean

What a checkpoint file can do.

A saved checkpoint is read back as it was (`readCheckpoint_saveCheckpoint`), but
a file can be anything, and two things go wrong with some of them.

    load_authenticated_iff    a checkpoint that is loaded with a key is authenticated,
                              unless the file was stripped of its signatures
    noExchange_iff            a record signature never passes for a checkpoint
                              signature and the other way round, as long as there
                              is no record: both sign `seq:hash:id`
-/
import AuditChain.Appending
import AuditChain.Checkpoint
import AuditChain.Utf8

namespace AuditChain

open Python

variable {P : Runtime}

/-! ### Saving and loading -/

/-- The texts of a checkpoint. -/
def Checkpoint.texts (c : Checkpoint) : List PyStr :=
  [c.hash, c.keyId, c.timestamp, c.signature, c.merkleRoot, c.signerId, c.signatureEd25519]

theorem Checkpoint.serializable_payload (c : Checkpoint) :
    (PyVal.dict c.payload).serializable = true := by
  unfold Checkpoint.payload
  split <;> split <;> rfl

theorem Checkpoint.isStr_payload (c : Checkpoint) : ∀ kv ∈ c.payload, kv.1.isStr = true := by
  unfold Checkpoint.payload
  split <;> split <;> simp [PyKey.isStr]

theorem Checkpoint.nodup_payload (c : Checkpoint) : (c.payload.map Prod.fst).Nodup := by
  unfold Checkpoint.payload
  split <;> split <;>
    (simp only [List.append_nil, List.cons_append, List.nil_append, List.map_cons, List.map_nil]
     decide)

theorem Checkpoint.allLeaves_payload {c : Checkpoint} {q : FloatText → Prop}
    (h : ∀ s ∈ c.texts, StrKept true s) : (PyVal.dict c.payload).AllLeaves (StrKept true) q := by
  simp only [Checkpoint.texts, List.forall_mem_cons] at h
  obtain ⟨hhash, hkeyId, hts, hsig, hroot, hsigner, hed, -⟩ := h
  unfold Checkpoint.payload
  split <;> split <;>
    simp (disch := decide) only [List.append_nil, List.cons_append, List.nil_append,
      PyVal.AllLeaves, ItemsAllLeaves, PyKey.text, strKept_of_all, hhash, hkeyId, hts, hsig, hroot,
      hsigner, hed, and_self]

/-- A field of the file, or the default. -/
def Checkpoint.fileText (c : Checkpoint) (key : PyStr) : PyVal :=
  (PyDict.get? c.payload key).getD (.str [])

theorem Checkpoint.fileText_merkleRoot (c : Checkpoint) :
    c.fileText (lit "merkle_root") = .str c.merkleRoot := by
  unfold Checkpoint.fileText Checkpoint.payload
  by_cases hroot : c.merkleRoot = []
  · rw [if_neg (not_not.mpr hroot), hroot]
    split <;> rfl
  · rw [if_pos hroot]
    rfl

theorem Checkpoint.fileText_signerId {c : Checkpoint}
    (h : c.signatureEd25519 = [] → c.signerId = []) :
    c.fileText (lit "signer_id") = .str c.signerId := by
  unfold Checkpoint.fileText Checkpoint.payload
  by_cases hed : c.signatureEd25519 = []
  · rw [if_neg (not_not.mpr hed), h hed]
    split <;> rfl
  · rw [if_pos hed]
    split <;> rfl

theorem Checkpoint.fileText_signatureEd25519 (c : Checkpoint) :
    c.fileText (lit "signature_ed25519") = .str c.signatureEd25519 := by
  unfold Checkpoint.fileText Checkpoint.payload
  by_cases hed : c.signatureEd25519 = []
  · rw [if_neg (not_not.mpr hed), hed]
    split <;> rfl
  · rw [if_pos hed]
    split <;> rfl

/-- The values of the payload are numbers and texts, which JSON keeps. -/
theorem Checkpoint.jsonValue_payload (c : Checkpoint) (F : FloatOps) (key : PyStr) :
    (PyDict.get? c.payload key).map (PyVal.jsonValue F) = PyDict.get? c.payload key := by
  have hall : ∀ kv ∈ c.payload, kv.2.jsonValue F = kv.2 := by
    unfold Checkpoint.payload
    split <;> split <;> simp [PyVal.jsonValue]
  cases hv : PyDict.get? c.payload key with
  | none => rfl
  | some v =>
    have hmem := (lookup_eq_some_iff_mem c.nodup_payload).mp hv
    rw [Option.map_some, hall _ hmem]

/-- The JSON in a saved file has the fields of the payload. -/
theorem loads_saveCheckpoint {c : Checkpoint} (htexts : ∀ s ∈ c.texts, StrKept true s) :
    ∃ text items, saveCheckpoint P c = .ok text ∧ loads P.floats text = .ok (.dict items) ∧
      ∀ key, PyDict.get? items key = PyDict.get? c.payload key := by
  obtain ⟨items, hitems, hget⟩ := get?_jsonValue P.floats c.isStr_payload c.nodup_payload
  refine ⟨printVal P.floats indentStyle 0 (.dict c.payload) ++ lit "\n", items, ?_, ?_,
    fun key => (hget key).trans (c.jsonValue_payload P.floats key)⟩
  · simp only [saveCheckpoint, dumps, if_pos c.serializable_payload]
    rfl
  · rw [← hitems]
    exact loads_printVal indentStyle c.serializable_payload (c.allLeaves_payload htexts)
      (by simp [AllSpace, lit]; decide)

/-- A field that the file has, or its default. -/
theorem getText_of_get? {c : Checkpoint} {items : PyDict}
    (hget : ∀ key, PyDict.get? items key = PyDict.get? c.payload key) {key s : PyStr}
    (hs : c.fileText key = .str s) : getText P (.dict items) key = .ok s := by
  unfold Checkpoint.fileText at hs
  simp only [getText, hget]
  cases hv : PyDict.get? c.payload key with
  | none =>
    rw [hv] at hs
    rw [← PyVal.str.inj hs]
    rfl
  | some v =>
    rw [hv] at hs
    obtain rfl : v = .str s := hs
    rfl

/-- Field by field, what `saveCheckpoint` leaves out is read as its default. -/
theorem readCheckpoint_of_get? {c : Checkpoint} {text : PyStr} {items : PyDict}
    (hloads : loads P.floats text = .ok (.dict items))
    (hget : ∀ key, PyDict.get? items key = PyDict.get? c.payload key)
    (hsigner : c.signatureEd25519 = [] → c.signerId = []) : readCheckpoint P text = .ok c := by
  have hseq : getItem P (.dict items) (lit "seq") = .ok (.int c.seq) := by
    simp only [getItem, hget]
    rfl
  have hhash : getItem P (.dict items) (lit "hash") = .ok (.str c.hash) := by
    simp only [getItem, hget]
    rfl
  have hkeyId : getText P (.dict items) (lit "key_id") = .ok c.keyId := getText_of_get? hget rfl
  have hts : getText P (.dict items) (lit "ts") = .ok c.timestamp := getText_of_get? hget rfl
  have hsig : getText P (.dict items) (lit "sig") = .ok c.signature := getText_of_get? hget rfl
  simp only [readCheckpoint, hloads, hseq, hhash, hkeyId, hts, hsig,
    getText_of_get? hget c.fileText_merkleRoot,
    getText_of_get? hget (Checkpoint.fileText_signerId hsigner),
    getText_of_get? hget c.fileText_signatureEd25519, ok_bind, pure_eq_ok, PyVal.toInt_int,
    PyVal.toStr_str]

/-- **A saved checkpoint is read back as it was**, if its texts hold no pair of surrogates. -/
theorem readCheckpoint_saveCheckpoint {c : Checkpoint} (htexts : ∀ s ∈ c.texts, StrKept true s)
    (hsigner : c.signatureEd25519 = [] → c.signerId = []) :
    ∃ text, saveCheckpoint P c = .ok text ∧ readCheckpoint P text = .ok c := by
  obtain ⟨text, items, hsave, hloads, hget⟩ := loads_saveCheckpoint (P := P) htexts
  exact ⟨text, hsave, readCheckpoint_of_get? hloads hget hsigner⟩

/-! ### Authentication -/

variable (P) in
/-- What a caller who passes a key relies on: a signature under the public key, or, if
there is only a seal key, the HMAC under it. -/
def Authenticated (c : Checkpoint) (sealKey : Option Bytes)
    (publicKey : Option (KeyArg P.PublicKey)) : Prop :=
  match publicKey with
  | some key => verifyCheckpointSignature P c key = .ok true
  | none => ∀ key, sealKey = some key →
      checkpointSignature P c.seq c.hash c.keyId key c.merkleRoot = .ok c.signature

variable (P) in
/-- The checkpoint has no Ed25519 signature, and what is left passes without one: there
is no HMAC either, or one that the caller's seal key confirms beside a public key. -/
def Stripped (c : Checkpoint) (sealKey : Option Bytes)
    (publicKey : Option (KeyArg P.PublicKey)) : Prop :=
  c.signatureEd25519 = [] ∧
    match publicKey with
    | some _ => c.signature = [] ∨ ∃ key, sealKey = some key ∧
        checkpointSignature P c.seq c.hash c.keyId key c.merkleRoot = .ok c.signature
    | none => sealKey.isSome = true ∧ c.signature = []

/-- A stripped checkpoint passes. -/
theorem Stripped.authenticate {c : Checkpoint} {sealKey : Option Bytes}
    {publicKey : Option (KeyArg P.PublicKey)} (h : Stripped P c sealKey publicKey) :
    authenticate P c sealKey publicKey = .ok () := by
  obtain ⟨hed, hrest⟩ := h
  refine authenticate_eq_ok.mpr ⟨false, checkEd25519_eq_ok.mpr (Or.inl ⟨hed, rfl⟩),
    checkHmac_eq_ok.mpr ?_⟩
  cases publicKey with
  | none => exact Or.inl (Or.inl hrest.2)
  | some key => exact hrest.imp_left Or.inl

theorem Stripped.not_authenticated {c : Checkpoint} {sealKey : Option Bytes}
    {publicKey : Option (KeyArg P.PublicKey)} (h : Stripped P c sealKey publicKey) :
    ¬Authenticated P c sealKey publicKey := by
  obtain ⟨hed, hrest⟩ := h
  intro hauth
  cases publicKey with
  | some key => exact (verifyCheckpointSignature_eq_true.mp hauth).1 hed
  | none =>
    obtain ⟨key, hkey⟩ := Option.isSome_iff_exists.mp hrest.1
    obtain ⟨message, -, hsig⟩ := checkpointSignature_eq_ok.mp (hauth key hkey)
    exact Digest.hex_ne_nil _ (hsig.symm.trans hrest.2)

/-- What passes and is not stripped is authenticated. -/
theorem authenticated_of_authenticate {c : Checkpoint} {sealKey : Option Bytes}
    {publicKey : Option (KeyArg P.PublicKey)} (h : authenticate P c sealKey publicKey = .ok ())
    (hnot : ¬Stripped P c sealKey publicKey) : Authenticated P c sealKey publicKey := by
  obtain ⟨b, hed, hhmac⟩ := authenticate_eq_ok.mp h
  -- without an Ed25519 signature everything hangs on the HMAC
  rcases checkEd25519_eq_ok.mp hed with ⟨hnil, rfl⟩ | ⟨rfl, key, rfl, hver⟩
  swap
  · exact hver
  have hrest : c.signature = [] ∨ ∃ key, sealKey = some key ∧
      checkpointSignature P c.seq c.hash c.keyId key c.merkleRoot = .ok c.signature := by
    simpa using checkHmac_eq_ok.mp hhmac
  cases publicKey with
  | some key => exact absurd ⟨hnil, hrest⟩ hnot
  | none =>
    rintro key rfl
    rcases hrest with hsig | ⟨key', hkey, hsig⟩
    · exact absurd ⟨hnil, rfl, hsig⟩ hnot
    · rwa [Option.some.inj hkey]

/-- **When loading authenticates**: a file gives a caller with a key an authenticated
checkpoint or none, exactly when it is not stripped. -/
theorem load_authenticated_iff (text : PyStr) (sealKey : Option Bytes)
    (publicKey : Option (KeyArg P.PublicKey)) :
    (∀ c, loadCheckpoint P text sealKey publicKey = .ok c → Authenticated P c sealKey publicKey) ↔
      ∀ c, readCheckpoint P text = .ok c → ¬Stripped P c sealKey publicKey := by
  constructor
  · intro h c hread hstripped
    exact hstripped.not_authenticated
      (h c (loadCheckpoint_eq_ok.mpr ⟨hread, hstripped.authenticate⟩))
  · intro h c hload
    obtain ⟨hread, hauth⟩ := loadCheckpoint_eq_ok.mp hload
    exact authenticated_of_authenticate hauth (h c hread)

/-- A file without signatures is loaded with a public key. -/
theorem load_authenticated_counterexample :
    ¬∀ (P : Runtime) (text : PyStr) (sealKey : Option Bytes)
      (publicKey : Option (KeyArg P.PublicKey)) (c : Checkpoint),
        loadCheckpoint P text sealKey publicKey = .ok c →
          Authenticated P c sealKey publicKey := by
  intro hclaim
  have hload : loadCheckpoint referenceRuntime
      (lit "\x7b\"seq\": 0, \"hash\": \"forged\"\x7d") none (some (.bytes (List.replicate 32 1)))
        = .ok { seq := 0, hash := lit "forged" } := by decide +kernel
  exact absurd (hclaim referenceRuntime _ _ _ _ hload)
    (Stripped.not_authenticated ⟨rfl, Or.inl rfl⟩)

/-! ### One key, two texts -/

/-- **Every checkpoint text is a record text**: the signer id takes the place of what
comes last. -/
theorem checkpointText_eq (seq : ℤ) (recordHash keyId merkleRoot : PyStr) :
    checkpointText seq recordHash keyId merkleRoot = recordSigningText seq recordHash
      (if merkleRoot = [] then keyId else keyId ++ ch ':' :: merkleRoot) := by
  unfold checkpointText recordSigningText
  by_cases hroot : merkleRoot = []
  · simp only [hroot, ne_eq, not_true_eq_false, if_false, if_true]
  · simp only [hroot, ne_eq, not_false_eq_true, if_true, if_false, List.append_assoc,
      List.cons_append]

/-- Text that can be encoded holds no surrogates. -/
theorem strOk_of_utf8Encode {s : PyStr} {b : Bytes} (h : utf8Encode s = .ok b) :
    StrOk true s := (utf8Encode_ok_iff.mp ⟨b, h⟩).strOk true

variable (P) in
/-- Some file that carries the signature of the record is loaded with the public key. -/
def PassesAsCheckpoint (k : P.PrivateKey) (r : AuditRecord) : Prop :=
  ∃ text sealKey c, loadCheckpoint P text sealKey (some (.object (P.publicKey k))) = .ok c ∧
    c.signatureEd25519 = r.signature

variable (P) in
/-- Some record that carries the signature of the checkpoint verifies. -/
def PassesAsRecord (k : P.PrivateKey) (c : Checkpoint) : Prop :=
  ∃ r : AuditRecord, verifyRecordSignature P r (.object (P.publicKey k)) = .ok true ∧
    r.signature = c.signatureEd25519

/-- No signature of the run passes for one of the other kind. -/
structure NoExchange (run : HonestRun P) (k : P.PrivateKey) : Prop where
  records : ∀ r ∈ run.chain, ¬PassesAsCheckpoint P k r
  checkpoints : ∀ c, (World.checkpoint run.world).1 = .ok c → ¬PassesAsRecord P k c

/-- The record's signature in a checkpoint at its position, with the signer id for a key
id and no root. -/
def AuditRecord.asCheckpoint (r : AuditRecord) : Checkpoint where
  seq := r.seq
  hash := r.hash
  keyId := r.signerId
  signatureEd25519 := r.signature

/-- The checkpoint's signature on a record at its position, with a signer id that runs on
to the root. -/
def Checkpoint.asRecord (c : Checkpoint) : AuditRecord where
  seq := c.seq
  timestamp := c.timestamp
  actor := []
  action := []
  subject := []
  metadata := []
  prevHash := GENESIS_HASH
  hash := c.hash
  signerId := if c.merkleRoot = [] then c.keyId else c.keyId ++ ch ':' :: c.merkleRoot
  signature := c.signatureEd25519

theorem message_asCheckpoint (r : AuditRecord) :
    r.asCheckpoint.message = recordSigningMessage r := by
  rw [Checkpoint.message, checkpointMessage, checkpointText_eq]
  rfl

theorem recordSigningMessage_asRecord (c : Checkpoint) :
    recordSigningMessage c.asRecord = c.message := by
  rw [Checkpoint.message, checkpointMessage, checkpointText_eq]
  rfl

theorem WrittenBy.passesAsCheckpoint (hP : P.SignaturesVerify) {log : AuditLog P}
    {r : AuditRecord} (h : WrittenBy log r) {k : P.PrivateKey} (hk : log.signingKey = some k) :
    PassesAsCheckpoint P k r := by
  obtain ⟨message, hmessage, hsig⟩ := h.signed k hk
  have hav := (log.signs (by rw [hk]; rfl)).2
  have hne : r.signature ≠ [] := by
    rw [hsig]
    exact hexStr_signature_ne_nil _
  -- everything in the file can be written and read back
  have htext := strOk_of_utf8Encode hmessage
  have htexts : ∀ s ∈ r.asCheckpoint.texts, StrOk true s := by
    simp only [Checkpoint.texts, AuditRecord.asCheckpoint, List.forall_mem_cons]
    have hhash : StrOk true r.hash := fun _ c hc => htext rfl c (by
      simp [recordSigningText, hc])
    have hid : StrOk true r.signerId := fun _ c hc => htext rfl c (by
      simp [recordSigningText, hc])
    have hsign : StrOk true r.signature := by
      rw [hsig]
      exact strOk_hexStr _
    have hnil : StrOk true [] := strOk_of_all rfl
    exact ⟨hhash, hid, hnil, hnil, hnil, hnil, hsign, by simp⟩
  obtain ⟨text, -, hread⟩ := readCheckpoint_saveCheckpoint (P := P)
    (fun s hs => (htexts s hs).kept) (fun hnil => absurd hnil hne)
  have hver : verifyCheckpointSignature P r.asCheckpoint (.object (P.publicKey k)) = .ok true := by
    refine verifyCheckpointSignature_eq_true.mpr ⟨hne, message, ?_, ?_⟩
    · rw [message_asCheckpoint, hmessage]
    · rw [show r.asCheckpoint.signatureEd25519 = r.signature from rfl, hsig]
      exact verifySignature_sign hav hP k message
  refine ⟨text, none, r.asCheckpoint, loadCheckpoint_eq_ok.mpr ⟨hread, ?_⟩, rfl⟩
  exact authenticate_eq_ok.mpr ⟨true, checkEd25519_eq_ok.mpr (Or.inr ⟨rfl, _, rfl, hver⟩),
    checkHmac_eq_ok.mpr (Or.inl (Or.inr rfl))⟩

theorem Checkpoint.MadeFor.passesAsRecord (hP : P.SignaturesVerify)
    (hav : P.cryptographyAvailable = true) {c : Checkpoint} {r : AuditRecord} {root : PyStr}
    {k : P.PrivateKey} (h : c.MadeFor r root (some (.object k))) : PassesAsRecord P k c := by
  obtain ⟨message, hmessage, hsign⟩ := h.signed _ rfl
  rw [signMessage_object hav, Except.ok.injEq] at hsign
  refine ⟨c.asRecord, verifyRecordSignature_eq_true.mpr ⟨message, ?_, ?_⟩, rfl⟩
  · rw [recordSigningMessage_asRecord, hmessage]
  · rw [show c.asRecord.signature = c.signatureEd25519 from rfl, ← hsign]
    exact verifySignature_sign hav hP k message

/-- **Signatures can be exchanged** as soon as there are any: a run that signs with `k`
keeps records and checkpoints apart exactly when it has stored nothing, and every
checkpoint signature passes for a record's. -/
theorem noExchange_iff (hP : P.SignaturesVerify) (run : HonestRun P) (k : P.PrivateKey)
    (hk : ∀ e ∈ run.trace, e.writer.signingKey = some k)
    (hlog : run.world.log.signingKey = some k) :
    (NoExchange run k ↔ run.chain = []) ∧
      ∀ c, (World.checkpoint run.world).1 = .ok c → PassesAsRecord P k c := by
  refine ⟨⟨fun h => ?_, fun hnil => ⟨?_, ?_⟩⟩, ?_⟩
  · rw [List.eq_nil_iff_forall_not_mem]
    intro r hr
    obtain ⟨e, he, rfl⟩ := HonestRun.exists_entry hr
    exact h.records _ hr ((run.written e he).passesAsCheckpoint hP (hk e he))
  · intro r hr
    rw [hnil] at hr
    cases hr
  · intro c hc
    obtain ⟨r, root, hlast, -⟩ := World.checkpoint_spec run.history.tailOk hc
    rw [show run.world.contents = [] from hnil] at hlast
    cases hlast
  · intro c hc
    obtain ⟨r, root, -, -, hmade⟩ := World.checkpoint_spec run.history.tailOk hc
    rw [hlog] at hmade
    exact hmade.passesAsRecord hP (run.world.log.signs (by rw [hlog]; rfl)).2

/-- The one record of the sample run passes for a checkpoint. -/
theorem sampleRun_exchange : ¬NoExchange sampleRun ⟨List.replicate 32 1, rfl⟩ := by
  obtain ⟨r, htrace, -, hkey⟩ := sampleRun_spec
  obtain ⟨hchain, -, -⟩ := accepted_of_trace referenceRuntime_signaturesVerify htrace
  intro hno
  have hnil := (noExchange_iff referenceRuntime_signaturesVerify sampleRun
    ⟨List.replicate 32 1, rfl⟩ (by simp [htrace, sampleLog]) hkey).1.mp hno
  rw [hchain] at hnil
  cases hnil

/-- The texts that are signed for records and for checkpoints meet, and a run that stored a
record lets its signature pass. -/
theorem noExchange_counterexample :
    (¬∀ (r : AuditRecord) (c : Checkpoint) (m : Bytes),
      recordSigningMessage r = .ok m → c.message ≠ .ok m) ∧
    ¬∀ (P : Runtime) (run : HonestRun P) (k : P.PrivateKey), P.SignaturesVerify →
      (∀ e ∈ run.trace, e.writer.signingKey = some k) →
        run.world.log.signingKey = some k → NoExchange run k := by
  obtain ⟨r, htrace, -, hkey⟩ := sampleRun_spec
  obtain ⟨hchain, hwritten, -⟩ := accepted_of_trace referenceRuntime_signaturesVerify htrace
  constructor
  · intro hclaim
    obtain ⟨message, hmessage, -⟩ := hwritten.signed _ rfl
    exact hclaim r r.asCheckpoint message hmessage (by rw [message_asCheckpoint, hmessage])
  · intro hclaim
    have hno := hclaim referenceRuntime sampleRun ⟨List.replicate 32 1, rfl⟩
      referenceRuntime_signaturesVerify (by simp [htrace, sampleLog]) hkey
    exact hno.records r (by rw [hchain]; exact List.mem_singleton_self r)
      (hwritten.passesAsCheckpoint referenceRuntime_signaturesVerify rfl)

end AuditChain
