/-
AuditChain/OwnAnchors.lean

Anchors in the hands of those who made them.

A checkpoint is saved and loaded again without loss, and the keys that made it
are the keys that load it (`authenticate_made`).  What a sealed log cannot do is
find its seal key by the name that the checkpoint gives: the name is that of the
last record, the key is the current one.

    namesItsKey_iff    the key under a checkpoint's own `key_id` authenticates it
                       exactly when it sealed the last record and is still current
-/
import AuditChain.CheckpointFiles
import AuditChain.Payload
import AuditChain.RawChars
import AuditChain.Rotation

namespace AuditChain

open Python HashChain Machine

variable {P : Runtime}

/-! ### Made, saved and loaded -/

/-- What making a checkpoint puts into it, beside what it names. -/
structure Checkpoint.MadeWith (c : Checkpoint) (r : AuditRecord) (sealKey : Option Bytes)
    (signingKey : Option (KeyArg P.PrivateKey)) (signerId : PyStr) : Prop where
  timestamp : c.timestamp = r.timestamp
  signerId : c.signerId = if c.signatureEd25519 ≠ [] then signerId else []
  unsigned : signingKey = none → c.signatureEd25519 = []
  sealed : ∀ key, sealKey = some key → key ≠ [] →
    checkpointSignature P c.seq c.hash c.keyId key c.merkleRoot = .ok c.signature
  unsealed : sealKey.getD [] = [] → c.signature = []

theorem makeCheckpoint_madeWith {r : AuditRecord} {sealKey : Option Bytes} {root : PyStr}
    {signingKey : Option (KeyArg P.PrivateKey)} {signerId : PyStr} {c : Checkpoint}
    (h : makeCheckpoint P r sealKey root signingKey signerId = .ok c) :
    c.MadeWith r sealKey signingKey signerId := by
  unfold makeCheckpoint at h
  obtain ⟨signature, hseal, h⟩ := bind_eq_ok.mp h
  obtain ⟨ed25519, hsign, h⟩ := bind_eq_ok.mp h
  obtain rfl := Except.ok.inj h
  refine ⟨rfl, rfl, ?_, ?_, ?_⟩
  · rintro rfl
    exact (Except.ok.inj hsign).symm
  · rintro key rfl hne
    cases key with
    | nil => exact absurd rfl hne
    | cons b key => exact hseal
  · intro hempty
    match sealKey, hempty with
    | none, _ => exact (Except.ok.inj hseal).symm
    | some [], _ => exact (Except.ok.inj hseal).symm

theorem checkpointSignature_ascii {seq : ℤ} {h k m s : PyStr} {key : Bytes}
    (hs : checkpointSignature P seq h k key m = .ok s) : ∃ d : Digest, s = d.hex := by
  obtain ⟨message, -, rfl⟩ := checkpointSignature_eq_ok.mp hs
  exact ⟨_, rfl⟩

/-- The texts of a checkpoint are those of the record, the root, the signer id and
hexadecimal signatures. -/
theorem texts_made {p : PyStr → Prop} (hhex : ∀ b, p (hexStr b)) (hnil : p [])
    {r : AuditRecord} {sealKey : Option Bytes} {root : PyStr}
    {signingKey : Option (KeyArg P.PrivateKey)} {signerId : PyStr} {c : Checkpoint}
    (h : makeCheckpoint P r sealKey root signingKey signerId = .ok c) (hhash : p r.hash)
    (hkeyId : p r.keyId) (hts : p r.timestamp) (hroot : p root)
    (hsigner : signingKey.isSome = true → p signerId) : ∀ s ∈ c.texts, p s := by
  have hmade := makeCheckpoint_spec h
  have hwith := makeCheckpoint_madeWith h
  have hsig : p c.signature := by
    by_cases hempty : sealKey.getD [] = []
    · rw [hwith.unsealed hempty]
      exact hnil
    · cases sealKey with
      | none => exact absurd rfl hempty
      | some key =>
        obtain ⟨d, hd⟩ := checkpointSignature_ascii (hwith.sealed key rfl hempty)
        rw [hd]
        exact hhex d.val
  have hed : p c.signatureEd25519 ∧ p c.signerId := by
    rw [hwith.signerId]
    cases signingKey with
    | none =>
      rw [hwith.unsigned rfl]
      exact ⟨hnil, hnil⟩
    | some arg =>
      obtain ⟨message, -, hsign⟩ := hmade.signed arg rfl
      obtain ⟨k, -, hsign⟩ := bind_eq_ok.mp hsign
      refine ⟨?_, ?_⟩
      · rw [← Except.ok.inj hsign]
        exact hhex _
      · split
        · exact hsigner rfl
        · exact hnil
  simp only [Checkpoint.texts, List.forall_mem_cons, hmade.hash, hmade.keyId, hwith.timestamp,
    hmade.merkleRoot]
  exact ⟨hhash, hkeyId, hts, hsig, hroot, hed.2, hed.1, by simp⟩

/-- It is saved, and read back as it was. -/
theorem readCheckpoint_made {r : AuditRecord} {sealKey : Option Bytes} {root : PyStr}
    {signingKey : Option (KeyArg P.PrivateKey)} {signerId : PyStr} {c : Checkpoint}
    (h : makeCheckpoint P r sealKey root signingKey signerId = .ok c) (hhash : Encodable r.hash)
    (hkeyId : Encodable r.keyId) (hts : Encodable r.timestamp) (hroot : Encodable root)
    (hsigner : signingKey.isSome = true → Encodable signerId) :
    ∃ text, saveCheckpoint P c = .ok text ∧ readCheckpoint P text = .ok c := by
  have htexts := texts_made encodable_hexStr encodable_nil h hhash hkeyId hts hroot hsigner
  refine readCheckpoint_saveCheckpoint (fun s hs => ((htexts s hs).strOk true).kept) ?_
  intro hed
  rw [(makeCheckpoint_madeWith h).signerId, hed]
  rfl

/-- An anchor that is signed with Ed25519 needs the public key, and nothing else. -/
theorem authenticate_signed {r : AuditRecord} {sealKey : Option Bytes} {root : PyStr}
    {arg : KeyArg P.PrivateKey} {signerId : PyStr} {c : Checkpoint} {k : P.PrivateKey}
    (hP : P.SignaturesVerify) (harg : loadPrivateKey P arg = .ok k)
    (h : makeCheckpoint P r sealKey root (some arg) signerId = .ok c)
    {publicArg : KeyArg P.PublicKey} (hpublic : loadPublicKey P publicArg = .ok (P.publicKey k))
    (callerKey : Option Bytes) : authenticate P c callerKey (some publicArg) = .ok () := by
  obtain ⟨message, hmessage, hsign⟩ := (makeCheckpoint_spec h).signed arg rfl
  rw [signMessage, harg] at hsign
  have hsig : hexStr (P.sign k message).val = c.signatureEd25519 := Except.ok.inj hsign
  have hver : verifyCheckpointSignature P c publicArg = .ok true := by
    refine verifyCheckpointSignature_eq_true.mpr ⟨?_, message, hmessage, ?_⟩
    · rw [← hsig]
      exact hexStr_signature_ne_nil _
    · rw [← hsig]
      exact verifySignature_eq_true.mpr ⟨_, _, hpublic, fromHex_hexStr _, hP k message⟩
  exact authenticate_eq_ok.mpr
    ⟨true, checkEd25519_eq_ok.mpr (Or.inr ⟨rfl, publicArg, rfl, hver⟩),
      checkHmac_eq_ok.mpr (Or.inl (Or.inr rfl))⟩

theorem signed_of_signingKey {r : AuditRecord} {sealKey : Option Bytes} {root : PyStr}
    {arg : KeyArg P.PrivateKey} {signerId : PyStr} {c : Checkpoint}
    (h : makeCheckpoint P r sealKey root (some arg) signerId = .ok c) :
    c.signatureEd25519 ≠ [] := by
  obtain ⟨message, -, hsign⟩ := (makeCheckpoint_spec h).signed arg rfl
  obtain ⟨k, -, hsign⟩ := bind_eq_ok.mp hsign
  rw [← Except.ok.inj hsign]
  exact hexStr_signature_ne_nil _

/-- Without the public key it is refused. -/
theorem authenticate_signed_none {r : AuditRecord} {sealKey : Option Bytes} {root : PyStr}
    {arg : KeyArg P.PrivateKey} {signerId : PyStr} {c : Checkpoint}
    (h : makeCheckpoint P r sealKey root (some arg) signerId = .ok c) (callerKey : Option Bytes) :
    authenticate P c callerKey none = .error (valueError
      (lit "checkpoint is signed with Ed25519; pass the public key to verify it")) := by
  rw [authenticate, checkEd25519, if_neg (signed_of_signingKey h), error_bind]

/-- Any other anchor needs the seal key that made it, if one did. -/
theorem authenticate_unsigned {r : AuditRecord} {sealKey : Option Bytes} {root : PyStr}
    {signerId : PyStr} {c : Checkpoint}
    (h : makeCheckpoint P r sealKey root none signerId = .ok c) :
    authenticate P c sealKey none = .ok () := by
  have hwith := makeCheckpoint_madeWith h
  refine authenticate_eq_ok.mpr ⟨false, checkEd25519_eq_ok.mpr (Or.inl ⟨hwith.unsigned rfl, rfl⟩),
    checkHmac_eq_ok.mpr ?_⟩
  by_cases hempty : sealKey.getD [] = []
  · exact Or.inl (Or.inl (hwith.unsealed hempty))
  · cases sealKey with
    | none => exact absurd rfl hempty
    | some key => exact Or.inr ⟨key, rfl, hwith.sealed key rfl hempty⟩

/-- A log can open what it made: with its seal key, and its public key if it signs. -/
theorem authenticate_made (hP : P.SignaturesVerify) {log : AuditLog P} {r : AuditRecord}
    {root : PyStr} {c : Checkpoint}
    (h : makeCheckpoint P r log.sealKey root (log.signingKey.map KeyArg.object) log.signerId
      = .ok c) :
    authenticate P c log.sealKey (log.signingKey.map fun k => KeyArg.object (P.publicKey k))
      = .ok () := by
  cases hsigning : log.signingKey with
  | none =>
    rw [hsigning] at h
    exact authenticate_unsigned h
  | some k =>
    rw [hsigning] at h
    have hav := (log.signs (by rw [hsigning]; rfl)).2
    exact authenticate_signed hP (loadPrivateKey_object hav k) h (loadPublicKey_object hav _) _

/-! ### The texts of an honest record -/

/-- The time of a record that was hashed has bytes: it is part of the payload. -/
theorem encodable_timestamp {r : AuditRecord} {data : Bytes} (h : hashInput P r = .ok data) :
    Encodable r.timestamp := by
  obtain ⟨-, payload, -, hpayload, -⟩ := hashInput_eq_ok h
  obtain ⟨-, hencode⟩ := toPayloadBytes_eq_ok hpayload
  have hleaves := (encodable_printVal P.floats _).mp (utf8Encode_ok_iff.mp ⟨_, hencode⟩)
  simp only [AuditRecord.toPayloadDict, PyVal.AllLeaves, ItemsAllLeaves] at hleaves
  exact hleaves.2.2.2.1

theorem WrittenBy.encodable_hash {log : AuditLog P} {r : AuditRecord} (h : WrittenBy log r) :
    Encodable r.hash := by
  obtain ⟨data, -, hhash⟩ := h.hashed
  rw [hhash]
  exact encodable_hexStr _

/-- The name that a signed record was signed under has bytes. -/
theorem WrittenBy.encodable_signerId {log : AuditLog P} {r : AuditRecord} (h : WrittenBy log r)
    (hsigns : log.signingKey.isSome = true) : Encodable log.signerId := by
  obtain ⟨key, hkey⟩ := Option.isSome_iff_exists.mp hsigns
  obtain ⟨message, hmessage, -⟩ := h.signed key hkey
  have htext : Encodable (recordSigningText r.seq r.hash r.signerId) :=
    utf8Encode_ok_iff.mp ⟨message, hmessage⟩
  have hid : r.signerId = log.signerId := by rw [h.signerId, if_pos hsigns]
  rw [← hid]
  exact (encodable_cons.mp (encodable_append.mp
    (encodable_cons.mp (encodable_append.mp htext).2).2).2).2

/-- What a checkpoint signature covers has bytes. -/
theorem encodable_of_message {c : Checkpoint} {m : Bytes} (h : c.message = .ok m) :
    Encodable c.hash ∧ Encodable c.keyId ∧ Encodable c.merkleRoot := by
  have htext : Encodable (checkpointText c.seq c.hash c.keyId c.merkleRoot) :=
    utf8Encode_ok_iff.mp ⟨m, h⟩
  rw [checkpointText_eq, recordSigningText, encodable_append, encodable_cons, encodable_append,
    encodable_cons] at htext
  obtain ⟨-, -, hhash, -, htail⟩ := htext
  refine ⟨hhash, ?_⟩
  by_cases hroot : c.merkleRoot = []
  · rw [if_pos hroot] at htail
    exact ⟨htail, hroot ▸ encodable_nil⟩
  · rw [if_neg hroot, encodable_append, encodable_cons] at htail
    exact ⟨htail.1, htail.2.2⟩

/-! ### Keys and their names -/

/-- The key id that a call introduces. -/
def Call.newKeyId? : Call P → Option PyStr
  | .rotate _ newKeyId _ _ => some newKeyId
  | _ => none

/-- The key ids of a run: the one it starts with, and those it rotates to. -/
def HonestRun.keyIds (run : HonestRun P) : List PyStr :=
  run.cfg.keyId :: run.calls.filterMap Call.newKeyId?

/-- The log holds the key of the writer under the name that the writer gave it, and signs
as the writer did. -/
structure Knows (log writer : AuditLog P) : Prop where
  sealed : writer.sealKey.isSome = true
  key : log.keyring.lookup writer.keyId = writer.sealKey
  signingKey : writer.signingKey = log.signingKey
  signerId : writer.signerId = log.signerId

theorem Knows.refl {log : AuditLog P} (h : log.sealKey.isSome = true) : Knows log log := by
  obtain ⟨key, hkey⟩ := Option.isSome_iff_exists.mp h
  exact ⟨h, by rw [log.currentKey key hkey, hkey], rfl, rfl⟩

theorem Knows.withTail {log writer : AuditLog P} (h : Knows log writer)
    (last : Option AuditRecord) (inited : Bool) : Knows (log.withTail last inited) writer :=
  ⟨h.sealed, h.key, h.signingKey, h.signerId⟩

/-- A rotation to another name forgets nothing. -/
theorem Knows.withKey {log writer : AuditLog P} (h : Knows log writer) {key : Bytes}
    {keyId : PyStr} (hlong : MIN_KEY_LENGTH ≤ key.length) (hne : writer.keyId ≠ keyId) :
    Knows (log.withKey key keyId hlong) writer where
  sealed := h.sealed
  key := by
    show (AList.insert keyId key log.keyring).lookup writer.keyId = _
    rw [AList.lookup_insert_ne hne, h.key]
  signingKey := h.signingKey
  signerId := h.signerId

/-- So far, the names in use are among `ids`, and the log knows everyone who wrote. -/
structure KeysNamed {B : OrderedBackend} (ids : List PyStr) (es : List (Entry P))
    (w : World P B.toStorageBackend) : Prop where
  tailOk : w.TailOk
  sealed : w.log.sealKey.isSome = true
  current : w.log.keyId ∈ ids
  entries : ∀ e ∈ es, e.writer.keyId ∈ ids ∧ Knows w.log e.writer

variable {B : OrderedBackend}

/-- The entries of a step beside those before it. -/
theorem KeysNamed.all {ids : List PyStr} {es : List (Entry P)} {w : World P B.toStorageBackend}
    (h : KeysNamed ids es w) (rs : List AuditRecord) :
    ∀ e ∈ es ++ rs.map (Entry.mk w.log), e.writer.keyId ∈ ids ∧ Knows w.log e.writer := by
  intro e he
  rcases List.mem_append.mp he with he | he
  · exact h.entries e he
  · obtain ⟨r, -, rfl⟩ := List.mem_map.mp he
    exact ⟨h.current, Knows.refl h.sealed⟩

/-- A call that changes the tail only keeps the names. -/
theorem KeysNamed.withTail {ids ids' : List PyStr} {es : List (Entry P)}
    {w w' : World P B.toStorageBackend} (h : KeysNamed ids es w) {rs : List AuditRecord}
    (hids : ids ⊆ ids') (htail : w'.TailOk) {last : Option AuditRecord} {inited : Bool}
    (hlog : w'.log = w.log.withTail last inited) :
    KeysNamed ids' (es ++ rs.map (Entry.mk w.log)) w' := by
  refine ⟨htail, by rw [hlog]; exact h.sealed, by rw [hlog]; exact hids h.current, ?_⟩
  intro e he
  obtain ⟨hid, hknows⟩ := h.all rs e he
  rw [hlog]
  exact ⟨hids hid, hknows.withTail last inited⟩

theorem KeysNamed.step {ids : List PyStr} {es : List (Entry P)} {w : World P B.toStorageBackend}
    (h : KeysNamed ids es w) {c : Call P} (hc : c.OnSameObject)
    (hfresh : ∀ id, c.newKeyId? = some id → id ∉ ids) :
    KeysNamed (ids ++ c.newKeyId?.toList) (es ++ (c.step w).1) (c.step w).2 := by
  obtain ⟨rs, w', hstep, hspec⟩ := step_spec c h.tailOk
  have hsub : ids ⊆ ids ++ c.newKeyId?.toList := List.subset_append_left _ _
  have hlog := hspec.log
  rw [hstep]
  cases c with
  | reopen cfg => exact absurd hc id
  | rotate newSealKey newKeyId actor now =>
    rcases hlog with ⟨hlong, last, -, hlog⟩ | ⟨-, ⟨last, hlog⟩ | hlog⟩
    -- the new name is not that of any key in use
    · refine ⟨hspec.tailOk, by rw [hlog]; rfl, by rw [hlog]; simp [Call.newKeyId?,
        AuditLog.withKey], ?_⟩
      intro e he
      obtain ⟨hid, hknows⟩ := h.all rs e he
      have hne : e.writer.keyId ≠ newKeyId := by
        intro heq
        exact hfresh newKeyId rfl (heq ▸ hid)
      rw [hlog]
      exact ⟨hsub hid, (hknows.withKey hlong hne).withTail last true⟩
    · exact h.withTail hsub hspec.tailOk hlog
    · exact h.withTail hsub hspec.tailOk (hlog.trans (withTail_self w.log).symm)
  | init =>
    obtain ⟨last, hlog⟩ := hlog
    exact h.withTail hsub hspec.tailOk hlog
  | append =>
    obtain ⟨last, hlog⟩ := hlog
    exact h.withTail hsub hspec.tailOk hlog
  | appendMany =>
    obtain ⟨last, hlog⟩ := hlog
    exact h.withTail hsub hspec.tailOk hlog

/-- What the constructor makes of its arguments. -/
theorem new_spec {cfg : Config P} {log : AuditLog P} (h : AuditLog.new cfg = .ok log) :
    log.sealKey = cfg.sealKey ∧ log.keyId = cfg.keyId ∧ log.signerId = cfg.signerId ∧
      cfg.signingKey.mapM (loadPrivateKey P) = .ok log.signingKey := by
  unfold AuditLog.new at h
  split at h
  · cases h
  · split at h
    · cases h
    · rename_i signingKey hkey
      split at h
      · cases h
      · split at h
        · cases h
        · rw [← Except.ok.inj h]
          exact ⟨rfl, rfl, rfl, hkey⟩

/-- **Under distinct names a sealed log knows everyone who wrote.** -/
theorem HonestRun.keysNamed (run : HonestRun P) (hsealed : run.cfg.sealKey.isSome = true)
    (hsame : ∀ c ∈ run.calls, c.OnSameObject) (hids : run.keyIds.Nodup) :
    KeysNamed run.keyIds run.trace run.world := by
  obtain ⟨hseal, hkeyId, -⟩ := new_spec run.new
  refine run_prefixes
    (fun past es w => KeysNamed (run.cfg.keyId :: past.filterMap Call.newKeyId?) es w)
    run.calls ⟨run.start_tailOk, ?_, ?_, by simp⟩ ?_
  · rw [show run.start.log = run.log from rfl, hseal, hsealed]
  · rw [show run.start.log = run.log from rfl, hkeyId]
    exact List.mem_cons_self
  · intro past c rest hall es w h
    have hids' : (run.cfg.keyId :: past.filterMap Call.newKeyId?
        ++ (c :: rest).filterMap Call.newKeyId?).Nodup := by
      rw [HonestRun.keyIds, ← hall, List.filterMap_append, ← List.cons_append] at hids
      exact hids
    have hnext := h.step (hsame c (by rw [← hall]; simp)) (fun id hid => ?_)
    · rw [List.filterMap_append, ← List.cons_append]
      cases hid : c.newKeyId? <;> simpa [hid] using hnext
    · rw [List.filterMap_cons_some hid, List.nodup_middle, List.nodup_cons] at hids'
      exact fun hmem => hids'.1 (List.mem_append_left _ hmem)

/-! ### The key that a checkpoint names -/

/-- The key that the log holds for the checkpoint's own `key_id` is the one of its HMAC, and
the checkpoint can be saved and loaded with it.  A log that signs with Ed25519 loads it
with its public key too. -/
def NamesItsKey (log : AuditLog P) (c : Checkpoint) : Prop :=
  ∃ key, log.keyring.lookup c.keyId = some key ∧
    checkpointSignature P c.seq c.hash c.keyId key c.merkleRoot = .ok c.signature ∧
    ∃ text, saveCheckpoint P c = .ok text ∧
      loadCheckpoint P text (some key)
        (log.signingKey.map fun k => KeyArg.object (P.publicKey k)) = .ok c

variable (P) in
/-- The HMACs of one message under two keys are different, unless the keys are the same. -/
def KeysApart (c : Checkpoint) (key key' : Option Bytes) : Prop :=
  ∀ k k' m, key = some k → key' = some k' → c.message = .ok m →
    P.hmacSha256 k m = P.hmacSha256 k' m → k = k'

/-- What a log signs about a record that somebody it knows wrote is saved, and read back. -/
theorem Knows.exists_saved {log writer : AuditLog P} (h : Knows log writer) {r : AuditRecord}
    (hwritten : WrittenBy writer r) {root : PyStr} {c : Checkpoint}
    (hmade : makeCheckpoint P r log.sealKey root (log.signingKey.map KeyArg.object) log.signerId
      = .ok c) {message : Bytes} (hmessage : c.message = .ok message) :
    ∃ text, saveCheckpoint P c = .ok text ∧ readCheckpoint P text = .ok c := by
  have hfor := makeCheckpoint_spec hmade
  obtain ⟨data, hdata, -⟩ := hwritten.hashed
  obtain ⟨-, hid, hmerkle⟩ := encodable_of_message hmessage
  rw [hfor.keyId] at hid
  rw [hfor.merkleRoot] at hmerkle
  have hsigner : (log.signingKey.map KeyArg.object).isSome = true → Encodable log.signerId := by
    intro hsome
    rw [Option.isSome_map, ← h.signingKey] at hsome
    rw [← h.signerId]
    exact hwritten.encodable_signerId hsome
  exact readCheckpoint_made hmade hwritten.encodable_hash hid (encodable_timestamp hdata) hmerkle
    hsigner

/-- **When a checkpoint names its key**: when the last record was sealed with the key that
is still current, so never between a rotation to another key and the next record. -/
theorem namesItsKey_iff (hP : P.SignaturesVerify) (run : HonestRun P)
    (hsealed : run.cfg.sealKey.isSome = true) (hsame : ∀ c ∈ run.calls, c.OnSameObject)
    (hids : run.keyIds.Nodup) {c : Checkpoint} (hc : (World.checkpoint run.world).1 = .ok c)
    {e : Entry P} (he : run.trace.getLast? = some e)
    (hapart : KeysApart P c e.writer.sealKey run.world.log.sealKey) :
    NamesItsKey run.world.log c ↔ e.writer.sealKey = run.world.log.sealKey := by
  have hnamed := run.keysNamed hsealed hsame hids
  obtain ⟨r, root, hlast, hroot, hmade⟩ := (World.checkpoint_eq_ok hnamed.tailOk).mp hc
  have hmem : e ∈ run.trace := List.mem_of_getLast? he
  have hrecord : e.record = r := by
    rw [show run.world.contents = run.chain from rfl, run.chain_eq, List.getLast?_map, he] at hlast
    exact Option.some.inj hlast
  have hwritten : WrittenBy e.writer r := hrecord ▸ run.written e hmem
  have hknows := (hnamed.entries e hmem).2
  have hfor := makeCheckpoint_spec hmade
  have hwith := makeCheckpoint_madeWith hmade
  -- the name is that of the writer, the HMAC is under the current key
  have hkeyId : c.keyId = e.writer.keyId := by
    rw [hfor.keyId, hwritten.keyId, if_pos hknows.sealed]
  obtain ⟨current, hcurrent⟩ := Option.isSome_iff_exists.mp hnamed.sealed
  have hnonempty : current ≠ [] := by
    rintro rfl
    exact absurd (run.world.log.longKey [] hcurrent) (by decide)
  have hsig := hwith.sealed current hcurrent hnonempty
  obtain ⟨message, hmessage, hhmac⟩ := checkpointSignature_eq_ok.mp hsig
  unfold NamesItsKey
  rw [hkeyId, hknows.key]
  constructor
  · rintro ⟨key, hkey, hsig', -⟩
    obtain ⟨message', hmessage', hhmac'⟩ := checkpointSignature_eq_ok.mp hsig'
    rw [← hkeyId] at hmessage'
    obtain rfl := Except.ok.inj (hmessage'.symm.trans hmessage)
    have hsame := Digest.hex_inj (hhmac'.symm.trans hhmac)
    rw [hkey, hcurrent, hapart key current _ hkey hcurrent hmessage hsame]
  · intro heq
    obtain ⟨text, hsave, hread⟩ := hknows.exists_saved hwritten hmade hmessage
    have hopen := authenticate_made hP hmade
    rw [hcurrent] at hopen
    exact ⟨current, heq.trans hcurrent, by rw [← hkeyId]; exact hsig, text, hsave,
      loadCheckpoint_eq_ok.mpr ⟨hread, hopen⟩⟩

/-- A record, a rotation, and a record behind it. -/
def longRun : HonestRun referenceRuntime :=
  { sampleRun with calls := [sampleAppend, sampleRotate, sampleAppend] }

/-- The checkpoint behind that record names its key. -/
theorem namesItsKey_sample : ∃ c, (World.checkpoint longRun.world).1 = .ok c ∧
    NamesItsKey longRun.world.log c := by
  have hsome : (World.checkpoint longRun.world).1.toOption.isSome = true := by decide +kernel
  have hlast : (longRun.trace.getLast?.map fun e =>
      decide (e.writer.sealKey = longRun.world.log.sealKey)) = some true := by decide +kernel
  obtain ⟨e, he, hkey⟩ := Option.map_eq_some_iff.mp hlast
  have hkey := of_decide_eq_true hkey
  cases hc : (World.checkpoint longRun.world).1 with
  | error e =>
    rw [hc] at hsome
    cases hsome
  | ok c =>
    have hiff := namesItsKey_iff referenceRuntime_signaturesVerify longRun rfl
      (by simp [longRun, sampleAppend, sampleRotate, Call.OnSameObject]) (by decide) hc he (by
        intro k k' m hk hk' _ _
        rw [← hkey, hk] at hk'
        exact Option.some.inj hk')
    exact ⟨c, rfl, hiff.mpr hkey⟩

/-- A log that seals and does not sign. -/
def sealedLog : AuditLog referenceRuntime :=
  { sampleLog with
    signingKey := none
    signs := by simp }

theorem new_sealedLog :
    AuditLog.new { sealKey := some (List.replicate 16 7) } = .ok sealedLog := rfl

/-- A rotation, and nothing behind it. -/
def rotatedRun : HonestRun referenceRuntime where
  backend := memoryBackend
  cfg := { sealKey := some (List.replicate 16 7) }
  log := sealedLog
  new := new_sealedLog
  store := ([] : List AuditRecord)
  empty := sampleRun.empty
  calls := [sampleRotate]

/-- Directly after a rotation the checkpoint names the old key and is sealed with the new. -/
theorem namesItsKey_counterexample :
    ¬∀ (P : Runtime) (run : HonestRun P) (c : Checkpoint), P.SignaturesVerify →
      run.cfg.sealKey.isSome = true → (∀ c ∈ run.calls, c.OnSameObject) → run.keyIds.Nodup →
        [] ∉ run.keyIds → (World.checkpoint run.world).1 = .ok c →
          NamesItsKey run.world.log c := by
  intro hclaim
  have hwrong : (World.checkpoint rotatedRun.world).1.toOption.bind (fun c =>
      (rotatedRun.world.log.keyring.lookup c.keyId).map fun key =>
        (checkpointSignature referenceRuntime c.seq c.hash c.keyId key c.merkleRoot).toOption
          == some c.signature) = some false := by decide +kernel
  obtain ⟨c, hc, hwrong⟩ := Option.bind_eq_some_iff.mp hwrong
  have hcheckpoint : (World.checkpoint rotatedRun.world).1 = .ok c := by
    cases h : (World.checkpoint rotatedRun.world).1 with
    | error e =>
      rw [h] at hc
      cases hc
    | ok c' =>
      rw [h] at hc
      rw [Option.some.inj hc]
  obtain ⟨key, hkey, hsig, -⟩ := hclaim referenceRuntime rotatedRun c
    referenceRuntime_signaturesVerify rfl
    (by simp [rotatedRun, sampleRotate, Call.OnSameObject]) (by decide) (by decide)
    hcheckpoint
  rw [hkey, Option.map_some, hsig] at hwrong
  simp [Except.toOption] at hwrong

end AuditChain
