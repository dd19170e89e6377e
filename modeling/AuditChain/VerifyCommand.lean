/-
AuditChain/VerifyCommand.lean

The commands `verify` and `keygen`.

`keygen` writes the two halves of a new key into two files.  `verify` is given the public
keys, each with the name that its owner signs under, in a file or in hexadecimal.  The log
that it opens knows one seal key at most, under the name that `AuditLog` has for a key
that was given none.

    signersOption_file   what is made of an option `--signer`
    verifyCommand_iff    which logs are accepted
    keygen_spec          what becomes of the files
    keygen_verify        what is signed with a new key is verified with its public half
-/
import AuditChain.CommandLine

namespace AuditChain

open Python HashChain Machine

namespace CommandLine

/-! ### The code -/

/-- The files on disk. -/
structure Files (φ : Type) where
  /-- Which file a path names. -/
  named : PyStr → φ
  content : φ → Option Bytes
  /-- Is its mode `0o600`? -/
  ownerOnly : φ → Bool

variable {φ : Type}

/-- What is found at a path. -/
def Files.read (fs : Files φ) (path : PyStr) : Option Bytes := fs.content (fs.named path)

/-- A path or a key in hexadecimal, in `_read_private_key` and `_read_public_key`. -/
def Files.keyOption (fs : Files φ) (value : PyStr) : KeyOption :=
  match fs.read value with
  | some raw => .file raw
  | none => .hex value

/-- `s.partition(sep)`, without the separator. -/
def partition (sep : CodePoint) (s : PyStr) : PyStr × PyStr :=
  (s.takeWhile (· ≠ sep), (s.dropWhile (· ≠ sep)).tail)

variable (P : Runtime)

/-- One turn of the loop of `load_signers`. -/
def loadSigner (fs : Files φ) (spec : PyStr) : Except PyError (PyStr × Bytes) :=
  let name := strip P.unicode (partition (ch '=') spec).1
  let value := strip P.unicode (partition (ch '=') spec).2
  if name = [] ∨ value = [] then
    .error (signatureError (lit "expected name=path or name=hex, got " ++ strRepr P.unicode spec))
  else
    match fs.read value with
    | some raw => .ok (name, raw)
    | none => do
      let raw ← keyBytes P (.text value : KeyArg P.PublicKey) (lit "public key")
      return (name, raw.val)

/-- `load_signers`. -/
def loadSigners (fs : Files φ) :
    (specs : List PyStr) → StrDict (KeyArg P.PublicKey) →
      Except PyError (StrDict (KeyArg P.PublicKey))
  | [], signers => .ok signers
  | spec :: specs, signers => do
    let (name, raw) ← loadSigner P fs spec
    loadSigners fs specs (AList.insert name (.bytes raw) signers)

variable {P} in
/-- `describe_signers`. -/
def describeSigners (signers : StrDict (KeyArg P.PublicKey)) : PyStr :=
  if signers.entries = [] then lit "no signers"
  else (lit ", ").intercalate (signers.keys.insertionSort (· ≤ ·))

/-- `str(report)`. -/
def reportText (report : VerifyReport) : PyStr :=
  if report.ok then lit "OK: " ++ intStr report.recordsChecked ++ lit " record(s) verified"
  else
    let place := match report.firstErrorSeq with
      | some seq => lit " at seq " ++ intStr seq
      | none => []
    lit "FAILED" ++ place ++ lit ": " ++ report.reason.getD (lit "None")

/-- The options of `verify`: the seal key is the content of the file. -/
structure VerifyOptions where
  expectedCount : Option ℤ := none
  sealKey : Option Bytes := none
  checkpoint : Option TextFile := none
  publicKey : Option KeyOption := none
  signers : List PyStr := []

/-- `_verify`. -/
def verifyLog (B : StorageBackend) (o : VerifyOptions)
    (signers : Option (StrDict (KeyArg P.PublicKey))) (publicKey : Option (KeyArg P.PublicKey)) :
    Operation PyError B.State VerifyReport := do
  let checkpoint ← Operation.ofExcept
    (o.checkpoint.mapM fun file => loadCheckpoint P file.text o.sealKey publicKey)
  withLog (P := P) { sealKey := o.sealKey } (World.verify o.expectedCount checkpoint signers)

/-- What `verify` prints. -/
def verifyLines {P : Runtime} (report : VerifyReport)
    (signers : Option (StrDict (KeyArg P.PublicKey))) : PyStr :=
  reportText report ++ lit "\n" ++
    match signers with
    | some signers =>
      if report.ok && !signers.entries.isEmpty then
        lit "signatures verified against: " ++ describeSigners signers ++ lit "\n"
      else []
    | none => []

/-- The signers of `verify`. -/
def signersOption (fs : Files φ) (specs : List PyStr) :
    Except PyError (Option (StrDict (KeyArg P.PublicKey))) :=
  if specs = [] then .ok none
  else do
    let signers ← loadSigners P fs specs ∅
    return some signers

/-- `verify`, on a log that is there. -/
def verifyCommand (fs : Files φ) (B : StorageBackend) (o : VerifyOptions) :
    Operation PyError B.State Ran := do
  let signers ← Operation.ofExcept (signersOption P fs o.signers)
  let publicKey ← Operation.ofExcept (readPublicKey P o.publicKey)
  let report ← verifyLog P B o signers publicKey
  return { exitCode := if report.ok then 0 else 1, stdout := verifyLines report signers }

/-- How a log is stored. -/
inductive Format
  | jsonl
  | sqlite

/-- `_detect_format`; `suffix` is `path.suffix.lower()`. -/
def detectFormat (path suffix : PyStr) (fmt : Option Format) : Except PyError Format :=
  match fmt with
  | some fmt => .ok fmt
  | none =>
    if suffix = lit ".jsonl" ∨ suffix = lit ".ndjson" then .ok .jsonl
    else if suffix = lit ".sqlite" ∨ suffix = lit ".sqlite3" ∨ suffix = lit ".db" then .ok .sqlite
    else .error (valueError (lit "cannot detect the storage format of " ++ path
      ++ lit "; pass --format jsonl|sqlite"))

/-- `main`, for a command on the log at `path`. -/
def onLog (path suffix : PyStr) (fmt : Option Format) (isThere : Bool)
    (command : Format → Except PyError Ran) : Ran :=
  finish do
    let fmt ← detectFormat path suffix fmt
    if isThere then command fmt
    else return { exitCode := 2, stderr := lit "error: " ++ path ++ lit " does not exist\n" }

/-! ### A new key -/

/-- The two halves of a key, and the bytes that stand for them. -/
structure KeyPair where
  key : P.PrivateKey
  seed : RawKey
  publicRaw : RawKey
  seed_spec : P.privateFromBytes seed = key
  publicRaw_spec : P.publicFromBytes publicRaw = P.publicKey key

variable {P}

/-- `path.write_bytes(raw)`, unless it raises.  A new file has the default mode. -/
def writeBytes [DecidableEq φ] (refuses : φ → Option PyError) (path : PyStr) (raw : Bytes) :
    Operation PyError (Files φ) Unit := fun fs =>
  match refuses (fs.named path) with
  | some e => (.error e, fs)
  | none => (.ok (), { fs with
      content := Function.update fs.content (fs.named path) (some raw)
      ownerOnly :=
        if (fs.read path).isSome then fs.ownerOnly
        else Function.update fs.ownerOnly (fs.named path) false })

/-- `path.chmod(0o600)`. -/
def makePrivate [DecidableEq φ] (path : PyStr) : Operation PyError (Files φ) Unit :=
  Operation.modify fun fs =>
    { fs with ownerOnly := Function.update fs.ownerOnly (fs.named path) true }

/-- `_keygen`, with the key that `generate_keypair` makes. -/
def keygen [DecidableEq φ] (refuses : φ → Option PyError) (pair : KeyPair P)
    (privateOut publicOut : PyStr) (force : Bool) : Operation PyError (Files φ) Ran := do
  let fs ← Operation.get
  match [privateOut, publicOut].find? fun path => (fs.read path).isSome && !force with
  | some path => return {
      exitCode := 2
      stderr := lit "error: " ++ path ++ lit " already exists (pass --force to overwrite)\n" }
  | none =>
    let _ ← Operation.ofExcept (requireCryptography P)
    let _ ← writeBytes refuses privateOut pair.seed.val
    let _ ← makePrivate privateOut
    let _ ← writeBytes refuses publicOut pair.publicRaw.val
    return {
      exitCode := 0
      stdout := lit "private key: " ++ privateOut ++ lit " (keep it secret, mode 600)\n"
        ++ lit "public key:  " ++ publicOut ++ lit " (give this to whoever verifies the log)\n"
        ++ lit "public key hex: " ++ hexStr pair.publicRaw.val ++ lit "\n" }

/-! ### The options `--signer` -/

theorem loadSigners_filled {fs : Files φ} : ∀ {specs : List PyStr}
    {signers d : StrDict (KeyArg P.PublicKey)}, loadSigners P fs specs signers = .ok d →
      (signers.entries = [] → specs ≠ []) → d.entries ≠ []
  | [], _, _, h, hfilled => by
    rw [← Except.ok.inj h]
    exact fun hempty => hfilled hempty rfl
  | _ :: _, _, _, h, _ => by
    obtain ⟨_, -, hrest⟩ := bind_eq_ok.mp h
    exact loadSigners_filled hrest nofun

/-- Who lists signers has some. -/
theorem signersOption_filled {fs : Files φ} {specs : List PyStr}
    {signers : Option (StrDict (KeyArg P.PublicKey))} (h : signersOption P fs specs = .ok signers)
    {d : StrDict (KeyArg P.PublicKey)} (hd : signers = some d) : d.entries ≠ [] := by
  rw [signersOption] at h
  split at h
  · rw [← Except.ok.inj h] at hd
    cases hd
  · rename_i hne
    obtain ⟨d', hload, hd'⟩ := bind_eq_ok.mp h
    obtain rfl : d' = d := Option.some.inj ((Except.ok.inj hd').trans hd)
    exact loadSigners_filled hload fun _ => hne

/-- `name=value`, as it is given. -/
theorem partition_append {sep : CodePoint} {name : PyStr} (h : sep ∉ name) (value : PyStr) :
    partition sep (name ++ sep :: value) = (name, value) := by
  have hall : ∀ c ∈ name, (decide (c ≠ sep)) = true := fun c hc =>
    decide_eq_true fun heq => h (heq ▸ hc)
  rw [partition, List.takeWhile_append_of_pos hall, List.dropWhile_append_of_pos hall,
    List.takeWhile_cons_of_neg (by simp), List.dropWhile_cons_of_neg (by simp)]
  simp

/-- **What is made of an option `--signer`** that names a file. -/
theorem signersOption_file {fs : Files φ} {name path : PyStr} (hname : strip P.unicode name = name)
    (hne : name ≠ []) (hsep : ch '=' ∉ name) (hpath : strip P.unicode path = path)
    (hpathne : path ≠ []) {raw : Bytes} (hread : fs.read path = some raw) :
    signersOption P fs [name ++ ch '=' :: path]
      = .ok (some (AList.insert name (.bytes raw) ∅)) := by
  have hload : loadSigner P fs (name ++ ch '=' :: path) = .ok (name, raw) := by
    rw [loadSigner, partition_append hsep]
    dsimp only
    rw [hname, hpath, if_neg (not_or.mpr ⟨hne, hpathne⟩), hread]
  rw [signersOption, if_neg (by simp), loadSigners, hload]
  rfl

/-! ### Which logs are accepted -/

/-- The operator has the keys of the log: whoever sealed under no name, or under the name that
`verify` has for its key, had this key, and the keys that are listed for the signers are
theirs. -/
structure RightKeys (run : HonestRun P) (sealKey : Option Bytes)
    (signers : Option (StrDict (KeyArg P.PublicKey))) : Prop where
  sealKey : ∀ e ∈ run.trace, e.record.keyId = [] ∨ e.record.keyId = lit "k0" →
    e.writer.sealKey = sealKey
  signers : ∀ d, signers = some d → ∀ e ∈ run.trace, ∀ k, e.writer.signingKey = some k →
    ∀ arg, d.lookup e.writer.signerId = some arg → loadPublicKey P arg = .ok (P.publicKey k)

theorem keyring_of_new {cfg : Config P} {log : AuditLog P} (h : AuditLog.new cfg = .ok log) :
    log.keyring = cfg.initialKeyring := by
  unfold AuditLog.new at h
  split at h
  · cases h
  · split at h
    · cases h
    · split at h
      · cases h
      · split at h
        · cases h
        · rw [← Except.ok.inj h]

/-- The log that `verify` opens has one seal key at most. -/
theorem opened_spec {sealKey : Option Bytes} {log : AuditLog P}
    (hnew : AuditLog.new ({ sealKey := sealKey } : Config P) = .ok log) :
    log.sealKey = sealKey ∧ log.signingKey = none ∧
      ∀ keyId, log.keyring.lookup keyId = if keyId = lit "k0" then sealKey else none := by
  obtain ⟨hseal, -, -, hsigning⟩ := new_spec hnew
  refine ⟨hseal, (Except.ok.inj hsigning).symm, fun keyId => ?_⟩
  rw [keyring_of_new hnew, Config.initialKeyring]
  cases sealKey with
  | none =>
    rw [ite_self]
    exact AList.lookup_empty _
  | some key =>
    show (AList.insert (lit "k0") key ∅ : StrDict Bytes).lookup keyId = _
    by_cases hname : keyId = lit "k0"
    · rw [if_pos hname, hname]
      exact AList.lookup_insert _
    · rw [if_neg hname, AList.lookup_insert_ne hname]
      exact AList.lookup_empty _

/-- Those who sign are listed, if any are. -/
def Listed (signers : Option (StrDict (KeyArg P.PublicKey))) (writer : AuditLog P) : Prop :=
  ∀ d, signers = some d → writer.signingKey.isSome = true ∧ (d.lookup writer.signerId).isSome = true

/-- **What `verify` accepts of an honest record.** -/
theorem recordOk_iff (hP : P.SignaturesVerify) {run : HonestRun P} {sealKey : Option Bytes}
    {signers : Option (StrDict (KeyArg P.PublicKey))} (hright : RightKeys run sealKey signers)
    (hfilled : ∀ d, signers = some d → d.entries ≠ []) {log : AuditLog P}
    (hnew : AuditLog.new ({ sealKey := sealKey } : Config P) = .ok log) {e : Entry P}
    (he : e ∈ run.trace) : RecordOk (log.keyMaterial signers) e.record ↔
      (e.record.keyId = [] ∨ e.record.keyId = lit "k0") ∧ Listed signers e.writer := by
  have hwritten := run.written e he
  obtain ⟨hseal, hsigning, hlookup⟩ := opened_spec hnew
  have hsigners : (log.keyMaterial signers).signers = signers := by
    cases signers with
    | none =>
      simp only [AuditLog.keyMaterial, hsigning]
      rfl
    | some d =>
      simp only [AuditLog.keyMaterial, hsigning, Option.getD_some]
      rw [StrDict.orNone, if_neg (hfilled d rfl)]
  have hkeyFor : (log.keyMaterial signers).keyFor e.record =
      if e.record.keyId = [] then sealKey
      else if e.record.keyId = lit "k0" then sealKey else none := by
    rw [keyFor_keyMaterial, hseal, hlookup]
  constructor
  · intro hok
    refine ⟨?_, fun d hd => ?_⟩
    · by_contra hid
      obtain ⟨hnil, hname⟩ := not_or.mp hid
      exact hok.keyKnown hnil (by rw [hkeyFor, if_neg hnil, if_neg hname])
    · obtain ⟨hpresent, arg, harg, -⟩ := hok.signature d (hsigners.trans hd)
      obtain ⟨k, hk⟩ := Option.ne_none_iff_exists'.mp (mt hwritten.unsigned hpresent)
      have hid : e.record.signerId = e.writer.signerId := by rw [hwritten.signerId, hk]; rfl
      rw [← hid, harg, hk]
      exact ⟨rfl, rfl⟩
  · rintro ⟨hid, hlisted⟩
    have hsame : (log.keyMaterial signers).keyFor e.record = e.writer.sealKey := by
      rw [hright.sealKey e he hid, hkeyFor]
      rcases hid with hid | hid
      · rw [if_pos hid]
      · rw [if_pos hid, ite_self]
    refine ⟨fun hne hnone => hne ?_, ?_, fun d hd => ?_⟩
    · rw [hwritten.keyId, ← hsame, hnone]
      rfl
    · rw [hsame]
      exact computeRecordHash_eq_ok.mpr hwritten.hashed
    · have hd : signers = some d := hsigners.symm.trans hd
      obtain ⟨hsigns, hfound⟩ := hlisted d hd
      obtain ⟨k, hk⟩ := Option.isSome_iff_exists.mp hsigns
      obtain ⟨arg, harg⟩ := Option.isSome_iff_exists.mp hfound
      obtain ⟨message, hmessage, hsig⟩ := hwritten.signed k hk
      have hid : e.record.signerId = e.writer.signerId := by rw [hwritten.signerId, hk]; rfl
      refine ⟨by rw [hsig]; exact hexStr_signature_ne_nil _, arg, by rw [hid, harg], ?_⟩
      rw [verifyRecordSignature_eq_true]
      refine ⟨message, hmessage, verifySignature_eq_true.mpr ?_⟩
      exact ⟨_, _, hright.signers d hd e he k hk arg harg, by rw [hsig]; exact fromHex_hexStr _,
        hP k message⟩

/-- **What `verify` accepts of an honest log.** -/
theorem accepted_iff (hP : P.SignaturesVerify) {run : HonestRun P} {sealKey : Option Bytes}
    {signers : Option (StrDict (KeyArg P.PublicKey))} (hright : RightKeys run sealKey signers)
    (hfilled : ∀ d, signers = some d → d.entries ≠ []) {log : AuditLog P}
    (hnew : AuditLog.new ({ sealKey := sealKey } : Config P) = .ok log) :
    Accepted (log.keyMaterial signers) run.chain ↔
      (∀ r ∈ run.chain, r.keyId = [] ∨ r.keyId = lit "k0") ∧
        ∀ e ∈ run.trace, Listed signers e.writer := by
  have hone : ∀ e ∈ run.trace, RecordOk (log.keyMaterial signers) e.record ↔
      (e.record.keyId = [] ∨ e.record.keyId = lit "k0") ∧ Listed signers e.writer :=
    fun e he => recordOk_iff hP hright hfilled hnew he
  rw [run.chain_eq]
  constructor
  · intro hacc
    have hall := fun e he => (hone e he).mp (hacc.records _ (List.mem_map_of_mem he))
    exact ⟨List.forall_mem_map.mpr fun e he => (hall e he).1, fun e he => (hall e he).2⟩
  · rintro ⟨hids, hlisted⟩
    rw [List.forall_mem_map] at hids
    refine ⟨run.chain_eq ▸ run.chained, List.forall_mem_map.mpr fun e he => ?_⟩
    exact (hone e he).mpr ⟨hids e he, hlisted e he⟩

/-- What is printed and returned for a report. -/
theorem verifyCommand_fst {B : OrderedBackend} {fs : Files φ} {o : VerifyOptions} {s : B.State}
    {signers : Option (StrDict (KeyArg P.PublicKey))} {publicKey : Option (KeyArg P.PublicKey)}
    {checkpoint : Option Checkpoint} {log : AuditLog P}
    (hsigners : signersOption P fs o.signers = .ok signers)
    (hpublic : readPublicKey P o.publicKey = .ok publicKey)
    (hcheckpoint : (o.checkpoint.mapM fun file => loadCheckpoint P file.text o.sealKey publicKey)
      = .ok checkpoint)
    (hnew : AuditLog.new ({ sealKey := o.sealKey } : Config P) = .ok log) :
    (verifyCommand P fs B.toStorageBackend o s).1
      = (verifyChain (B.contents s) (log.keyMaterial signers) o.expectedCount checkpoint).map
          fun report => {
            exitCode := if report.ok then 0 else 1, stdout := verifyLines report signers } := by
  have hverify : (verifyLog P B.toStorageBackend o signers publicKey s).1
      = verifyChain (B.contents s) (log.keyMaterial signers) o.expectedCount checkpoint := by
    rw [verifyLog, Operation.bind_ofExcept_ok hcheckpoint, withLog_fst hnew]
    exact World.verify_spec (tailOk_of_new hnew s) _ _ _
  rw [verifyCommand, Operation.bind_ofExcept_ok hsigners, Operation.bind_ofExcept_ok hpublic,
    ← hverify]
  rcases hrun : verifyLog P B.toStorageBackend o signers publicKey s with ⟨e | report, s'⟩
  · rw [Operation.bind_error hrun]
    rfl
  · rw [Operation.bind_ok hrun]
    rfl

theorem exitCode_map_eq_zero {x : Except PyError VerifyReport} {text : VerifyReport → PyStr} :
    (finish (x.map fun report =>
      { exitCode := if report.ok then 0 else 1, stdout := text report })).exitCode = 0 ↔
        ∃ report, x = .ok report ∧ report.ok = true := by
  cases x with
  | error e => exact iff_of_false nofun nofun
  | ok report =>
    show (if report.ok = true then 0 else 1) = 0 ↔ _
    split
    · rename_i hok
      exact iff_of_true rfl ⟨report, rfl, hok⟩
    · rename_i hok
      exact iff_of_false nofun fun ⟨_, heq, hok'⟩ => hok (Except.ok.inj heq ▸ hok')

/-- **Which honest logs `verify` accepts**, with the keys of the log in hand: those of the
expected length, whose seals name no key other than `k0`, whose records are all signed by
the listed signers, if any are listed, and that still have the root and the record that the
anchor says.  So a log whose key was rotated is refused, whatever the operator passes. -/
theorem verifyCommand_iff (hP : P.SignaturesVerify) (run : HonestRun P) {fs : Files φ}
    {o : VerifyOptions} {signers : Option (StrDict (KeyArg P.PublicKey))}
    {publicKey : Option (KeyArg P.PublicKey)} {checkpoint : Option Checkpoint} {log : AuditLog P}
    (hsigners : signersOption P fs o.signers = .ok signers)
    (hpublic : readPublicKey P o.publicKey = .ok publicKey)
    (hcheckpoint : (o.checkpoint.mapM fun file => loadCheckpoint P file.text o.sealKey publicKey)
      = .ok checkpoint)
    (hnew : AuditLog.new ({ sealKey := o.sealKey } : Config P) = .ok log)
    (hright : RightKeys run o.sealKey signers) (B : OrderedBackend) (s : B.State)
    (hs : B.contents s = run.chain) :
    (finish (verifyCommand P fs B.toStorageBackend o s).1).exitCode = 0 ↔
      (∀ n, o.expectedCount = some n → (run.chain.length : ℤ) = n) ∧
      (∀ r ∈ run.chain, r.keyId = [] ∨ r.keyId = lit "k0") ∧
      (∀ e ∈ run.trace, Listed signers e.writer) ∧
      ∀ c, checkpoint = some c → Anchored run.chain c ∧
        (c.merkleRoot = [] ∨ merkleRoot P (run.chain.map AuditRecord.hash) = .ok c.merkleRoot) := by
  have hrecords := accepted_iff hP hright (fun _ => signersOption_filled hsigners) hnew
  rw [verifyCommand_fst hsigners hpublic hcheckpoint hnew, hs, exitCode_map_eq_zero]
  simp only [verifyChain_ok_iff]
  constructor
  · rintro ⟨report, hacc, hcount, hanchored, root, hroot, hsame, -⟩
    obtain ⟨hids, hlisted⟩ := hrecords.mp hacc
    refine ⟨hcount, hids, hlisted, fun c hc => ⟨hanchored c hc, (hsame c hc).imp id ?_⟩⟩
    intro heq
    rw [heq, hroot]
  · rintro ⟨hcount, hids, hlisted, hanchor⟩
    have hacc := hrecords.mpr ⟨hids, hlisted⟩
    obtain ⟨root, hroot⟩ := hacc.exists_root
    refine ⟨_, hacc, hcount, fun c hc => (hanchor c hc).1, root, hroot, fun c hc => ?_, rfl⟩
    exact (hanchor c hc).2.imp id fun heq => Except.ok.inj (heq.symm.trans hroot)

/-- No files. -/
def noFiles : Files PyStr := ⟨id, fun _ => none, fun _ => false⟩

/-- The public key of `sampleLog`. -/
def samplePublic : RawKey := Sha256.hash (List.replicate 32 1)

/-- It is in a file. -/
def keyFiles : Files PyStr where
  named := id
  content := Function.update (fun _ => none) (lit "s0.pub") (some samplePublic.val)
  ownerOnly _ := false

theorem keyId_pairRun : ∀ r ∈ pairRun.chain, r.keyId = lit "k0" := by
  intro r hr
  obtain ⟨e, he, rfl⟩ := HonestRun.exists_entry hr
  have hkeys := (pairRun.kept referenceRuntime_signaturesVerify keeps_pairRun).writers e he
  exact (hkeys.writtenBy (pairRun.written e he)).keyId

/-- The anchor that the log itself makes, in a file. -/
theorem exists_sampleAnchor : ∃ c p text, Anchors referenceRuntime sampleLog pairRun.chain 0 c p ∧
    readCheckpoint referenceRuntime text = .ok c := by
  have hpos : 0 < pairRun.chain.length := by
    rw [pairRun_spec.1]
    exact Nat.two_pos
  obtain ⟨c, p, hanchors⟩ := exists_anchors pairRun (fun r hr => by
    rw [keyId_pairRun r hr]
    exact encodable_of_all (by decide)) sampleLog hpos
  obtain ⟨text, -, hread⟩ := hanchors.kept fun _ => encodable_of_all (by decide)
  exact ⟨c, p, text, hanchors, hread⟩

/-- The signer and the public key are given, the length and an anchor. -/
theorem verifyCommand_sample : ∃ anchorFile, (finish (verifyCommand referenceRuntime keyFiles
      memoryBackend.toStorageBackend {
        expectedCount := some 2
        sealKey := some (List.replicate 16 7)
        checkpoint := some anchorFile
        publicKey := some (.file samplePublic.val)
        signers := [lit "s0" ++ ch '=' :: lit "s0.pub"] } pairRun.world.store).1).exitCode = 0 := by
  have hkept := pairRun.kept referenceRuntime_signaturesVerify keeps_pairRun
  have hsigner : ∀ e ∈ pairRun.trace, e.writer.signerId = lit "s0" := fun e he =>
    (hkept.writers e he).fields.2.2
  -- what is made of the options
  have hkey : loadPublicKey referenceRuntime (.bytes samplePublic.val) = .ok samplePublic :=
    loadPublicKey_file rfl samplePublic
  have hpublic : readPublicKey referenceRuntime (some (.file samplePublic.val))
      = .ok (some (.object samplePublic)) := by
    rw [readPublicKey]
    exact hkey ▸ rfl
  have hthere : keyFiles.read (lit "s0.pub") = some samplePublic.val := by
    simp [keyFiles, Files.read]
  have hoption : signersOption referenceRuntime keyFiles [lit "s0" ++ ch '=' :: lit "s0.pub"]
      = .ok (some (AList.insert (lit "s0") (.bytes samplePublic.val) ∅)) :=
    signersOption_file (by decide) (by decide) (by decide) (by decide) (by decide) hthere
  have hlookup : (AList.insert (lit "s0") (KeyArg.bytes samplePublic.val) ∅
      : StrDict (KeyArg referenceRuntime.PublicKey)).lookup (lit "s0")
        = some (.bytes samplePublic.val) := AList.lookup_insert _
  obtain ⟨c, p, text, hanchors, hread⟩ := exists_sampleAnchor
  obtain ⟨r, root, -, -, hmade⟩ := hanchors.made
  have hload : loadCheckpoint referenceRuntime text (some (List.replicate 16 7))
      (some (.object samplePublic)) = .ok c :=
    loadCheckpoint_eq_ok.mpr ⟨hread, authenticate_signed referenceRuntime_signaturesVerify
      (loadPrivateKey_object rfl _) hmade (loadPublicKey_object rfl _) _⟩
  have hfile : (some ⟨lit "anchor", text⟩ : Option TextFile).mapM (fun file =>
      loadCheckpoint referenceRuntime file.text (some (List.replicate 16 7))
        (some (.object samplePublic))) = .ok (some c) := by
    rw [Option.mapM_some, hload]
    rfl
  have hright : RightKeys pairRun (some (List.replicate 16 7))
      (some (AList.insert (lit "s0") (.bytes samplePublic.val) ∅)) := by
    refine ⟨fun e he _ => (hkept.writers e he).fields.1, fun d hd e he k hk arg harg => ?_⟩
    rw [← Option.some.inj hd, hsigner e he, hlookup] at harg
    rw [← Option.some.inj harg, hkey,
      ← Option.some.inj ((hkept.writers e he).signingKey.symm.trans hk)]
    rfl
  refine ⟨⟨lit "anchor", text⟩, (verifyCommand_iff referenceRuntime_signaturesVerify pairRun
    hoption hpublic hfile new_sealedLog hright memoryBackend pairRun.world.store rfl).mpr
      ⟨fun n hn => ?_, fun r hr => Or.inr (keyId_pairRun r hr), fun e he d hd => ?_,
        fun c' hc' => ?_⟩⟩
  · rw [← Option.some.inj hn, pairRun_spec.1]
    rfl
  · rw [← Option.some.inj hd, hsigner e he, hlookup, (hkept.writers e he).signingKey]
    exact ⟨rfl, rfl⟩
  · rw [← Option.some.inj hc']
    exact ⟨hanchors.anchored.1, Or.inr hanchors.anchored.2⟩

/-! ### What `keygen` writes -/

/-- A file with the raw bytes of a key. -/
theorem keyOption_file {fs : Files φ} {path : PyStr} {raw : Bytes} (h : fs.read path = some raw) :
    fs.keyOption path = .file raw := by
  rw [Files.keyOption, h]

theorem loadPrivateKey_file (hav : P.cryptographyAvailable = true) (seed : RawKey) :
    loadPrivateKey P (KeyOption.file seed.val).arg = .ok (P.privateFromBytes seed) := by
  simp [loadPrivateKey, requireCryptography, hav, KeyOption.arg, keyBytes, seed.property]

section

variable [DecidableEq φ]

/-- The private key in its file. -/
def Files.withPrivate (fs : Files φ) (path : PyStr) (raw : Bytes) : Files φ where
  named := fs.named
  content := Function.update fs.content (fs.named path) (some raw)
  ownerOnly := Function.update fs.ownerOnly (fs.named path) true

theorem writePrivate {refuses : φ → Option PyError} {path : PyStr} {fs : Files φ}
    (h : refuses (fs.named path) = none) (raw : Bytes) : ∃ fs₁ : Files φ,
      writeBytes refuses path raw fs = (.ok (), fs₁) ∧
        makePrivate path fs₁ = (.ok (), fs.withPrivate path raw) := by
  rw [writeBytes, h]
  refine ⟨_, rfl, Prod.ext rfl ?_⟩
  show Files.mk _ _ (Function.update _ _ true) = Files.mk _ _ (Function.update _ _ true)
  split
  · rfl
  · rw [Function.update_idem]

theorem writeBytes_ok {refuses : φ → Option PyError} {path : PyStr} {raw : Bytes}
    {fs fs' : Files φ} (h : writeBytes refuses path raw fs = (.ok (), fs')) :
    fs'.named = fs.named ∧
      fs'.content = Function.update fs.content (fs.named path) (some raw) ∧
        ∀ f, f ≠ fs.named path ∨ (fs.read path).isSome = true →
          fs'.ownerOnly f = fs.ownerOnly f := by
  rw [writeBytes] at h
  split at h
  · cases h
  · obtain ⟨-, rfl⟩ := Prod.mk.inj h
    refine ⟨rfl, rfl, fun f hf => ?_⟩
    dsimp only
    split
    · rfl
    · rename_i hnew
      exact Function.update_of_ne (hf.resolve_right hnew) _ _

/-- **What `keygen` can do**: nothing, or write the private key, and then the public one if
nothing stops it. -/
theorem keygen_cases (refuses : φ → Option PyError) (pair : KeyPair P)
    (privateOut publicOut : PyStr) (force : Bool) (fs : Files φ) :
    (∃ x, keygen refuses pair privateOut publicOut force fs = (x, fs) ∧
      (finish x).exitCode ≠ 0) ∨
    (force = false → fs.read privateOut = none ∧ fs.read publicOut = none) ∧
      P.cryptographyAvailable = true ∧
      ((∃ e, keygen refuses pair privateOut publicOut force fs
          = (.error e, fs.withPrivate privateOut pair.seed.val)) ∨
        ∃ ran fs', keygen refuses pair privateOut publicOut force fs = (.ok ran, fs') ∧
          writeBytes refuses publicOut pair.publicRaw.val
            (fs.withPrivate privateOut pair.seed.val) = (.ok (), fs')) := by
  have hcode : ∀ e : PyError, (finish (.error e)).exitCode ≠ 0 := fun _ => nofun
  rw [keygen, Operation.bind_ok (Operation.get_apply fs)]
  cases hfind : [privateOut, publicOut].find? fun path => (fs.read path).isSome && !force with
  | some path => exact Or.inl ⟨_, rfl, nofun⟩
  | none =>
    dsimp only
    have hfree : force = false → fs.read privateOut = none ∧ fs.read publicOut = none := by
      rintro rfl
      simpa using hfind
    cases hrequire : requireCryptography P with
    | error e =>
      exact Or.inl ⟨_, Operation.bind_ofExcept_error rfl _ _, hcode e⟩
    | ok u =>
      have hav : P.cryptographyAvailable = true := by
        by_contra hno
        rw [requireCryptography, if_neg hno] at hrequire
        cases hrequire
      cases hprivate : refuses (fs.named privateOut) with
      | some e =>
        have hwrite : writeBytes refuses privateOut pair.seed.val fs = (.error e, fs) := by
          rw [writeBytes, hprivate]
        refine Or.inl ⟨.error e, ?_, hcode e⟩
        rw [Operation.bind_ofExcept_ok rfl, Operation.bind_error hwrite]
      | none =>
        obtain ⟨fs₁, hwrite, hmode⟩ := writePrivate hprivate pair.seed.val
        refine Or.inr ⟨hfree, hav, ?_⟩
        rw [Operation.bind_ofExcept_ok rfl, Operation.bind_ok hwrite, Operation.bind_ok hmode]
        rcases hpublic : writeBytes refuses publicOut pair.publicRaw.val
          (fs.withPrivate privateOut pair.seed.val) with ⟨e | u, fs'⟩
        · refine Or.inl ⟨e, ?_⟩
          have hsame : fs' = fs.withPrivate privateOut pair.seed.val := by
            rw [writeBytes] at hpublic
            split at hpublic
            · exact (Prod.mk.inj hpublic).2.symm
            · cases hpublic
          rw [Operation.bind_error hpublic, hsame]
        · exact Or.inr ⟨_, fs', Operation.bind_ok hpublic, rfl⟩

/-- Where `keygen` succeeds, the public key is in its file, and the private key in a file for
its owner only, unless the public key was put there. -/
theorem keygen_ok {refuses : φ → Option PyError} {pair : KeyPair P} {privateOut publicOut : PyStr}
    {force : Bool} {fs fs' : Files φ} {ran : Ran}
    (h : keygen refuses pair privateOut publicOut force fs = (.ok ran, fs'))
    (hzero : ran.exitCode = 0) :
    P.cryptographyAvailable = true ∧ fs'.read publicOut = some pair.publicRaw.val ∧
      fs'.ownerOnly (fs.named privateOut) = true ∧
      (fs.named privateOut ≠ fs.named publicOut → fs'.read privateOut = some pair.seed.val) := by
  rcases keygen_cases refuses pair privateOut publicOut force fs with
    ⟨x, hrun, hcode⟩ | ⟨-, hav, ⟨e, hrun⟩ | ⟨ran', fs'', hrun, hpublic⟩⟩ <;> rw [h] at hrun
  · rw [← (Prod.mk.inj hrun).1] at hcode
    exact absurd hzero hcode
  · cases (Prod.mk.inj hrun).1
  · obtain rfl := (Prod.mk.inj hrun).2
    obtain ⟨hnamed, hcontent, hmode⟩ := writeBytes_ok hpublic
    refine ⟨hav, ?_, ?_, fun hne => ?_⟩
    · rw [Files.read, hnamed, hcontent]
      exact Function.update_self _ _ _
    · have hkept : fs'.ownerOnly (fs.named privateOut)
          = (fs.withPrivate privateOut pair.seed.val).ownerOnly (fs.named privateOut) := by
        apply hmode
        by_cases hsame : fs.named privateOut = fs.named publicOut
        · have hthere : (fs.withPrivate privateOut pair.seed.val).read publicOut
              = some pair.seed.val := by
            show Function.update fs.content (fs.named privateOut) _ (fs.named publicOut) = _
            rw [hsame, Function.update_self]
          exact Or.inr (by rw [hthere]; rfl)
        · exact Or.inl hsame
      rw [hkept]
      exact Function.update_self _ _ _
    · rw [Files.read, hnamed, hcontent]
      exact (Function.update_of_ne hne _ _).trans (Function.update_self _ _ _)

/-- Without `--force` no file that is there is changed, and no other file is ever. -/
theorem keygen_others (refuses : φ → Option PyError) (pair : KeyPair P)
    (privateOut publicOut : PyStr) (force : Bool) (fs : Files φ) {f : φ}
    (hf : force = false ∧ (fs.content f).isSome = true ∨
      f ≠ fs.named privateOut ∧ f ≠ fs.named publicOut) :
    (keygen refuses pair privateOut publicOut force fs).2.content f = fs.content f ∧
      (keygen refuses pair privateOut publicOut force fs).2.ownerOnly f = fs.ownerOnly f := by
  rcases keygen_cases refuses pair privateOut publicOut force fs with
    ⟨x, hrun, -⟩ | ⟨hfree, -, hrest⟩
  · rw [hrun]
    exact ⟨rfl, rfl⟩
  have hothers : f ≠ fs.named privateOut ∧ f ≠ fs.named publicOut := by
    rcases hf with ⟨hforce, hthere⟩ | hf
    · obtain ⟨hprivate, hpublic⟩ := hfree hforce
      constructor <;> rintro rfl
      · rw [show fs.content (fs.named privateOut) = none from hprivate] at hthere
        cases hthere
      · rw [show fs.content (fs.named publicOut) = none from hpublic] at hthere
        cases hthere
    · exact hf
  rcases hrest with ⟨e, hrun⟩ | ⟨ran, fs', hrun, hpublic⟩ <;> rw [hrun]
  · exact ⟨Function.update_of_ne hothers.1 _ _, Function.update_of_ne hothers.1 _ _⟩
  · obtain ⟨-, hcontent, hmode⟩ := writeBytes_ok hpublic
    rw [hcontent, hmode f (Or.inl hothers.2)]
    exact ⟨(Function.update_of_ne hothers.2 _ _).trans (Function.update_of_ne hothers.1 _ _),
      Function.update_of_ne hothers.1 _ _⟩

/-- **What becomes of the files.**  Without `--force` no file that is there is changed, and no
other file is ever.  Where `keygen` succeeds, the file of the private key is for its owner
only, and both halves can be loaded, the private one unless it went to the same file. -/
theorem keygen_spec (refuses : φ → Option PyError) (pair : KeyPair P) (privateOut publicOut : PyStr)
    (force : Bool) (fs : Files φ) :
    (∀ f, (force = false ∧ (fs.content f).isSome = true ∨
        f ≠ fs.named privateOut ∧ f ≠ fs.named publicOut) →
      (keygen refuses pair privateOut publicOut force fs).2.content f = fs.content f ∧
        (keygen refuses pair privateOut publicOut force fs).2.ownerOnly f = fs.ownerOnly f) ∧
    ((finish (keygen refuses pair privateOut publicOut force fs).1).exitCode = 0 →
      (keygen refuses pair privateOut publicOut force fs).2.ownerOnly (fs.named privateOut) = true ∧
      loadPublicKey P
          ((keygen refuses pair privateOut publicOut force fs).2.keyOption publicOut).arg
        = .ok (P.publicKey pair.key) ∧
      (fs.named privateOut ≠ fs.named publicOut →
        loadPrivateKey P
          ((keygen refuses pair privateOut publicOut force fs).2.keyOption privateOut).arg
            = .ok pair.key)) := by
  refine ⟨fun f hf => keygen_others refuses pair privateOut publicOut force fs hf, fun hcode => ?_⟩
  rcases hrun : keygen refuses pair privateOut publicOut force fs with ⟨e | ran, fs'⟩ <;>
    rw [hrun] at hcode
  · cases hcode
  · obtain ⟨hav, hpublic, hprivate, hseed⟩ := keygen_ok hrun hcode
    refine ⟨hprivate, ?_, fun hne => ?_⟩
    · rw [keyOption_file hpublic, loadPublicKey_file hav, pair.publicRaw_spec]
    · rw [keyOption_file (hseed hne), loadPrivateKey_file hav, pair.seed_spec]

end

/-! ### From the key to the verdict -/

/-- What is printed for a log that is signed under one name. -/
theorem verifyLines_one {report : VerifyReport} (hok : report.ok = true) (name : PyStr)
    (arg : KeyArg P.PublicKey) :
    verifyLines report (some (AList.insert name arg ∅)) = lit "OK: " ++ intStr report.recordsChecked
      ++ lit " record(s) verified\n" ++ (lit "signatures verified against: " ++ name
        ++ lit "\n") := by
  have hdescribe : describeSigners (P := P) (AList.insert name arg ∅) = name := by
    show (lit ", ").intercalate ([name].insertionSort (· ≤ ·)) = name
    rw [List.insertionSort_cons, List.insertionSort_nil]
    exact List.append_nil _
  have hline : lit " record(s) verified" ++ lit "\n" = lit " record(s) verified\n" := rfl
  rw [← hline]
  simp only [verifyLines, reportText, hok, hdescribe, if_true, List.append_assoc]
  rfl

/-- **From the key to the verdict.**  Make a key, and use it to sign a log in any way that
keeps its configuration; then `verify` accepts the log, of the length that it has, and says
whose signatures it has checked. -/
theorem keygen_verify [DecidableEq φ] (hP : P.SignaturesVerify) {refuses : φ → Option PyError}
    {pair : KeyPair P} {privateOut publicOut : PyStr} {force : Bool} {fs fs' : Files φ} {ran : Ran}
    (hkeygen : keygen refuses pair privateOut publicOut force fs = (.ok ran, fs'))
    (hzero : ran.exitCode = 0) (hdistinct : fs.named privateOut ≠ fs.named publicOut)
    (run : HonestRun P) (hsigning : run.cfg.signingKey = some (fs'.keyOption privateOut).arg)
    (hcalls : ∀ c ∈ run.calls, c.Keeps run.cfg)
    (hkeyId : run.cfg.keyId = lit "k0" ∨ run.cfg.sealKey = none)
    (hname : strip P.unicode run.cfg.signerId = run.cfg.signerId) (hsep : ch '=' ∉ run.cfg.signerId)
    (hpath : strip P.unicode publicOut = publicOut) (hpathne : publicOut ≠ [])
    (B : OrderedBackend) (s : B.State) (hs : B.contents s = run.chain) :
    (verifyCommand P fs' B.toStorageBackend {
        expectedCount := some run.chain.length
        sealKey := run.cfg.sealKey
        signers := [run.cfg.signerId ++ ch '=' :: publicOut] } s).1 = .ok {
      exitCode := 0
      stdout := lit "OK: " ++ natStr run.chain.length ++ lit " record(s) verified\n"
        ++ lit "signatures verified against: " ++ run.cfg.signerId ++ lit "\n" } := by
  obtain ⟨hav, hpublic, -, hseed⟩ := keygen_ok hkeygen hzero
  obtain ⟨hsealed, hid, hsigner, hkey⟩ := new_spec run.new
  have hsigns : run.log.signingKey = some pair.key := by
    rw [hsigning, keyOption_file (hseed hdistinct), Option.mapM_some, loadPrivateKey_file hav,
      pair.seed_spec] at hkey
    exact (Except.ok.inj hkey).symm
  have hwriters := (run.kept hP hcalls).writers
  have hname_ne : run.cfg.signerId ≠ [] :=
    hsigner ▸ (run.log.signs (by rw [hsigns]; rfl)).1
  have hoption := signersOption_file hname hname_ne hsep hpath hpathne hpublic
  have hlookup : (AList.insert run.cfg.signerId (KeyArg.bytes pair.publicRaw.val) ∅
      : StrDict (KeyArg P.PublicKey)).lookup run.cfg.signerId = some (.bytes pair.publicRaw.val) :=
    AList.lookup_insert _
  obtain ⟨log, hnew⟩ := exists_new_sealKey run.new
  have hwriter : ∀ e ∈ run.trace, e.writer.sealKey = run.cfg.sealKey ∧
      e.writer.keyId = run.cfg.keyId ∧ e.writer.signerId = run.cfg.signerId ∧
        e.writer.signingKey = some pair.key := by
    intro e he
    obtain ⟨hseal, hkeyId, hsignerId⟩ := (hwriters e he).fields
    exact ⟨hseal.trans hsealed, hkeyId.trans hid, hsignerId.trans hsigner,
      (hwriters e he).signingKey.trans hsigns⟩
  have hright : RightKeys run run.cfg.sealKey
      (some (AList.insert run.cfg.signerId (.bytes pair.publicRaw.val) ∅)) := by
    refine ⟨fun e he _ => (hwriter e he).1, fun d hd e he k hk arg harg => ?_⟩
    obtain ⟨-, -, hsignerId, hsigningKey⟩ := hwriter e he
    rw [← Option.some.inj hd, hsignerId, hlookup] at harg
    rw [← Option.some.inj harg, ← Option.some.inj (hsigningKey.symm.trans hk)]
    exact (loadPublicKey_file hav pair.publicRaw).trans (congrArg _ pair.publicRaw_spec)
  have hacc := (accepted_iff hP hright (fun d hd => signersOption_filled hoption hd) hnew).mpr ⟨by
    intro r hr
    obtain ⟨e, he, rfl⟩ := HonestRun.exists_entry hr
    obtain ⟨hseal, hkeyId', -⟩ := hwriter e he
    rw [(run.written e he).keyId, hseal, hkeyId']
    rcases hkeyId with hkeyId | hnone
    · rw [hkeyId]
      split
      · exact Or.inr rfl
      · exact Or.inl rfl
    · rw [hnone]
      exact Or.inl rfl, fun e he d hd => by
    obtain ⟨-, -, hsignerId, hsigningKey⟩ := hwriter e he
    rw [← Option.some.inj hd, hsignerId, hlookup, hsigningKey]
    exact ⟨rfl, rfl⟩⟩
  obtain ⟨root, hroot⟩ := hacc.exists_root
  have hchain : verifyChain run.chain (log.keyMaterial (some (AList.insert run.cfg.signerId
      (.bytes pair.publicRaw.val) ∅))) (some run.chain.length) none = .ok _ ∧ _ :=
    verifyChain_ok_iff.mpr ⟨hacc, fun n hn => Option.some.inj hn, by simp, root, hroot, by simp,
      rfl⟩
  rw [verifyCommand_fst (B := B) (s := s) hoption rfl rfl hnew, hs, hchain.1]
  show Except.ok ({ exitCode := 0, stdout := verifyLines (okReport _ run.chain root) _ } : Ran) = _
  rw [verifyLines_one rfl]
  simp only [List.append_assoc]
  rfl

theorem length_sampleSeed : (List.replicate 32 (1 : UInt8)).length = 32 := rfl

/-- A key, with a hash of it for the public half. -/
def samplePair : KeyPair referenceRuntime where
  key := ⟨List.replicate 32 1, length_sampleSeed⟩
  seed := ⟨List.replicate 32 1, length_sampleSeed⟩
  publicRaw := samplePublic
  seed_spec := rfl
  publicRaw_spec := rfl

theorem keygen_verify_sample : ∃ fs : Files PyStr,
    (verifyCommand referenceRuntime fs memoryBackend.toStorageBackend {
        expectedCount := some pairRun.chain.length
        sealKey := some (List.replicate 16 7)
        signers := [lit "s0" ++ ch '=' :: lit "audit.pub"] } pairRun.world.store).1 = .ok {
      exitCode := 0
      stdout := lit "OK: " ++ natStr pairRun.chain.length ++ lit " record(s) verified\n"
        ++ lit "signatures verified against: " ++ lit "s0" ++ lit "\n" } := by
  obtain ⟨ran, fs, hkeygen, hzero⟩ : ∃ ran fs, keygen (fun _ : PyStr => none) samplePair
      (lit "audit.key") (lit "audit.pub") false noFiles = (.ok ran, fs) ∧ ran.exitCode = 0 :=
    ⟨_, _, rfl, rfl⟩
  obtain ⟨-, -, -, hseed⟩ := keygen_ok hkeygen hzero
  have hdistinct : lit "audit.key" ≠ lit "audit.pub" := by decide
  exact ⟨fs, keygen_verify referenceRuntime_signaturesVerify hkeygen hzero hdistinct pairRun
    (by rw [keyOption_file (hseed hdistinct)]; rfl) keeps_pairRun
    (Or.inl rfl) (by decide) (by decide) (by decide) (by decide) memoryBackend
    pairRun.world.store rfl⟩

end CommandLine

end AuditChain
