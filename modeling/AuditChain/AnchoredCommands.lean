/-
AuditChain/AnchoredCommands.lean

What `verify` and `verify-proof` take from an anchor.

Whoever passes `--public-key` wants nothing from an anchor that the owner of the key did not
sign.  Whatever is in the file, and whatever log or proof is looked at, there is no verdict
without the signature, unless the file is stripped of it.

    takesSignedOnly_iff    exactly then something is taken from an anchor that is not signed
-/
import AuditChain.Verdicts
import AuditChain.VerifyCommand

namespace AuditChain

open Python Operation

namespace CommandLine

variable {P : Runtime}

/-! ### Commands that come to a verdict -/

/-- What a command printed, if it raised nothing. -/
theorem eq_ok_of_finish {x : Except PyError Ran} (h : (finish x).exitCode ≠ 2) :
    ∃ ran, x = .ok ran := by
  cases x with
  | error e => exact absurd rfl h
  | ok ran => exact ⟨ran, rfl⟩

/-- A command on a log runs if the log is there and its format is known. -/
theorem eq_ok_of_onLog {path suffix : PyStr} {fmt : Option Format} {isThere : Bool}
    {command : Format → Except PyError Ran}
    (h : (onLog path suffix fmt isThere command).exitCode ≠ 2) :
    ∃ format ran, detectFormat path suffix fmt = .ok format ∧ isThere = true ∧
      command format = .ok ran := by
  obtain ⟨ran, hran⟩ := eq_ok_of_finish h
  obtain ⟨format, hformat, hrest⟩ := bind_eq_ok.mp hran
  cases isThere with
  | false =>
    rw [onLog, hran, ← Except.ok.inj hrest] at h
    exact absurd rfl h
  | true => exact ⟨format, ran, hformat, rfl, hrest⟩

/-- The public key of an option. -/
theorem readPublicKey_some {value : KeyOption} {publicKey : Option (KeyArg P.PublicKey)}
    (h : readPublicKey P (some value) = .ok publicKey) :
    ∃ key, loadPublicKey P value.arg = .ok key ∧ publicKey = some (.object key) := by
  obtain ⟨key, hkey, heq⟩ := bind_eq_ok.mp h
  exact ⟨key, hkey, (Except.ok.inj heq).symm⟩

/-- `verify` has loaded its anchor. -/
theorem verifyCommand_loads {φ : Type} {fs : Files φ} {B : StorageBackend} {o : VerifyOptions}
    {s : B.State} {file : TextFile} {value : KeyOption} {ran : Ran}
    (h : (verifyCommand P fs B o s).1 = .ok ran) (hfile : o.checkpoint = some file)
    (hvalue : o.publicKey = some value) : ∃ key c, loadPublicKey P value.arg = .ok key ∧
      loadCheckpoint P file.text o.sealKey (some (.object key)) = .ok c := by
  obtain ⟨signers, s₁, -, h⟩ := Operation.exists_of_bind_ok h
  obtain ⟨publicKey, s₂, hpublic, h⟩ := Operation.exists_of_bind_ok h
  obtain ⟨report, s₃, hverify, -⟩ := Operation.exists_of_bind_ok h
  obtain ⟨checkpoint, s₄, hcheckpoint, -⟩ :=
    Operation.exists_of_bind_ok (congrArg Prod.fst hverify)
  have hpublic := congrArg Prod.fst hpublic
  rw [Operation.ofExcept_apply, hvalue] at hpublic
  obtain ⟨key, hkey, rfl⟩ := readPublicKey_some hpublic
  have hload := congrArg Prod.fst hcheckpoint
  rw [Operation.ofExcept_apply, hfile, Option.mapM_some] at hload
  obtain ⟨c, hc, -⟩ := bind_eq_ok.mp hload
  exact ⟨key, c, hkey, hc⟩

/-- So has `verify-proof`, if it is given no root. -/
theorem verifyProofCommand_loads {proofFile file : TextFile} {sealKey : Option Bytes}
    {value : KeyOption} {ran : Ran}
    (h : verifyProofCommand P proofFile none (some file) sealKey (some value) = .ok ran) :
    ∃ key c, loadPublicKey P value.arg = .ok key ∧
      loadCheckpoint P file.text sealKey (some (.object key)) = .ok c := by
  obtain ⟨publicKey, hpublic, h⟩ := bind_eq_ok.mp h
  obtain ⟨ok, hverify, -⟩ := bind_eq_ok.mp h
  obtain ⟨proof, -, hverify⟩ := bind_eq_ok.mp hverify
  obtain ⟨expected, htrusted, -⟩ := bind_eq_ok.mp hverify
  obtain ⟨key, hkey, rfl⟩ := readPublicKey_some hpublic
  obtain ⟨c, hc, -⟩ := bind_eq_ok.mp htrusted
  exact ⟨key, c, hkey, hc⟩

/-! ### Signed anchors -/

variable (P) in
/-- The anchor in the file carries a signature of the owner of the key. -/
def SignedAnchor (text : PyStr) (sealKey : Option Bytes) (value : KeyOption) : Prop :=
  ∃ key c, loadPublicKey P value.arg = .ok key ∧
    loadCheckpoint P text sealKey (some (.object key)) = .ok c ∧
      verifyCheckpointSignature P c (.object key) = .ok true

variable (P) in
/-- On no log and for no proof is there a verdict without that signature. -/
structure TakesSignedOnly (text : PyStr) (sealKey : Option Bytes) (value : KeyOption) : Prop where
  verify : ∀ {φ : Type} (fs : Files φ) (B : Format → StorageBackend)
    (s : ∀ format, (B format).State) (path suffix name : PyStr) (fmt : Option Format)
    (isThere : Bool) (o : VerifyOptions), o.checkpoint = some ⟨name, text⟩ → o.sealKey = sealKey →
      o.publicKey = some value →
        (onLog path suffix fmt isThere fun format =>
          (verifyCommand P fs (B format) o (s format)).1).exitCode ≠ 2 →
            SignedAnchor P text sealKey value
  verifyProof : ∀ (proofFile : TextFile) (name : PyStr),
    (finish (verifyProofCommand P proofFile none (some ⟨name, text⟩) sealKey (some value))).exitCode
      ≠ 2 → SignedAnchor P text sealKey value

/-- A log that is long enough for the checkpoint gets a verdict, if the count is wrong. -/
theorem exists_verdict (c : Checkpoint) (M : KeyMaterial P) : ∃ records report,
    verifyChain records M (some (-1)) (some c) = .ok report := by
  refine ⟨List.replicate c.seq.natAbs ⟨0, [], [], [], [], [], [], [], [], [], []⟩, ?_⟩
  generalize hrecords : List.replicate c.seq.natAbs _ = records
  have hlength : records.length = c.seq.natAbs := by rw [← hrecords, List.length_replicate]
  obtain ⟨verdict, hverdict⟩ : ∃ verdict, checkAnchor records c = .ok verdict := by
    rw [exists_checkAnchor_iff]
    omega
  rw [verifyChain, Option.mapM_some, hverdict]
  cases verdict with
  | some report => exact ⟨report, rfl⟩
  | none =>
    refine (exists_verifyRecords_iff records M (some (-1)) (some c)).mpr fun hcount => ?_
    have hwrong := hcount (-1) rfl
    omega

/-- Whatever anchor is loaded, there is a log about which it has its say. -/
theorem exists_verifyCommand {file : TextFile} {sealKey : Option Bytes} {value : KeyOption}
    {key : P.PublicKey} (hkey : loadPublicKey P value.arg = .ok key) {c : Checkpoint}
    (hload : loadCheckpoint P file.text sealKey (some (.object key)) = .ok c) {log : AuditLog P}
    (hnew : AuditLog.new ({ sealKey := sealKey } : Config P) = .ok log) :
    ∃ (o : VerifyOptions) (s : memoryBackend.State) (ran : Ran), o.checkpoint = some file ∧
      o.sealKey = sealKey ∧ o.publicKey = some value ∧ ran.exitCode ≠ 2 ∧
        (verifyCommand P noFiles memoryBackend.toStorageBackend o s).1 = .ok ran := by
  obtain ⟨records, report, hreport⟩ := exists_verdict c (log.keyMaterial none)
  have hpublic : readPublicKey P (some value) = .ok (some (.object key)) := by
    rw [readPublicKey, hkey]
    rfl
  have hfile : (some file).mapM (fun file =>
      loadCheckpoint P file.text sealKey (some (.object key))) = .ok (some c) := by
    rw [Option.mapM_some, hload]
    rfl
  have hsigners : signersOption P noFiles [] = .ok none := rfl
  have hverdict := verifyCommand_fst (B := memoryBackend) (s := records)
    (o := ⟨some (-1), sealKey, some file, some value, []⟩) hsigners hpublic hfile hnew
  refine ⟨_, records, _, rfl, rfl, rfl, ?_, hverdict.trans (congrArg _ hreport)⟩
  show (if report.ok = true then 0 else 1) ≠ 2
  split <;> decide

/-- **When the commands take signed anchors only**: unless the file is stripped of its
signature, for a public key that can be loaded and a seal key that a log accepts. -/
theorem takesSignedOnly_iff (text : PyStr) (sealKey : Option Bytes) {value : KeyOption}
    {key : P.PublicKey} (hkey : loadPublicKey P value.arg = .ok key) {log : AuditLog P}
    (hnew : AuditLog.new ({ sealKey := sealKey } : Config P) = .ok log) :
    TakesSignedOnly P text sealKey value ↔
      ∀ c, readCheckpoint P text = .ok c → ¬Stripped P c sealKey (some (.object key)) := by
  constructor
  · intro h c hread hstripped
    have hload : loadCheckpoint P (TextFile.mk [] text).text sealKey (some (.object key)) = .ok c :=
      loadCheckpoint_eq_ok.mpr ⟨hread, hstripped.authenticate⟩
    obtain ⟨o, s, ran, hfile, hseal, hvalue, hcode, hran⟩ := exists_verifyCommand hkey hload hnew
    have hmain : (onLog [] (lit ".jsonl") none true fun _ =>
        (verifyCommand P noFiles memoryBackend.toStorageBackend o s).1).exitCode ≠ 2 := by
      rw [hran]
      exact hcode
    obtain ⟨key', c', hkey', hload', hsigned⟩ :=
      h.verify noFiles (fun _ => memoryBackend.toStorageBackend) (fun _ => s)
        [] (lit ".jsonl") [] none true o hfile hseal hvalue hmain
    obtain rfl : key = key' := Except.ok.inj (hkey.symm.trans hkey')
    obtain rfl : c = c' := Except.ok.inj (hload.symm.trans hload')
    exact hstripped.not_authenticated hsigned
  · intro hnot
    have hsigned : ∀ key' c, loadPublicKey P value.arg = .ok key' →
        loadCheckpoint P text sealKey (some (.object key')) = .ok c →
          SignedAnchor P text sealKey value := by
      intro key' c hkey' hload
      obtain rfl : key = key' := Except.ok.inj (hkey.symm.trans hkey')
      obtain ⟨hread, hauth⟩ := loadCheckpoint_eq_ok.mp hload
      exact ⟨key, c, hkey, hload, authenticated_of_authenticate hauth (hnot c hread)⟩
    refine ⟨fun fs B s path suffix name fmt isThere o hfile hseal hvalue hcode => ?_,
      fun proofFile name hcode => ?_⟩
    · obtain ⟨format, ran, -, -, hran⟩ := eq_ok_of_onLog hcode
      obtain ⟨key', c, hkey', hload⟩ := verifyCommand_loads hran hfile hvalue
      rw [hseal] at hload
      exact hsigned key' c hkey' hload
    · obtain ⟨ran, hran⟩ := eq_ok_of_finish hcode
      obtain ⟨key', c, hkey', hload⟩ := verifyProofCommand_loads hran
      exact hsigned key' c hkey' hload

/-- The anchor that a log signed. -/
theorem takesSignedOnly_sample : ∃ text c, readCheckpoint referenceRuntime text = .ok c ∧
    TakesSignedOnly referenceRuntime text (some (List.replicate 16 7))
      (.file samplePublic.val) := by
  obtain ⟨c, p, text, hanchors, hread⟩ := exists_sampleAnchor
  obtain ⟨r, root, -, -, hmade⟩ := hanchors.made
  have hkey : loadPublicKey referenceRuntime (KeyOption.file samplePublic.val).arg
      = .ok samplePublic := loadPublicKey_file rfl samplePublic
  refine ⟨text, c, hread, (takesSignedOnly_iff text (some (List.replicate 16 7)) hkey
    new_sealedLog).mpr fun c' hread' hstripped => ?_⟩
  obtain rfl : c = c' := Except.ok.inj (hread.symm.trans hread')
  exact signed_of_signingKey hmade hstripped.1

end CommandLine

end AuditChain
