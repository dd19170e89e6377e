/-
AuditChain/Appending.lean

What a log writes, it verifies.

Writer and verifier meet in `WrittenBy.recordOk`: a record that carries the
marks of a log is in order under the keys of that log.  The key is found because
an `AuditLog` always has its current key in the keyring, and the signature
because it signs under the id that it looks up.
-/
import AuditChain.MerkleTree
import AuditChain.Reference
import AuditChain.Runs

namespace AuditChain

open Python HashChain Machine

variable {P : Runtime} {B : OrderedBackend}

/-! ### The key that verification finds -/

/-- An empty keyring is as good as none. -/
theorem keyFor_orNone (r : AuditRecord) (sealKey : Option Bytes) (keys : StrDict Bytes) :
    keyFor r sealKey keys.orNone = if r.keyId = [] then sealKey else keys.lookup r.keyId := by
  unfold keyFor StrDict.orNone
  split
  · rfl
  · split
    · rename_i hnone
      split at hnone
      · rename_i hempty
        have hkeys : keys = ∅ := AList.ext hempty
        rw [hkeys, AList.lookup_empty]
      · cases hnone
    · rename_i hsome
      split at hsome
      · cases hsome
      · rw [Option.some.inj hsome]

theorem setdefault_of_lookup {α : Type} {d : StrDict α} {key : PyStr} {value value' : α}
    (h : d.lookup key = some value) : d.setdefault key value' = d := by
  rw [StrDict.setdefault, h, Option.isSome_some, if_pos rfl]

/-- **The key for a record**: the current one for records without a key id, the one in
the keyring for the others. -/
theorem keyFor_keyMaterial (log : AuditLog P) (signers : Option (StrDict (KeyArg P.PublicKey)))
    (r : AuditRecord) : (log.keyMaterial signers).keyFor r =
      if r.keyId = [] then log.sealKey else log.keyring.lookup r.keyId := by
  have hkeyring : (log.keyMaterial signers).keyring = log.keyring.orNone := by
    cases hkey : log.sealKey with
    | none => simp only [AuditLog.keyMaterial, hkey]
    | some key =>
      simp only [AuditLog.keyMaterial, hkey, setdefault_of_lookup (log.currentKey key hkey)]
  rw [KeyMaterial.keyFor, hkeyring, keyFor_orNone]
  rfl

/-- The signers that a log asks for by itself: its own, if it signs. -/
theorem signers_keyMaterial (log : AuditLog P) : (log.keyMaterial none).signers =
    log.signingKey.map fun key =>
      AList.insert log.signerId (KeyArg.object (P.publicKey key)) ∅ := by
  cases hkey : log.signingKey with
  | none =>
    simp only [AuditLog.keyMaterial, hkey, Option.getD_none, Option.map_none]
    rfl
  | some key =>
    simp only [AuditLog.keyMaterial, hkey, Option.getD_none, Option.map_some]
    rfl

theorem WrittenBy.keyFor {log : AuditLog P} {r : AuditRecord} (h : WrittenBy log r)
    (signers : Option (StrDict (KeyArg P.PublicKey))) :
    (log.keyMaterial signers).keyFor r = log.sealKey := by
  rw [keyFor_keyMaterial, h.keyId]
  cases hkey : log.sealKey with
  | none => simp
  | some key =>
    simp only [Option.isSome_some, if_true]
    split
    · rfl
    -- the constructor and `rotate` put the current key in the keyring
    · exact log.currentKey key hkey

/-- **What a log writes is in order** under its own keys. -/
theorem WrittenBy.recordOk (hP : P.SignaturesVerify) {log : AuditLog P} {r : AuditRecord}
    (h : WrittenBy log r) : RecordOk (log.keyMaterial none) r where
  keyKnown hid := by
    rw [h.keyFor]
    intro hnone
    rw [h.keyId, hnone] at hid
    exact hid rfl
  hash := by
    rw [h.keyFor]
    exact computeRecordHash_eq_ok.mpr h.hashed
  signature signers hsigners := by
    rw [signers_keyMaterial] at hsigners
    cases hkey : log.signingKey with
    | none =>
      rw [hkey] at hsigners
      cases hsigners
    | some key =>
      rw [hkey] at hsigners
      obtain rfl := Option.some.inj hsigners
      obtain ⟨message, hmessage, hsig⟩ := h.signed key hkey
      have hav := (log.signs (by rw [hkey]; rfl)).2
      -- the log looks its own public key up under the id it stamps
      have hid : r.signerId = log.signerId := by rw [h.signerId, hkey]; rfl
      refine ⟨by rw [hsig]; exact hexStr_signature_ne_nil _, .object (P.publicKey key), ?_, ?_⟩
      · rw [hid]
        exact AList.lookup_insert _
      · rw [verifyRecordSignature_eq_true]
        exact ⟨message, hmessage, by rw [hsig]; exact verifySignature_sign hav hP key message⟩

/-! ### When a log verifies -/

/-- The hashes of records that pass the loop are hexadecimal. -/
theorem Accepted.hash_hex {M : KeyMaterial P} {records : List AuditRecord}
    (h : Accepted M records) :
    ∀ x ∈ records.map AuditRecord.hash, ∃ b, x = hexStr b := by
  intro x hx
  obtain ⟨r, hr, rfl⟩ := List.mem_map.mp hx
  obtain ⟨data, -, hhash⟩ := (h.records r hr).exists_digest
  exact ⟨_, hhash⟩

/-- Records that pass the loop have a Merkle root. -/
theorem Accepted.exists_root {M : KeyMaterial P} {records : List AuditRecord}
    (h : Accepted M records) : ∃ root, merkleRoot P (records.map AuditRecord.hash) = .ok root := by
  obtain ⟨bs, hbs⟩ := exists_decodes (isSome_of_hexStr h.hash_hex)
  by_cases hnil : records.map AuditRecord.hash = []
  · rw [hnil]
    exact ⟨_, rfl⟩
  · exact ⟨_, merkleRoot_eq hbs (hbs.ne_nil hnil)⟩

/-- `verify_chain` without anything to compare with. -/
theorem verifyChain_plain_iff {M : KeyMaterial P} {records : List AuditRecord} :
    (∃ report, verifyChain records M none none = .ok report ∧ report.ok = true) ↔
      Accepted M records := by
  constructor
  · rintro ⟨report, h⟩
    exact (verifyChain_ok_iff.mp h).1
  · intro h
    obtain ⟨root, hroot⟩ := h.exists_root
    exact ⟨okReport M records root,
      verifyChain_ok_iff.mpr ⟨h, by simp, by simp, root, hroot, by simp, rfl⟩⟩

/-- `AuditLog.verify()` returns ok. -/
def World.Verifies (w : World P B.toStorageBackend) : Prop :=
  ∃ report, (World.verify none none none w).1 = .ok report ∧ report.ok = true

theorem World.verifies_iff {w : World P B.toStorageBackend} (h : w.TailOk) :
    w.Verifies ↔ Accepted (w.log.keyMaterial none) w.contents := by
  unfold World.Verifies
  rw [World.verify_spec h]
  exact verifyChain_plain_iff

/-- Whether a log verifies can be computed. -/
theorem World.verifies_iff_report {w : World P B.toStorageBackend} :
    w.Verifies ↔ (World.verify none none none w).1.toOption.map VerifyReport.ok = some true := by
  unfold World.Verifies
  cases (World.verify none none none w).1 with
  | error e => simp [Except.toOption]
  | ok report => simp [Except.toOption]

/-- A log that verifies counts every record, and every signature if it signs. -/
theorem World.Verifies.report {w : World P B.toStorageBackend} (h : w.TailOk)
    (hver : w.Verifies) : ∃ report, (World.verify none none none w).1 = .ok report ∧
      report.ok = true ∧ report.recordsChecked = w.contents.length ∧
        report.signedRecords = if w.log.signingKey.isSome then w.contents.length else 0 := by
  obtain ⟨report, hreport, hok⟩ := hver
  refine ⟨report, hreport, hok, ?_⟩
  rw [World.verify_spec h] at hreport
  obtain ⟨-, -, -, root, -, -, rfl⟩ := verifyChain_ok_iff.mp ⟨hreport, hok⟩
  refine ⟨rfl, ?_⟩
  rw [okReport, countSigned, signers_keyMaterial, Option.isSome_map]

/-! ### Runs under one configuration -/

/-- The calls that keep a log under its configuration: everything but rotation, and
reopening with the same arguments. -/
def Call.Keeps (cfg : Config P) : Call P → Prop
  | .reopen cfg' => cfg' = cfg
  | .rotate .. => False
  | _ => True

/-- The log is the one that `log` is, up to its tail. -/
def SameKeys (log log' : AuditLog P) : Prop := ∃ last inited, log' = log.withTail last inited

theorem SameKeys.refl (log : AuditLog P) : SameKeys log log := ⟨log.last, log.inited, rfl⟩

theorem SameKeys.keyMaterial {log log' : AuditLog P} (h : SameKeys log log')
    (signers : Option (StrDict (KeyArg P.PublicKey))) :
    log'.keyMaterial signers = log.keyMaterial signers := by
  obtain ⟨last, inited, rfl⟩ := h
  rfl

theorem SameKeys.signingKey {log log' : AuditLog P} (h : SameKeys log log') :
    log'.signingKey = log.signingKey := by
  obtain ⟨last, inited, rfl⟩ := h
  rfl

theorem SameKeys.fields {log log' : AuditLog P} (h : SameKeys log log') :
    log'.sealKey = log.sealKey ∧ log'.keyId = log.keyId ∧ log'.signerId = log.signerId := by
  obtain ⟨last, inited, rfl⟩ := h
  exact ⟨rfl, rfl, rfl⟩

theorem SameKeys.writtenBy {log log' : AuditLog P} (h : SameKeys log log') {r : AuditRecord}
    (hr : WrittenBy log' r) : WrittenBy log r := by
  obtain ⟨last, inited, rfl⟩ := h
  exact ⟨hr.keyId, hr.signerId, hr.hashed, hr.unsigned, hr.signed⟩

/-- After a call that keeps the configuration the log has its keys, and is open. -/
theorem logAfter_keeps {cfg : Config P} {log log₁ log₂ : AuditLog P}
    (hnew : AuditLog.new cfg = .ok log) {c : Call P} (hc : c.Keeps cfg) {rs : List AuditRecord}
    (h₁ : SameKeys log log₁) (h : LogAfter c rs log₁ log₂) :
    SameKeys log log₂ ∧ log₂.inited = true := by
  obtain ⟨last₁, inited₁, rfl⟩ := h₁
  cases c with
  | rotate => exact absurd hc id
  | reopen cfg' =>
    obtain rfl : cfg' = cfg := hc
    obtain ⟨-, ⟨fresh, last, hfresh, rfl⟩ | ⟨⟨e, he⟩, -⟩⟩ := h
    · rw [hnew, Except.ok.injEq] at hfresh
      subst hfresh
      exact ⟨⟨_, _, rfl⟩, rfl⟩
    · rw [hnew] at he
      cases he
  | init =>
    obtain ⟨last, rfl⟩ := h
    exact ⟨⟨_, _, rfl⟩, rfl⟩
  | append =>
    obtain ⟨last, rfl⟩ := h
    exact ⟨⟨_, _, rfl⟩, rfl⟩
  | appendMany =>
    obtain ⟨last, rfl⟩ := h
    exact ⟨⟨_, _, rfl⟩, rfl⟩

/-- After a run under the configuration of `log` that started on `start`. -/
structure KeptRun (log : AuditLog P) (start : List AuditRecord) (es : List (Entry P))
    (w : World P B.toStorageBackend) : Prop where
  history : History start es w
  sameKeys : SameKeys log w.log
  writers : ∀ e ∈ es, SameKeys log e.writer
  accepted : Accepted (log.keyMaterial none) w.contents

theorem KeptRun.step (hP : P.SignaturesVerify) {cfg : Config P} {log : AuditLog P}
    (hnew : AuditLog.new cfg = .ok log) {start : List AuditRecord} {es : List (Entry P)}
    {w : World P B.toStorageBackend} (h : KeptRun log start es w) {c : Call P}
    (hc : c.Keeps cfg) : KeptRun log start (es ++ (c.step w).1) (c.step w).2 ∧
      (c.step w).2.log.inited = true := by
  have hhist := h.history.step c
  obtain ⟨rs, w', hstep, hspec⟩ := step_spec c h.history.tailOk
  rw [hstep] at hhist ⊢
  obtain ⟨hkeys, hinited⟩ := logAfter_keeps hnew hc h.sameKeys hspec.log
  refine ⟨⟨hhist, hkeys, fun e he => ?_, ?_, ?_⟩, hinited⟩
  · rcases List.mem_append.mp he with he | he
    · exact h.writers e he
    · obtain ⟨r, -, rfl⟩ := List.mem_map.mp he
      exact h.sameKeys
  · rw [hspec.contents]
    exact hspec.follows.chained h.accepted.chained
  · intro r hr
    rw [hspec.contents] at hr
    rcases List.mem_append.mp hr with hr | hr
    · exact h.accepted.records r hr
    -- the keys it was written with are the keys it is checked with
    · rw [← h.sameKeys.keyMaterial none]
      exact (hspec.written r hr).recordOk hP

theorem keptRun_run (hP : P.SignaturesVerify) {cfg : Config P} {log : AuditLog P}
    (hnew : AuditLog.new cfg = .ok log) {calls : List (Call P)}
    (hcalls : ∀ c ∈ calls, c.Keeps cfg) {start : List AuditRecord} {es : List (Entry P)}
    {w : World P B.toStorageBackend} (h : KeptRun log start es w) :
    KeptRun log start (es ++ (runCalls calls w).1) (runCalls calls w).2 :=
  run_preserves (fun c _ => c.Keeps cfg) (KeptRun log start)
    (fun _ _ _ hc hinv => (hinv.step hP hnew hc).1) calls w es
    (stepsOk_of_forall (fun c hc _ => hcalls c hc) w) h

/-- From an empty storage. -/
theorem HonestRun.kept (hP : P.SignaturesVerify) (run : HonestRun P)
    (hcalls : ∀ c ∈ run.calls, c.Keeps run.cfg) : KeptRun run.log [] run.trace run.world := by
  have hempty : run.start.contents = [] := run.empty
  have hstart : KeptRun run.log [] [] run.start := by
    refine ⟨⟨hempty, run.start_tailOk, by simp, fun h => by rwa [hempty]⟩, SameKeys.refl run.log,
      by simp, ?_⟩
    rw [hempty]
    exact ⟨trivial, by simp⟩
  exact keptRun_run hP run.new hcalls hstart

/-- A log that was used is open. -/
theorem keptRun_inited (hP : P.SignaturesVerify) {cfg : Config P} {log : AuditLog P}
    (hnew : AuditLog.new cfg = .ok log) {calls : List (Call P)}
    (hcalls : ∀ c ∈ calls, c.Keeps cfg) {start : List AuditRecord} {es : List (Entry P)}
    {w : World P B.toStorageBackend} (h : KeptRun log start es w) (hne : calls ≠ []) :
    (runCalls calls w).2.log.inited = true := by
  obtain ⟨c, cs, rfl⟩ := List.exists_cons_of_ne_nil hne
  have hfirst := h.step hP hnew (hcalls c List.mem_cons_self)
  have hrest := run_preserves (fun c _ => c.Keeps cfg)
    (fun es w => KeptRun log start es w ∧ w.log.inited = true)
    (fun _ _ _ hc hinv => hinv.1.step hP hnew hc) cs _ _
    (stepsOk_of_forall (fun c' hc' _ => hcalls c' (List.mem_cons_of_mem c hc')) _) hfirst
  exact hrest.2

/-- **Appending preserves verifiability.**  Start a log on any storage that it
verifies and use it in any way that keeps its configuration: what was returned is
what was stored, in order and linked, and the log still verifies. -/
theorem append_preserves_verify (hP : P.SignaturesVerify) (cfg : Config P) (log : AuditLog P)
    (hnew : AuditLog.new cfg = .ok log) (store : B.State)
    (hstart : World.Verifies (⟨log, store⟩ : World P B.toStorageBackend))
    (calls : List (Call P)) (hcalls : ∀ c ∈ calls, c.Keeps cfg) :
    let es := (runCalls calls (⟨log, store⟩ : World P B.toStorageBackend)).1
    let w := (runCalls calls (⟨log, store⟩ : World P B.toStorageBackend)).2
    w.contents = B.contents store ++ es.map Entry.record ∧
      ((∀ i (hi : i < w.contents.length), w.contents[i].seq = i) ∧
        (∀ hi : 0 < w.contents.length, w.contents[0].prevHash = GENESIS_HASH) ∧
        ∀ i (hi : i + 1 < w.contents.length),
          w.contents[i + 1].prevHash = w.contents[i].hash) ∧
      ((w.log.inited = true → w.log.last = w.contents.getLast?) ∧
        (calls ≠ [] → w.log.inited = true)) ∧
      ∃ report, (World.verify none none none w).1 = .ok report ∧ report.ok = true ∧
        report.recordsChecked = w.contents.length ∧
          report.signedRecords = if log.signingKey.isSome then w.contents.length else 0 := by
  have htail := tailOk_of_new hnew store
  have hkept : KeptRun log (B.contents store) []
      (⟨log, store⟩ : World P B.toStorageBackend) :=
    ⟨⟨by simp [World.contents], htail, by simp, id⟩, SameKeys.refl log, by simp,
      (World.verifies_iff htail).mp hstart⟩
  have hrun := keptRun_run hP hnew hcalls hkept
  rw [List.nil_append] at hrun
  intro es w
  have hver : w.Verifies := by
    rw [World.verifies_iff hrun.history.tailOk, hrun.sameKeys.keyMaterial]
    exact hrun.accepted
  have hreport := hver.report hrun.history.tailOk
  rw [hrun.sameKeys.signingKey] at hreport
  have hchained := hrun.accepted.chained
  exact ⟨hrun.history.contents,
    ⟨hchained.seq_getElem, hchained.prev_head, hchained.prev_getElem⟩,
    ⟨hrun.history.tailOk, keptRun_inited hP hnew hcalls hkept⟩, hreport⟩

/-- Two records with the number 0 do not count up. -/
theorem not_numbered {rs : List AuditRecord} (h : rs.map AuditRecord.seq = [0, 0]) :
    ¬∀ i (hi : i < rs.length), rs[i].seq = i := by
  intro hnumbered
  have hlength : rs.length = 2 := by
    rw [← List.length_map (f := AuditRecord.seq), h]
    rfl
  have hsecond : (rs.map AuditRecord.seq)[1]? = some 1 := by
    rw [List.getElem?_map, List.getElem?_eq_getElem (by omega), Option.map_some,
      hnumbered 1 (by omega)]
    rfl
  rw [h] at hsecond
  exact absurd (Option.some.inj hsecond) (by decide)

/-! ### A sealed and signed log in memory -/

/-- The configuration of a log that seals and signs. -/
def sampleConfig : Config referenceRuntime where
  sealKey := some (List.replicate 16 7)
  signingKey := some (.bytes (List.replicate 32 1))

/-- The log under that configuration. -/
def sampleLog : AuditLog referenceRuntime where
  sealKey := some (List.replicate 16 7)
  keyId := lit "k0"
  keyring := AList.insert (lit "k0") (List.replicate 16 7) ∅
  signingKey := some ⟨List.replicate 32 1, rfl⟩
  signerId := lit "s0"
  shared := false
  last := none
  inited := false
  longKey key hkey := by
    rw [← Option.some.inj hkey]
    decide
  currentKey key hkey := by rw [AList.lookup_insert, hkey]
  signs _ := ⟨by decide, rfl⟩

theorem new_sampleConfig : AuditLog.new sampleConfig = .ok sampleLog := rfl

/-- A log on an empty storage in memory. -/
def inMemory {P : Runtime} (log : AuditLog P) : World P memoryBackend.toStorageBackend :=
  ⟨log, ([] : List AuditRecord)⟩

theorem inMemory_verifies {P : Runtime} {cfg : Config P} {log : AuditLog P}
    (h : AuditLog.new cfg = .ok log) : (inMemory log).Verifies := by
  refine (World.verifies_iff (tailOk_of_new h _)).mpr ⟨trivial, fun r hr => ?_⟩
  cases hr

/-- `alice` logs in. -/
def sampleAppend {P : Runtime} : Call P :=
  .append (lit "alice") (lit "login") [] none (some (lit "2024-01-01T00:00:00Z")) []

theorem sampleLog_verifies_after_append :
    ∃ report, (World.verify none none none
        (runCalls [sampleAppend, .reopen sampleConfig, sampleAppend] (inMemory sampleLog)).2).1
      = .ok report ∧ report.ok = true := by
  obtain ⟨-, -, -, report, hreport, hok, -⟩ := append_preserves_verify (B := memoryBackend)
    referenceRuntime_signaturesVerify sampleConfig sampleLog new_sampleConfig
    ([] : List AuditRecord) (inMemory_verifies new_sampleConfig)
    [sampleAppend, .reopen sampleConfig, sampleAppend] (by simp [sampleAppend, Call.Keeps])
  exact ⟨report, hreport, hok⟩

/-- One record, sealed and signed. -/
def sampleRun : HonestRun referenceRuntime where
  backend := memoryBackend
  cfg := sampleConfig
  log := sampleLog
  new := new_sampleConfig
  store := ([] : List AuditRecord)
  empty := rfl
  calls := [sampleAppend]

/-- A run that wrote one record verifies it. -/
theorem accepted_of_trace (hP : P.SignaturesVerify) {run : HonestRun P} {log : AuditLog P}
    {r : AuditRecord} (h : run.trace = [⟨log, r⟩]) :
    run.chain = [r] ∧ WrittenBy log r ∧ Accepted (log.keyMaterial none) [r] := by
  have hchain : run.chain = [r] := by
    rw [run.chain_eq, h]
    rfl
  have hwritten : WrittenBy log r := run.written ⟨log, r⟩ (by rw [h]; exact List.mem_cons_self)
  refine ⟨hchain, hwritten, hchain ▸ run.chained, ?_⟩
  intro r' hr'
  rw [List.mem_singleton.mp hr']
  exact hwritten.recordOk hP

theorem sampleRun_spec : ∃ r, sampleRun.trace = [⟨sampleLog, r⟩] ∧ r.metadata = [] ∧
    sampleRun.world.log.signingKey = sampleLog.signingKey := by
  have hcalls : sampleRun.calls = [sampleAppend] := rfl
  obtain ⟨rs, htrace, hspec⟩ := HonestRun.step_of_calls hcalls
  have hmeta : sampleRun.trace.map (fun e => e.record.metadata.isEmpty) = [true] := by
    decide +kernel
  rw [htrace, List.map_map] at hmeta
  obtain ⟨r, rs', rfl, hr, hrs'⟩ := List.map_eq_cons_iff.mp hmeta
  obtain rfl := List.map_eq_nil_iff.mp hrs'
  obtain ⟨last, hlog⟩ := hspec.log
  refine ⟨r, htrace, List.isEmpty_iff.mp hr, ?_⟩
  rw [hlog, withTail_signingKey]
  rfl

/-- Two records, sealed and signed. -/
def pairRun : HonestRun referenceRuntime := { sampleRun with calls := [sampleAppend, sampleAppend] }

theorem keeps_pairRun : ∀ c ∈ pairRun.calls, c.Keeps pairRun.cfg := by
  simp [pairRun, sampleAppend, Call.Keeps]

theorem accepted_pairRun : Accepted (sampleLog.keyMaterial none) pairRun.chain :=
  (pairRun.kept referenceRuntime_signaturesVerify keeps_pairRun).accepted

theorem pairRun_spec : pairRun.chain.length = 2 ∧ (∀ r ∈ pairRun.chain, r.metadata = []) ∧
    (pairRun.chain.map AuditRecord.hash).Nodup := by
  have hfields : (pairRun.chain.map fun r => r.metadata.isEmpty) = [true, true] ∧
      (pairRun.chain.map AuditRecord.hash).Nodup := by decide +kernel
  obtain ⟨hmeta, hnodup⟩ := hfields
  refine ⟨by simpa using congrArg List.length hmeta, fun r hr => List.isEmpty_iff.mp ?_, hnodup⟩
  have hmem : r.metadata.isEmpty ∈ [true, true] := hmeta ▸ List.mem_map_of_mem hr
  simpa using hmem

end AuditChain
