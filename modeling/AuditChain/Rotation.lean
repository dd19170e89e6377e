/-
AuditChain/Rotation.lean

Which rotations keep a log verifiable.

A rotation changes the key that is found for two kinds of records: those without
a key id, which are checked under whatever key is current, and those under the
id that the new key takes.  `RotateSafe` says that the new key is the right one
for every record of either kind, the marker included.

    rotate_preserves_verify   under safe rotations a log verifies in every state
    rotate_counterexample     sealing a log that was not sealed is not safe
-/
import AuditChain.Appending

namespace AuditChain

open Python HashChain Machine

variable {P : Runtime} {B : OrderedBackend}

/-- A world that some log got to, on some storage. -/
def Reachable (w : World P B.toStorageBackend) : Prop :=
  ∃ cfg log store calls, AuditLog.new cfg = .ok log ∧
    w = (runCalls calls (⟨log, store⟩ : World P B.toStorageBackend)).2

theorem Reachable.tailOk {w : World P B.toStorageBackend} (h : Reachable w) : w.TailOk := by
  obtain ⟨cfg, log, store, calls, hnew, rfl⟩ := h
  exact (run_history calls (tailOk_of_new hnew store)).tailOk

/-- The calls on one log object. -/
def Call.OnSameObject : Call P → Prop
  | .reopen _ => False
  | _ => True

/-- The key id that the log stamps on what it writes. -/
def AuditLog.stampedKeyId (log : AuditLog P) : PyStr :=
  if log.sealKey.isSome then log.keyId else []

/-- The new key is the right one for every record whose key the rotation changes: for
the records without a key id, and for those under the new id. -/
def RotateSafe (w : World P B.toStorageBackend) (newSealKey : Bytes) (newKeyId : PyStr) : Prop :=
  ∀ id ∈ w.contents.map AuditRecord.keyId ++ [w.log.stampedKeyId],
    (id = [] → w.log.sealKey = some newSealKey) ∧
      (id ≠ [] → id = newKeyId → w.log.keyring.lookup newKeyId = some newSealKey)

/-- A rotation that writes its marker is safe. -/
def Call.RotatesSafely (c : Call P) (w : World P B.toStorageBackend) : Prop :=
  match c with
  | .rotate newSealKey newKeyId _ _ => (c.step w).1 ≠ [] → RotateSafe w newSealKey newKeyId
  | _ => True

/-- After a safe rotation every record finds the key it found before. -/
theorem RotateSafe.keyFor {w : World P B.toStorageBackend} {newSealKey : Bytes}
    {newKeyId : PyStr} (h : RotateSafe w newSealKey newKeyId)
    (hlong : MIN_KEY_LENGTH ≤ newSealKey.length) {r : AuditRecord}
    (hr : r.keyId ∈ w.contents.map AuditRecord.keyId ++ [w.log.stampedKeyId]) :
    ((w.log.withKey newSealKey newKeyId hlong).keyMaterial none).keyFor r
      = (w.log.keyMaterial none).keyFor r := by
  obtain ⟨hnil, hnew⟩ := h r.keyId hr
  rw [keyFor_keyMaterial, keyFor_keyMaterial]
  by_cases hid : r.keyId = []
  · rw [if_pos hid, if_pos hid, hnil hid]
    rfl
  · rw [if_neg hid, if_neg hid]
    show (AList.insert newKeyId newSealKey w.log.keyring).lookup r.keyId = _
    by_cases heq : r.keyId = newKeyId
    · rw [heq, AList.lookup_insert, hnew hid heq]
    · rw [AList.lookup_insert_ne heq]

/-- A record stays in order under other keys that agree on it. -/
theorem RecordOk.congr {M M' : KeyMaterial P} {r : AuditRecord} (h : RecordOk M r)
    (hkey : M'.keyFor r = M.keyFor r) (hsigners : M'.signers = M.signers) : RecordOk M' r where
  keyKnown hid := by
    rw [hkey]
    exact h.keyKnown hid
  hash := by
    rw [hkey]
    exact h.hash
  signature signers hsome := h.signature signers (hsigners ▸ hsome)

/-- A call keeps a log verifiable, unless it is an unsafe rotation. -/
theorem accepted_step (hP : P.SignaturesVerify) {w : World P B.toStorageBackend} (hw : w.TailOk)
    {c : Call P} (hc : c.OnSameObject) (hsafe : c.RotatesSafely w)
    (h : Accepted (w.log.keyMaterial none) w.contents) :
    (c.step w).2.TailOk ∧
      Accepted ((c.step w).2.log.keyMaterial none) (c.step w).2.contents := by
  obtain ⟨rs, w', hstep, hspec⟩ := step_spec c hw
  -- under the old keys, the new records are in order like the others
  have hold : Accepted (w.log.keyMaterial none) w'.contents := by
    rw [hspec.contents]
    refine ⟨hspec.follows.chained h.chained, fun r hr => ?_⟩
    rcases List.mem_append.mp hr with hr | hr
    · exact h.records r hr
    · exact (hspec.written r hr).recordOk hP
  have hlog := hspec.log
  rw [hstep]
  refine ⟨hspec.tailOk, ?_⟩
  cases c with
  | reopen cfg => exact absurd hc id
  | rotate newSealKey newKeyId actor now =>
    rcases hlog with ⟨hlong, last, hrs, hlog⟩ | ⟨-, ⟨last, hlog⟩ | hlog⟩
    · have hrotate : RotateSafe w newSealKey newKeyId := by
        apply hsafe
        rw [hstep]
        simpa using hrs
      refine ⟨hold.chained, fun r hr => ?_⟩
      have hid : r.keyId ∈ w.contents.map AuditRecord.keyId ++ [w.log.stampedKeyId] := by
        rw [hspec.contents] at hr
        rcases List.mem_append.mp hr with hr | hr
        · exact List.mem_append_left _ (List.mem_map_of_mem hr)
        · exact List.mem_append_right _ (List.mem_singleton.mpr (hspec.written r hr).keyId)
      rw [hlog, withTail_keyMaterial]
      exact (hold.records r hr).congr (hrotate.keyFor hlong hid) rfl
    · rw [hlog]
      exact hold
    · rw [hlog]
      exact hold
  | init =>
    obtain ⟨last, hlog⟩ := hlog
    rw [hlog]
    exact hold
  | append =>
    obtain ⟨last, hlog⟩ := hlog
    rw [hlog]
    exact hold
  | appendMany =>
    obtain ⟨last, hlog⟩ := hlog
    rw [hlog]
    exact hold

/-- A run without an unsafe rotation keeps a log verifiable. -/
theorem verifies_run (hP : P.SignaturesVerify) {w : World P B.toStorageBackend} (hw : w.TailOk)
    (hver : w.Verifies) {calls : List (Call P)} (hsame : ∀ c ∈ calls, c.OnSameObject)
    (hsafe : StepsOk Call.step (fun c w => c.RotatesSafely (B := B) w) calls w) :
    World.TailOk (runCalls calls w).2 ∧ World.Verifies (runCalls calls w).2 := by
  have hrun := run_preserves (fun c w => c.OnSameObject ∧ c.RotatesSafely (B := B) w)
    (fun _ w => w.TailOk ∧ Accepted (w.log.keyMaterial none) w.contents)
    (fun c w _ hc hinv => accepted_step hP hinv.1 hc.1 hc.2 hinv.2) calls w []
    (hsafe.and hsame) ⟨hw, (World.verifies_iff hw).mp hver⟩
  exact ⟨hrun.1, (World.verifies_iff hrun.1).mpr hrun.2⟩

/-- **Safe rotations preserve verifiability.**  From a state in which a log verifies,
use the object in any way in which every rotation that succeeds is safe: it verifies
in every state on the way, over all records. -/
theorem rotate_preserves_verify (hP : P.SignaturesVerify) {w : World P B.toStorageBackend}
    (hw : Reachable w) (hver : w.Verifies) (calls : List (Call P))
    (hsame : ∀ c ∈ calls, c.OnSameObject)
    (hsafe : StepsOk Call.step (fun c w => c.RotatesSafely (B := B) w) calls w) (n : ℕ) :
    ∃ report, (World.verify none none none (runCalls (calls.take n) w).2).1 = .ok report ∧
      report.ok = true ∧
        report.recordsChecked = (World.contents (runCalls (calls.take n) w).2).length := by
  obtain ⟨htail, hend⟩ := verifies_run hP hw.tailOk hver
    (fun c hc => hsame c (List.mem_of_mem_take hc)) (hsafe.take n)
  obtain ⟨report, hreport, hok, hcount, -⟩ := hend.report htail
  exact ⟨report, hreport, hok, hcount⟩

/-! ### Rotating a log in memory -/

/-- A rotation to a new key under a new id. -/
def sampleRotate {P : Runtime} : Call P :=
  .rotate (List.replicate 16 9) (lit "k1") (lit "system") (lit "2024-01-02T00:00:00Z")

theorem sampleRotate_safe : (sampleRotate : Call referenceRuntime).RotatesSafely
    (Call.step sampleAppend (inMemory sampleLog)).2 := by
  have hids : (World.contents (Call.step sampleAppend (inMemory sampleLog)).2).map
      AuditRecord.keyId ++ [(Call.step sampleAppend (inMemory sampleLog)).2.log.stampedKeyId]
        = [lit "k0", lit "k0"] := by decide +kernel
  intro _ id hid
  rw [hids] at hid
  obtain rfl : id = lit "k0" := by simpa using hid
  exact ⟨fun h => absurd h (by decide), fun _ h => absurd h (by decide)⟩

theorem sampleRun_safe : StepsOk Call.step
    (fun c w => Call.RotatesSafely (B := memoryBackend) c w) [sampleAppend, sampleRotate]
      (inMemory sampleLog) := by
  rw [StepsOk, StepsOk]
  exact ⟨trivial, sampleRotate_safe, trivial⟩

/-- A sealed log that is rotated to a new id goes on verifying. -/
theorem rotate_preserves_verify_sample : ∃ report,
    (World.verify none none none
      (runCalls [sampleAppend, sampleRotate] (inMemory sampleLog)).2).1 = .ok report ∧
        report.ok = true := by
  have hreach : Reachable (inMemory sampleLog) :=
    ⟨sampleConfig, sampleLog, ([] : List AuditRecord), [], new_sampleConfig, rfl⟩
  obtain ⟨report, hreport, hok, -⟩ := rotate_preserves_verify referenceRuntime_signaturesVerify
    hreach (inMemory_verifies new_sampleConfig) [sampleAppend, sampleRotate]
    (by simp [sampleAppend, sampleRotate, Call.OnSameObject]) sampleRun_safe 2
  exact ⟨report, hreport, hok⟩

/-- A log without keys. -/
def plainLog : AuditLog referenceRuntime where
  sealKey := none
  keyId := lit "k0"
  keyring := ∅
  signingKey := none
  signerId := lit "s0"
  shared := false
  last := none
  inited := false
  longKey := by simp
  currentKey := by simp
  signs := by simp

theorem new_default : AuditLog.new ({} : Config referenceRuntime) = .ok plainLog := rfl

/-- Rotating a log that was never sealed makes it unverifiable. -/
theorem rotate_counterexample :
    ¬∀ (P : Runtime) (B : OrderedBackend) (w : World P B.toStorageBackend)
      (newSealKey : Bytes) (newKeyId actor now : PyStr), P.SignaturesVerify → Reachable w →
        w.Verifies → (∃ r, (World.rotate newSealKey newKeyId actor now w).1 = .ok r) →
          World.Verifies (World.rotate newSealKey newKeyId actor now w).2 := by
  intro hclaim
  have hver : World.Verifies (runCalls [sampleAppend] (inMemory plainLog)).2 :=
    World.verifies_iff_report.mpr (by decide +kernel)
  have hrotate : (World.rotate (List.replicate 16 9) (lit "k1") (lit "system") (lit "now")
      (runCalls [sampleAppend] (inMemory plainLog)).2).1.toOption.isSome = true := by
    decide +kernel
  have hafter : (World.verify none none none (World.rotate (List.replicate 16 9) (lit "k1")
      (lit "system") (lit "now") (runCalls [sampleAppend] (inMemory plainLog)).2).2).1.toOption.map
        VerifyReport.ok = some false := by decide +kernel
  have hbroken := World.verifies_iff_report.mp (hclaim referenceRuntime memoryBackend
    (runCalls [sampleAppend] (inMemory plainLog)).2 (List.replicate 16 9) (lit "k1")
    (lit "system") (lit "now") referenceRuntime_signaturesVerify
    ⟨{}, plainLog, ([] : List AuditRecord), [sampleAppend], new_default, rfl⟩ hver (by
      cases hr : (World.rotate (List.replicate 16 9) (lit "k1") (lit "system") (lit "now")
        (runCalls [sampleAppend] (inMemory plainLog)).2).1 with
      | error e =>
        rw [hr] at hrotate
        cases hrotate
      | ok r => exact ⟨r, rfl⟩))
  rw [hafter] at hbroken
  cases hbroken

end AuditChain
