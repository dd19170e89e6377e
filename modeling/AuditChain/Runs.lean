/-
AuditChain/Runs.lean

Runs of a log.

A call is one use of a log's interface; a run is a list of calls, and its output
the records that the successful calls returned, each with the log that wrote it.

    step_spec       what one call can do, whatever it is
    run_history     what is stored after a run is what was stored before and what
                    was returned, chained if it was chained before
-/
import AuditChain.LogSteps
import AuditChain.Machine

namespace AuditChain

open Python HashChain Machine

/-- The calls on a log.  `reopen` makes a new log on the same storage. -/
inductive Call (P : Runtime)
  | init
  | reopen (cfg : Config P)
  | append (actor action subject : PyStr) (metadata : Option PyDict) (timestamp : Option PyStr)
      (now : PyStr)
  | appendMany (entries : List BatchEntry) (clock : ℕ → PyStr)
  | rotate (newSealKey : Bytes) (newKeyId actor now : PyStr)

/-- A record that was returned, and the log as it was when the call came. -/
structure Entry (P : Runtime) where
  writer : AuditLog P
  record : AuditRecord

variable {P : Runtime}

/-- A call, with the records it returns. -/
def Call.exec {B : StorageBackend} : Call P → World.Op P B (List AuditRecord)
  | .init => do
    World.init
    return []
  | .reopen cfg => do
    let log ← Operation.ofExcept (AuditLog.new cfg)
    World.modifyLog fun _ => log
    World.init
    return []
  | .append actor action subject metadata timestamp now => do
    let r ← World.append actor action subject metadata timestamp now
    return [r]
  | .appendMany entries clock => World.appendMany entries clock
  | .rotate newSealKey newKeyId actor now => do
    let r ← World.rotate newSealKey newKeyId actor now
    return [r]

/-- One step of a run. -/
def Call.step {B : StorageBackend} (c : Call P) (w : World P B) : List (Entry P) × World P B :=
  match c.exec w with
  | (.ok rs, w') => (rs.map (Entry.mk w.log), w')
  | (.error _, w') => ([], w')

/-- A run of calls. -/
abbrev runCalls {B : StorageBackend} (calls : List (Call P)) (w : World P B) :
    List (Entry P) × World P B :=
  run Call.step calls w

/-! ### One step -/

/-- The log that a call leaves behind, when it returned the records `rs`. -/
def LogAfter (c : Call P) (rs : List AuditRecord) (log log' : AuditLog P) : Prop :=
  match c with
  | .reopen cfg => rs = [] ∧
      ((∃ fresh last, AuditLog.new cfg = .ok fresh ∧ log' = fresh.withTail last true) ∨
        ((∃ e, AuditLog.new cfg = .error e) ∧ log' = log))
  | .rotate newSealKey newKeyId _ _ =>
      (∃ hlong last, rs ≠ [] ∧ log' = (log.withKey newSealKey newKeyId hlong).withTail last true) ∨
        (rs = [] ∧ ((∃ last, log' = log.withTail last true) ∨ log' = log))
  | _ => ∃ last, log' = log.withTail last true

/-- What a step from `w` to `w'` that returned `rs` guarantees. -/
structure StepSpec {B : OrderedBackend} (c : Call P) (w w' : World P B.toStorageBackend)
    (rs : List AuditRecord) : Prop where
  contents : w'.contents = w.contents ++ rs
  tailOk : w'.TailOk
  written : ∀ r ∈ rs, WrittenBy w.log r
  follows : Follows w.contents.getLast? rs
  log : LogAfter c rs w.log w'.log

variable {B : OrderedBackend}

theorem step_of_ok {c : Call P} {w w' : World P B.toStorageBackend} {rs : List AuditRecord}
    (h : c.exec w = (.ok rs, w')) : c.step w = (rs.map (Entry.mk w.log), w') := by
  rw [Call.step, h]

theorem step_of_error {c : Call P} {w w' : World P B.toStorageBackend} {e : PyError}
    (h : c.exec w = (.error e, w')) : c.step w = ([], w') := by
  rw [Call.step, h]

/-- A call that stores nothing and leaves the log open. -/
theorem stepSpec_opened {c : Call P} {w : World P B.toStorageBackend} {log : AuditLog P}
    {s : B.State} (hcont : B.contents s = w.contents)
    (hlog : LogAfter c [] w.log (log.withTail (B.contents s).getLast? true)) :
    StepSpec c w (World.opened log s) [] where
  contents := by rw [World.opened_contents, hcont, List.append_nil]
  tailOk := World.opened_tailOk log s
  written := by simp
  follows := trivial
  log := hlog

/-- **What one call can do.** -/
theorem step_spec (c : Call P) {w : World P B.toStorageBackend} (h : w.TailOk) :
    ∃ rs w', c.step w = (rs.map (Entry.mk w.log), w') ∧ StepSpec c w w' rs := by
  cases c with
  | init =>
    obtain ⟨s, hs, hcont⟩ := World.init_spec w
    have hexec : (Call.init : Call P).exec w = (.ok [], World.opened w.log s) := by
      rw [Call.exec, Operation.bind_ok hs, Operation.pure_apply]
    exact ⟨[], _, step_of_ok hexec, stepSpec_opened hcont ⟨_, rfl⟩⟩
  | reopen cfg =>
    cases hnew : AuditLog.new cfg with
    | error e =>
      -- the arguments are refused and the log at hand stays
      have hexec : (Call.reopen cfg).exec w = (.error e, w) := by
        rw [Call.exec, Operation.bind_ofExcept_error hnew]
      exact ⟨[], w, step_of_error hexec, by simp, h, by simp, trivial, rfl,
        Or.inr ⟨⟨e, hnew⟩, rfl⟩⟩
    | ok log =>
      obtain ⟨s, hs, hcont⟩ := World.init_spec ({ w with log := log })
      have hexec : (Call.reopen cfg).exec w = (.ok [], World.opened log s) := by
        rw [Call.exec, Operation.bind_ofExcept_ok hnew, World.modifyLog,
          Operation.bind_ok (Operation.modify_apply _ _), Operation.bind_ok hs,
          Operation.pure_apply]
      exact ⟨[], _, step_of_ok hexec,
        stepSpec_opened hcont ⟨rfl, Or.inl ⟨log, _, hnew, rfl⟩⟩⟩
  | append actor action subject metadata timestamp now =>
    -- sealed and stored, or refused with nothing stored
    rcases World.append_cases h actor action subject metadata timestamp now with
      ⟨r, s, hseal, happend, hcont⟩ | ⟨e, s, -, happend, hcont⟩
    · obtain ⟨hwritten, hfollows⟩ := written_of_seal hseal
      have hexec : (Call.append actor action subject metadata timestamp now).exec w
          = (.ok [r], World.opened w.log s) := by
        rw [Call.exec, Operation.bind_ok happend, Operation.pure_apply]
      exact ⟨[r], _, step_of_ok hexec, hcont, World.opened_tailOk _ _, by simpa using hwritten,
        hfollows, _, rfl⟩
    · have hexec : (Call.append actor action subject metadata timestamp now).exec w
          = (.error e, World.opened w.log s) := by
        rw [Call.exec, Operation.bind_error happend]
      exact ⟨[], _, step_of_error hexec, stepSpec_opened hcont ⟨_, rfl⟩⟩
  | appendMany entries clock =>
    -- the same for a whole batch
    rcases World.appendMany_cases h entries clock with
      ⟨rs, s, hseal, happend, hcont⟩ | ⟨e, s, happend, hcont⟩
    · obtain ⟨hwritten, hfollows⟩ := written_of_sealMany hseal
      exact ⟨rs, _, step_of_ok happend, hcont, World.opened_tailOk _ _, hwritten, hfollows, _, rfl⟩
    · exact ⟨[], _, step_of_error happend, stepSpec_opened hcont ⟨_, rfl⟩⟩
  | rotate newSealKey newKeyId actor now =>
    -- a marker under the old key, a refused marker, or a key that is too short
    rcases World.rotate_cases h newSealKey newKeyId actor now with
      ⟨hlong, r, s, hwritten, hfollows, hrotate, hcont⟩ | ⟨e, s, hrotate, hcont⟩ | hrotate
    · have hexec : (Call.rotate newSealKey newKeyId actor now).exec w
          = (.ok [r], World.opened (w.log.withKey newSealKey newKeyId hlong) s) := by
        rw [Call.exec, Operation.bind_ok hrotate, Operation.pure_apply]
      exact ⟨[r], _, step_of_ok hexec, hcont, World.opened_tailOk _ _, by simpa using hwritten,
        hfollows, Or.inl ⟨hlong, _, by simp, rfl⟩⟩
    · have hexec : (Call.rotate newSealKey newKeyId actor now).exec w
          = (.error e, World.opened w.log s) := by
        rw [Call.exec, Operation.bind_error hrotate]
      exact ⟨[], _, step_of_error hexec,
        stepSpec_opened hcont (Or.inr ⟨rfl, Or.inl ⟨_, rfl⟩⟩)⟩
    · have hexec : (Call.rotate newSealKey newKeyId actor now).exec w = (.error shortKey, w) := by
        rw [Call.exec, Operation.bind_error hrotate]
      exact ⟨[], w, step_of_error hexec, by simp, h, by simp, trivial,
        Or.inr ⟨rfl, Or.inr rfl⟩⟩

/-! ### Whole runs -/

/-- After a run that started on the records `start` and returned the entries `es`. -/
structure History (start : List AuditRecord) (es : List (Entry P))
    (w : World P B.toStorageBackend) : Prop where
  contents : w.contents = start ++ es.map Entry.record
  tailOk : w.TailOk
  written : ∀ e ∈ es, WrittenBy e.writer e.record
  chained : ChainedRecords start → ChainedRecords w.contents

theorem History.step {start : List AuditRecord} {es : List (Entry P)}
    {w : World P B.toStorageBackend} (h : History start es w) (c : Call P) :
    History start (es ++ (c.step w).1) (c.step w).2 := by
  obtain ⟨rs, w', hstep, hspec⟩ := step_spec c h.tailOk
  rw [hstep]
  refine ⟨?_, hspec.tailOk, ?_, ?_⟩
  · rw [hspec.contents, h.contents, List.map_append, List.map_map, List.append_assoc]
    simp [Function.comp_def]
  · intro e he
    rcases List.mem_append.mp he with he | he
    · exact h.written e he
    · obtain ⟨r, hr, rfl⟩ := List.mem_map.mp he
      exact hspec.written r hr
  · intro hstart
    rw [hspec.contents]
    exact hspec.follows.chained (h.chained hstart)

/-- **What a run does.** -/
theorem run_history (calls : List (Call P)) {w : World P B.toStorageBackend} (h : w.TailOk) :
    History w.contents (runCalls calls w).1 (runCalls calls w).2 := by
  have hstart : History w.contents [] w := ⟨by simp, h, by simp, id⟩
  have hrun := run_preserves (fun _ _ => True) (History w.contents)
    (fun c _ _ _ hinv => hinv.step c) calls w [] (stepsOk_of_forall (fun _ _ _ => trivial) w) hstart
  rwa [List.nil_append] at hrun

/-- A new log has not looked at the storage yet. -/
theorem new_inited {cfg : Config P} {log : AuditLog P} (h : AuditLog.new cfg = .ok log) :
    log.inited = false := by
  unfold AuditLog.new at h
  split at h
  · cases h
  · split at h
    · cases h
    · split at h
      · cases h
      · split at h
        · cases h
        · rw [← Except.ok.inj h]

theorem tailOk_of_new {cfg : Config P} {log : AuditLog P} (h : AuditLog.new cfg = .ok log)
    (store : B.State) : World.TailOk (⟨log, store⟩ : World P B.toStorageBackend) := by
  intro hinited
  rw [new_inited h] at hinited
  cases hinited

/-! ### Honest runs -/

variable (P) in
/-- A run of a log from an empty storage. -/
structure HonestRun where
  backend : OrderedBackend
  cfg : Config P
  log : AuditLog P
  new : AuditLog.new cfg = .ok log
  store : backend.State
  empty : backend.contents store = []
  calls : List (Call P)

namespace HonestRun

variable (run : HonestRun P)

/-- Where the run starts. -/
def start : World P run.backend.toStorageBackend := ⟨run.log, run.store⟩

/-- The records that were written, each with its writer. -/
def trace : List (Entry P) := (runCalls run.calls run.start).1

/-- Where the run ends. -/
def world : World P run.backend.toStorageBackend := (runCalls run.calls run.start).2

/-- The stored chain. -/
def chain : List AuditRecord := run.world.contents

theorem start_tailOk : run.start.TailOk := tailOk_of_new run.new run.store

theorem history : History [] run.trace run.world := by
  have hhist := run_history run.calls run.start_tailOk
  rwa [show run.start.contents = [] from run.empty] at hhist

/-- The stored chain is what was written. -/
theorem chain_eq : run.chain = run.trace.map Entry.record := by
  have h := run.history.contents
  rwa [List.nil_append] at h

theorem chained : ChainedRecords run.chain := run.history.chained trivial

theorem written : ∀ e ∈ run.trace, WrittenBy e.writer e.record := run.history.written

variable {run}

/-- A run of one call. -/
theorem step_of_calls {c : Call P} (h : run.calls = [c]) :
    ∃ rs, run.trace = rs.map (Entry.mk run.log) ∧ StepSpec c run.start run.world rs := by
  obtain ⟨rs, w, hstep, hspec⟩ := step_spec c run.start_tailOk
  have hrun : runCalls run.calls run.start = (rs.map (Entry.mk run.log), w) := by
    rw [h, runCalls, Machine.run_cons, Machine.run_nil, hstep, List.append_nil]
    rfl
  refine ⟨rs, by rw [trace, hrun], ?_⟩
  rw [world, hrun]
  exact hspec

/-- Every stored record was written by some log. -/
theorem exists_entry {r : AuditRecord} (h : r ∈ run.chain) : ∃ e ∈ run.trace, e.record = r := by
  rw [run.chain_eq] at h
  exact List.mem_map.mp h

/-- A written record stands at the position it carries. -/
theorem getElem_of_seq {e : Entry P} (he : e ∈ run.trace) {i : ℕ} (hi : e.record.seq = i) :
    ∃ hlt : i < run.chain.length, run.chain[i] = e.record := by
  have hmem : e.record ∈ run.chain := by
    rw [run.chain_eq]
    exact List.mem_map_of_mem he
  obtain ⟨j, hj, hget⟩ := List.getElem_of_mem hmem
  have hseq := run.chained.seq_getElem j hj
  rw [hget, hi] at hseq
  obtain rfl : i = j := by exact_mod_cast hseq
  exact ⟨hj, hget⟩

end HonestRun

end AuditChain
