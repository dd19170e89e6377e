/-
AuditChain/StoredCommands.lean

The commands on logs in files and in databases.

A command opens a log of its own on the storage that another process has left behind.  What
it makes of a JSONL file or of a SQLite database that a log has written is what it makes of
the list of the records, whatever its options are: the same exit code, the same lines on
stdout and stderr and the same text in the output file.

    sameCommands_of_found    for any storage that stands in for a list
    stored_commands          after a run on a file and on a database
-/
import AuditChain.StoredLogs
import AuditChain.VerifyCommand

namespace Operation

variable {ε S T α β : Type}

/-- Two sequences that return the same first, and go on in the same way. -/
theorem bind_fst {x : Operation ε S α} {y : Operation ε T α} {f : α → Operation ε S β}
    {g : α → Operation ε T β} {s : S} {t : T} (h : (x s).1 = (y t).1)
    (hfg : ∀ a s t, (f a s).1 = (g a t).1) : ((x >>= f) s).1 = ((y >>= g) t).1 := by
  rcases hx : x s with ⟨e | a, s'⟩ <;> rcases hy : y t with ⟨e' | a', t'⟩ <;>
    rw [hx, hy] at h
  · rw [bind_error hx, bind_error hy]
    exact congrArg Except.error (Except.error.inj h)
  · cases h
  · cases h
  · rw [bind_ok hx, bind_ok hy, Except.ok.inj h]
    exact hfg a' s' t'

end Operation

namespace AuditChain

open Python Operation

namespace CommandLine

variable {P : Runtime} {B : StorageBackend}

/-- A command says the same of a storage as of these records. -/
structure SameCommands (P : Runtime) (B : StorageBackend) (s : B.State)
    (rs : List AuditRecord) : Prop where
  verify : ∀ {φ : Type} (fs : Files φ) (o : VerifyOptions),
    (verifyCommand P fs B o s).1 = (verifyCommand P fs memoryStorage o rs).1
  checkpoint : ∀ (keys : AnchorKeys) (out : PyStr),
    (checkpointCommand P B keys out s).1 = (checkpointCommand P memoryStorage keys out rs).1
  proof : ∀ (seq : ℤ) (checkpoint : Option TextFile) (sealKey : Option Bytes)
    (output : Option PyStr), (proofCommand P B seq checkpoint sealKey output s).1
      = (proofCommand P memoryStorage seq checkpoint sealKey output rs).1

/-- A log that is opened for a command shows what the storage stands for. -/
theorem withLog_standIn {K : StandIn P B} {s : B.State} {rs : List AuditRecord}
    (hfound : K.Found s rs) (hfits : K.Fits rs) {α : Type} (cfg : Config P) {op : World.Op P B α}
    {op' : World.Op P memoryStorage α}
    (hop : ∀ (w : World P B) (w' : World P memoryStorage), SameView w w' → (op w).1 = (op' w').1) :
    (withLog cfg op s).1 = (withLog cfg op' rs).1 := by
  cases hnew : AuditLog.new cfg with
  | error e =>
    -- the keys are refused before anyone looks at the storage
    have hrefused : ∀ {B' : StorageBackend} (op : World.Op P B' α) (s : B'.State),
        (withLog cfg op s).1 = .error e := fun op s =>
      congrArg Prod.fst (Operation.bind_ofExcept_error hnew _ s)
    exact (hrefused op s).trans (hrefused op' rs).symm
  | ok log =>
    have hview : SameView (⟨log, s⟩ : World P B) (⟨log, rs⟩ : World P memoryStorage) :=
      StandIn.sameView (StandIn.worlds_of_new hnew hfound) hfits
    exact (withLog_fst hnew op s).trans ((hop _ _ hview).trans (withLog_fst hnew op' rs).symm)

/-- A part of a command that does not look at the storage. -/
theorem ofExcept_fst {α β : Type} (x : Except PyError α) {f : α → Operation PyError B.State β}
    {g : α → Operation PyError memoryStorage.State β} {s : B.State} {rs : List AuditRecord}
    (hfg : ∀ a, (f a s).1 = (g a rs).1) :
    ((Operation.ofExcept x >>= f) s).1 = ((Operation.ofExcept x >>= g) rs).1 := by
  cases x with
  | error e => rfl
  | ok a => exact hfg a

/-- **The commands cannot tell**: whatever stands in for a list is reported as the list is. -/
theorem sameCommands_of_found (K : StandIn P B) {s : B.State} {rs : List AuditRecord}
    (hfound : K.Found s rs) (hfits : K.Fits rs) : SameCommands P B s rs where
  verify fs o := by
    refine ofExcept_fst _ fun signers => ofExcept_fst _ fun publicKey =>
      bind_fst ?_ fun _ _ _ => rfl
    refine ofExcept_fst _ fun checkpoint => withLog_standIn hfound hfits _ fun w w' hview => ?_
    exact hview.verify o.expectedCount checkpoint signers
  checkpoint keys out := by
    refine bind_fst ?_ fun cp _ _ => bind_fst rfl fun _ _ _ => rfl
    exact withLog_standIn hfound hfits (keys.config P) fun w w' hview => hview.checkpoint
  proof seq checkpoint sealKey output := by
    refine ofExcept_fst _ fun publicKey => ofExcept_fst _ fun anchor => bind_fst ?_ fun p _ _ => ?_
    · refine withLog_standIn hfound hfits _ fun w w' hview =>
        bind_fst (hview.inclusionProof seq) fun p v v' => ?_
      -- the root of the proof is compared with that of the anchor alone
      cases anchor with
      | none => rfl
      | some c =>
        dsimp only
        split <;> rfl
    · cases output with
      | none => exact bind_fst rfl fun _ _ _ => rfl
      | some out => exact bind_fst rfl fun _ _ _ => rfl

/-- **After any run of a log**, `verify`, `checkpoint` and `proof` make of the file and of the
database what they make of the list of the records. -/
theorem stored_commands (J : JsonlBackend) {cfg : Config P} {log : AuditLog P}
    (hnew : AuditLog.new cfg = .ok log) {file : LogFile} (hempty : file.getD [] = [])
    {d : SqliteDatabase} (hdisk : d.disk = []) (calls : List (Call P))
    (hrecords : ∀ r ∈ (runCalls calls (inMemory log)).2.contents, r.Keepable P ∧ r.OneLine)
    (hlength : (runCalls calls (inMemory log)).2.contents.length ≤ 9223372036854775808) :
    SameCommands P (J.storage P) (answers calls (⟨log, file⟩ : World P (J.storage P))).2.store
        (runCalls calls (inMemory log)).2.contents ∧
      SameCommands P (SqliteBackend.storage P)
        (answers calls (⟨log, d⟩ : World P (SqliteBackend.storage P))).2.store
        (runCalls calls (inMemory log)).2.contents := by
  have hlines : (J.standIn P).Fits (runCalls calls (inMemory log)).2.contents := fun r hr =>
    ⟨⟨finished_of_run (new_inited hnew) hr, (hrecords r hr).1⟩, (hrecords r hr).2⟩
  have htable : (SqliteBackend.standIn P).Fits (runCalls calls (inMemory log)).2.contents :=
    tableFits_of_run hnew calls (fun r hr => (hrecords r hr).1) hlength
  have hfile : (J.standIn P).Found file [] := ⟨file, hempty, rfl⟩
  have hdatabase : (SqliteBackend.standIn P).Found d [] := hdisk
  obtain ⟨-, hkept, -⟩ := StandIn.run_spec _ calls (StandIn.worlds_of_new hnew hfile) hlines
  obtain ⟨-, hrows, -⟩ := StandIn.run_spec _ calls (StandIn.worlds_of_new hnew hdatabase) htable
  exact ⟨sameCommands_of_found _ hkept hlines, sameCommands_of_found _ hrows htable⟩

/-- `alice` logs in, and `verify` is called with no option. -/
theorem stored_commands_sample : (verifyCommand referenceRuntime noFiles
      (SqliteBackend.storage referenceRuntime) {} (answers sampleCalls (⟨plainLog, ⟨[], none⟩⟩ :
        World referenceRuntime (SqliteBackend.storage referenceRuntime))).2.store).1
    = (verifyCommand referenceRuntime noFiles memoryStorage {}
        (runCalls sampleCalls (inMemory plainLog)).2.contents).1 :=
  (stored_commands ⟨lit "log", .lf⟩ new_default (show (none : LogFile).getD [] = [] from rfl) rfl
    sampleCalls keepable_sampleCalls (by decide +kernel)).2.verify noFiles {}

end CommandLine

end AuditChain
