/-
AuditChain/SqliteWrites.lean

The writes of the SQLite backend.

A connection is a session on the table.  `append_many` rolls back when it fails, `append`
does not: after an INSERT that is refused, or a COMMIT that fails, its transaction stays
open, later reads on the connection see the pending row, and the next append that
succeeds commits it.

    leavesNoTrace_iff    when a failed append leaves no trace
-/
import AuditChain.Stored
import AuditChain.Transactions

namespace AuditChain

open Python

variable (P : Runtime)

/-! ### The code -/

/-- The texts that are bound to a row's columns. -/
def SqliteRow.texts (row : SqliteRow) : List PyStr :=
  [row.ts, row.actor, row.action, row.subject, row.metaText, row.prevHash, row.hash, row.keyId,
    row.signerId, row.signature]

/-- Bind the values of a row: an integer of 64 bits, and texts in UTF-8. -/
def SqliteRow.bind (row : SqliteRow) : Except PyError Unit :=
  if row.seq < -9223372036854775808 ∨ 9223372036854775807 < row.seq then
    .error ⟨.overflowError, lit "Python int too large to convert to SQLite INTEGER"⟩
  else row.texts.forM fun s => do let _ ← utf8Encode s

/-- What the database itself fails with during a call, a lock or a full disk. -/
structure SqliteFaults where
  /-- Executing the statement for the row number `n`. -/
  statement : ℕ → Option PyError
  commit : Option PyError

/-- Does `_INSERT_SQL` take the row number `n` of a call? -/
def insertCheck (faults : SqliteFaults) (n : ℕ) (rows : List SqliteRow) (row : SqliteRow) :
    Except PyError Unit := do
  row.bind
  if rows.any fun other => other.seq == row.seq then
    .error ⟨.user (lit "IntegrityError"), lit "UNIQUE constraint failed: audit_records.seq"⟩
  else
    match faults.statement n with
    | some e => .error e
    | none => .ok ()

namespace SqliteBackend

/-- `_conn`. -/
abbrev State : Type := Option (Session SqliteRow)

/-- Use what `_connection()` returns. -/
def withConnection {α : Type} (x : Operation PyError (Session SqliteRow) α) :
    Operation PyError State α
  | none =>
    (.error ⟨.user (lit "RuntimeError"), lit "SqliteBackend is not initialized; call init() first"⟩,
      none)
  | some c => ((x c).1, some (x c).2)

/-- `SqliteBackend.append`. -/
def append (faults : SqliteFaults) (r : AuditRecord) : Operation PyError State Unit :=
  withConnection do
    let row ← Operation.ofExcept (r.rowValues P)
    Session.insert (insertCheck faults 0) row
    Session.commit faults.commit

/-- `conn.executemany(_INSERT_SQL, rows)` and `conn.commit()`. -/
def writeRows (faults : SqliteFaults) (rows : List SqliteRow) :
    Operation PyError (Session SqliteRow) Unit := do
  Session.insertAll (insertCheck faults) 0 rows
  Session.commit faults.commit

/-- `SqliteBackend.append_many`. -/
def appendMany (faults : SqliteFaults) (rs : List AuditRecord) : Operation PyError State Unit := do
  let rows ← Operation.ofExcept (rs.mapM (AuditRecord.rowValues P))
  withConnection ((writeRows faults rows).onError Session.rollback)

/-- `ORDER BY seq`. -/
def orderBySeq (rows : List SqliteRow) : List SqliteRow :=
  rows.insertionSort fun a b => a.seq ≤ b.seq

/-- `SqliteBackend.load`. -/
def load : Operation PyError State (List AuditRecord) :=
  withConnection fun c => ((orderBySeq c.visible).mapM (SqliteRow.fromRow P), c)

/-- `SqliteBackend.load_last`. -/
def loadLast : Operation PyError State (Option AuditRecord) :=
  withConnection fun c => ((orderBySeq c.visible).getLast?.mapM (SqliteRow.fromRow P), c)

/-- A write. -/
inductive Call
  | append (faults : SqliteFaults) (r : AuditRecord)
  | appendMany (faults : SqliteFaults) (rs : List AuditRecord)

/-- What a write makes of the backend, whether it raises or not. -/
def Call.after : Call → State → State
  | .append faults r, s => (SqliteBackend.append P faults r s).2
  | .appendMany faults rs, s => (SqliteBackend.appendMany P faults rs s).2

/-- What is on disk. -/
def committed (s : State) : List SqliteRow :=
  match s with
  | none => []
  | some c => c.committed

/-! ### Traces -/

/-- The connection, if there is one, has no open transaction. -/
def NoTransaction (s : State) : Prop := ∀ c, s = some c → c.pending = none

/-- A call that took `s` to `s'` might as well not have been made. -/
structure LeavesNoTrace (s s' : State) : Prop where
  noTransaction : NoTransaction s'
  load_eq : (load P s').1 = (load P s).1
  loadLast_eq : (loadLast P s').1 = (loadLast P s).1
  /-- Whatever is written later, the same rows are committed. -/
  later : ∀ calls : List Call, committed (calls.foldl (fun t call => call.after P t) s')
    = committed (calls.foldl (fun t call => call.after P t) s)

/-- The record gets as far as the database, which refuses it or does not commit it. -/
def FailsInDatabase (faults : SqliteFaults) (s : State) (r : AuditRecord) : Prop :=
  ∃ c row, s = some c ∧ r.rowValues P = .ok row ∧
    ¬(insertCheck faults 0 c.visible row = .ok () ∧ faults.commit = none)

variable {P} {faults : SqliteFaults} {r : AuditRecord} {s : State}

theorem leavesNoTrace_self (hs : NoTransaction s) : LeavesNoTrace P s s :=
  ⟨hs, rfl, rfl, fun _ => rfl⟩

/-! ### Batches -/

/-- **A batch that fails leaves the backend as it was.** -/
theorem appendMany_error {rs : List AuditRecord} (hs : NoTransaction s) {e : PyError} {s' : State}
    (h : appendMany P faults rs s = (.error e, s')) : s' = s := by
  rw [appendMany] at h
  cases hrows : rs.mapM (AuditRecord.rowValues P) with
  | error err =>
    rw [Operation.bind_ofExcept_error hrows] at h
    exact (Prod.mk.inj h).2.symm
  | ok rows =>
    rw [Operation.bind_ofExcept_ok hrows] at h
    cases s with
    | none => exact (Prod.mk.inj h).2.symm
    | some c =>
      obtain ⟨hres, rfl⟩ := Prod.mk.inj h
      rcases Session.atomically_spec (insertCheck faults) rows faults.commit (hs c rfl)
        with hdone | ⟨err, hundone⟩
      · rw [writeRows, hdone] at hres
        cases hres
      · rw [writeRows, hundone]

/-! ### Single records -/

/-- The three ways through `append`: nothing is touched, the transaction is left open, or the
row is committed. -/
theorem append_spec (P : Runtime) (faults : SqliteFaults) (r : AuditRecord) (s : State) :
    (∃ e, append P faults r s = (.error e, s) ∧ ¬FailsInDatabase P faults s r) ∨
      (∃ e c, append P faults r s = (.error e, some c) ∧ c.pending ≠ none ∧
        FailsInDatabase P faults s r) ∨
      ((append P faults r s).1 = .ok () ∧ ¬FailsInDatabase P faults s r) := by
  cases s with
  | none => exact Or.inl ⟨_, rfl, fun ⟨c, _, h, _⟩ => by cases h⟩
  | some c =>
    cases hrow : r.rowValues P with
    | error e =>
      refine Or.inl ⟨e, ?_, fun ⟨_, _, _, h, _⟩ => by rw [hrow] at h; cases h⟩
      rw [append, withConnection, Operation.bind_ofExcept_error hrow]
    | ok row =>
      have hfails : FailsInDatabase P faults (some c) r ↔
          ¬(insertCheck faults 0 c.visible row = .ok () ∧ faults.commit = none) := by
        constructor
        · rintro ⟨c', row', hc, hrow', h⟩
          obtain rfl := Option.some.inj hc
          obtain rfl := Except.ok.inj (hrow.symm.trans hrow')
          exact h
        · intro h
          exact ⟨c, row, rfl, hrow, h⟩
      rw [append, withConnection, Operation.bind_ofExcept_ok hrow, hfails]
      cases hcheck : insertCheck faults 0 c.visible row with
      | error e =>
        rw [Operation.bind_error (Session.insert_error hcheck)]
        exact Or.inr (Or.inl ⟨e, _, rfl, by simp, by simp⟩)
      | ok u =>
        rw [Operation.bind_ok (Session.insert_ok hcheck)]
        cases hcommit : faults.commit with
        | some e => exact Or.inr (Or.inl ⟨e, _, rfl, by simp [Session.commit], by simp⟩)
        | none => exact Or.inr (Or.inr ⟨rfl, by simp⟩)

/-- **When a failed append leaves no trace**: when it did not get to the database.  A failed
batch never leaves one. -/
theorem leavesNoTrace_iff (P : Runtime) (faults : SqliteFaults) (r : AuditRecord)
    (rs : List AuditRecord) {s : State} (hs : NoTransaction s) :
    ((∀ e s', append P faults r s = (.error e, s') → LeavesNoTrace P s s') ∧
      ∀ e s', appendMany P faults rs s = (.error e, s') → LeavesNoTrace P s s') ↔
        ¬FailsInDatabase P faults s r := by
  have hmany : ∀ e s', appendMany P faults rs s = (.error e, s') → LeavesNoTrace P s s' := by
    intro e s' h
    obtain rfl := appendMany_error hs h
    exact leavesNoTrace_self hs
  rw [and_iff_left hmany]
  rcases append_spec P faults r s with ⟨e, happend, hfails⟩ | ⟨e, c, happend, hopen, hfails⟩ |
    ⟨happend, hfails⟩
  · refine iff_of_true (fun err s' h => ?_) hfails
    obtain rfl := (Prod.mk.inj (happend.symm.trans h)).2
    exact leavesNoTrace_self hs
  · refine iff_of_false (fun h => ?_) (not_not_intro hfails)
    exact hopen ((h e _ happend).noTransaction c rfl)
  · refine iff_of_true (fun err s' h => ?_) hfails
    rw [h] at happend
    cases happend

/-- A database that is locked when it comes to the commit. -/
def lockedCommit : SqliteFaults where
  statement _ := none
  commit := some ⟨.user (lit "OperationalError"), lit "database is locked"⟩

/-- A record that cannot be written as JSON, and a batch that cannot be committed. -/
theorem leavesNoTrace_sample :
    (∃ e s', append referenceRuntime lockedCommit (metaRecord [(.str (lit "file"), .object)])
        (some ⟨[], none⟩) = (.error e, s') ∧ LeavesNoTrace referenceRuntime (some ⟨[], none⟩) s') ∧
      ∃ e s', appendMany referenceRuntime lockedCommit [metaRecord []] (some ⟨[], none⟩)
        = (.error e, s') ∧ LeavesNoTrace referenceRuntime (some ⟨[], none⟩) s' := by
  have hopen : NoTransaction (some ⟨[], none⟩) := fun c h => by rw [← Option.some.inj h]
  have hfails : ¬FailsInDatabase referenceRuntime lockedCommit (some ⟨[], none⟩)
      (metaRecord [(.str (lit "file"), .object)]) := by
    rintro ⟨c, row, -, hrow, -⟩
    cases hrow
  obtain ⟨hone, hmany⟩ := (leavesNoTrace_iff referenceRuntime lockedCommit _ [metaRecord []]
    hopen).mpr hfails
  exact ⟨⟨_, _, rfl, hone _ _ rfl⟩, ⟨_, _, rfl, hmany _ _ rfl⟩⟩

/-- The commit of the first record fails, and that of the second stores both. -/
theorem leavesNoTrace_counterexample : ¬∀ (P : Runtime) (faults : SqliteFaults) (r : AuditRecord)
    (s : State), NoTransaction s →
      ∀ e s', append P faults r s = (.error e, s') → LeavesNoTrace P s s' := by
  intro hclaim
  have hopen : NoTransaction (some ⟨[], none⟩) := fun c h => by rw [← Option.some.inj h]
  have htrace := hclaim referenceRuntime lockedCommit (metaRecord []) _ hopen _ _ rfl
  have hlater := htrace.later [.append ⟨fun _ => none, none⟩ { metaRecord [] with seq := 1 }]
  exact absurd (congrArg List.length hlater) (by decide +kernel)

end SqliteBackend

end AuditChain
