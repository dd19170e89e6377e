/-
AuditChain/Migration.lean

`SqliteBackend.init`, in several processes.

`init` creates the table or adds the columns that an older version did not have, one
statement at a time, each of them committed on its own.  Any number of processes do this
at once, and some of them are done and insert rows.  A process that finds a column missing
may find it there when it adds it, and then its `init` raises; but nothing is lost, and
whoever comes next goes on where the others left off.

    Inv.step         what one statement preserves
    migrate_run      a process that is through sees every record there was, and every new one
    migrate_again    a process that is left alone gets through, whatever happened before
-/
import AuditChain.ColumnTables
import AuditChain.StoredLogs

namespace AuditChain

open Python Machine

namespace Migration

/-! ### The code -/

/-- The columns that older versions do not have. -/
inductive AddedColumn
  | keyId
  | signerId
  | signature
  deriving DecidableEq

def AddedColumn.name : AddedColumn → PyStr
  | .keyId => lit "key_id"
  | .signerId => lit "signer_id"
  | .signature => lit "signature"

/-- The columns that all versions have. -/
structure CoreRow where
  seq : ℤ
  ts : PyStr
  actor : PyStr
  action : PyStr
  subject : PyStr
  metaText : PyStr
  prevHash : PyStr
  hash : PyStr

/-- `audit_records`. -/
abbrev SqliteTable := ColumnTable AddedColumn CoreRow PyStr

/-- A row in all of its columns. -/
def toRow (row : CoreRow × (AddedColumn → PyStr)) : SqliteRow where
  seq := row.1.seq
  ts := row.1.ts
  actor := row.1.actor
  action := row.1.action
  subject := row.1.subject
  metaText := row.1.metaText
  prevHash := row.1.prevHash
  hash := row.1.hash
  keyId := row.2 .keyId
  signerId := row.2 .signerId
  signature := row.2 .signature

def ofRow (row : SqliteRow) : CoreRow × (AddedColumn → PyStr) :=
  (⟨row.seq, row.ts, row.actor, row.action, row.subject, row.metaText, row.prevHash, row.hash⟩,
    fun
    | .keyId => row.keyId
    | .signerId => row.signerId
    | .signature => row.signature)

/-- The default of the columns that are added. -/
def noValue : AddedColumn → PyStr := fun _ => []

/-- What a database holds, with the defaults for the columns it does not have. -/
def rowsOf : Option SqliteTable → List SqliteRow
  | none => []
  | some T => (T.full noValue).map toRow

/-- `sqlite3.OperationalError`. -/
def operationalError (msg : PyStr) : PyError := ⟨.user (lit "OperationalError"), msg⟩

/-- `_SELECT_SQL`, without its order. -/
def select : Option SqliteTable → Except PyError (List SqliteRow)
  | none => .error (operationalError (lit "no such table: audit_records"))
  | some T =>
    if T.columns .keyId && T.columns .signerId && T.columns .signature then .ok (T.rows.map toRow)
    else .error (operationalError (lit "no such column"))

/-- Where a process is in `_init`. -/
inductive Opening
  /-- It has no connection: it has not called `init`, or `init` raised. -/
  | closed
  /-- Before `conn.execute(_SCHEMA)`. -/
  | connected
  /-- Before `PRAGMA table_info`. -/
  | created
  /-- Before the test for this column, with the columns that were found. -/
  | adding (columns : AddedColumn → Bool) (c : AddedColumn)
  /-- Before `conn.commit()`. -/
  | committing
  | opened

/-- After the test for a column. -/
def Opening.after (columns : AddedColumn → Bool) : AddedColumn → Opening
  | .keyId => .adding columns .signerId
  | .signerId => .adding columns .signature
  | .signature => .committing

/-- What can happen next. -/
inductive Action (ω : Type)
  | init (w : ω)
  | advance (w : ω)
  /-- The statement raises, and did nothing. -/
  | fail (w : ω) (e : PyError)
  /-- The process dies. -/
  | die (w : ω)
  /-- A process that is through inserts a record. -/
  | insert (w : ω) (r : AuditRecord)

/-- What can be seen. -/
inductive Event (ω : Type)
  | opened (w : ω)
  | raised (w : ω) (e : PyError)
  | inserted (r : AuditRecord)

/-- The database, and the processes. -/
structure System (ω : Type) where
  db : Option SqliteTable
  phase : ω → Opening

namespace System

variable {ω : Type} [DecidableEq ω] (P : Runtime) (s : System ω) (w : ω)

/-- Go on to another statement. -/
def goto (p : Opening) : System ω := { s with phase := Function.update s.phase w p }

/-- `ALTER TABLE audit_records ADD COLUMN`. -/
def alter (columns : AddedColumn → Bool) (c : AddedColumn) : List (Event ω) × System ω :=
  match s.db with
  | none => ([.raised w (operationalError (lit "no such table: audit_records"))], s.goto w .closed)
  | some T =>
    match T.addColumn c (noValue c) with
    | none =>
      ([.raised w (operationalError (lit "duplicate column name: " ++ c.name))], s.goto w .closed)
    | some T' => ([], { s with db := some T' }.goto w (.after columns c))

/-- The next statement of `_init`. -/
def advance : List (Event ω) × System ω :=
  match s.phase w with
  | .closed | .opened => ([], s)
  | .connected => ([], { s with db := some (s.db.getD .new) }.goto w .created)
  | .created =>
    ([], s.goto w (.adding ((s.db.map ColumnTable.columns).getD fun _ => false) .keyId))
  | .adding columns c =>
    if columns c then ([], s.goto w (.after columns c)) else s.alter w columns c
  | .committing => ([.opened w], s.goto w .opened)

/-- `INSERT`, in a transaction of its own. -/
def insert (r : AuditRecord) : List (Event ω) × System ω :=
  match s.phase w, s.db with
  | .opened, some T =>
    match (do
        let row ← r.rowValues P
        insertCheck SqliteBackend.reliable 0 (rowsOf (some T)) row
        return row) with
    | .error e => ([.raised w e], s)
    | .ok row => ([.inserted r], { s with db := some (T.insert (ofRow row)) })
  | _, _ => ([], s)

end System

variable {ω : Type} [DecidableEq ω]

/-- One action. -/
def Action.step (P : Runtime) (a : Action ω) (s : System ω) : List (Event ω) × System ω :=
  match a with
  | .init w =>
    match s.phase w with
    | .closed => ([], s.goto w .connected)
    | _ => ([], s)
  | .advance w => s.advance w
  | .fail w e =>
    match s.phase w with
    | .closed | .opened => ([], s)
    | _ => ([.raised w e], s.goto w .closed)
  | .die w => ([], s.goto w .closed)
  | .insert w r => s.insert P w r

/-- Nobody has a connection. -/
def System.start (db : Option SqliteTable) : System ω := ⟨db, fun _ => .closed⟩

/-- A run. -/
abbrev runActions (P : Runtime) (actions : List (Action ω)) (s : System ω) :
    List (Event ω) × System ω :=
  run (Action.step P) actions s

/-! ### The invariant -/

/-- The records that were inserted. -/
def inserted : List (Event ω) → List AuditRecord := List.filterMap fun
  | .inserted r => some r
  | _ => none

/-- What a process knows of the table. -/
def Opening.Knows (T : SqliteTable) : Opening → Prop
  | .closed | .connected | .created => True
  | .adding columns c =>
    (∀ c', columns c' = true → T.columns c' = true) ∧
      (c ≠ .keyId → T.columns .keyId = true) ∧ (c = .signature → T.columns .signerId = true)
  | .committing | .opened => ∀ c, T.columns c = true

/-- Has the process created the table? -/
def Opening.Created : Opening → Prop
  | .closed | .connected => False
  | _ => True

/-- After the events `os`, from a database that held the rows `start`. -/
structure Inv (P : Runtime) (start : List SqliteRow) (os : List (Event ω)) (s : System ω) :
    Prop where
  rows : rowsOf s.db = start ++ (inserted os).map (AuditRecord.row P)
  created : ∀ w, (s.phase w).Created → s.db ≠ none
  knows : ∀ w T, s.db = some T → (s.phase w).Knows T

/-- A row that can be made is the row of the record. -/
theorem eq_row_of_rowValues {P : Runtime} {r : AuditRecord} {row : SqliteRow}
    (h : r.rowValues P = .ok row) : row = r.row P := by
  obtain ⟨text, htext, hrow⟩ := bind_eq_ok.mp h
  rw [dumps] at htext
  split at htext
  · rw [← Except.ok.inj hrow, ← Except.ok.inj htext]
    rfl
  · cases htext

theorem Opening.Knows.mono {T T' : SqliteTable} {p : Opening} (h : p.Knows T)
    (hmono : ∀ c, T.columns c = true → T'.columns c = true) : p.Knows T' := by
  cases p with
  | closed | connected | created => trivial
  | adding columns c =>
    exact ⟨fun c' hc' => hmono c' (h.1 c' hc'), fun hc => hmono _ (h.2.1 hc),
      fun hc => hmono _ (h.2.2 hc)⟩
  | committing | opened => exact fun c => hmono c (h c)

/-- A column that is there after its test. -/
theorem Opening.knows_after {T : SqliteTable} {columns : AddedColumn → Bool} {c : AddedColumn}
    (h : (Opening.adding columns c).Knows T) (hc : T.columns c = true) :
    (Opening.after columns c).Knows T := by
  obtain ⟨hfound, hkeyId, hsignerId⟩ := h
  cases c with
  | keyId => exact ⟨hfound, fun _ => hc, nofun⟩
  | signerId => exact ⟨hfound, fun _ => hkeyId nofun, fun _ => hc⟩
  | signature =>
    intro c
    cases c with
    | keyId => exact hkeyId nofun
    | signerId => exact hsignerId rfl
    | signature => exact hc

section

variable {P : Runtime} {start : List SqliteRow} {os : List (Event ω)} {s : System ω} {w : ω}

omit [DecidableEq ω] in
theorem inserted_append (os os' : List (Event ω)) :
    inserted (os ++ os') = inserted os ++ inserted os' := List.filterMap_append

/-- A process goes on, and the database keeps its rows and its columns. -/
theorem Inv.goto (h : Inv P start os s) {db : Option SqliteTable} {p : Opening}
    {os' : List (Event ω)} (hos : inserted os' = []) (hrows : rowsOf db = rowsOf s.db)
    (hcreated : s.db ≠ none ∨ p.Created → db ≠ none)
    (hmono : ∀ T T', s.db = some T → db = some T' → ∀ c, T.columns c = true → T'.columns c = true)
    (hknows : ∀ T, db = some T → p.Knows T) :
    Inv P start (os ++ os') ({ s with db := db }.goto w p) := by
  have hself : ({ s with db := db }.goto w p).phase w = p := Function.update_self _ _ _
  have hother : ∀ w', w' ≠ w → ({ s with db := db }.goto w p).phase w' = s.phase w' :=
    fun w' hw' => Function.update_of_ne hw' _ _
  refine ⟨?_, fun w' hw' => ?_, fun w' T' hT' => ?_⟩
  · rw [inserted_append, hos, List.append_nil, ← h.rows]
    exact hrows
  · by_cases hw : w' = w
    · rw [hw, hself] at hw'
      exact hcreated (Or.inr hw')
    · rw [hother w' hw] at hw'
      exact hcreated (Or.inl (h.created w' hw'))
  · by_cases hw : w' = w
    · rw [hw, hself]
      exact hknows T' hT'
    · rw [hother w' hw]
      cases hdb : s.db with
      | some T => exact (h.knows w' T hdb).mono (hmono T T' hdb hT')
      | none =>
        -- who knows something has created the table
        cases hphase : s.phase w' with
        | closed | connected | created => trivial
        | adding _ _ | committing | opened =>
          have hnone := h.created w' (by rw [hphase]; trivial)
          exact absurd hdb hnone

theorem Inv.goto_same (h : Inv P start os s) {p : Opening} {os' : List (Event ω)}
    (hos : inserted os' = []) (hcreated : p.Created → s.db ≠ none)
    (hknows : ∀ T, s.db = some T → p.Knows T) : Inv P start (os ++ os') (s.goto w p) :=
  h.goto hos rfl (fun hp => hp.elim id hcreated)
    (fun T T' hT hT' c hc => by rwa [← Option.some.inj (hT.symm.trans hT')]) hknows

omit [DecidableEq ω] in
theorem Inv.same (h : Inv P start os s) : Inv P start (os ++ []) s := by
  rwa [List.append_nil]

theorem Inv.alter (h : Inv P start os s) {columns : AddedColumn → Bool} {c : AddedColumn}
    (hphase : s.phase w = .adding columns c) :
    Inv P start (os ++ (s.alter w columns c).1) (s.alter w columns c).2 := by
  have hknows := h.knows w
  rw [hphase] at hknows
  unfold System.alter
  split
  · exact h.goto_same rfl nofun fun _ _ => trivial
  · rename_i T hT
    split
    · exact h.goto_same rfl nofun fun _ _ => trivial
    · rename_i T' hT'
      have hcolumns : ∀ c', T'.columns c' = true ↔ c' = c ∨ T.columns c' = true :=
        fun _ => ColumnTable.columns_addColumn hT'
      refine h.goto rfl ?_ (fun _ => nofun) ?_ ?_
      · rw [hT, rowsOf, rowsOf, ColumnTable.full_addColumn hT']
      · intro T₁ T₂ hT₁ hT₂ c' hc'
        rw [hT] at hT₁
        rw [← Option.some.inj hT₂]
        exact (hcolumns c').mpr (Or.inr (by rwa [Option.some.inj hT₁]))
      · intro T₂ hT₂
        rw [← Option.some.inj hT₂]
        exact Opening.knows_after ((hknows T hT).mono fun c' hc' => (hcolumns c').mpr (Or.inr hc'))
          ((hcolumns c).mpr (Or.inl rfl))

theorem Inv.advance (h : Inv P start os s) :
    Inv P start (os ++ (s.advance w).1) (s.advance w).2 := by
  have hknows := h.knows w
  have hcreated := h.created w
  unfold System.advance
  cases hphase : s.phase w with
  | closed | opened => exact h.same
  | connected =>
    refine h.goto rfl ?_ (fun _ => nofun) ?_ (fun _ _ => trivial)
    · cases hdb : s.db with
      | none => rfl
      | some T => rfl
    · intro T T' hT hT' c hc
      rw [hT] at hT'
      rwa [← Option.some.inj hT']
  | created =>
    rw [hphase] at hcreated
    refine h.goto_same rfl (fun _ => hcreated trivial) fun T hT => ?_
    rw [hT]
    exact ⟨fun c' hc' => hc', fun hc => absurd rfl hc, nofun⟩
  | adding columns c =>
    rw [hphase] at hknows hcreated
    show Inv P start (os ++ (if columns c then ([], s.goto w (.after columns c))
      else s.alter w columns c).1) (if columns c then ([], s.goto w (.after columns c))
        else s.alter w columns c).2
    split
    · rename_i hc
      exact h.goto_same rfl (fun _ => hcreated trivial)
        fun T hT => Opening.knows_after (hknows T hT) ((hknows T hT).1 c hc)
    · exact h.alter hphase
  | committing =>
    rw [hphase] at hknows hcreated
    exact h.goto_same rfl (fun _ => hcreated trivial) hknows

omit [DecidableEq ω] in
theorem Inv.insert (h : Inv P start os s) (r : AuditRecord) :
    Inv P start (os ++ (s.insert P w r).1) (s.insert P w r).2 := by
  unfold System.insert
  split
  · rename_i T hphase hdb
    split
    · refine ⟨?_, h.created, h.knows⟩
      rw [inserted_append]
      exact h.rows.trans (congrArg _ (congrArg _ (List.append_nil _).symm))
    · rename_i row hrow
      obtain ⟨row', hrow', hrest⟩ := bind_eq_ok.mp hrow
      obtain ⟨-, -, hrest⟩ := bind_eq_ok.mp hrest
      obtain rfl := Except.ok.inj hrest
      obtain rfl := eq_row_of_rowValues hrow'
      have hall : ∀ c, T.columns c = true := by
        have hknows := h.knows w T hdb
        rwa [hphase] at hknows
      refine ⟨?_, fun _ _ => nofun, fun w' T' hT' => ?_⟩
      · have hrows := h.rows
        rw [hdb] at hrows
        show ((T.insert _).full noValue).map toRow = _
        rw [ColumnTable.full_insert hall, List.map_append, inserted_append, List.map_append,
          ← List.append_assoc, ← hrows]
        rfl
      · rw [← Option.some.inj hT']
        exact (h.knows w' T hdb).mono fun c hc => hc
  · exact h.same

/-- **One action.** -/
theorem Inv.step (h : Inv P start os s) (a : Action ω) :
    Inv P start (os ++ (a.step P s).1) (a.step P s).2 := by
  cases a with
  | init w =>
    rw [Action.step]
    split
    · exact h.goto_same rfl nofun fun _ _ => trivial
    · exact h.same
  | advance w => exact h.advance
  | fail w e =>
    rw [Action.step]
    split
    · exact h.same
    · exact h.same
    · exact h.goto_same rfl nofun fun _ _ => trivial
  | die w => exact h.goto_same rfl nofun fun _ _ => trivial
  | insert w r => exact h.insert r

theorem inv_run (P : Runtime) (db : Option SqliteTable) (actions : List (Action ω)) :
    Inv P (rowsOf db) (runActions P actions (System.start db)).1
      (runActions P actions (System.start db)).2 := by
  have hrun : Inv P (rowsOf db) ([] ++ (runActions P actions (System.start db)).1)
      (runActions P actions (System.start db)).2 :=
    run_preserves (fun _ _ => True) (Inv P (rowsOf db)) (fun a s os _ h => h.step a) actions
      (System.start db) [] (stepsOk_of_forall (fun _ _ _ => trivial) _)
      ⟨(List.append_nil _).symm, fun _ h => h.elim, fun _ _ _ => trivial⟩
  rwa [List.nil_append] at hrun

/-- **A process that is through** selects the rows that the database held at the start, with
the defaults in the columns that it did not have, and every row that was inserted. -/
theorem select_run (P : Runtime) (db : Option SqliteTable) (actions : List (Action ω)) {w : ω}
    (hopened : (runActions P actions (System.start db)).2.phase w = .opened) :
    select (runActions P actions (System.start db)).2.db
      = .ok (rowsOf db
        ++ (inserted (runActions P actions (System.start db)).1).map (AuditRecord.row P)) := by
  have hinv := inv_run P db actions
  have hcreated := hinv.created w
  have hknows := hinv.knows w
  rw [hopened] at hcreated hknows
  obtain ⟨T, hT⟩ := Option.ne_none_iff_exists'.mp (hcreated trivial)
  have hall : ∀ c, T.columns c = true := hknows T hT
  rw [← hinv.rows, hT, select]
  simp only [hall, Bool.and_self, if_true]
  rw [rowsOf, ColumnTable.full_of_columns hall]

/-! ### What a process reads -/

/-- `SqliteBackend.load`, through the connection that `init` has made. -/
def System.load (P : Runtime) (s : System ω) (w : ω) : Except PyError (List AuditRecord) := do
  match s.phase w with
  | .opened => do
    let rows ← select s.db
    (SqliteBackend.load P (some ⟨rows, none⟩)).1
  | _ => (SqliteBackend.load P none).1

end

/-- The records, in the order of their numbers. -/
def bySeq (rs : List AuditRecord) : List AuditRecord :=
  rs.insertionSort fun r r' => r.seq ≤ r'.seq

theorem orderBySeq_row (P : Runtime) (rs : List AuditRecord) :
    SqliteBackend.orderBySeq (rs.map (AuditRecord.row P)) = (bySeq rs).map (AuditRecord.row P) := by
  rw [bySeq, SqliteBackend.orderBySeq]
  exact (List.map_insertionSort _ _ (AuditRecord.row P) rs fun _ _ _ _ => Iff.rfl).symm

/-- The records of the older version, and those that were inserted. -/
def recorded (rs : List AuditRecord) (os : List (Event ω)) : List AuditRecord :=
  bySeq (rs ++ inserted os)

/-- **Nothing is lost**: a process whose `init` is through reads the records of the older
version and all that were inserted since, whatever became of the other processes, and their
chain is as good as it was. -/
theorem migrate_run {P : Runtime} {db : Option SqliteTable} {rs : List AuditRecord}
    (hrs : rowsOf db = rs.map (AuditRecord.row P)) (actions : List (Action ω)) {w : ω}
    (hopened : (runActions P actions (System.start db)).2.phase w = .opened)
    (hstores : ∀ r ∈ recorded rs (runActions P actions (System.start db)).1, r.Stores P) :
    ∃ loaded, (runActions P actions (System.start db)).2.load P w = .ok loaded ∧
      List.Forall₂ (Alike P) loaded (recorded rs (runActions P actions (System.start db)).1) ∧
        ∀ (M : KeyMaterial P) expectedCount checkpoint,
          verifyChain loaded M expectedCount checkpoint
            = verifyChain (recorded rs (runActions P actions (System.start db)).1) M
                expectedCount checkpoint := by
  have hselect := select_run P db actions hopened
  rw [hrs, ← List.map_append] at hselect
  rw [recorded] at hstores ⊢
  generalize rs ++ inserted (runActions P actions (System.start db)).1 = all at hselect hstores ⊢
  have halike := forall₂_alike_reloaded hstores
  refine ⟨_, ?_, halike, verifyChain_of_alike halike⟩
  have hvisible : Session.visible ⟨all.map (AuditRecord.row P), none⟩
      = all.map (AuditRecord.row P) := List.append_nil _
  simp only [System.load, hopened, hselect, ok_bind, SqliteBackend.load,
    SqliteBackend.withConnection, hvisible, orderBySeq_row, TableFits.mapM_fromRow hstores]

/-- A table of the first version, with one record. -/
def firstVersion : SqliteTable :=
  ⟨fun _ => false, [ofRow ((recordOf []).row referenceRuntime)]⟩

/-- Both find the table without the columns, and one of them is first to add `key_id`. -/
def race : List (Action Bool) :=
  [.init true, .init false, .advance true, .advance true, .advance false, .advance false,
    .advance true, .advance false, .advance true, .advance true, .advance true]

/-- A record that a file can hold can be held by a table too. -/
theorem stores_of_storable {P : Runtime} {r : AuditRecord} (h : r.Storable P)
    (hprev : IsAscii r.prevHash) (hordered : (PyVal.dict r.metadata).KeysOrdered P.floats) :
    r.Stores P := by
  obtain ⟨htexts, hmeta⟩ := h.encodable
  simp only [AuditRecord.texts, List.forall_mem_cons] at htexts
  obtain ⟨hts, hactor, haction, hsubject, hprev', hhash, hkeyId, hsignerId, hsignature, -⟩ := htexts
  have hpayload : r.EncodablePayload :=
    encodablePayload_iff.mpr ⟨hts, hactor, haction, hsubject, hprev', hmeta⟩
  exact ⟨⟨exists_hashInput_iff.mpr ⟨hprev, h.serializable, hpayload⟩, hhash, hsignature⟩,
    ⟨h.floats, hordered, hkeyId, hsignerId⟩⟩

theorem stores_recordOf : (recordOf []).Stores referenceRuntime :=
  stores_of_storable (storable_recordOf (by decide)) (show IsAscii GENESIS_HASH by decide)
    ⟨List.pairwise_singleton _ _, trivial, trivial⟩

/-- The one that is first reads the record. -/
theorem migrate_run_sample : ∃ loaded,
    (runActions referenceRuntime race (System.start (some firstVersion))).2.load referenceRuntime
      true = .ok loaded ∧ List.Forall₂ (Alike referenceRuntime) loaded [recordOf []] := by
  obtain ⟨loaded, hload, halike, -⟩ := migrate_run (P := referenceRuntime)
    (show rowsOf (some firstVersion) = [recordOf []].map (AuditRecord.row referenceRuntime)
      from rfl) race (w := true) rfl (fun r hr => by
      obtain rfl : r = recordOf [] := List.mem_singleton.mp hr
      exact stores_recordOf)
  exact ⟨loaded, hload, halike⟩

/-! ### Whoever comes next -/

section

variable (s : System ω) (w : ω)

/-- The database is `db`, and `w` is at `p`. -/
def System.between (db : Option SqliteTable) (p : Opening) : System ω :=
  { s with db := db }.goto w p

variable {s w}

theorem between_phase (db : Option SqliteTable) (p : Opening) :
    (s.between w db p).phase w = p := Function.update_self _ _ _

theorem between_between (db db' : Option SqliteTable) (p p' : Opening) :
    (s.between w db p).between w db' p' = s.between w db' p' := by
  simp [System.between, System.goto]

/-- The test for a column, while nobody else adds it. -/
theorem advance_adding {T : SqliteTable} {columns : AddedColumn → Bool} {c : AddedColumn}
    (hc : columns c = T.columns c) :
    ∃ T', (s.between w (some T) (.adding columns c)).advance w
        = ([], s.between w (some T') (.after columns c)) ∧
      rowsOf (some T') = rowsOf (some T) ∧ T'.columns c = true ∧
        ∀ c', c' ≠ c → T'.columns c' = T.columns c' := by
  rw [System.advance, between_phase]
  by_cases hfound : columns c = true
  · refine ⟨T, ?_, rfl, hc ▸ hfound, fun _ _ => rfl⟩
    show (if columns c = true then _ else _) = _
    rw [if_pos hfound]
    exact congrArg (Prod.mk []) (between_between _ _ _ _)
  · obtain ⟨T', hT'⟩ : ∃ T', T.addColumn c (noValue c) = some T' := by
      apply Option.ne_none_iff_exists'.mp
      rw [ne_eq, ColumnTable.addColumn_eq_none, ← hc]
      exact hfound
    have hcolumns : ∀ c', T'.columns c' = true ↔ c' = c ∨ T.columns c' = true :=
      fun _ => ColumnTable.columns_addColumn hT'
    refine ⟨T', ?_, ?_, (hcolumns c).mpr (Or.inl rfl), fun c' hc' => ?_⟩
    · show (if columns c = true then _ else System.alter _ w columns c) = _
      rw [if_neg hfound, System.alter]
      simp only [show (s.between w (some T) (.adding columns c)).db = some T from rfl, hT']
      exact congrArg (Prod.mk []) (between_between _ _ _ _)
    · rw [rowsOf, rowsOf, ColumnTable.full_addColumn hT']
    · rw [Bool.eq_iff_iff, hcolumns c']
      exact or_iff_right hc'

end

/-- **Whoever comes next** gets through, if left alone: whatever the statements before have
left behind, a process that has no connection opens the database by its own seven
statements, without an exception, and no row is lost. -/
theorem migrate_again (P : Runtime) {s : System ω} {w : ω} (hclosed : s.phase w = .closed) :
    ∃ T, runActions P (.init w :: List.replicate 6 (.advance w)) s
        = ([.opened w], s.between w (some T) .opened) ∧
      rowsOf (some T) = rowsOf s.db ∧ ∀ c, T.columns c = true := by
  obtain ⟨T, hT⟩ : ∃ T : SqliteTable, s.db.getD .new = T := ⟨_, rfl⟩
  have hrows : rowsOf (some T) = rowsOf s.db := by
    rw [← hT]
    cases s.db <;> rfl
  have hinit : Action.step P (.init w) s = ([], s.between w s.db .connected) := by
    rw [Action.step, hclosed]
    rfl
  have hcreate : (s.between w s.db .connected).advance w = ([], s.between w (some T) .created) := by
    rw [System.advance, between_phase]
    show ([], (s.between w s.db .connected).between w (some (s.db.getD .new)) .created) = _
    rw [between_between, hT]
  have hcolumns : (s.between w (some T) .created).advance w
      = ([], s.between w (some T) (.adding T.columns .keyId)) := by
    rw [System.advance, between_phase]
    exact congrArg (Prod.mk []) (between_between (some T) (some T) _ _)
  obtain ⟨T₁, hkeyId, hrows₁, hnew₁, hold₁⟩ :=
    advance_adding (s := s) (w := w) (T := T) (c := .keyId) rfl
  obtain ⟨T₂, hsignerId, hrows₂, hnew₂, hold₂⟩ :=
    advance_adding (s := s) (w := w) (c := .signerId) (hold₁ .signerId nofun).symm
  obtain ⟨T₃, hsignature, hrows₃, hnew₃, hold₃⟩ :=
    advance_adding (s := s) (w := w) (c := .signature)
      ((hold₂ .signature nofun).trans (hold₁ .signature nofun)).symm
  have hcommit : (s.between w (some T₃) .committing).advance w
      = ([.opened w], s.between w (some T₃) .opened) := by
    rw [System.advance, between_phase]
    exact congrArg (Prod.mk [Event.opened w]) (between_between (some T₃) (some T₃) _ _)
  refine ⟨T₃, ?_, hrows₃.trans (hrows₂.trans (hrows₁.trans hrows)), fun c => ?_⟩
  · have hadvance : ∀ s : System ω, Action.step P (.advance w) s = s.advance w := fun _ => rfl
    simp only [runActions, List.replicate, run_cons, run_nil, hinit, hadvance, hcreate, hcolumns,
      hkeyId, Opening.after, hsignerId, hsignature, hcommit, List.nil_append, List.append_nil]
  · cases c with
    | keyId => rw [hold₃ .keyId nofun, hold₂ .keyId nofun, hnew₁]
    | signerId => rw [hold₃ .signerId nofun, hnew₂]
    | signature => exact hnew₃

/-- The one that was not first, when it comes again. -/
theorem migrate_again_sample : ∃ T,
    (runActions referenceRuntime (.init false :: List.replicate 6 (.advance false))
      (runActions referenceRuntime race (System.start (some firstVersion))).2).1 = [.opened false] ∧
    rowsOf (some T) = [(recordOf []).row referenceRuntime] := by
  obtain ⟨T, hrun, hrows, -⟩ := migrate_again referenceRuntime
    (s := (runActions referenceRuntime race (System.start (some firstVersion))).2) (w := false) rfl
  exact ⟨T, congrArg Prod.fst hrun, hrows⟩

end Migration

end AuditChain
