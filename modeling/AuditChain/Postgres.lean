/-
AuditChain/Postgres.lean

`PostgresBackend`.

Neither the server nor `asyncpg` is part of the package: both are a parameter, whose calls may
do and raise anything.  What the backend relies on is what is documented of them, for a table
that nobody else writes to: it can be made, and given the two columns that came with signing; a
row whose number has 64 bits and is not in the table, and whose texts can be encoded and hold no
zero character, is taken; and a query shows the rows in the order of their numbers, or fails
where it names a column that is not there.  A log then goes on in a table of an older version as
it would in the list of its records.

    init_load_iff       which tables `init` makes readable
    postgres_answers    a run on a table that is there already
-/
import AuditChain.Migration

namespace AuditChain

open Python Operation Migration

/-! ### The code -/

namespace PostgresBackend

/-- The statements that are executed. -/
inductive Statement
  /-- `_SCHEMA`. -/
  | createTable
  /-- `ALTER TABLE ... ADD COLUMN IF NOT EXISTS`. -/
  | addColumn (c : AddedColumn)
  /-- `_INSERT_SQL`, with its values. -/
  | insert (row : SqliteRow)

/-- `asyncpg`, and the server behind it. -/
structure Server where
  /-- What is on the server. -/
  Db : Type
  /-- `import asyncpg` does not fail. -/
  installed : Bool
  createPool : Operation PyError Db Unit
  closePool : Operation PyError Db Unit
  /-- Enter `pool.acquire()`, and leave it. -/
  acquire : Operation PyError Db Unit
  release : Operation PyError Db Unit
  /-- Enter `conn.transaction()`, and leave it. -/
  beginTransaction : Operation PyError Db Unit
  commit : Operation PyError Db Unit
  rollback : Operation PyError Db Unit
  execute : Statement → Operation PyError Db Unit
  /-- `conn.executemany(_INSERT_SQL, rows)`. -/
  executemany : List SqliteRow → Operation PyError Db Unit
  /-- `conn.fetch(_SELECT_SQL)`. -/
  fetch : Operation PyError Db (List SqliteRow)
  /-- `conn.fetchrow(_SELECT_SQL DESC LIMIT 1)`. -/
  fetchrow : Operation PyError Db (Option SqliteRow)

variable (P : Runtime) (server : Server)

/-- Is there a pool, and what is on the server. -/
structure State where
  pool : Bool
  db : server.Db

variable {server} in
/-- A call of the server. -/
def onServer {α : Type} (x : Operation PyError server.Db α) :
    Operation PyError (State server) α :=
  Operation.zoom State.db (fun db s => { s with db := db }) x

/-- `async with self._pool.acquire() as conn`. -/
def withConnection {α : Type} (x : Operation PyError server.Db α) :
    Operation PyError (State server) α := do
  let s ← Operation.get
  if s.pool then onServer (Operation.within server.acquire (fun _ => server.release) x)
  else Operation.raise ⟨.attributeError, lit "'NoneType' object has no attribute 'acquire'"⟩

/-- `async with conn.transaction()`. -/
def transaction (x : Operation PyError server.Db Unit) : Operation PyError server.Db Unit :=
  Operation.within server.beginTransaction
    (fun raised => if raised then server.rollback else server.commit) x

/-- `_require_asyncpg`. -/
def requireAsyncpg : Operation PyError (State server) Unit :=
  if server.installed then pure ()
  else Operation.raise ⟨.user (lit "ImportError"),
    lit "PostgresBackend requires the 'postgres' extra: pip install auditchain[postgres]"⟩

/-- `if self._pool is None: self._pool = await asyncpg.create_pool(self.dsn)`. -/
def openPool : Operation PyError (State server) Unit := do
  let s ← Operation.get
  if s.pool then return ()
  else
    onServer server.createPool
    Operation.modify fun s => { s with pool := true }

/-- The statements of `init`. -/
def prepareTable : Operation PyError server.Db Unit := do
  server.execute .createTable
  server.execute (.addColumn .signerId)
  server.execute (.addColumn .signature)

/-- `PostgresBackend.init`. -/
def init : Operation PyError (State server) Unit := do
  requireAsyncpg server
  openPool server
  withConnection server (prepareTable server)

/-- `PostgresBackend.append`.  Its rows are made and read as those of `SqliteBackend`. -/
def append (r : AuditRecord) : Operation PyError (State server) Unit :=
  withConnection server do
    let row ← Operation.ofExcept (r.rowValues P)
    server.execute (.insert row)

/-- `PostgresBackend.append_many`. -/
def appendMany (rs : List AuditRecord) : Operation PyError (State server) Unit := do
  let rows ← Operation.ofExcept (rs.mapM (AuditRecord.rowValues P))
  withConnection server (transaction server (server.executemany rows))

/-- `PostgresBackend.load`. -/
def load : Operation PyError (State server) (List AuditRecord) := do
  let rows ← withConnection server server.fetch
  Operation.ofExcept (rows.mapM (SqliteRow.fromRow P))

/-- `PostgresBackend.load_last`. -/
def loadLast : Operation PyError (State server) (Option AuditRecord) := do
  let row ← withConnection server server.fetchrow
  Operation.ofExcept (row.mapM (SqliteRow.fromRow P))

/-- `PostgresBackend.close`. -/
def close : Operation PyError (State server) Unit := do
  let s ← Operation.get
  if s.pool then
    onServer server.closePool
    Operation.modify fun s => { s with pool := false }
  else return ()

/-- `PostgresBackend`. -/
def storage : StorageBackend where
  State := State server
  init := init server
  append := append P server
  appendMany := appendMany P server
  load := load P server
  loadLast := loadLast P server

/-! ### What is documented of the server -/

/-- A table on the server.  The order of its rows means nothing. -/
abbrev Table : Type := ColumnTable AddedColumn CoreRow PyStr

/-- A `bigint`. -/
def IsBigInt (i : ℤ) : Prop := -9223372036854775808 ≤ i ∧ i ≤ 9223372036854775807

/-- A text of the server: UTF-8, and no zero character. -/
def ServerText (s : PyStr) : Prop := Encodable s ∧ ∀ c ∈ s, c.val ≠ 0

/-- All columns are there. -/
def Complete (T : Table) : Prop := ∀ c, T.columns c = true

/-- The rows can go into the table: the server can hold them, and their numbers are new. -/
structure Takes (T : Table) (rows : List SqliteRow) : Prop where
  seq : ∀ row ∈ rows, IsBigInt row.seq
  texts : ∀ row ∈ rows, ∀ s ∈ row.texts, ServerText s
  fresh : ((T.rows.map toRow ++ rows).map SqliteRow.seq).Nodup

/-- They went in. -/
structure Gains (T : Table) (rows : List SqliteRow) (T' : Table) : Prop where
  columns : T'.columns = T.columns
  rows : (T'.rows.map toRow).Perm (T.rows.map toRow ++ rows)

/-- The row with the greatest number, if there are rows. -/
def IsLast (rows : List SqliteRow) : Option SqliteRow → Prop
  | none => rows = []
  | some row => row ∈ rows ∧ ∀ other ∈ rows, other.seq ≤ row.seq

/-- The call returns, and does nothing to the table. -/
def Passes {server : Server} (table : server.Db → Option Table)
    (x : Operation PyError server.Db Unit) : Prop :=
  ∀ db, (x db).1 = .ok () ∧ table (x db).2 = table db

/-- What is documented of `asyncpg` and of a server that can be reached, where `table` is the
table as this client sees it. -/
structure Documented (server : Server) (table : server.Db → Option Table) : Prop where
  installed : server.installed = true
  createPool : Passes table server.createPool
  acquire : Passes table server.acquire
  release : Passes table server.release
  beginTransaction : Passes table server.beginTransaction
  commit : Passes table server.commit
  /-- `CREATE TABLE IF NOT EXISTS`. -/
  create_new : ∀ db, table db = none → (server.execute .createTable db).1 = .ok () ∧
    table (server.execute .createTable db).2 = some .new
  create_old : ∀ db, table db ≠ none → (server.execute .createTable db).1 = .ok () ∧
    table (server.execute .createTable db).2 = table db
  /-- `ADD COLUMN IF NOT EXISTS`: the rows there are get the default. -/
  add_new : ∀ db T T' c, table db = some T → T.addColumn c (noValue c) = some T' →
    (server.execute (.addColumn c) db).1 = .ok () ∧
      table (server.execute (.addColumn c) db).2 = some T'
  add_old : ∀ db T c, table db = some T → T.columns c = true →
    (server.execute (.addColumn c) db).1 = .ok () ∧
      table (server.execute (.addColumn c) db).2 = some T
  insert : ∀ db T row, table db = some T → Complete T → Takes T [row] →
    (server.execute (.insert row) db).1 = .ok () ∧
      ∃ T', table (server.execute (.insert row) db).2 = some T' ∧ Gains T [row] T'
  insertMany : ∀ db T rows, table db = some T → Complete T → Takes T rows →
    (server.executemany rows db).1 = .ok () ∧
      ∃ T', table (server.executemany rows db).2 = some T' ∧ Gains T rows T'
  /-- A statement that names a column that is not there fails as a whole. -/
  insert_undefined : ∀ db T c row, table db = some T → T.columns c = false →
    (∃ e, (server.execute (.insert row) db).1 = .error e) ∧
      table (server.execute (.insert row) db).2 = some T
  fetch_undefined : ∀ db T c, table db = some T → T.columns c = false →
    ∃ e, (server.fetch db).1 = .error e
  /-- `ORDER BY seq`. -/
  fetch : ∀ db T, table db = some T → Complete T → ∃ rows, (server.fetch db).1 = .ok rows ∧
    rows.Perm (T.rows.map toRow) ∧ rows.Pairwise fun row row' => row.seq ≤ row'.seq
  fetch_keeps : ∀ db, table (server.fetch db).2 = table db
  /-- `ORDER BY seq DESC LIMIT 1`. -/
  fetchrow : ∀ db T, table db = some T → Complete T → ∃ row, (server.fetchrow db).1 = .ok row ∧
    IsLast (T.rows.map toRow) row
  fetchrow_keeps : ∀ db, table (server.fetchrow db).2 = table db

/-! ### `init` -/

variable {P} {server} {table : server.Db → Option Table}

/-- The table after `CREATE TABLE IF NOT EXISTS`. -/
def created : Option Table → Table
  | none => .new
  | some T => T

/-- The table after `ADD COLUMN IF NOT EXISTS`. -/
def withColumn (T : Table) (c : AddedColumn) : Table := (T.addColumn c (noValue c)).getD T

theorem Documented.create (h : Documented server table) (db : server.Db) :
    (server.execute .createTable db).1 = .ok () ∧
      table (server.execute .createTable db).2 = some (created (table db)) := by
  cases hT : table db with
  | none => exact h.create_new db hT
  | some T =>
    obtain ⟨hok, hkeeps⟩ := h.create_old db (by rw [hT]; exact Option.some_ne_none T)
    exact ⟨hok, hkeeps.trans hT⟩

theorem Documented.addColumn (h : Documented server table) {db : server.Db} {T : Table}
    (hT : table db = some T) (c : AddedColumn) :
    (server.execute (.addColumn c) db).1 = .ok () ∧
      table (server.execute (.addColumn c) db).2 = some (withColumn T c) := by
  rw [withColumn]
  cases hadd : T.addColumn c (noValue c) with
  | none => exact h.add_old db T c hT (ColumnTable.addColumn_eq_none.mp hadd)
  | some T' => exact h.add_new db T T' c hT hadd

theorem columns_withColumn {T : Table} {c c' : AddedColumn} :
    (withColumn T c).columns c' = true ↔ c' = c ∨ T.columns c' = true := by
  rw [withColumn]
  cases hadd : T.addColumn c (noValue c) with
  | none =>
    rw [Option.getD_none]
    refine ⟨Or.inr, ?_⟩
    rintro (rfl | h)
    · exact ColumnTable.addColumn_eq_none.mp hadd
    · exact h
  | some T' => exact ColumnTable.columns_addColumn hadd

theorem full_withColumn (T : Table) (c : AddedColumn) :
    (withColumn T c).full noValue = T.full noValue := by
  rw [withColumn]
  cases hadd : T.addColumn c (noValue c) with
  | none => rfl
  | some T' => exact ColumnTable.full_addColumn hadd

theorem full_created (t : Option Table) : ((created t).full noValue).map toRow = rowsOf t := by
  cases t <;> rfl

theorem created_keyId {t : Option Table} :
    (created t).columns .keyId = true ↔ ∀ T, t = some T → T.columns .keyId = true := by
  cases t with
  | none => exact ⟨fun _ _ h => (by cases h), fun _ => rfl⟩
  | some T => exact ⟨fun h _ hT => Option.some.inj hT ▸ h, fun h => h T rfl⟩

/-- **On a connection** what is said of the statements holds, and the pool stays. -/
theorem withConnection_spec {α : Type} (h : Documented server table) {s : State server}
    (hpool : s.pool = true) {x : Operation PyError server.Db α}
    {Q : Except PyError α → Option Table → Prop}
    (hx : ∀ db, table db = table s.db → Q (x db).1 (table (x db).2)) :
    (withConnection server x s).2.pool = true ∧
      Q (withConnection server x s).1 (table (withConnection server x s).2.db) := by
  -- neither entering nor leaving does anything to the table
  obtain ⟨hacquire, hkeeps⟩ := h.acquire s.db
  rw [withConnection, Operation.bind_ok (Operation.get_apply s), if_pos hpool, onServer,
    Operation.zoom_apply, Operation.within_returns hacquire fun _ db => (h.release db).1]
  refine ⟨hpool, ?_⟩
  show Q _ (table _)
  rw [(h.release _).2]
  exact hx _ hkeeps

theorem openPool_spec (h : Documented server table) (s : State server) :
    (openPool server s).1 = .ok () ∧ (openPool server s).2.pool = true ∧
      table (openPool server s).2.db = table s.db := by
  rw [openPool, Operation.bind_ok (Operation.get_apply s)]
  cases hpool : s.pool with
  | true => exact ⟨rfl, hpool, rfl⟩
  | false =>
    obtain ⟨hok, hkeeps⟩ := h.createPool s.db
    have hcall : (onServer server.createPool s).1 = .ok () := hok
    rw [if_neg Bool.false_ne_true, Operation.bind_of_returns hcall]
    exact ⟨rfl, rfl, hkeeps⟩

/-- What `init` makes of a table: the rows are what they were. -/
theorem init_spec (h : Documented server table) (s : State server) :
    (init server s).1 = .ok () ∧ (init server s).2.pool = true ∧
      ∃ T, table (init server s).2.db = some T ∧
        (T.full noValue).map toRow = rowsOf (table s.db) ∧
          ∀ c, T.columns c = true ↔ c ≠ .keyId ∨ (created (table s.db)).columns .keyId = true := by
  obtain ⟨hopen, hpool, hkeeps⟩ := openPool_spec h s
  have hrequire : requireAsyncpg server s = (.ok (), s) := by
    rw [requireAsyncpg, if_pos h.installed]
    rfl
  have hprepare : ∀ db, table db = table (openPool server s).2.db →
      (prepareTable server db).1 = .ok () ∧ table (prepareTable server db).2
        = some (withColumn (withColumn (created (table s.db)) .signerId) .signature) := by
    -- each statement works on what the one before it left
    intro db hdb
    obtain ⟨hcreate, hcreated⟩ := h.create db
    obtain ⟨hsigner, hadded⟩ := h.addColumn hcreated .signerId
    obtain ⟨hsignature, hlast⟩ := h.addColumn hadded .signature
    rw [hdb, hkeeps] at hlast
    rw [prepareTable, Operation.bind_of_returns hcreate, Operation.bind_of_returns hsigner]
    exact ⟨hsignature, hlast⟩
  rw [init, Operation.bind_ok hrequire, Operation.bind_of_returns hopen]
  obtain ⟨hstays, hok, hT⟩ := withConnection_spec (Q := fun res t => res = .ok () ∧
    t = some (withColumn (withColumn (created (table s.db)) .signerId) .signature)) h hpool hprepare
  refine ⟨hok, hstays, _, hT, ?_, fun c => ?_⟩
  · rw [full_withColumn, full_withColumn, full_created]
  · rw [columns_withColumn, columns_withColumn]
    cases c <;> simp

/-! ### Tables of older versions -/

variable (P) in
/-- The rows are those of the records. -/
def RowsOf (rows : List SqliteRow) (rs : List AuditRecord) : Prop :=
  rows.Perm (rs.map (AuditRecord.row P))

variable (P table) in
/-- The table can be opened, and holds the rows of these records. -/
structure Found (s : State server) (rs : List AuditRecord) : Prop where
  rows : RowsOf P (rowsOf (table s.db)) rs
  keyId : ∀ T, table s.db = some T → T.columns .keyId = true

variable (P) in
/-- The table has all columns, and the rows of these records. -/
structure Shows (t : Option Table) (rs : List AuditRecord) : Prop where
  complete : ∃ T, t = some T ∧ Complete T
  rows : ∀ T, t = some T → RowsOf P (T.rows.map toRow) rs

variable (P table) in
/-- It is open. -/
structure Holds (s : State server) (rs : List AuditRecord) : Prop where
  pool : s.pool = true
  shows : Shows P (table s.db) rs

/-- The table that shows the records. -/
theorem Shows.exists_table {t : Option Table} {rs : List AuditRecord} (h : Shows P t rs) :
    ∃ T, t = some T ∧ Complete T ∧ RowsOf P (T.rows.map toRow) rs := by
  obtain ⟨T, hT, hcomplete⟩ := h.complete
  exact ⟨T, hT, hcomplete, h.rows T hT⟩

theorem shows_some {T : Table} {rs : List AuditRecord} (hcomplete : Complete T)
    (hrows : RowsOf P (T.rows.map toRow) rs) : Shows P (some T) rs :=
  ⟨⟨T, rfl, hcomplete⟩, fun _ hT => Option.some.inj hT ▸ hrows⟩

theorem Found.init (hserver : Documented server table) {s : State server} {rs : List AuditRecord}
    (h : Found P table s rs) :
    (init server s).1 = .ok () ∧ Holds P table (init server s).2 rs := by
  obtain ⟨hok, hpool, T, hT, hrows, hcolumns⟩ := init_spec hserver s
  have hall : Complete T := fun c => (hcolumns c).mpr (Or.inr (created_keyId.mpr h.keyId))
  refine ⟨hok, hpool, ?_⟩
  rw [hT]
  have hfull : T.full noValue = T.rows := ColumnTable.full_of_columns hall
  refine shows_some hall ?_
  rw [← hfull, hrows]
  exact h.rows

/-- An open table can be opened. -/
theorem Holds.found {s : State server} {rs : List AuditRecord} (h : Holds P table s rs) :
    Found P table s rs := by
  obtain ⟨T, hT, hcomplete, hrows⟩ := h.shows.exists_table
  refine ⟨?_, fun T' hT' => ?_⟩
  · rw [hT]
    show RowsOf P ((T.full noValue).map toRow) rs
    rwa [ColumnTable.full_of_columns hcomplete]
  · obtain rfl := Option.some.inj (hT.symm.trans hT')
    exact hcomplete .keyId

/-! ### Statements on an open table -/

/-- The server can hold every text of the record. -/
def NoZero (r : AuditRecord) : Prop := ∀ s ∈ r.texts, ∀ c ∈ s, c.val ≠ 0

/-- The server can hold the row of a record. -/
theorem serverText_row {r : AuditRecord} (h : r.Stores P) (hzero : NoZero r) :
    ∀ s ∈ (r.row P).texts, ServerText s := by
  -- the metadata is bound as JSON, which escapes a zero character
  have hmeta : ∀ c ∈ printVal P.floats compactStyle 0 (.dict r.metadata), c.val ≠ 0 := by
    intro c hc
    have hprint := printable_printVal P.floats 0 (.dict r.metadata) c hc
    omega
  intro s hs
  refine ⟨h.encodable_texts s hs, ?_⟩
  simp only [NoZero, AuditRecord.texts, List.forall_mem_cons] at hzero
  obtain ⟨hts, hactor, haction, hsubject, hprev, hhash, hkeyId, hsignerId, hsignature, -⟩ := hzero
  have hall : ∀ s ∈ (r.row P).texts, ∀ c ∈ s, c.val ≠ 0 := by
    simp only [SqliteRow.texts, AuditRecord.row, List.forall_mem_cons]
    exact ⟨hts, hactor, haction, hsubject, hmeta, hprev, hhash, hkeyId, hsignerId, hsignature,
      fun _ hnil => absurd hnil List.not_mem_nil⟩
  exact hall s hs

variable (P) in
/-- Records that the table can hold. -/
structure Fits (rs : List AuditRecord) : Prop where
  table : TableFits P rs
  noZero : ∀ r ∈ rs, NoZero r

variable {rs rs' : List AuditRecord} {r : AuditRecord} {T : Table} {row : SqliteRow}
  {rows : List SqliteRow}

theorem Fits.of_append (h : Fits P (rs ++ rs')) : Fits P rs :=
  ⟨h.table.of_append, fun r hr => h.noZero r (List.mem_append_left _ hr)⟩

theorem seq_row (rs : List AuditRecord) :
    (rs.map (AuditRecord.row P)).map SqliteRow.seq = rs.map AuditRecord.seq := by
  rw [List.map_map]
  rfl

/-- No number is twice among records in their order. -/
theorem nodup_of_fits (h : TableFits P rs) : (rs.map AuditRecord.seq).Nodup := by
  rw [List.Nodup, List.pairwise_map]
  exact h.ordered.imp fun hlt => hlt.ne

/-- The next rows are taken. -/
theorem Fits.takes (h : Fits P (rs ++ rs')) (hrows : RowsOf P (T.rows.map toRow) rs) :
    Takes T (rs'.map (AuditRecord.row P)) := by
  have hmem : ∀ r ∈ rs', r ∈ rs ++ rs' := fun r hr => List.mem_append_right _ hr
  refine ⟨fun row hrow => ?_, fun row hrow => ?_, ?_⟩
  · obtain ⟨r, hr, rfl⟩ := List.mem_map.mp hrow
    exact h.table.small r (hmem r hr)
  · obtain ⟨r, hr, rfl⟩ := List.mem_map.mp hrow
    exact serverText_row (h.table.stores r (hmem r hr)) (h.noZero r (hmem r hr))
  -- in whatever order the rows are, their numbers are those of the records
  · have hperm := (hrows.append_right (rs'.map (AuditRecord.row P))).map SqliteRow.seq
    rw [hperm.nodup_iff, ← List.map_append, seq_row]
    exact nodup_of_fits h.table

/-- What went in is shown. -/
theorem Gains.shows {T' : Table} (h : Gains T (rs'.map (AuditRecord.row P)) T')
    (hcomplete : Complete T) (hrows : RowsOf P (T.rows.map toRow) rs) :
    Shows P (some T') (rs ++ rs') := by
  refine shows_some (fun c => by rw [h.columns]; exact hcomplete c) ?_
  rw [RowsOf, List.map_append]
  exact h.rows.trans (hrows.append_right _)

theorem append_holds (hserver : Documented server table) {s : State server}
    (h : Holds P table s rs) (hfits : Fits P (rs ++ [r])) :
    (append P server r s).1 = .ok () ∧ Holds P table (append P server r s).2 (rs ++ [r]) := by
  obtain ⟨T, hT, hcomplete, hrows⟩ := h.shows.exists_table
  obtain ⟨hpool, hok, hshows⟩ := withConnection_spec hserver h.pool
    (x := do
      let row ← Operation.ofExcept (r.rowValues P)
      server.execute (.insert row))
    (Q := fun res t => res = .ok () ∧ Shows P t (rs ++ [r])) fun db hdb => by
      rw [Operation.bind_ofExcept_ok (hfits.table.stores r (by simp)).rowValues]
      obtain ⟨hok, T', hT', hgains⟩ :=
        hserver.insert db T (r.row P) (hdb.trans hT) hcomplete (hfits.takes hrows)
      have hshows : Shows P (some T') (rs ++ [r]) := Gains.shows hgains hcomplete hrows
      exact ⟨hok, hT' ▸ hshows⟩
  exact ⟨hok, hpool, hshows⟩

theorem appendMany_holds (hserver : Documented server table) {s : State server}
    (h : Holds P table s rs) (hfits : Fits P (rs ++ rs')) :
    (appendMany P server rs' s).1 = .ok () ∧
      Holds P table (appendMany P server rs' s).2 (rs ++ rs') := by
  obtain ⟨T, hT, hcomplete, hrows⟩ := h.shows.exists_table
  have hvalues := TableFits.mapM_rowValues fun r hr =>
    hfits.table.stores r (List.mem_append_right _ hr)
  rw [appendMany, Operation.bind_ofExcept_ok hvalues]
  obtain ⟨hpool, hok, hshows⟩ := withConnection_spec hserver h.pool
    (x := transaction server (server.executemany (rs'.map (AuditRecord.row P))))
    (Q := fun res t => res = .ok () ∧ Shows P t (rs ++ rs')) fun db hdb => by
      -- the transaction begins and is committed around the rows
      obtain ⟨hbegin, hbegun⟩ := hserver.beginTransaction db
      obtain ⟨hok, T', hT', hgains⟩ := hserver.insertMany _ T (rs'.map (AuditRecord.row P))
        (hbegun.trans (hdb.trans hT)) hcomplete (hfits.takes hrows)
      obtain ⟨hcommit, hkept⟩ :=
        hserver.commit (server.executemany (rs'.map (AuditRecord.row P))
          (server.beginTransaction db).2).2
      have hall : transaction server (server.executemany (rs'.map (AuditRecord.row P))) db
          = (.ok (), (server.commit (server.executemany (rs'.map (AuditRecord.row P))
            (server.beginTransaction db).2).2).2) :=
        Operation.within_ok (Prod.ext hbegin rfl) (Prod.ext hok rfl) (Prod.ext hcommit rfl)
      rw [hall]
      refine ⟨rfl, ?_⟩
      rw [hkept, hT']
      exact hgains.shows hcomplete hrows
  exact ⟨hok, hpool, hshows⟩

/-- The rows of records with different numbers, in the order of the numbers. -/
theorem eq_of_ordered (hperm : RowsOf P rows rs)
    (hordered : rows.Pairwise fun row row' => row.seq ≤ row'.seq)
    (hdistinct : (rs.map AuditRecord.seq).Nodup) :
    rows = (bySeq rs).map (AuditRecord.row P) := by
  have hsorted : ((bySeq rs).map (AuditRecord.row P)).Pairwise
      fun row row' => row.seq ≤ row'.seq := by
    rw [List.pairwise_map]
    exact List.pairwise_insertionSort (fun r r' : AuditRecord => r.seq ≤ r'.seq) rs
  have hboth : RowsOf P rows (bySeq rs) :=
    hperm.trans ((List.perm_insertionSort _ rs).map _).symm
  -- rows with one number are rows of one record
  refine List.Perm.eq_of_pairwise (fun row row' hrow hrow' hle hle' => ?_) hordered hsorted hboth
  obtain ⟨r, hr, rfl⟩ := List.mem_map.mp (hperm.mem_iff.mp hrow)
  obtain ⟨r', hr', rfl⟩ := List.mem_map.mp (hperm.mem_iff.mp (hboth.mem_iff.mpr hrow'))
  have hseq : r.seq = r'.seq := le_antisymm hle hle'
  rw [List.inj_on_of_nodup_map hdistinct hr hr' hseq]

/-- What is loaded from an open table, in whatever order the rows are. -/
theorem load_holds (hserver : Documented server table) {s : State server}
    (h : Holds P table s rs) (hstores : ∀ r ∈ rs, r.Stores P)
    (hdistinct : (rs.map AuditRecord.seq).Nodup) :
    (load P server s).1 = .ok ((bySeq rs).map (AuditRecord.reloaded P)) ∧
      Holds P table (load P server s).2 rs := by
  obtain ⟨T, hT, hcomplete, hrows⟩ := h.shows.exists_table
  obtain ⟨hpool, hok, hshows⟩ := withConnection_spec hserver h.pool (x := server.fetch)
    (Q := fun res t => res = .ok ((bySeq rs).map (AuditRecord.row P)) ∧ Shows P t rs)
    fun db hdb => by
      -- the numbers fix the order in which the rows come
      obtain ⟨rows, hok, hperm, hordered⟩ := hserver.fetch db T (hdb.trans hT) hcomplete
      refine ⟨?_, ?_⟩
      · rw [hok, eq_of_ordered (hperm.trans hrows) hordered hdistinct]
      · rw [hserver.fetch_keeps, hdb]
        exact h.shows
  have hread : ((bySeq rs).map (AuditRecord.row P)).mapM (SqliteRow.fromRow P)
      = .ok ((bySeq rs).map (AuditRecord.reloaded P)) :=
    TableFits.mapM_fromRow fun r hr => hstores r ((List.perm_insertionSort _ _).mem_iff.mp hr)
  rw [load, Operation.bind_of_returns hok, Operation.ofExcept_apply]
  exact ⟨hread, hpool, hshows⟩

theorem bySeq_of_fits (h : TableFits P rs) : bySeq rs = rs :=
  List.Pairwise.insertionSort_eq (h.ordered.imp fun hlt => hlt.le)

/-- The last of rows in the order of their numbers. -/
theorem IsLast.eq_getLast? {row : Option SqliteRow} (h : IsLast rows row)
    (hperm : RowsOf P rows rs) (hfits : TableFits P rs) :
    row = rs.getLast?.map (AuditRecord.row P) := by
  rcases List.eq_nil_or_concat' rs with rfl | ⟨front, last, rfl⟩
  · cases row with
    | none => rfl
    | some row =>
      have hmem := hperm.mem_iff.mp h.1
      cases hmem
  · rw [List.getLast?_concat, Option.map_some]
    have hlast : last.row P ∈ rows :=
      hperm.mem_iff.mpr (List.mem_map_of_mem (List.mem_append_right _ List.mem_cons_self))
    cases row with
    | none =>
      rw [show rows = [] from h] at hlast
      cases hlast
    | some row =>
      obtain ⟨hmem, hgreatest⟩ := h
      obtain ⟨r, hr, rfl⟩ := List.mem_map.mp (hperm.mem_iff.mp hmem)
      rcases List.mem_append.mp hr with hr | hr
      · -- an earlier record has a smaller number
        have hlt : r.seq < last.seq :=
          (List.pairwise_append.mp hfits.ordered).2.2 r hr last List.mem_cons_self
        exact absurd (hgreatest _ hlast) (not_le_of_gt hlt)
      · rw [List.mem_singleton.mp hr]

theorem loadLast_holds (hserver : Documented server table) {s : State server}
    (h : Holds P table s rs) (hfits : TableFits P rs) :
    (loadLast P server s).1 = .ok (rs.getLast?.map (AuditRecord.reloaded P)) ∧
      Holds P table (loadLast P server s).2 rs := by
  obtain ⟨T, hT, hcomplete, hrows⟩ := h.shows.exists_table
  obtain ⟨hpool, hok, hshows⟩ := withConnection_spec hserver h.pool (x := server.fetchrow)
    (Q := fun res t => res = .ok (rs.getLast?.map (AuditRecord.row P)) ∧ Shows P t rs)
    fun db hdb => by
      obtain ⟨row, hok, hlast⟩ := hserver.fetchrow db T (hdb.trans hT) hcomplete
      refine ⟨?_, ?_⟩
      · rw [hok, hlast.eq_getLast? hrows hfits]
      · rw [hserver.fetchrow_keeps, hdb]
        exact h.shows
  rw [loadLast, Operation.bind_of_returns hok, Operation.ofExcept_apply]
  refine ⟨?_, hpool, hshows⟩
  cases hlast : rs.getLast? with
  | none => rfl
  | some r =>
    rw [Option.map_some, Option.mapM_some, (hfits.stores r (List.mem_of_getLast? hlast)).fromRow]
    rfl

/-- **A table on a server stands in for the list**, one of an older version too. -/
def standIn (P : Runtime) {server : Server} {table : server.Db → Option Table}
    (hserver : Documented server table) : StandIn P (storage P server) where
  Found := Found P table
  Holds := Holds P table
  Fits := Fits P
  found_of_holds := Holds.found
  fits_of_append := Fits.of_append
  init := by
    rintro s rs hfound -
    obtain ⟨hok, hholds⟩ := hfound.init hserver
    refine ⟨?_, hholds⟩
    rw [show ((storage P server).init s).1 = .ok () from hok]
    rfl
  append := by
    rintro r s rs hholds hfits
    obtain ⟨hok, hholds'⟩ := append_holds hserver hholds hfits
    refine ⟨?_, hholds'⟩
    rw [show ((storage P server).append r s).1 = .ok () from hok]
    rfl
  appendMany := by
    rintro rs' - s rs hholds hfits
    rw [show memoryStorage.appendMany rs' rs = _ from memoryAppendMany_apply rs' rs] at hfits ⊢
    obtain ⟨hok, hholds'⟩ := appendMany_holds hserver hholds hfits
    refine ⟨?_, hholds'⟩
    rw [show ((storage P server).appendMany rs' s).1 = .ok () from hok]
    rfl
  load := by
    rintro s rs hholds hfits
    have hfits : TableFits P rs := Fits.table hfits
    obtain ⟨hok, hholds'⟩ := load_holds hserver hholds hfits.stores (nodup_of_fits hfits)
    refine ⟨?_, hholds'⟩
    rw [show ((storage P server).load s).1 = _ from hok, bySeq_of_fits hfits]
    exact forall₂_alike_reloaded hfits.stores
  loadLast := by
    rintro s rs hholds hfits
    have hfits : TableFits P rs := Fits.table hfits
    obtain ⟨hok, hholds'⟩ := loadLast_holds hserver hholds hfits
    refine ⟨?_, hholds'⟩
    rw [show ((storage P server).loadLast s).1 = _ from hok]
    have hlast := getLast?_of_alike (forall₂_alike_reloaded hfits.stores)
    rwa [List.getLast?_map] at hlast

/-! ### What `init` makes readable -/

/-- A table, and what it was when the transaction began. -/
structure PlainDb where
  current : Option Table
  saved : Option Table

/-- What inserting the row raises, if anything. -/
def plainRefuses (T : Table) (row : SqliteRow) : Option PyError :=
  if row.seq < -9223372036854775808 ∨ 9223372036854775807 < row.seq then
    some ⟨.user (lit "DataError"), lit "value out of int64 range"⟩
  else if row.texts.any (fun s => (utf8Encode s).toOption.isNone) then
    some ⟨.user (lit "DataError"), lit "surrogates not allowed"⟩
  else if row.texts.any (fun s => s.any fun c => c.val == 0) then
    some ⟨.user (lit "CharacterNotInRepertoireError"),
      lit "invalid byte sequence for encoding \"UTF8\": 0x00"⟩
  else if T.rows.any (fun other => other.1.seq == row.seq) then
    some ⟨.user (lit "UniqueViolationError"),
      lit "duplicate key value violates unique constraint \"audit_records_pkey\""⟩
  else none

/-- The table, for a statement that names all the columns. -/
def plainTable : Operation PyError PlainDb Table := do
  let db ← Operation.get
  match db.current with
  | some T =>
    if T.columns .keyId && T.columns .signerId && T.columns .signature then return T
    else Operation.raise ⟨.user (lit "UndefinedColumnError"), lit "column does not exist"⟩
  | none => Operation.raise ⟨.user (lit "UndefinedTableError"), lit "relation does not exist"⟩

def plainSet (T : Table) : Operation PyError PlainDb Unit :=
  Operation.modify fun db => { db with current := some T }

def plainInsert : List SqliteRow → Operation PyError PlainDb Unit
  | [] => do
    let _ ← plainTable
  | row :: rows => do
    let T ← plainTable
    match plainRefuses T row with
    | some e => Operation.raise e
    | none =>
      plainSet (T.insert (ofRow row))
      plainInsert rows

def plainRows : Operation PyError PlainDb (List SqliteRow) := do
  let T ← plainTable
  return SqliteBackend.orderBySeq (T.rows.map toRow)

def plainLast : Operation PyError PlainDb (Option SqliteRow) := do
  let rows ← plainRows
  return rows.getLast?

/-- A server that does what is documented, and refuses what it has to. -/
def plainServer : Server where
  Db := PlainDb
  installed := true
  createPool := pure ()
  closePool := pure ()
  acquire := pure ()
  release := pure ()
  beginTransaction := Operation.modify fun db => { db with saved := db.current }
  commit := pure ()
  rollback := Operation.modify fun db => { db with current := db.saved }
  execute
    | .createTable => do
      let db ← Operation.get
      plainSet (created db.current)
    | .addColumn c => do
      let db ← Operation.get
      plainSet (withColumn (created db.current) c)
    | .insert row => plainInsert [row]
  executemany := plainInsert
  fetch := plainRows
  fetchrow := plainLast

theorem plainTable_eq {db : PlainDb} (hT : db.current = some T) (hcomplete : Complete T) :
    plainTable db = (.ok T, db) := by
  rw [plainTable, Operation.bind_ok (Operation.get_apply db), hT]
  dsimp only
  rw [hcomplete, hcomplete, hcomplete]
  rfl

theorem plainTable_undefined {db : PlainDb} (hT : db.current = some T) {c : AddedColumn}
    (hmissing : T.columns c = false) : ∃ e, plainTable db = (.error e, db) := by
  rw [plainTable, Operation.bind_ok (Operation.get_apply db), hT]
  dsimp only
  have hnot : ¬(T.columns .keyId && T.columns .signerId && T.columns .signature) = true := by
    cases c <;> simp [hmissing]
  rw [if_neg hnot]
  exact ⟨_, rfl⟩

/-- A new row that the server can hold is not refused. -/
theorem plainRefuses_eq_none (h : Takes T (row :: rows)) : plainRefuses T row = none := by
  obtain ⟨hlow, hhigh⟩ := h.seq row List.mem_cons_self
  have htexts := h.texts row List.mem_cons_self
  have hutf8 : row.texts.any (fun s => (utf8Encode s).toOption.isNone) = false := by
    apply List.any_eq_false.mpr
    intro s hs
    obtain ⟨b, hb⟩ := utf8Encode_ok_iff.mpr (htexts s hs).1
    rw [hb]
    exact Bool.false_ne_true
  have hzero : row.texts.any (fun s => s.any fun c => c.val == 0) = false := by
    apply List.any_eq_false.mpr
    intro s hs hany
    obtain ⟨c, hc, hval⟩ := List.any_eq_true.mp hany
    exact (htexts s hs).2 c hc (eq_of_beq hval)
  have hseq : T.rows.any (fun other => other.1.seq == row.seq) = false := by
    apply List.any_eq_false.mpr
    intro other hother hsame
    have hfresh := h.fresh
    rw [List.map_append, List.nodup_append] at hfresh
    exact hfresh.2.2 _ (List.mem_map_of_mem (List.mem_map_of_mem hother)) _ List.mem_cons_self
      (eq_of_beq hsame)
  rw [plainRefuses, if_neg (by omega), hutf8, hzero, hseq]
  rfl

/-- The row goes behind the others. -/
theorem rows_insert (T : Table) (row : SqliteRow) :
    (T.insert (ofRow row)).rows.map toRow = T.rows.map toRow ++ [row] := by
  rw [ColumnTable.insert, List.map_append]
  rfl

/-- The next ones can still go in. -/
theorem Takes.insert (h : Takes T (row :: rows)) : Takes (T.insert (ofRow row)) rows := by
  refine ⟨fun other hother => h.seq other (List.mem_cons_of_mem _ hother),
    fun other hother => h.texts other (List.mem_cons_of_mem _ hother), ?_⟩
  rw [rows_insert, List.append_assoc]
  exact h.fresh

theorem plainInsert_spec {db : PlainDb} (hT : db.current = some T) (hcomplete : Complete T)
    (h : Takes T rows) : (plainInsert rows db).1 = .ok () ∧
      ∃ T', (plainInsert rows db).2.current = some T' ∧ Gains T rows T' := by
  -- the rows that are left are still new when the first one is in
  induction rows generalizing db T with
  | nil =>
    rw [plainInsert, Operation.bind_ok (plainTable_eq hT hcomplete)]
    exact ⟨rfl, T, hT, rfl, by rw [List.append_nil]⟩
  | cons row rows ih =>
    rw [plainInsert, Operation.bind_ok (plainTable_eq hT hcomplete), plainRefuses_eq_none h]
    have hcurrent : ({ db with current := some (T.insert (ofRow row)) } : PlainDb).current
        = some (T.insert (ofRow row)) := rfl
    obtain ⟨hok, T', hT', hcolumns, hrows⟩ := ih hcurrent hcomplete h.insert
    refine ⟨hok, T', hT', hcolumns, hrows.trans ?_⟩
    rw [rows_insert, List.append_assoc]
    exact List.Perm.refl _

/-- The rows come in the order of their numbers. -/
theorem plainRows_spec {db : PlainDb} (hT : db.current = some T) (hcomplete : Complete T) :
    plainRows db = (.ok (SqliteBackend.orderBySeq (T.rows.map toRow)), db) := by
  rw [plainRows, Operation.bind_ok (plainTable_eq hT hcomplete)]
  rfl

theorem plainTable_keeps (db : PlainDb) : (plainTable db).2 = db := by
  rw [plainTable, Operation.bind_ok (Operation.get_apply db)]
  rcases db with ⟨_ | T, saved⟩
  · rfl
  · dsimp only
    split <;> rfl

theorem plainRows_keeps (db : PlainDb) : (plainRows db).2 = db := by
  rw [plainRows]
  cases hres : (plainTable db).1 with
  | error e => rw [Operation.bind_of_raises hres, plainTable_keeps]
  | ok T =>
    rw [Operation.bind_of_returns hres, plainTable_keeps]
    rfl

/-- Where a column is missing, a statement fails. -/
theorem plainInsert_undefined {db : PlainDb} (hT : db.current = some T) {c : AddedColumn}
    (hmissing : T.columns c = false) (row : SqliteRow) :
    ∃ e, plainInsert [row] db = (.error e, db) := by
  obtain ⟨e, he⟩ := plainTable_undefined hT hmissing
  exact ⟨e, by rw [plainInsert, Operation.bind_error he]⟩

theorem plainRows_undefined {db : PlainDb} (hT : db.current = some T) {c : AddedColumn}
    (hmissing : T.columns c = false) : ∃ e, plainRows db = (.error e, db) := by
  obtain ⟨e, he⟩ := plainTable_undefined hT hmissing
  exact ⟨e, by rw [plainRows, Operation.bind_error he]⟩

theorem plainLast_keeps (db : PlainDb) : (plainLast db).2 = db := by
  rw [plainLast]
  cases hres : (plainRows db).1 with
  | error e => rw [Operation.bind_of_raises hres, plainRows_keeps]
  | ok rows =>
    rw [Operation.bind_of_returns hres, plainRows_keeps]
    rfl

/-- The last row in the order of the numbers has the greatest one. -/
theorem isLast_getLast? (hordered : rows.Pairwise fun row row' => row.seq ≤ row'.seq) :
    IsLast rows rows.getLast? := by
  rcases List.eq_nil_or_concat' rows with rfl | ⟨front, last, rfl⟩
  · rfl
  · rw [List.getLast?_concat]
    refine ⟨List.mem_append_right _ List.mem_cons_self, fun other hother => ?_⟩
    rcases List.mem_append.mp hother with hfront | hlast
    · exact (List.pairwise_append.mp hordered).2.2 other hfront last List.mem_cons_self
    · rw [List.mem_singleton.mp hlast]

theorem IsLast.of_perm {rows rows' : List SqliteRow} (hperm : rows.Perm rows')
    {row : Option SqliteRow} (h : IsLast rows row) : IsLast rows' row := by
  cases row with
  | none =>
    rw [show rows = [] from h] at hperm
    exact List.Perm.nil_eq hperm |>.symm
  | some row =>
    exact ⟨hperm.mem_iff.mp h.1, fun other hother => h.2 other (hperm.mem_iff.mpr hother)⟩

theorem plainServer_documented : Documented plainServer PlainDb.current where
  installed := rfl
  createPool _ := ⟨rfl, rfl⟩
  acquire _ := ⟨rfl, rfl⟩
  release _ := ⟨rfl, rfl⟩
  beginTransaction _ := ⟨rfl, rfl⟩
  commit _ := ⟨rfl, rfl⟩
  create_new db hT := by
    refine ⟨rfl, ?_⟩
    show some (created db.current) = _
    rw [hT]
    rfl
  create_old db hT := by
    obtain ⟨T, hT⟩ := Option.ne_none_iff_exists'.mp hT
    refine ⟨rfl, ?_⟩
    show some (created db.current) = db.current
    rw [hT]
    rfl
  add_new db T T' c hT hadd := by
    refine ⟨rfl, ?_⟩
    show some (withColumn (created db.current) c) = _
    rw [hT, created, withColumn, hadd]
    rfl
  add_old db T c hT hthere := by
    refine ⟨rfl, ?_⟩
    show some (withColumn (created db.current) c) = _
    rw [hT, created, withColumn, ColumnTable.addColumn_eq_none.mpr hthere]
    rfl
  insert _ _ _ hT hcomplete h := plainInsert_spec hT hcomplete h
  insertMany _ _ _ hT hcomplete h := plainInsert_spec hT hcomplete h
  insert_undefined db T c row hT hmissing := by
    obtain ⟨e, he⟩ := plainInsert_undefined hT hmissing row
    exact ⟨⟨e, congrArg Prod.fst he⟩, (congrArg (fun r => r.2.current) he).trans hT⟩
  fetch_undefined db T c hT hmissing := by
    obtain ⟨e, he⟩ := plainRows_undefined hT hmissing
    exact ⟨e, congrArg Prod.fst he⟩
  fetch _ T hT hcomplete :=
    ⟨SqliteBackend.orderBySeq (T.rows.map toRow), congrArg Prod.fst (plainRows_spec hT hcomplete),
      List.perm_insertionSort _ _, List.pairwise_insertionSort _ _⟩
  fetch_keeps db := congrArg PlainDb.current (plainRows_keeps db)
  fetchrow _ T hT hcomplete :=
    ⟨(SqliteBackend.orderBySeq (T.rows.map toRow)).getLast?,
      congrArg Prod.fst (Operation.bind_ok (plainRows_spec hT hcomplete)),
      (isLast_getLast? (List.pairwise_insertionSort _ _)).of_perm (List.perm_insertionSort _ _)⟩
  fetchrow_keeps db := congrArg PlainDb.current (plainLast_keeps db)

/-! ### A table of an older version -/

/-- A table of the time before signing. -/
def unsignedTable (P : Runtime) (rs : List AuditRecord) : Table where
  columns c := c == .keyId
  rows := rs.map fun r => ofRow (r.row P)

/-- Records that nobody signed lack nothing in it. -/
theorem found_unsigned (h : ∀ r ∈ rs, r.signerId = [] ∧ r.signature = []) :
    Found P PlainDb.current (⟨false, some (unsignedTable P rs), none⟩ : State plainServer) rs := by
  refine ⟨List.Perm.of_eq ?_, fun T hT => Option.some.inj hT ▸ rfl⟩
  show rowsOf (some (unsignedTable P rs)) = _
  rw [rowsOf, ColumnTable.full, unsignedTable, List.map_map, List.map_map]
  apply List.map_congr_left
  intro r hr
  obtain ⟨hsignerId, hsignature⟩ := h r hr
  simp [toRow, ofRow, noValue, AuditRecord.row, hsignerId, hsignature]

/-- Two records of that time. -/
def unsignedRecords : List AuditRecord :=
  [{ recordOf [] with metadata := [], hash := lit "ab" },
    { recordOf [] with seq := 1, metadata := [], prevHash := lit "ab" }]

theorem stores_unsignedRecords : ∀ r ∈ unsignedRecords, r.Stores referenceRuntime := by
  simp only [unsignedRecords, List.forall_mem_cons]
  refine ⟨?_, ?_, fun _ hnil => absurd hnil List.not_mem_nil⟩
  all_goals
    refine ⟨⟨exists_hashInput_iff.mpr ⟨show IsAscii _ by decide, rfl, encodablePayload_iff.mpr
      ⟨encodable_of_all (by decide), encodable_nil, encodable_of_all (by decide), encodable_nil,
        encodable_of_all (by decide), trivial⟩⟩, encodable_of_all (by decide), encodable_nil⟩,
      (keepable_of_ascii (by decide) rfl).1⟩

/-- A server with a table of that time, where the second record comes first. -/
def unsignedState : State plainServer :=
  ⟨false, some (unsignedTable referenceRuntime unsignedRecords.reverse), none⟩

theorem found_unsignedRecords :
    Found referenceRuntime PlainDb.current unsignedState unsignedRecords := by
  have hfound : Found referenceRuntime PlainDb.current unsignedState unsignedRecords.reverse :=
    found_unsigned (by decide)
  exact ⟨hfound.rows.trans ((List.reverse_perm _).map _), hfound.keyId⟩

end PostgresBackend

/-! ### Runs -/

/-- **A log on a table of a server** answers every call as the log on the list of the records
that were there does, whichever version made the table, and the two show the same
afterwards. -/
theorem postgres_answers {server : PostgresBackend.Server}
    {table : server.Db → Option PostgresBackend.Table}
    (hserver : PostgresBackend.Documented server table) {cfg : Config P}
    {log : AuditLog P} (hnew : AuditLog.new cfg = .ok log) {before : List AuditRecord}
    (hchained : ChainedRecords before) (hsealed : ∀ r ∈ before, r.Finished P)
    {s : PostgresBackend.State server} (hfound : PostgresBackend.Found P table s before)
    (calls : List (Call P))
    (hrecords : ∀ r ∈ (runCalls calls (⟨log, before⟩ : World P memoryStorage)).2.contents,
      r.Keepable P ∧ PostgresBackend.NoZero r)
    (hlength : (runCalls calls (⟨log, before⟩ : World P memoryStorage)).2.contents.length
      ≤ 9223372036854775808) :
    (answers calls (⟨log, s⟩ : World P (PostgresBackend.storage P server))).1
        = (answers calls (⟨log, before⟩ : World P memoryStorage)).1 ∧
      SameView (answers calls (⟨log, s⟩ : World P (PostgresBackend.storage P server))).2
        (runCalls calls (⟨log, before⟩ : World P memoryStorage)).2 ∧
      PostgresBackend.Found P table
        (answers calls (⟨log, s⟩ : World P (PostgresBackend.storage P server))).2.store
        (runCalls calls (⟨log, before⟩ : World P memoryStorage)).2.contents := by
  have hworlds : (PostgresBackend.standIn P hserver).Worlds
      (⟨log, s⟩ : World P (PostgresBackend.storage P server)) ⟨log, before⟩ :=
    StandIn.worlds_of_new hnew hfound
  have hist : History before (runCalls calls (⟨log, before⟩ : World P memoryStorage)).1
      (runCalls calls (⟨log, before⟩ : World P memoryStorage)).2 :=
    run_history calls (tailOk_of_new hnew _)
  have hcontents : (runCalls calls (⟨log, before⟩ : World P memoryStorage)).2.contents
      = before ++ (runCalls calls (⟨log, before⟩ : World P memoryStorage)).1.map Entry.record :=
    hist.contents
  have hfinished : ∀ r ∈ (runCalls calls (⟨log, before⟩ : World P memoryStorage)).2.contents,
      r.Finished P := by
    intro r hr
    rw [hcontents] at hr
    rcases List.mem_append.mp hr with hold | hrun
    · exact hsealed r hold
    · obtain ⟨e, he, rfl⟩ := List.mem_map.mp hrun
      exact (hist.written e he).finished
  have hfits : PostgresBackend.Fits P
      (runCalls calls (⟨log, before⟩ : World P memoryStorage)).2.contents :=
    ⟨TableFits.of_chained (hist.chained hchained)
      (fun r hr => ⟨hfinished r hr, (hrecords r hr).1⟩) hlength, fun r hr => (hrecords r hr).2⟩
  obtain ⟨hanswers, hheld, hview⟩ :=
    StandIn.run_spec (PostgresBackend.standIn P hserver) calls hworlds hfits
  exact ⟨hanswers, hview, hheld⟩

open PostgresBackend in
/-- On a table of the time before signing. -/
theorem postgres_answers_sample :
    (answers sampleCalls (⟨plainLog, unsignedState⟩ : World referenceRuntime
        (storage referenceRuntime plainServer))).1
      = (answers sampleCalls (⟨plainLog, unsignedRecords⟩ : World referenceRuntime
          memoryStorage)).1 := by
  have hcheck : (runCalls sampleCalls (⟨plainLog, unsignedRecords⟩ : World referenceRuntime
      memoryStorage)).2.contents.all (fun r =>
        r.texts.all (fun s => s.all fun c => decide (c.val < 128) && c.val != 0)
          && r.metadata.isEmpty) = true := by
    decide +kernel
  have hlength : ((runCalls sampleCalls (⟨plainLog, unsignedRecords⟩ : World referenceRuntime
      memoryStorage)).2.contents.length == 3) = true := by
    decide +kernel
  refine (postgres_answers plainServer_documented new_default
    (show ChainedRecords unsignedRecords from ⟨rfl, rfl, rfl, rfl, trivial⟩)
    (fun r hr => (stores_unsignedRecords r hr).finished) found_unsignedRecords sampleCalls
    (fun r hr => ?_) ((eq_of_beq hlength).trans_le (by decide))).1
  have hr' := List.all_eq_true.mp hcheck r hr
  rw [Bool.and_eq_true] at hr'
  have htexts : ∀ s ∈ r.texts, ∀ c ∈ s, (c.val < 128) ∧ c.val ≠ 0 := by
    intro s hs c hc
    simpa using List.all_eq_true.mp (List.all_eq_true.mp hr'.1 s hs) c hc
  have hascii : ∀ s ∈ r.texts, s.all (fun c => c.val < 128) = true := fun s hs =>
    List.all_eq_true.mpr fun c hc => decide_eq_true (htexts s hs c hc).1
  exact ⟨(keepable_of_ascii hascii (List.isEmpty_iff.mp hr'.2)).1, fun s hs c hc =>
    (htexts s hs c hc).2⟩

end AuditChain
