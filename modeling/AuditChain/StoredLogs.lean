/-
AuditChain/StoredLogs.lean

Logs in files and in tables.

A JSONL file and a SQLite table stand in for the list that `MemoryBackend` keeps, as long
as the records can be stored: their floats are read back as they are printed, the keys in
their metadata are in order, their ids can be encoded, and, in a file, no text of theirs
holds a line break outside ASCII.  So a log on a file or on a table does what the log on
the list does, in every run.

    jsonl_answers     a run on a file
    sqlite_answers    a run on a table
-/
import AuditChain.BatchAppend
import AuditChain.SqliteWrites
import AuditChain.StandIns

namespace AuditChain

open Python Machine Operation

variable {P : Runtime}

/-! ### Sealed records -/

namespace AuditRecord

variable (P) in
/-- A sealed record that comes back. -/
structure Stores (r : AuditRecord) : Prop where
  finished : r.Finished P
  keepable : r.Keepable P

namespace Stores

variable {r : AuditRecord} (h : r.Stores P)

include h

theorem serializable : (PyVal.dict r.metadata).serializable = true := h.finished.serializable

theorem writable : r.Writable P := h.finished.writable ⟨h.keepable.keyId, h.keepable.signerId⟩

theorem alike : Alike P (r.reloaded P) r := alike_reloaded h.finished h.keepable.ordered

/-- The line of the record is read as the record. -/
theorem reads : Reads P (r.line P) (r.reloaded P) := by
  obtain ⟨v, -, hloads, hstored⟩ := fromStored_serialize h.serializable h.keepable.floats
  exact ⟨v, hloads, hstored⟩

end Stores

end AuditRecord

theorem forall₂_alike_reloaded {rs : List AuditRecord} (h : ∀ r ∈ rs, r.Stores P) :
    List.Forall₂ (Alike P) (rs.map (AuditRecord.reloaded P)) rs :=
  List.forall₂_map_left_iff.mpr (List.forall₂_same.mpr fun r hr => (h r hr).alike)

/-! ### Files -/

namespace JsonlBackend

variable {B : JsonlBackend}

/-- A file that was empty, and the lines of the records. -/
def Keeps (B : JsonlBackend) (P : Runtime) (file : LogFile) (rs : List AuditRecord) : Prop :=
  ∃ file₀ : LogFile, file₀.getD [] = [] ∧ file = B.added P file₀ rs

theorem Keeps.append {file : LogFile} {rs : List AuditRecord} (h : B.Keeps P file rs)
    (rs' : List AuditRecord) : B.Keeps P (B.added P file rs') (rs ++ rs') := by
  obtain ⟨file₀, hempty, rfl⟩ := h
  exact ⟨file₀, hempty, added_added file₀ rs rs'⟩

theorem Keeps.load {file : LogFile} {rs : List AuditRecord} (h : B.Keeps P file rs)
    (hrs : ∀ r ∈ rs, r.Stores P ∧ r.OneLine) :
    B.load P file = (.ok (rs.map (AuditRecord.reloaded P)), file) := by
  obtain ⟨file₀, hempty, rfl⟩ := h
  have hholds : B.Holds (joinLines (rs.map (AuditRecord.line P))) (B.added P file₀ rs) := by
    rw [Holds, added_getD, hempty, List.nil_append]
    exact encode_lines fun r hr => (hrs r hr).1.writable.encodable
  rw [load_of_holds hholds (cr_not_mem_joinLines rs), splitlines_joined]
  · refine Prod.ext (readFrom_eq_ok.mpr ?_) rfl
    rw [List.filter_eq_self.mpr (List.forall_mem_map.mpr fun r _ => by rw [isBlank_line]; rfl)]
    rw [List.forall₂_map_left_iff, List.forall₂_map_right_iff]
    exact List.forall₂_same.mpr fun r hr => (hrs r hr).1.reads
  · exact List.forall_mem_map.mpr fun r hr => (avoids_isLineBreak_line r).mpr (hrs r hr).2

theorem Keeps.loadLast {file : LogFile} {rs : List AuditRecord} (h : B.Keeps P file rs)
    (hrs : ∀ r ∈ rs, r.Stores P) :
    B.loadLast P file = (.ok (rs.getLast?.map (AuditRecord.reloaded P)), file) := by
  obtain ⟨file₀, hempty, rfl⟩ := h
  refine Prod.ext ?_ rfl
  rcases List.eq_nil_or_concat' rs with rfl | ⟨init, r, rfl⟩
  · rw [added, if_pos rfl]
    cases file₀ with
    | none => rfl
    | some b =>
      obtain rfl : b = [] := hempty
      have hlast : lastLine (some []) = .ok none := by
        rw [lastLine, List.length_nil, scanTail, if_pos rfl]
      rw [JsonlBackend.loadLast, hlast]
      rfl
  · have hr := hrs r (by simp)
    rw [← added_added, List.getLast?_concat]
    exact loadLast_added (newlineEnded_added (newlineEnded_of_empty hempty) init) hr.writable
      hr.serializable hr.keepable.floats

/-- **A file stands in for the list.** -/
def standIn (B : JsonlBackend) (P : Runtime) : StandIn P (B.storage P) where
  Found := B.Keeps P
  Holds := B.Keeps P
  Fits rs := ∀ r ∈ rs, r.Stores P ∧ r.OneLine
  found_of_holds h := h
  fits_of_append h r hr := h r (List.mem_append_left _ hr)
  init := simulates_pure rfl
  append := by
    intro r file rs hkeeps hfits
    have hfits : ∀ x ∈ rs ++ [r], x.Stores P ∧ x.OneLine := hfits
    have happend : B.append P r file = (.ok (), B.added P file [r]) :=
      append_added (hfits r (by simp)).1.writable file
    rw [show (B.storage P).append r file = _ from happend,
      show memoryStorage.append r rs = (.ok (), rs ++ [r]) from rfl]
    exact ⟨rfl, hkeeps.append [r]⟩
  appendMany := by
    intro rs' hne file rs hkeeps hfits
    rw [show memoryStorage.appendMany rs' rs = _ from memoryAppendMany_apply rs' rs] at hfits ⊢
    have happend : B.appendMany P rs' file = (.ok (), B.added P file rs') :=
      appendMany_added hne (fun r hr => (hfits r (List.mem_append_right _ hr)).1.writable) file
    rw [show (B.storage P).appendMany rs' file = _ from happend]
    exact ⟨rfl, hkeeps.append rs'⟩
  load := by
    intro file rs hkeeps hfits
    rw [show (B.storage P).load file = _ from hkeeps.load hfits]
    exact ⟨forall₂_alike_reloaded fun r hr => (hfits r hr).1, hkeeps⟩
  loadLast := by
    intro file rs hkeeps hfits
    rw [show (B.storage P).loadLast file = _ from hkeeps.loadLast fun r hr => (hfits r hr).1]
    have hlast := getLast?_of_alike (forall₂_alike_reloaded fun r hr => (hfits r hr).1)
    rw [List.getLast?_map] at hlast
    exact ⟨hlast, hkeeps⟩

end JsonlBackend

/-! ### Tables -/

/-- A database, and the backend with its connection. -/
structure SqliteDatabase where
  disk : List SqliteRow
  conn : SqliteBackend.State

namespace SqliteBackend

/-- An operation on the connection.  What it commits is on disk. -/
def onDisk {α : Type} (x : Operation PyError State α) : Operation PyError SqliteDatabase α :=
  fun d => ((x d.conn).1, ⟨((x d.conn).2.map Session.committed).getD d.disk, (x d.conn).2⟩)

/-- A database that does not fail. -/
def reliable : SqliteFaults := ⟨fun _ => none, none⟩

/-- `SqliteBackend`.  Opening it makes a new connection. -/
def storage (P : Runtime) : StorageBackend where
  State := SqliteDatabase
  init := Operation.modify fun d => { d with conn := some ⟨d.disk, none⟩ }
  append r := onDisk (append P reliable r)
  appendMany rs := onDisk (appendMany P reliable rs)
  load := onDisk (load P)
  loadLast := onDisk (loadLast P)

end SqliteBackend

namespace AuditRecord

variable (P) in
/-- The row of a record. -/
def row (r : AuditRecord) : SqliteRow where
  seq := r.seq
  ts := r.timestamp
  actor := r.actor
  action := r.action
  subject := r.subject
  metaText := printVal P.floats compactStyle 0 (.dict r.metadata)
  prevHash := r.prevHash
  hash := r.hash
  keyId := r.keyId
  signerId := r.signerId
  signature := r.signature

namespace Stores

variable {r : AuditRecord} (h : r.Stores P)

include h

theorem rowValues : r.rowValues P = .ok (r.row P) := by
  rw [AuditRecord.rowValues, dumps, if_pos h.serializable]
  rfl

theorem fromRow : (r.row P).fromRow P = .ok (r.reloaded P) := by
  obtain ⟨row, hrow, hfrom⟩ := fromRow_rowValues h.serializable h.keepable.floats
  rwa [Except.ok.inj (hrow.symm.trans h.rowValues)] at hfrom

/-- All its texts can be bound. -/
theorem encodable_texts : ∀ s ∈ (r.row P).texts, Encodable s := by
  obtain ⟨-, -, hpayload⟩ := exists_hashInput_iff.mp h.finished.hashed
  obtain ⟨hts, hactor, haction, hsubject, hprev, hleaves⟩ := encodablePayload_iff.mp hpayload
  have hmeta : Encodable (printVal P.floats compactStyle 0 (.dict r.metadata)) :=
    (avoids_printVal beyondAscii_isSurrogate _ _ _).mpr hleaves
  simp only [SqliteRow.texts, row, List.forall_mem_cons, List.not_mem_nil, false_implies,
    implies_true, and_true]
  exact ⟨hts, hactor, haction, hsubject, hmeta, hprev, h.finished.hash, h.keepable.keyId,
    h.keepable.signerId, h.finished.signature⟩

end Stores

end AuditRecord

theorem forM_utf8Encode {texts : List PyStr} (h : ∀ s ∈ texts, Encodable s) :
    (texts.forM fun s => do let _ ← utf8Encode s : Except PyError Unit) = .ok () := by
  induction texts with
  | nil => rfl
  | cons s texts ih =>
    obtain ⟨hs, hrest⟩ := List.forall_mem_cons.mp h
    obtain ⟨b, hb⟩ := utf8Encode_ok_iff.mpr hs
    rw [List.forM_eq_forM] at ih ⊢
    rw [List.forM_cons, hb]
    exact ih hrest

/-- What `seq INTEGER` can hold. -/
def AuditRecord.SmallSeq (r : AuditRecord) : Prop :=
  -9223372036854775808 ≤ r.seq ∧ r.seq ≤ 9223372036854775807

variable (P) in
/-- Records that a table can hold, in the order of their numbers. -/
structure TableFits (rs : List AuditRecord) : Prop where
  stores : ∀ r ∈ rs, r.Stores P
  small : ∀ r ∈ rs, r.SmallSeq
  ordered : rs.Pairwise fun r r' => r.seq < r'.seq

namespace TableFits

variable {rs rs' : List AuditRecord}

theorem of_append (h : TableFits P (rs ++ rs')) : TableFits P rs :=
  ⟨fun r hr => h.stores r (List.mem_append_left _ hr),
    fun r hr => h.small r (List.mem_append_left _ hr), (List.pairwise_append.mp h.ordered).1⟩

/-- The next row goes in. -/
theorem insertCheck {r : AuditRecord} (h : TableFits P (rs ++ r :: rs')) (n : ℕ) :
    insertCheck SqliteBackend.reliable n (rs.map (AuditRecord.row P)) (r.row P) = .ok () := by
  have hr := h.stores r (by simp)
  have hsmall := h.small r (by simp)
  have hbind : (r.row P).bind = .ok () := by
    rw [SqliteRow.bind, if_neg (by
      rw [not_or, not_lt, not_lt]
      exact hsmall)]
    exact forM_utf8Encode hr.encodable_texts
  have hfresh : ((rs.map (AuditRecord.row P)).any fun other => other.seq == (r.row P).seq)
      = false := by
    rw [List.any_eq_false]
    intro row hrow
    obtain ⟨x, hx, rfl⟩ := List.mem_map.mp hrow
    have hlt := (List.pairwise_append.mp h.ordered).2.2 x hx r List.mem_cons_self
    simpa [AuditRecord.row] using hlt.ne
  rw [AuditChain.insertCheck, hbind, ok_bind, if_neg (by rw [hfresh]; exact Bool.false_ne_true)]
  rfl

/-- The rows are in order. -/
theorem orderBySeq (h : TableFits P rs) :
    SqliteBackend.orderBySeq (rs.map (AuditRecord.row P)) = rs.map (AuditRecord.row P) := by
  apply List.Pairwise.insertionSort_eq
  rw [List.pairwise_map]
  exact h.ordered.imp fun hlt => hlt.le

/-- A chain is in the order of its numbers. -/
theorem of_chained (hchained : ChainedRecords rs) (hstores : ∀ r ∈ rs, r.Stores P)
    (hlength : rs.length ≤ 9223372036854775808) : TableFits P rs := by
  refine ⟨hstores, fun r hr => ?_, ?_⟩
  · obtain ⟨i, hi, rfl⟩ := List.getElem_of_mem hr
    rw [AuditRecord.SmallSeq, hchained.seq_getElem i hi]
    omega
  · rw [List.pairwise_iff_getElem]
    intro i j hi hj hij
    rw [hchained.seq_getElem i hi, hchained.seq_getElem j hj]
    exact_mod_cast hij

theorem mapM_fromRow (h : ∀ r ∈ rs, r.Stores P) :
    (rs.map (AuditRecord.row P)).mapM (SqliteRow.fromRow P)
      = .ok (rs.map (AuditRecord.reloaded P)) := by
  induction rs with
  | nil => rfl
  | cons r rs ih =>
    obtain ⟨hr, hrs⟩ := List.forall_mem_cons.mp h
    rw [List.map_cons, List.mapM_cons, hr.fromRow, ok_bind, ih hrs]
    rfl

theorem mapM_rowValues (h : ∀ r ∈ rs, r.Stores P) :
    rs.mapM (AuditRecord.rowValues P) = .ok (rs.map (AuditRecord.row P)) := by
  induction rs with
  | nil => rfl
  | cons r rs ih =>
    obtain ⟨hr, hrs⟩ := List.forall_mem_cons.mp h
    rw [List.mapM_cons, hr.rowValues, ok_bind, ih hrs]
    rfl

end TableFits

namespace SqliteBackend

/-- The rows of the records are on disk. -/
def OnDisk (P : Runtime) (d : SqliteDatabase) (rs : List AuditRecord) : Prop :=
  d.disk = rs.map (AuditRecord.row P)

variable (P) in
/-- A connection that sees what is on disk, the rows of these records. -/
def opened (rs : List AuditRecord) : SqliteDatabase :=
  ⟨rs.map (AuditRecord.row P), some ⟨rs.map (AuditRecord.row P), none⟩⟩

theorem onDisk_opened {α : Type} {x : Operation PyError State α} {a : α}
    {rs rs' : List AuditRecord} (h : x (some ⟨rs.map (AuditRecord.row P), none⟩)
      = (.ok a, some ⟨rs'.map (AuditRecord.row P), none⟩)) :
    onDisk x (opened P rs) = (.ok a, opened P rs') := by
  simp only [onDisk, opened, h]
  rfl

theorem append_open {r : AuditRecord} {rs : List AuditRecord} (h : TableFits P (rs ++ [r])) :
    append P reliable r (some ⟨rs.map (AuditRecord.row P), none⟩)
      = (.ok (), some ⟨(rs ++ [r]).map (AuditRecord.row P), none⟩) := by
  have hcheck : insertCheck reliable 0
      (Session.visible ⟨rs.map (AuditRecord.row P), none⟩) (r.row P) = .ok () := by
    rw [Session.visible, Option.getD_none, List.append_nil]
    exact h.insertCheck 0
  rw [append, withConnection, Operation.bind_ofExcept_ok (h.stores r (by simp)).rowValues,
    Operation.bind_ok (Session.insert_ok hcheck), List.map_append]
  rfl

theorem appendMany_open {rs rs' : List AuditRecord} (h : TableFits P (rs ++ rs')) :
    appendMany P reliable rs' (some ⟨rs.map (AuditRecord.row P), none⟩)
      = (.ok (), some ⟨(rs ++ rs').map (AuditRecord.row P), none⟩) := by
  have hrows := TableFits.mapM_rowValues fun r hr => h.stores r (List.mem_append_right _ hr)
  have hall := Session.insertAll_of_checks (insertCheck reliable) (rs'.map (AuditRecord.row P)) 0
    ⟨rs.map (AuditRecord.row P), none⟩ (by
      intro front row back hsplit
      obtain ⟨xs, ys, rfl, rfl, hys⟩ := List.map_eq_append_iff.mp hsplit
      obtain ⟨y, ys, rfl, rfl, rfl⟩ := List.map_eq_cons_iff.mp hys
      rw [Session.visible, Option.getD_none, List.append_nil, ← List.map_append]
      rw [← List.append_assoc] at h
      exact h.insertCheck _)
  rw [appendMany, Operation.bind_ofExcept_ok hrows, withConnection]
  have hwrite : writeRows reliable (rs'.map (AuditRecord.row P))
      ⟨rs.map (AuditRecord.row P), none⟩
        = (.ok (), ⟨(rs ++ rs').map (AuditRecord.row P), none⟩) := by
    rw [writeRows, Operation.bind_ok hall, List.map_append]
    rfl
  rw [Operation.onError_ok hwrite]

theorem load_open {rs : List AuditRecord} (h : TableFits P rs) :
    load P (some ⟨rs.map (AuditRecord.row P), none⟩)
      = (.ok (rs.map (AuditRecord.reloaded P)), some ⟨rs.map (AuditRecord.row P), none⟩) := by
  have hvisible : Session.visible ⟨rs.map (AuditRecord.row P), none⟩
      = rs.map (AuditRecord.row P) := List.append_nil _
  simp only [load, withConnection, hvisible, h.orderBySeq, TableFits.mapM_fromRow h.stores]

theorem loadLast_open {rs : List AuditRecord} (h : TableFits P rs) :
    loadLast P (some ⟨rs.map (AuditRecord.row P), none⟩)
      = (.ok (rs.getLast?.map (AuditRecord.reloaded P)),
          some ⟨rs.map (AuditRecord.row P), none⟩) := by
  have hvisible : Session.visible ⟨rs.map (AuditRecord.row P), none⟩
      = rs.map (AuditRecord.row P) := List.append_nil _
  simp only [loadLast, withConnection, hvisible, h.orderBySeq, List.getLast?_map]
  cases hlast : rs.getLast? with
  | none => rfl
  | some r =>
    have hr := h.stores r (List.mem_of_getLast? hlast)
    rw [Option.map_some, Option.mapM_some, hr.fromRow]
    rfl

/-- **A table stands in for the list.** -/
def standIn (P : Runtime) : StandIn P (storage P) where
  Found := OnDisk P
  Holds d rs := d = opened P rs
  Fits := TableFits P
  found_of_holds := by
    rintro d rs rfl
    rfl
  fits_of_append := TableFits.of_append
  init := by
    rintro ⟨disk, conn⟩ rs hdisk -
    obtain rfl : disk = rs.map (AuditRecord.row P) := hdisk
    exact ⟨rfl, rfl⟩
  append := by
    rintro r d rs rfl hfits
    have hfits : TableFits P (rs ++ [r]) := hfits
    rw [show (storage P).append r (opened P rs) = _ from onDisk_opened (append_open hfits)]
    exact ⟨rfl, rfl⟩
  appendMany := by
    rintro rs' - d rs rfl hfits
    rw [show memoryStorage.appendMany rs' rs = _ from memoryAppendMany_apply rs' rs] at hfits ⊢
    rw [show (storage P).appendMany rs' (opened P rs) = _ from
      onDisk_opened (appendMany_open hfits)]
    exact ⟨rfl, rfl⟩
  load := by
    rintro d rs rfl hfits
    have hfits : TableFits P rs := hfits
    rw [show (storage P).load (opened P rs) = _ from onDisk_opened (load_open hfits)]
    exact ⟨forall₂_alike_reloaded hfits.stores, rfl⟩
  loadLast := by
    rintro d rs rfl hfits
    have hfits : TableFits P rs := hfits
    rw [show (storage P).loadLast (opened P rs) = _ from onDisk_opened (loadLast_open hfits)]
    have hlast := getLast?_of_alike (forall₂_alike_reloaded hfits.stores)
    rw [List.getLast?_map] at hlast
    exact ⟨hlast, rfl⟩

end SqliteBackend

/-! ### Runs -/

/-- **A log on a file** answers every call as the log on a list does, and the two show the
same afterwards, as long as the records come back and no text breaks a line. -/
theorem jsonl_answers (B : JsonlBackend) {cfg : Config P} {log : AuditLog P}
    (hnew : AuditLog.new cfg = .ok log) {file : LogFile} (hempty : file.getD [] = [])
    (calls : List (Call P))
    (hrecords : ∀ r ∈ (runCalls calls (inMemory log)).2.contents, r.Keepable P ∧ r.OneLine) :
    (answers calls (⟨log, file⟩ : World P (B.storage P))).1 = (answers calls (inMemory log)).1 ∧
      SameView (answers calls (⟨log, file⟩ : World P (B.storage P))).2
        (runCalls calls (inMemory log)).2 ∧
      B.Keeps P (answers calls (⟨log, file⟩ : World P (B.storage P))).2.store
        (runCalls calls (inMemory log)).2.contents := by
  have hworlds : (B.standIn P).Worlds (⟨log, file⟩ : World P (B.storage P)) (inMemory log) :=
    StandIn.worlds_of_new hnew ⟨file, hempty, rfl⟩
  obtain ⟨hanswers, hfound, hview⟩ := StandIn.run_spec (B.standIn P) calls hworlds fun r hr =>
    ⟨⟨finished_of_run (new_inited hnew) hr, (hrecords r hr).1⟩, (hrecords r hr).2⟩
  exact ⟨hanswers, hview, hfound⟩

/-- ASCII without metadata comes back, and breaks no line. -/
theorem keepable_of_ascii {r : AuditRecord}
    (htexts : ∀ s ∈ r.texts, s.all (fun c => c.val < 128) = true) (hmeta : r.metadata = []) :
    r.Keepable P ∧ r.OneLine := by
  have hids : Encodable r.keyId ∧ Encodable r.signerId := by
    constructor <;>
      exact beyondAscii_isSurrogate.avoids (htexts _ (by simp [AuditRecord.texts]))
  refine ⟨⟨?_, ?_, hids.1, hids.2⟩, fun s hs => beyondAscii_isWideBreak.avoids (htexts s hs), ?_⟩
  · rw [AuditRecord.FloatsKept, hmeta]
    trivial
  · rw [hmeta]
    exact ⟨List.Pairwise.nil, trivial⟩
  · rw [hmeta]
    trivial

/-- `alice` logs in, and a new log is opened. -/
def sampleCalls : List (Call referenceRuntime) := [sampleAppend, .reopen {}]

theorem keepable_sampleCalls : ∀ r ∈ (runCalls sampleCalls (inMemory plainLog)).2.contents,
    r.Keepable referenceRuntime ∧ r.OneLine := by
  have hcheck : (runCalls sampleCalls (inMemory plainLog)).2.contents.all (fun r =>
      r.texts.all (fun s => s.all fun c => c.val < 128) && r.metadata.isEmpty) = true := by
    decide +kernel
  intro r hr
  have hr' := List.all_eq_true.mp hcheck r hr
  rw [Bool.and_eq_true] at hr'
  exact keepable_of_ascii (List.all_eq_true.mp hr'.1) (List.isEmpty_iff.mp hr'.2)

/-- On a file that is not there. -/
theorem jsonl_answers_sample :
    (answers sampleCalls (⟨plainLog, none⟩ : World referenceRuntime
        (JsonlBackend.storage referenceRuntime ⟨lit "log", .crlf⟩))).1
      = (answers sampleCalls (inMemory plainLog)).1 :=
  (jsonl_answers ⟨lit "log", .crlf⟩ new_default rfl sampleCalls keepable_sampleCalls).1

/-- What a log writes into an empty list, a table can hold. -/
theorem tableFits_of_run {cfg : Config P} {log : AuditLog P} (hnew : AuditLog.new cfg = .ok log)
    (calls : List (Call P))
    (hrecords : ∀ r ∈ (runCalls calls (inMemory log)).2.contents, r.Keepable P)
    (hlength : (runCalls calls (inMemory log)).2.contents.length ≤ 9223372036854775808) :
    TableFits P (runCalls calls (inMemory log)).2.contents :=
  TableFits.of_chained ((run_history calls (tailOk_of_new hnew _)).chained trivial)
    (fun r hr => ⟨finished_of_run (new_inited hnew) hr, hrecords r hr⟩) hlength

/-- **A log on a table** answers every call as the log on a list does, and the two show the
same afterwards, as long as the records come back and their numbers fit into the column. -/
theorem sqlite_answers {cfg : Config P} {log : AuditLog P} (hnew : AuditLog.new cfg = .ok log)
    {d : SqliteDatabase} (hempty : d.disk = []) (calls : List (Call P))
    (hrecords : ∀ r ∈ (runCalls calls (inMemory log)).2.contents, r.Keepable P)
    (hlength : (runCalls calls (inMemory log)).2.contents.length ≤ 9223372036854775808) :
    (answers calls (⟨log, d⟩ : World P (SqliteBackend.storage P))).1
        = (answers calls (inMemory log)).1 ∧
      SameView (answers calls (⟨log, d⟩ : World P (SqliteBackend.storage P))).2
        (runCalls calls (inMemory log)).2 ∧
      SqliteBackend.OnDisk P (answers calls (⟨log, d⟩ : World P (SqliteBackend.storage P))).2.store
        (runCalls calls (inMemory log)).2.contents := by
  have hworlds : (SqliteBackend.standIn P).Worlds
      (⟨log, d⟩ : World P (SqliteBackend.storage P)) (inMemory log) :=
    StandIn.worlds_of_new hnew hempty
  have hfits := tableFits_of_run hnew calls hrecords hlength
  obtain ⟨hanswers, hfound, hview⟩ :=
    StandIn.run_spec (SqliteBackend.standIn P) calls hworlds hfits
  exact ⟨hanswers, hview, hfound⟩

/-- On a new database. -/
theorem sqlite_answers_sample :
    (answers sampleCalls (⟨plainLog, ⟨[], none⟩⟩ : World referenceRuntime
        (SqliteBackend.storage referenceRuntime))).1
      = (answers sampleCalls (inMemory plainLog)).1 :=
  (sqlite_answers new_default rfl sampleCalls (fun r hr => (keepable_sampleCalls r hr).1)
    (by decide +kernel)).1

end AuditChain
