/-
AuditChain/Jsonl.lean

The JSONL backend: one line of JSON for each record, in one file.

A write appends lines to the file, and `load` splits the file into lines and
reads a record from each.  The two agree on what a line is except for the line
breaks outside ASCII, U+0085, U+2028 and U+2029, which are written as they are
inside a string and taken for the end of a line when the file is read.

    load_written_iff    what was written is read back exactly when no text in it
                        holds such a character
-/
import AuditChain.Operation
import AuditChain.Reference
import AuditChain.Stored
import AuditChain.TextLines

namespace AuditChain

open Python

/-! ### The code -/

/-- `LogCorruptedError`. -/
def logCorruptedError (msg : PyStr) : PyError := ⟨.user (lit "LogCorruptedError"), msg⟩

/-- `except (json.JSONDecodeError, KeyError, TypeError, ValueError)`. -/
def isUnreadable (e : PyError) : Bool :=
  e.isValueError || e.cls == .keyError || e.cls == .typeError

/-- The path of the file, as text, and the line separator of the platform. -/
structure JsonlBackend where
  path : PyStr
  linesep : LineSep

/-- What is at the path: nothing, or a file with these bytes. -/
abbrev LogFile := Option Bytes

variable (P : Runtime)

namespace JsonlBackend

variable (B : JsonlBackend)

/-- Open the file for appending and write a text. -/
def writeText (text : PyStr) : Operation PyError LogFile Unit := fun file =>
  match utf8Encode (B.linesep.translate text) with
  | .ok b => (.ok (), some (file.getD [] ++ b))
  -- the file is created when it is opened
  | .error e => (.error e, some (file.getD []))

/-- `JsonlBackend.append`. -/
def append (r : AuditRecord) : Operation PyError LogFile Unit := do
  let line ← Operation.ofExcept (r.serialize P)
  B.writeText (line ++ [10])

/-- `JsonlBackend.append_many`. -/
def appendMany (rs : List AuditRecord) : Operation PyError LogFile Unit := do
  let lines ← Operation.ofExcept (rs.mapM fun r => r.serialize P)
  B.writeText ([10].intercalate lines)
  if lines ≠ [] then B.writeText [10] else pure ()

/-- The lines of the file. -/
def readLines (file : LogFile) : Except PyError (List PyStr) :=
  match file with
  | none => .ok []
  | some b => do
    let text ← utf8Decode b
    return splitlines (universalNewlines text)

/-- The record on a line. -/
def readLine (lineno : ℕ) (line : PyStr) : Except PyError AuditRecord :=
  match (do let v ← loads P.floats line; AuditRecord.fromStored P v) with
  | .ok r => .ok r
  | .error e =>
    if isUnreadable e then
      .error (logCorruptedError (B.path ++ lit ":" ++ natStr lineno ++ lit ": " ++ e.msg))
    else .error e

/-- The records on the lines, from line `lineno` on. -/
def readFrom (lineno : ℕ) : List PyStr → Except PyError (List AuditRecord)
  | [] => .ok []
  | line :: lines =>
    if isBlank line then readFrom (lineno + 1) lines
    else do
      let r ← B.readLine P lineno line
      let rs ← readFrom (lineno + 1) lines
      return r :: rs

/-- `JsonlBackend.load`. -/
def load : Operation PyError LogFile (List AuditRecord) := fun file =>
  (do let lines ← readLines file; B.readFrom P 1 lines, file)

end JsonlBackend

/-- A call that writes to the backend. -/
inductive WriteCall
  | append (r : AuditRecord)
  | appendMany (rs : List AuditRecord)

/-- The records of a call. -/
def WriteCall.records : WriteCall → List AuditRecord
  | .append r => [r]
  | .appendMany rs => rs

/-- Make the call. -/
def WriteCall.make (B : JsonlBackend) : WriteCall → Operation PyError LogFile Unit
  | .append r => B.append P r
  | .appendMany rs => B.appendMany P rs

/-- Make calls one after the other. -/
def JsonlBackend.makeAll (B : JsonlBackend) : List WriteCall → Operation PyError LogFile Unit
  | [] => pure ()
  | call :: calls => do
    call.make P B
    B.makeAll calls

/-! ### What is written -/

/-- The line of a record. -/
def AuditRecord.line (r : AuditRecord) : PyStr :=
  printVal P.floats compactStyle 0 (.dict r.linePayload)

/-- A record for this backend: its metadata are JSON with string keys, its floats are
read back as they are printed, and its texts can be encoded. -/
structure AuditRecord.Storable (r : AuditRecord) : Prop where
  json : r.JsonMetadata
  floats : r.FloatsKept P
  encodable : r.AllLeaves Encodable fun _ => True

/-- No text of the record holds a line break outside ASCII. -/
def AuditRecord.OneLine (r : AuditRecord) : Prop :=
  r.AllLeaves (Avoids isWideBreak) fun _ => True

/-- The records have equal fields, with metadata equal up to the order of their keys. -/
structure EqualFields (r s : AuditRecord) : Prop where
  seq : r.seq = s.seq
  timestamp : r.timestamp = s.timestamp
  actor : r.actor = s.actor
  action : r.action = s.action
  subject : r.subject = s.subject
  metadata : r.sortedMetadata P = s.sortedMetadata P
  prevHash : r.prevHash = s.prevHash
  hash : r.hash = s.hash
  keyId : r.keyId = s.keyId
  signerId : r.signerId = s.signerId
  signature : r.signature = s.signature

variable {P}

theorem keys_linePayload_ascii (r : AuditRecord) :
    ∀ kv ∈ r.linePayload, kv.1.text.all (fun c => c.val < 128) = true := by
  unfold AuditRecord.linePayload
  split <;> split <;> split <;>
    (simp only [List.append_nil, List.cons_append, List.nil_append, List.forall_mem_cons,
      List.not_mem_nil, false_implies, implies_true, and_true, PyKey.text]
     decide)

/-- A class of characters outside ASCII is in the line when it is in a text. -/
theorem avoids_line {bad : CodePoint → Bool} (h : BeyondAscii bad) (r : AuditRecord) :
    Avoids bad (r.line P) ↔ r.AllLeaves (Avoids bad) fun _ => True := by
  rw [AuditRecord.line, avoids_printVal h]
  exact allLeaves_linePayload (fun kv hkv => h.avoids (keys_linePayload_ascii r kv hkv)) avoids_nil

namespace AuditRecord.Storable

variable {r : AuditRecord} (h : r.Storable P)

include h

theorem serializable : (PyVal.dict r.metadata).serializable = true :=
  serializable_of_isJson _ h.json

theorem serialize : r.serialize P = .ok (r.line P) := by
  obtain ⟨v, hline, -⟩ := fromStored_serialize h.serializable h.floats
  exact hline

theorem encodable_line : Encodable (r.line P) :=
  (avoids_line beyondAscii_isSurrogate r).mpr h.encodable

/-- What is read from the line is the record. -/
theorem readLine (B : JsonlBackend) (lineno : ℕ) :
    B.readLine P lineno (r.line P) = .ok (r.reloaded P) := by
  obtain ⟨v, -, hloads, hstored⟩ := fromStored_serialize h.serializable h.floats
  rw [JsonlBackend.readLine, AuditRecord.line, hloads, ok_bind, hstored]

theorem equalFields : EqualFields P r (r.reloaded P) := by
  refine ⟨rfl, rfl, rfl, rfl, rfl, ?_, rfl, rfl, rfl, rfl, rfl⟩
  show (PyVal.dict r.metadata).canon P.floats = (PyVal.dict (r.reloaded P).metadata).canon P.floats
  rw [← jsonMetadata_eq, AuditRecord.jsonMetadata, jsonValue_eq_canon _ _ h.json,
    canon_canon _ _ h.json]

end AuditRecord.Storable

/-! ### The form of a line -/

/-- A line is in braces. -/
theorem line_eq (r : AuditRecord) : ∃ s, r.line P = ch '\x7b' :: s ++ [ch '\x7d'] := by
  rw [AuditRecord.line, printVal_dict, bracketed]
  split
  · exact ⟨[], rfl⟩
  · exact ⟨_, rfl⟩

theorem isBlank_line (r : AuditRecord) : isBlank (r.line P) = false := by
  obtain ⟨s, hline⟩ := line_eq r (P := P)
  rw [hline]
  exact isBlank_of_mem (c := ch '\x7b') (by decide) List.mem_cons_self

theorem printable_line (r : AuditRecord) : Printable (r.line P) := printable_printVal _ _ _

/-- The breaks in a line are those outside ASCII. -/
theorem avoids_isLineBreak_line (r : AuditRecord) :
    Avoids isLineBreak (r.line P) ↔ r.OneLine := by
  rw [AuditRecord.OneLine, ← avoids_line beyondAscii_isWideBreak (P := P)]
  refine forall₂_congr fun c hc => ?_
  rw [isLineBreak_of_printable (printable_line r c hc)]

/-- A line gives at least one line that is not blank, and more if it is broken. -/
theorem filledLines_line (r : AuditRecord) :
    1 ≤ (filledLines (r.line P)).length ∧ (¬r.OneLine → 2 ≤ (filledLines (r.line P)).length) := by
  obtain ⟨s, hline⟩ := line_eq r (P := P)
  refine ⟨filledLines_pos (c := ch '\x7b') (by decide) (by simp [hline]), fun hbroken => ?_⟩
  rw [AuditRecord.OneLine, ← avoids_line beyondAscii_isWideBreak (P := P), hline] at hbroken
  have hinside : ¬Avoids isWideBreak s := by
    intro hs
    apply hbroken
    rw [List.cons_append, avoids_cons, avoids_append]
    exact ⟨by decide, hs, avoids_cons.mpr ⟨by decide, avoids_nil⟩⟩
  simp only [Avoids, not_forall, Bool.not_eq_false] at hinside
  obtain ⟨b, hb, hwide⟩ := hinside
  have hbreak : isLineBreak b = true := by
    have hmem : b ∈ r.line P := by simp [hline, hb]
    rw [isLineBreak_of_printable (printable_line r b hmem), hwide]
  rw [hline]
  exact two_le_filledLines (by decide) (by decide) hb hbreak

variable (P) in
/-- The record is read from the line. -/
def Reads (line : PyStr) (r : AuditRecord) : Prop :=
  ∃ v, loads P.floats line = .ok v ∧ AuditRecord.fromStored P v = .ok r

/-- The text of the file. -/
def fileText (file : LogFile) : Except PyError PyStr :=
  match file with
  | none => .ok []
  | some b => utf8Decode b

/-! ### Writing -/

variable (P) in
/-- The record has a line, and the line can be encoded. -/
structure AuditRecord.Writable (r : AuditRecord) : Prop where
  serialize : r.serialize P = .ok (r.line P)
  encodable : Encodable (r.line P)

theorem serialize_eq_ok {r : AuditRecord} {line : PyStr} (h : r.serialize P = .ok line) :
    line = r.line P := by
  rw [AuditRecord.serialize, dumps] at h
  split at h
  · exact (Except.ok.inj h).symm
  · cases h

theorem AuditRecord.Storable.writable {r : AuditRecord} (h : r.Storable P) : r.Writable P :=
  ⟨h.serialize, h.encodable_line⟩

namespace JsonlBackend

variable {B : JsonlBackend} {file : LogFile}

variable (B) in
/-- The file holds this text, with the separators of the platform. -/
def Holds (text : PyStr) (file : LogFile) : Prop :=
  utf8Encode (B.linesep.translate text) = .ok (file.getD [])

variable (B) in
/-- A text was added to the file, with the separators of the platform. -/
def Adds (t : PyStr) (file file' : LogFile) : Prop :=
  ∃ b, utf8Encode (B.linesep.translate t) = .ok b ∧ file' = some (file.getD [] ++ b)

theorem Adds.trans {s t : PyStr} {file₁ file₂ : LogFile} (h : B.Adds s file file₁)
    (h' : B.Adds t file₁ file₂) : B.Adds (s ++ t) file file₂ := by
  obtain ⟨b, hb, rfl⟩ := h
  obtain ⟨b', hb', rfl⟩ := h'
  refine ⟨b ++ b', ?_, by rw [Option.getD_some, List.append_assoc]⟩
  rw [LineSep.translate_append]
  exact utf8Encode_append hb hb'

theorem Adds.holds {text t : PyStr} {file' : LogFile} (h : B.Adds t file file')
    (hholds : B.Holds text file) : B.Holds (text ++ t) file' := by
  obtain ⟨b, hb, rfl⟩ := h
  rw [Holds, LineSep.translate_append]
  exact utf8Encode_append hholds hb

/-- What is read behind the text that was there is the text that was added. -/
theorem Adds.fileText {text t : PyStr} {file' : LogFile} (h : B.Adds t file file')
    (htext : fileText file = .ok text) : fileText file' = .ok (text ++ B.linesep.translate t) := by
  obtain ⟨b, hb, rfl⟩ := h
  cases file with
  | none =>
    obtain rfl := Except.ok.inj htext
    exact utf8Decode_utf8Encode hb
  | some a => exact utf8Decode_append htext hb

theorem Adds.encodable {t : PyStr} {file' : LogFile} (h : B.Adds t file file') : Encodable t := by
  obtain ⟨b, hb, -⟩ := h
  exact B.linesep.encodable_translate_iff.mp (utf8Encode_ok_iff.mp ⟨b, hb⟩)

theorem exists_adds (file : LogFile) {t : PyStr} (ht : Encodable t) :
    ∃ file', B.Adds t file file' := by
  obtain ⟨b, hb⟩ := utf8Encode_ok_iff.mpr (B.linesep.encodable_translate_iff.mpr ht)
  exact ⟨_, b, hb, rfl⟩

/-- **What a write that returns does.** -/
theorem writeText_eq_ok {t : PyStr} {file' : LogFile} :
    B.writeText t file = (.ok (), file') ↔ B.Adds t file file' := by
  unfold writeText Adds
  constructor
  · intro h
    split at h
    · rename_i b hb
      exact ⟨b, hb, (Prod.mk.inj h).2.symm⟩
    · cases (Prod.mk.inj h).1
  · rintro ⟨b, hb, rfl⟩
    rw [hb]

theorem writeText_spec (file : LogFile) {t : PyStr} (ht : Encodable t) :
    ∃ file', B.writeText t file = (.ok (), file') ∧ B.Adds t file file' := by
  obtain ⟨file', hadds⟩ := exists_adds (B := B) file ht
  exact ⟨file', writeText_eq_ok.mpr hadds, hadds⟩

/-- **What an append that returns does**: it adds the line of the record. -/
theorem append_eq_ok {r : AuditRecord} {file' : LogFile} :
    B.append P r file = (.ok (), file') ↔
      r.serialize P = .ok (r.line P) ∧ B.Adds (joinLines [r.line P]) file file' := by
  rw [show joinLines [r.line P] = r.line P ++ [10] by simp [joinLines], ← writeText_eq_ok, append]
  cases hline : r.serialize P with
  | ok line =>
    obtain rfl := serialize_eq_ok hline
    rw [Operation.bind_ofExcept_ok rfl, eq_self, true_and]
  | error e =>
    rw [Operation.bind_ofExcept_error rfl]
    constructor
    · intro h
      cases (Prod.mk.inj h).1
    · intro h
      cases h.1

theorem append_spec (file : LogFile) {r : AuditRecord} (hr : r.Writable P) :
    ∃ file', B.append P r file = (.ok (), file') ∧ B.Adds (joinLines [r.line P]) file file' := by
  have hline := encodable_joinLines (List.forall_mem_singleton.mpr hr.encodable)
  obtain ⟨file', hadds⟩ := exists_adds (B := B) file hline
  exact ⟨file', append_eq_ok.mpr ⟨hr.serialize, hadds⟩, hadds⟩

theorem mapM_serialize {rs : List AuditRecord}
    (hrs : ∀ r ∈ rs, r.serialize P = .ok (r.line P)) :
    rs.mapM (fun r => r.serialize P) = .ok (rs.map (AuditRecord.line P)) := by
  induction rs with
  | nil => rfl
  | cons r rs ih =>
    obtain ⟨hr, hrs⟩ := List.forall_mem_cons.mp hrs
    rw [List.mapM_cons, hr, ok_bind, ih hrs, ok_bind]
    rfl

theorem appendMany_spec (file : LogFile) {rs : List AuditRecord} (hrs : ∀ r ∈ rs, r.Writable P) :
    ∃ file', B.appendMany P rs file = (.ok (), file') ∧
      B.Adds (joinLines (rs.map (AuditRecord.line P))) file file' := by
  rw [appendMany, Operation.bind_ofExcept_ok (mapM_serialize fun r hr => (hrs r hr).serialize)]
  by_cases hnil : rs = []
  · obtain ⟨file', hwrite, hadds⟩ := writeText_spec (B := B) file encodable_nil
    refine ⟨file', ?_, ?_⟩
    · rw [hnil]
      exact Operation.bind_ok hwrite
    · rw [hnil]
      exact hadds
  · have hlines : rs.map (AuditRecord.line P) ≠ [] := by simpa using hnil
    have hjoined := encodable_joinLines (List.forall_mem_map.mpr fun r hr => (hrs r hr).encodable)
    rw [← intercalate_newline hlines] at hjoined ⊢
    obtain ⟨hjoin, hend⟩ := encodable_append.mp hjoined
    obtain ⟨file₁, hwrite, hadds₁⟩ := writeText_spec (B := B) file hjoin
    obtain ⟨file₂, hwrite₂, hadds₂⟩ := writeText_spec (B := B) file₁ hend
    refine ⟨file₂, ?_, hadds₁.trans hadds₂⟩
    rw [Operation.bind_ok hwrite, if_pos hlines, hwrite₂]

/-- **What a call adds to a file**: the lines of its records. -/
theorem make_spec (file : LogFile) (call : WriteCall) (hcall : ∀ r ∈ call.records, r.Writable P) :
    ∃ file', call.make P B file = (.ok (), file') ∧
      B.Adds (joinLines (call.records.map (AuditRecord.line P))) file file' := by
  cases call with
  | append r => exact append_spec file (hcall r List.mem_cons_self)
  | appendMany rs => exact appendMany_spec file hcall

/-- **What a file holds after any calls**: the lines of all records, in order. -/
theorem makeAll_spec {lines : List PyStr} (calls : List WriteCall)
    (hcalls : ∀ r ∈ calls.flatMap WriteCall.records, r.Storable P)
    (hholds : B.Holds (joinLines lines) file) : ∃ file', B.makeAll P calls file = (.ok (), file') ∧
      B.Holds (joinLines (lines ++ (calls.flatMap WriteCall.records).map (AuditRecord.line P)))
        file' := by
  induction calls generalizing lines file with
  | nil => exact ⟨file, rfl, by simpa using hholds⟩
  | cons call calls ih =>
    rw [List.flatMap_cons] at hcalls ⊢
    obtain ⟨hcall, hrest⟩ := List.forall_mem_append.mp hcalls
    obtain ⟨file₁, hmake, hadds⟩ := make_spec file call fun r hr => (hcall r hr).writable
    have hholds₁ := hadds.holds hholds
    rw [← joinLines_append] at hholds₁
    obtain ⟨file₂, hmake₂, hholds₂⟩ := ih hrest hholds₁
    refine ⟨file₂, ?_, ?_⟩
    · rw [makeAll, Operation.bind_ok hmake, hmake₂]
    · rwa [List.append_assoc, ← List.map_append] at hholds₂

/-! ### Reading -/

/-- What is read are the lines of the text. -/
theorem load_of_holds {text : PyStr} (hholds : B.Holds text file) (hcr : 13 ∉ text) :
    B.load P file = (B.readFrom P 1 (splitlines text), file) := by
  have hlines : readLines file = .ok (splitlines text) := by
    cases file with
    | none =>
      have hnil : text = [] := by
        have hempty : B.linesep.translate text = [] := utf8Encode_inj hholds rfl
        rw [← universalNewlines_translate B.linesep hcr, hempty]
        rfl
      rw [hnil]
      rfl
    | some b =>
      have hdecode : utf8Decode b = .ok (B.linesep.translate text) := utf8Decode_utf8Encode hholds
      rw [readLines, hdecode, ok_bind, universalNewlines_translate B.linesep hcr]
      rfl
  rw [load, hlines, ok_bind]

theorem readLine_eq_ok {line : PyStr} {n : ℕ} {r : AuditRecord} :
    B.readLine P n line = .ok r ↔ Reads P line r := by
  rw [Reads, ← bind_eq_ok, readLine]
  split
  · rename_i r' hr
    rw [hr]
  · rename_i e he
    rw [he]
    constructor
    · intro h
      split at h <;> cases h
    · intro h
      cases h

/-- Every line that is not blank gives one record, on whatever line it is. -/
theorem readFrom_eq_ok {lines : List PyStr} {n : ℕ} {rs : List AuditRecord} :
    B.readFrom P n lines = .ok rs ↔
      List.Forall₂ (Reads P) (lines.filter fun l => !isBlank l) rs := by
  induction lines generalizing n rs with
  | nil =>
    rw [readFrom, List.filter_nil, List.forall₂_nil_left_iff, Except.ok.injEq, eq_comm]
  | cons line lines ih =>
    rw [readFrom]
    by_cases hblank : isBlank line = true
    · rw [if_pos hblank, ih, List.filter_cons_of_neg (by simp [hblank])]
    · rw [if_neg hblank, List.filter_cons_of_pos (by simpa using hblank),
        List.forall₂_cons_left_iff]
      simp only [bind_eq_ok, readLine_eq_ok, ih, pure_eq_ok, Except.ok.injEq]
      constructor
      · rintro ⟨r, hr, rs', hrs', rfl⟩
        exact ⟨r, rs', hr, hrs', rfl⟩
      · rintro ⟨r, rs', hr, hrs', rfl⟩
        exact ⟨r, hr, rs', hrs', rfl⟩

/-- The lines are the lines of the text, whatever its line breaks. -/
theorem load_of_fileText {text : PyStr} (h : fileText file = .ok text) :
    B.load P file = (B.readFrom P 1 (splitlines text), file) := by
  cases file with
  | none =>
    obtain rfl := Except.ok.inj h
    rfl
  | some b =>
    have hdecode : utf8Decode b = .ok text := h
    rw [load, readLines, hdecode, ok_bind, splitlines_universalNewlines]
    rfl

/-- **What is read from a file**: one record from each line of its text that is not
blank. -/
theorem load_eq_ok {rs : List AuditRecord} : (B.load P file).1 = .ok rs ↔
    ∃ text, fileText file = .ok text ∧ List.Forall₂ (Reads P) (filledLines text) rs := by
  constructor
  · intro h
    cases htext : fileText file with
    | error e =>
      -- an undecodable file is there, and `load` fails as its decoding does
      cases file with
      | none => cases htext
      | some b =>
        rw [load, readLines, show utf8Decode b = .error e from htext] at h
        cases h
    | ok text =>
      rw [load_of_fileText htext] at h
      exact ⟨text, rfl, readFrom_eq_ok.mp h⟩
  · rintro ⟨text, htext, h⟩
    rw [load_of_fileText htext]
    exact readFrom_eq_ok.mpr h

/-- Every line that is not blank gives one record. -/
theorem readFrom_length {lines : List PyStr} {n : ℕ} {rs : List AuditRecord}
    (h : B.readFrom P n lines = .ok rs) :
    rs.length = (lines.filter fun l => !isBlank l).length :=
  (readFrom_eq_ok.mp h).length_eq.symm

theorem readFrom_lines {rs : List AuditRecord} (hrs : ∀ r ∈ rs, r.Storable P) (n : ℕ) :
    B.readFrom P n (rs.map (AuditRecord.line P)) = .ok (rs.map (AuditRecord.reloaded P)) := by
  induction rs generalizing n with
  | nil => rfl
  | cons r rs ih =>
    obtain ⟨hr, hrs⟩ := List.forall_mem_cons.mp hrs
    rw [List.map_cons, readFrom, isBlank_line, hr.readLine, ok_bind, ih hrs, ok_bind]
    rfl

theorem cr_not_mem_joinLines (rs : List AuditRecord) :
    13 ∉ joinLines (rs.map (AuditRecord.line P)) := by
  intro hmem
  obtain ⟨l, hl, hmem⟩ := List.mem_flatMap.mp hmem
  obtain ⟨r, -, rfl⟩ := List.mem_map.mp hl
  rcases List.mem_append.mp hmem with hmem | hmem
  · exact absurd (printable_line r 13 hmem) (by decide)
  · exact absurd (List.mem_singleton.mp hmem) (by decide)

/-- Broken lines are more lines. -/
theorem length_lt_filledLines {rs : List AuditRecord} (h : ∃ r ∈ rs, ¬r.OneLine) :
    rs.length < (filledLines (joinLines (rs.map (AuditRecord.line P)))).length := by
  rw [filledLines_joined, List.flatMap_map, List.length_flatMap]
  have hle : ∀ rs : List AuditRecord, rs.length
      ≤ (rs.map fun r => (filledLines (r.line P)).length).sum := by
    intro rs
    induction rs with
    | nil => simp
    | cons r rs ih =>
      have hone := (filledLines_line r (P := P)).1
      rw [List.map_cons, List.sum_cons, List.length_cons]
      omega
  obtain ⟨r, hr, hbroken⟩ := h
  obtain ⟨rs₁, rs₂, rfl⟩ := List.append_of_mem hr
  have htwo := (filledLines_line r (P := P)).2 hbroken
  have h₁ := hle rs₁
  have h₂ := hle rs₂
  simp only [List.length_append, List.length_cons, List.map_append, List.map_cons,
    List.sum_append, List.sum_cons]
  omega

end JsonlBackend

/-- A file that gives its records back holds no broken line. -/
theorem oneLine_of_load {B : JsonlBackend} {file : LogFile} {rs rs' : List AuditRecord}
    (hholds : B.Holds (joinLines (rs.map (AuditRecord.line P))) file)
    (hload : (B.load P file).1 = .ok rs') (hsame : List.Forall₂ (EqualFields P) rs rs') :
    ∀ r ∈ rs, r.OneLine := by
  by_contra hbroken
  push Not at hbroken
  have hlt := JsonlBackend.length_lt_filledLines (P := P) hbroken
  rw [JsonlBackend.load_of_holds hholds (JsonlBackend.cr_not_mem_joinLines _)] at hload
  rw [filledLines, ← JsonlBackend.readFrom_length hload, ← hsame.length_eq] at hlt
  exact lt_irrefl _ hlt

theorem holds_nil {B : JsonlBackend} {file : LogFile} (hempty : file.getD [] = []) :
    B.Holds (joinLines []) file := by
  rw [JsonlBackend.Holds, hempty]
  rfl

/-- **When a file reads back what was written**: when no record holds a line break outside
ASCII. -/
theorem load_written_iff (B : JsonlBackend) {file : LogFile} (hempty : file.getD [] = [])
    (calls : List WriteCall) (hcalls : ∀ r ∈ calls.flatMap WriteCall.records, r.Storable P) :
    ∃ file', B.makeAll P calls file = (.ok (), file') ∧
      ((∃ rs, (B.load P file').1 = .ok rs ∧
          List.Forall₂ (EqualFields P) (calls.flatMap WriteCall.records) rs) ↔
        ∀ r ∈ calls.flatMap WriteCall.records, r.OneLine) := by
  obtain ⟨file', hmake, hholds⟩ := B.makeAll_spec calls hcalls (holds_nil hempty)
  rw [List.nil_append] at hholds
  refine ⟨file', hmake, ?_, fun hlines => ?_⟩
  · rintro ⟨rs, hload, hsame⟩
    exact oneLine_of_load hholds hload hsame
  · rw [JsonlBackend.load_of_holds hholds (JsonlBackend.cr_not_mem_joinLines _),
      splitlines_joined (List.forall_mem_map.mpr fun r hr =>
        (avoids_isLineBreak_line r).mpr (hlines r hr)), JsonlBackend.readFrom_lines hcalls 1]
    refine ⟨_, rfl, List.forall₂_map_right_iff.mpr (List.forall₂_same.mpr fun r hr => ?_)⟩
    exact (hcalls r hr).equalFields

/-- A record of this actor. -/
def recordOf (actor : PyStr) : AuditRecord where
  seq := 0
  timestamp := lit "now"
  actor := actor
  action := lit "login"
  subject := []
  metadata := [(.str (lit "actor"), .str actor)]
  prevHash := GENESIS_HASH
  hash := []

theorem allLeaves_recordOf {bad : CodePoint → Bool} (h : BeyondAscii bad) {actor : PyStr}
    (hactor : Avoids bad actor) : (recordOf actor).AllLeaves (Avoids bad) fun _ => True := by
  constructor
  · simp only [AuditRecord.texts, recordOf, List.forall_mem_cons]
    exact ⟨h.avoids (by decide), hactor, h.avoids (by decide), avoids_nil, h.avoids (by decide),
      avoids_nil, avoids_nil, avoids_nil, avoids_nil, by simp⟩
  · simp only [recordOf, PyVal.AllLeaves, ItemsAllLeaves, PyKey.text]
    exact ⟨h.avoids (by decide), hactor, trivial⟩

theorem storable_recordOf {actor : PyStr} (h : actor.all (fun c => !isSurrogate c) = true) :
    (recordOf actor).Storable P where
  json := by simp [AuditRecord.JsonMetadata, recordOf, PyVal.IsJson, ItemsJson, PyKey.isStr]
  floats := by simp [AuditRecord.FloatsKept, recordOf, PyVal.AllLeaves, ItemsAllLeaves]
  encodable := allLeaves_recordOf beyondAscii_isSurrogate (encodable_of_all h)

/-- A letter outside ASCII does no harm, in a batch and alone. -/
theorem load_written_sample : ∃ file', JsonlBackend.makeAll referenceRuntime ⟨lit "log", .crlf⟩
      [.appendMany [recordOf [0xE9], recordOf []], .append (recordOf [0xE9])] none
        = (.ok (), file') ∧
    ∃ rs, (JsonlBackend.load referenceRuntime ⟨lit "log", .crlf⟩ file').1 = .ok rs ∧
      List.Forall₂ (EqualFields referenceRuntime)
        [recordOf [0xE9], recordOf [], recordOf [0xE9]] rs := by
  have hletter : Avoids isWideBreak [0xE9] := avoids_cons.mpr ⟨by decide, avoids_nil⟩
  have hstorable : ∀ r ∈ [recordOf [0xE9], recordOf [], recordOf [0xE9]],
      r.Storable referenceRuntime := by
    simp only [List.forall_mem_cons]
    exact ⟨storable_recordOf (by decide), storable_recordOf (by decide),
      storable_recordOf (by decide), by simp⟩
  have hempty : (none : LogFile).getD [] = [] := rfl
  obtain ⟨file', hmake, hiff⟩ := load_written_iff (P := referenceRuntime) ⟨lit "log", .crlf⟩
    hempty [.appendMany [recordOf [0xE9], recordOf []], .append (recordOf [0xE9])]
    hstorable
  refine ⟨file', hmake, hiff.mpr ?_⟩
  show ∀ r ∈ [recordOf [0xE9], recordOf [], recordOf [0xE9]], r.OneLine
  simp only [List.forall_mem_cons]
  exact ⟨allLeaves_recordOf beyondAscii_isWideBreak hletter,
    allLeaves_recordOf beyondAscii_isWideBreak avoids_nil,
    allLeaves_recordOf beyondAscii_isWideBreak hletter, by simp⟩

/-- A record with a line separator in it, U+2028, is not read back. -/
theorem load_written_counterexample :
    ¬∀ (P : Runtime) (B : JsonlBackend) (file : LogFile) (calls : List WriteCall),
      file.getD [] = [] → (∀ r ∈ calls.flatMap WriteCall.records, r.Storable P) →
        ∃ rs, (B.load P (B.makeAll P calls file).2).1 = .ok rs ∧
          List.Forall₂ (EqualFields P) (calls.flatMap WriteCall.records) rs := by
  intro hclaim
  have hstorable : ∀ r ∈ [recordOf [0x2028]], r.Storable referenceRuntime :=
    List.forall_mem_singleton.mpr (storable_recordOf (by decide))
  have hempty : (none : LogFile).getD [] = [] := rfl
  obtain ⟨file', hmake, hholds⟩ := JsonlBackend.makeAll_spec (B := ⟨lit "log", .lf⟩)
    [.append (recordOf [0x2028])] hstorable (holds_nil hempty)
  obtain ⟨rs, hload, hsame⟩ := hclaim referenceRuntime ⟨lit "log", .lf⟩ none
    [.append (recordOf [0x2028])] rfl hstorable
  rw [hmake] at hload
  have hline := oneLine_of_load hholds hload hsame _ List.mem_cons_self
  exact absurd (hline.1 [0x2028] (by simp [AuditRecord.texts, recordOf]) 0x2028
    List.mem_cons_self) (by decide)

end AuditChain
