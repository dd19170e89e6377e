/-
AuditChain/BatchAppend.lean

Batches in a JSONL file.

A file is a sink as long as its last line is ended: the bytes behind its last
newline are white space of JSON.  Then `load_last` finds what was written, with
its number and its hash, whatever the batch.

    appendMany_eq_appendAll    one batch and its entries one by one, in a backend
                               that keeps its records in order and in a JSONL file
-/
import AuditChain.Appending
import AuditChain.Batches
import AuditChain.JsonlTail

namespace AuditChain

open Python Pieces

variable {P : Runtime}

/-- `JsonlBackend`.  Opening it makes directories only. -/
def JsonlBackend.storage (P : Runtime) (B : JsonlBackend) : StorageBackend where
  State := LogFile
  init := pure ()
  append := B.append P
  appendMany := B.appendMany P
  load := B.load P
  loadLast := B.loadLast P

/-! ### Lines of finished records -/

namespace AuditRecord.Finished

variable {r : AuditRecord} (h : r.Finished P)

include h

theorem serializable : (PyVal.dict r.metadata).serializable = true :=
  (exists_hashInput_iff.mp h.hashed).2.1

theorem serialize : r.serialize P = .ok (r.line P) := by
  rw [AuditRecord.serialize, dumps, if_pos (serializable_linePayload h.serializable)]
  rfl

/-- Only the ids can keep the line from having bytes. -/
theorem encodable_line_iff : Encodable (r.line P) ↔ Encodable r.keyId ∧ Encodable r.signerId := by
  obtain ⟨hprev, -, hpayload⟩ := exists_hashInput_iff.mp h.hashed
  obtain ⟨hts, hactor, haction, hsubject, hprev', hleaves⟩ := encodablePayload_iff.mp hpayload
  have hline : Encodable (r.line P) ↔ r.AllLeaves Encodable fun _ => True :=
    avoids_line beyondAscii_isSurrogate r
  rw [hline, AuditRecord.AllLeaves, AuditRecord.texts]
  simp only [List.forall_mem_cons, List.not_mem_nil, false_implies, implies_true, hts, hactor,
    haction, hsubject, hprev', hleaves, h.hash, h.signature, true_and, and_true]

theorem writable (hids : Encodable r.keyId ∧ Encodable r.signerId) : r.Writable P :=
  ⟨h.serialize, h.encodable_line_iff.mpr hids⟩

end AuditRecord.Finished

/-! ### Bytes of lines -/

/-- A carriage return in front of a newline is white space of JSON. -/
theorem exists_linesep_eq (sep : LineSep) :
    ∃ w, AllSpace w ∧ 10 ∉ w ∧ sep.text = w ++ [10] := by
  cases sep with
  | lf => exact ⟨[], allSpace_nil, by simp, rfl⟩
  | crlf => exact ⟨[13], List.forall_mem_singleton.mpr (by decide), by decide, rfl⟩

/-- Only a newline has the byte of a newline. -/
theorem newline_not_mem_encode {t : PyStr} {b : Bytes} (h : utf8Encode t = .ok b) (ht : 10 ∉ t) :
    10 ∉ b := by
  obtain ⟨cs, rfl, rfl⟩ := utf8Decode_eq_ok.mp (utf8Decode_utf8Encode h)
  intro hmem
  obtain ⟨x, hx, hbyte⟩ := List.mem_flatMap.mp hmem
  rw [eq_newline_of_mem hbyte] at hx
  exact ht (List.mem_map.mpr ⟨'\n', hx, rfl⟩)

theorem all_isSpaceByte_encode {t : PyStr} {b : Bytes} (h : utf8Encode t = .ok b) :
    b.all isSpaceByte = t.all isAsciiSpace := by
  obtain ⟨cs, rfl, rfl⟩ := utf8Decode_eq_ok.mp (utf8Decode_utf8Encode h)
  rw [List.all_flatMap, List.all_map]
  exact congrArg (List.all cs) (funext all_isSpaceByte_utf8EncodeChar)

/-- Behind the last newline of the file there is nothing but white space of JSON. -/
def NewlineEnded (file : LogFile) : Prop :=
  ∃ w, AllSpace w ∧ utf8Encode w = .ok (lastRun (· == 10) (file.getD []))

theorem newlineEnded_of_empty {file : LogFile} (h : file.getD [] = []) : NewlineEnded file :=
  ⟨[], allSpace_nil, by rw [h]; rfl⟩

/-- A line that is written behind a line that was ended is the last line, up to white space of
JSON. -/
theorem lastLine_append_line {file : LogFile} (hfile : NewlineEnded file) {l : PyStr}
    {b : Bytes} (hb : utf8Encode l = .ok b) (hnewline : 10 ∉ l)
    (hfilled : l.all isAsciiSpace = false) : ∃ w, AllSpace w ∧
      lastLine (some (file.getD [] ++ (b ++ [10]))) = .ok (some (w ++ l)) := by
  obtain ⟨w, hw, hrun⟩ := hfile
  refine ⟨w, hw, ?_⟩
  have hboth := utf8Encode_append hrun hb
  obtain ⟨front, hfront⟩ : ∃ front, ∀ m, pieces (· == 10) isSpaceByte (file.getD [] ++ m)
      = front ++ pieces (· == 10) isSpaceByte (lastRun (· == 10) (file.getD []) ++ m) :=
    exists_pieces_append _
  have hfree : ∀ x ∈ lastRun (· == 10) (file.getD []) ++ b, (x == (10 : UInt8)) = false := by
    intro x hx
    rcases List.mem_append.mp hx with hx | hx
    · have hnot := not_sep_of_mem_lastRun hx
      exact hnot
    · rw [beq_eq_false_iff_ne]
      rintro rfl
      exact newline_not_mem_encode hb hnewline hx
  have hlast : (tailLines (file.getD [] ++ (b ++ [10]))).getLast?
      = some (lastRun (· == 10) (file.getD []) ++ b) := by
    rw [tailLines_eq_pieces, ← List.append_assoc, pieces_append_sep (by decide), hfront,
      pieces_of_forall_not hfree, all_isSpaceByte_encode hboth, List.all_append, hfilled,
      Bool.and_false]
    simp [pieces]
  rw [lastLine, scanTail_length, hlast]
  simp only [utf8Decode_utf8Encode hboth]
  rfl

namespace JsonlBackend

variable (B : JsonlBackend)

variable (P) in
/-- The bytes that are written for a record. -/
def lineBytes (r : AuditRecord) : Bytes :=
  match utf8Encode (B.linesep.translate (joinLines [r.line P])) with
  | .ok b => b
  | .error _ => []

variable {B}

theorem lineBytes_spec {r : AuditRecord} (h : Encodable (r.line P)) :
    utf8Encode (B.linesep.translate (joinLines [r.line P])) = .ok (B.lineBytes P r) := by
  have hjoined := encodable_joinLines (List.forall_mem_singleton.mpr h)
  obtain ⟨b, hb⟩ := utf8Encode_ok_iff.mpr (B.linesep.encodable_translate_iff.mpr hjoined)
  rw [lineBytes, hb]

/-- The bytes of joined lines, one line after the other. -/
theorem encode_lines {rs : List AuditRecord} (h : ∀ r ∈ rs, Encodable (r.line P)) :
    utf8Encode (B.linesep.translate (joinLines (rs.map (AuditRecord.line P))))
      = .ok (rs.flatMap (B.lineBytes P)) := by
  induction rs with
  | nil => rfl
  | cons r rs ih =>
    obtain ⟨hr, hrs⟩ := List.forall_mem_cons.mp h
    rw [List.map_cons, ← List.singleton_append, joinLines_append, LineSep.translate_append,
      List.flatMap_cons]
    exact utf8Encode_append (lineBytes_spec hr) (ih hrs)

theorem Adds.eq {rs : List AuditRecord} {file file' : LogFile}
    (h : B.Adds (joinLines (rs.map (AuditRecord.line P))) file file')
    (hrs : ∀ r ∈ rs, Encodable (r.line P)) :
    file' = some (file.getD [] ++ rs.flatMap (B.lineBytes P)) := by
  obtain ⟨b, hb, rfl⟩ := h
  rw [Except.ok.inj ((encode_lines hrs).symm.trans hb)]

/-- A line ends with a newline, up to white space of JSON. -/
theorem exists_lineBytes_eq {r : AuditRecord} (h : Encodable (r.line P)) : ∃ w b, AllSpace w ∧
    10 ∉ w ∧ utf8Encode (r.line P ++ w) = .ok b ∧ B.lineBytes P r = b ++ [10] := by
  obtain ⟨w, hw, hnewline, htext⟩ := exists_linesep_eq B.linesep
  have htranslate : B.linesep.translate (joinLines [r.line P]) = (r.line P ++ w) ++ [10] := by
    rw [joinLines_cons, B.linesep.translate_line (newline_not_mem_line r), htext]
    simp [joinLines, LineSep.translate]
  have hbytes := lineBytes_spec (B := B) h
  rw [htranslate] at hbytes
  obtain ⟨b, hb⟩ := utf8Encode_ok_iff.mpr
    (encodable_append.mp (utf8Encode_ok_iff.mp ⟨_, hbytes⟩)).1
  refine ⟨w, b, hw, hnewline, hb, Except.ok.inj (hbytes.symm.trans ?_)⟩
  exact utf8Encode_append hb rfl

/-! ### A file as a sink -/

/-- What cannot be encoded is not written, and the file is there. -/
theorem writeText_error {t : PyStr} (h : ¬Encodable t) (file : LogFile) :
    B.writeText t file
      = (.error ⟨.unicodeEncodeError, lit "can't encode character"⟩, some (file.getD [])) := by
  unfold writeText
  cases hbytes : utf8Encode (B.linesep.translate t) with
  | ok b =>
    have hall := utf8Encode_ok_iff.mp ⟨b, hbytes⟩
    exact absurd (B.linesep.encodable_translate_iff.mp hall) h
  | error e =>
    unfold utf8Encode encoded at hbytes
    split at hbytes
    · cases hbytes
    · rw [← Except.error.inj hbytes]

theorem append_refused {r : AuditRecord} (h : r.Finished P)
    (hids : ¬(Encodable r.keyId ∧ Encodable r.signerId)) (file : LogFile) : B.append P r file
      = (.error ⟨.unicodeEncodeError, lit "can't encode character"⟩, some (file.getD [])) := by
  rw [append, Operation.bind_ofExcept_ok h.serialize]
  refine writeText_error (fun hline => hids ?_) file
  exact h.encodable_line_iff.mp (encodable_append.mp hline).1

theorem appendMany_refused {rs : List AuditRecord} (hne : rs ≠ [])
    (h : ∀ r ∈ rs, r.Finished P ∧ ¬(Encodable r.keyId ∧ Encodable r.signerId)) (file : LogFile) :
    B.appendMany P rs file
      = (.error ⟨.unicodeEncodeError, lit "can't encode character"⟩, some (file.getD [])) := by
  obtain ⟨r, rs, rfl⟩ := List.exists_cons_of_ne_nil hne
  obtain ⟨hr, hids⟩ := h r List.mem_cons_self
  rw [appendMany, Operation.bind_ofExcept_ok (mapM_serialize fun r hr => (h r hr).1.serialize)]
  refine Operation.bind_error (writeText_error (fun hall => hids ?_) file)
  have hjoined := encodable_append.mpr ⟨hall, encodable_of_all (s := [10]) (by decide)⟩
  rw [intercalate_newline (by simp), List.map_cons, joinLines_cons] at hjoined
  exact hr.encodable_line_iff.mp (encodable_append.mp hjoined).1

variable (P) in
/-- The file after records were written to it. -/
def added (B : JsonlBackend) (file : LogFile) (rs : List AuditRecord) : LogFile :=
  if rs = [] then file else some (file.getD [] ++ rs.flatMap (B.lineBytes P))

theorem added_getD (file : LogFile) (rs : List AuditRecord) :
    (B.added P file rs).getD [] = file.getD [] ++ rs.flatMap (B.lineBytes P) := by
  rw [added]
  split
  · rename_i hnil
    rw [hnil, List.flatMap_nil, List.append_nil]
  · rfl

theorem added_added (file : LogFile) (rs rs' : List AuditRecord) :
    B.added P (B.added P file rs) rs' = B.added P file (rs ++ rs') := by
  by_cases hnil : rs' = []
  · rw [hnil, added, if_pos rfl, List.append_nil]
  · rw [added, if_neg hnil, added_getD, added, if_neg (by simp [hnil]), List.flatMap_append,
      List.append_assoc]

/-- Written lines leave the last line ended. -/
theorem newlineEnded_added {file : LogFile} (h : NewlineEnded file) (rs : List AuditRecord) :
    NewlineEnded (B.added P file rs) := by
  induction rs generalizing file with
  | nil => exact h
  | cons r rs ih =>
    rw [← List.singleton_append, ← added_added]
    apply ih
    by_cases hr : Encodable (r.line P)
    · obtain ⟨w, b, -, -, -, hbytes⟩ := exists_lineBytes_eq (B := B) hr
      refine ⟨[], allSpace_nil, ?_⟩
      rw [added_getD, List.flatMap_singleton, hbytes, ← List.append_assoc,
        lastRun_append_sep (by decide) (by simp)]
      rfl
    · obtain ⟨w, hw, hrun⟩ := h
      have hnil : B.lineBytes P r = [] := by
        unfold lineBytes
        split
        · rename_i b hb
          have hall := B.linesep.encodable_translate_iff.mp (utf8Encode_ok_iff.mp ⟨b, hb⟩)
          rw [joinLines_cons] at hall
          exact absurd (encodable_append.mp hall).1 hr
        · rfl
      refine ⟨w, hw, ?_⟩
      rw [added_getD, List.flatMap_singleton, hnil, List.append_nil, hrun]

theorem append_added {r : AuditRecord} (h : r.Writable P) (file : LogFile) :
    B.append P r file = (.ok (), B.added P file [r]) := by
  obtain ⟨file', happend, hadds⟩ := append_spec (B := B) file h
  have hlines : B.Adds (joinLines ([r].map (AuditRecord.line P))) file file' := hadds
  rw [happend, hlines.eq (List.forall_mem_singleton.mpr h.encodable)]
  rfl

theorem appendMany_added {rs : List AuditRecord} (hne : rs ≠ []) (h : ∀ r ∈ rs, r.Writable P)
    (file : LogFile) : B.appendMany P rs file = (.ok (), B.added P file rs) := by
  obtain ⟨file', happend, hadds⟩ := appendMany_spec (B := B) file h
  rw [happend, hadds.eq fun r hr => (h r hr).encodable, added, if_neg hne]

/-- The record that was written last is found, with its metadata as JSON. -/
theorem loadLast_added {file : LogFile} (hfile : NewlineEnded file) {r : AuditRecord}
    (h : r.Writable P) (hser : (PyVal.dict r.metadata).serializable = true)
    (hfloats : r.FloatsKept P) :
    (B.loadLast P (B.added P file [r])).1 = .ok (some (r.reloaded P)) := by
  obtain ⟨w', b, hw', hnewline, hb, hbytes⟩ := exists_lineBytes_eq (B := B) h.encodable
  obtain ⟨s, hs⟩ := line_eq r (P := P)
  have hbrace : ch '\x7b' ∈ r.line P ++ w' := by simp [hs]
  have hfree : 10 ∉ r.line P ++ w' := by
    rw [List.mem_append, not_or]
    exact ⟨newline_not_mem_line r, hnewline⟩
  obtain ⟨w, hw, hlast⟩ := lastLine_append_line hfile hb hfree
    (List.all_eq_false.mpr ⟨ch '\x7b', hbrace, by decide⟩)
  rw [← hbytes] at hlast
  rw [added, if_neg (by simp), List.flatMap_singleton,
    loadLast_of_lastLine hlast (List.append_ne_nil_of_right_ne_nil _ (List.ne_nil_of_mem hbrace))]
  obtain ⟨v, -, hloads, hstored⟩ := fromStored_serialize hser hfloats
  have hreads : Reads P (r.line P) (r.reloaded P) := ⟨v, hloads, hstored⟩
  exact ⟨_, rfl, (reads_space_append hw).mpr ((hreads.append_iff w').mpr ⟨hw', rfl⟩)⟩

variable (P) in
/-- A file takes records in order, and the last one is found as long as the lines are ended. -/
def sink (B : JsonlBackend) : Sink P (B.storage P) where
  View := LogFile
  view := id
  put := B.added P
  Storable keyId signerId := Encodable keyId ∧ Encodable signerId
  refusal := ⟨.unicodeEncodeError, lit "can't encode character"⟩
  refused file := some (file.getD [])
  Ready := NewlineEnded
  Readable metadata := (PyVal.dict metadata).AllLeaves (fun _ => True) P.floats.Keeps
  init_view _ := rfl
  load_view _ := rfl
  loadLast_view _ := rfl
  put_nil _ := if_pos rfl
  put_put := added_added
  append_ok := fun h hids file => ⟨_, append_added (h.writable hids) file, rfl⟩
  append_error := fun h hids file => ⟨_, append_refused h hids file, rfl⟩
  appendMany_ok := fun hne h file =>
    ⟨_, appendMany_added hne (fun r hr => (h r hr).1.writable (h r hr).2) file, rfl⟩
  appendMany_error := fun hne h file => ⟨_, appendMany_refused hne h file, rfl⟩
  ready_put := newlineEnded_added
  loadLast_put := fun {file r} hfile h hids hfloats s hs => by
    obtain rfl : s = B.added P file [r] := hs
    exact ⟨_, loadLast_added hfile (h.writable hids) h.serializable hfloats, rfl, rfl⟩

end JsonlBackend

/-! ### One batch, or one append after the other -/

variable (P) in
/-- The floats in the entry are read back as they are printed. -/
def BatchEntry.FloatsKept (e : BatchEntry) : Prop :=
  (PyVal.dict (e.metadata.getD [])).AllLeaves (fun _ => True) P.floats.Keeps

/-- **A batch does what its entries do one by one**, over a backend that keeps its records in
order and over a JSONL file, except that without entries it still looks for the tail, stores
nothing and returns nothing; and it stores nothing when one of its entries cannot be
serialized. -/
theorem appendMany_eq_appendAll (entries : List BatchEntry) (clock now : ℕ → PyStr)
    (hclock : ∀ i, clock i ≠ [] ∧ Encodable (clock i)) :
    (∀ (B : OrderedBackend) (w : World P B.toStorageBackend),
      ((∀ e ∈ entries, e.Serializable) →
        (World.appendMany entries clock w).1 = (World.appendAll entries clock now w).1 ∧
          (World.appendMany entries clock w).2.contents
            = (World.appendAll entries clock now w).2.contents ∧
          (entries ≠ [] → (World.appendMany entries clock w).2.log
            = (World.appendAll entries clock now w).2.log)) ∧
      ((∃ e ∈ entries, ¬e.Serializable) →
        ∃ err w', World.appendMany entries clock w = (.error err, w') ∧
          w'.contents = w.contents)) ∧
    ∀ (B : JsonlBackend) (w : World P (B.storage P)),
      ((∀ e ∈ entries, e.Serializable) →
        (w.log.shared = true → 1 < entries.length →
          NewlineEnded w.store ∧ ∀ e ∈ entries, e.FloatsKept P) →
            (World.appendMany entries clock w).2.store
              = (World.appendAll entries clock now w).2.store ∧
            (entries ≠ [] →
              World.appendMany entries clock w = World.appendAll entries clock now w)) ∧
      ((∃ e ∈ entries, ¬e.Serializable) →
        ∃ err w', World.appendMany entries clock w = (.error err, w') ∧ w'.store = w.store) ∧
      (entries = [] → (World.appendMany entries clock w).2.store = w.store ∧
        ((World.findTail w).1 = .ok () → (World.appendMany entries clock w).1 = .ok [])) := by
  constructor
  · intro B w
    refine ⟨fun hentries => ?_, World.appendMany_not_serializable (B.sink P) w clock⟩
    by_cases hne : entries = []
    · subst hne
      obtain ⟨hview, hresult⟩ := World.appendMany_nil (B.sink P) w clock
      exact ⟨hresult (World.findTail_ordered w), hview, fun h => absurd rfl h⟩
    · have hsame := World.appendMany_sameOutcome (B.sink P) w hne hentries now hclock
        fun _ _ => ⟨trivial, fun _ _ => trivial⟩
      exact ⟨hsame.result, hsame.view, fun _ => hsame.log⟩
  · intro B w
    refine ⟨fun hentries hown => ?_, World.appendMany_not_serializable (B.sink P) w clock,
      fun hnil => hnil ▸ World.appendMany_nil (B.sink P) w clock⟩
    by_cases hne : entries = []
    · subst hne
      exact ⟨(World.appendMany_nil (B.sink P) w clock).1, fun h => absurd rfl h⟩
    · obtain ⟨hresult, hlog, hstore⟩ :=
        World.appendMany_sameOutcome (B.sink P) w hne hentries now hclock hown
      refine ⟨hstore, fun _ => ?_⟩
      rcases hx : World.appendMany entries clock w with ⟨a, log, s⟩
      rcases hy : World.appendAll entries clock now w with ⟨a', log', s'⟩
      rw [hx, hy] at hresult hlog hstore
      replace hstore : s = s' := hstore
      rw [show a = a' from hresult, show log = log' from hlog, hstore]

/-- An entry without metadata. -/
def plainEntry (actor : PyStr) : BatchEntry := ⟨actor, lit "login", [], none⟩

theorem serializable_plainEntry (actor : PyStr) (h : Encodable actor) :
    (plainEntry actor).Serializable :=
  ⟨rfl, h, (by decide : Encodable (lit "login")), encodable_nil, trivial⟩

/-- The log of the sample, shared with others and open. -/
def sharedLog : AuditLog referenceRuntime :=
  { sampleLog.withTail none true with shared := true }

/-- Two entries on a file that is not there. -/
theorem appendMany_eq_appendAll_sample :
    World.appendMany [plainEntry (lit "alice"), plainEntry (lit "bob")] (fun _ => lit "noon")
        (⟨sharedLog, none⟩ : World referenceRuntime (JsonlBackend.storage referenceRuntime
          ⟨lit "log", .crlf⟩))
      = World.appendAll [plainEntry (lit "alice"), plainEntry (lit "bob")] (fun _ => lit "noon")
          (fun _ => []) ⟨sharedLog, none⟩ := by
  have halice := serializable_plainEntry (lit "alice") (by decide)
  have hbob := serializable_plainEntry (lit "bob") (by decide)
  obtain ⟨-, hfile⟩ := appendMany_eq_appendAll (P := referenceRuntime)
    [plainEntry (lit "alice"), plainEntry (lit "bob")] (fun _ => lit "noon") (fun _ => [])
    fun _ => ⟨by decide, by decide⟩
  obtain ⟨-, hsame⟩ := (hfile ⟨lit "log", .crlf⟩ ⟨sharedLog, none⟩).1
    (List.forall_mem_cons.mpr ⟨halice, List.forall_mem_singleton.mpr hbob⟩)
    fun _ _ => ⟨newlineEnded_of_empty rfl,
      List.forall_mem_cons.mpr ⟨trivial, List.forall_mem_singleton.mpr trivial⟩⟩
  exact hsame (by simp)

/-- A line behind text that was not ended is no line of its own: no record is found. -/
theorem loadLast_merged {B : JsonlBackend} {file : LogFile} {l : PyStr} {r₀ : AuditRecord}
    (hfile : fileText file = .ok l) (hnewline : 10 ∉ l) (hreads : Reads P l r₀)
    {r : AuditRecord} (h : r.Writable P) (found : Option AuditRecord) :
    (B.loadLast P (B.added P file [r])).1 ≠ .ok found := by
  intro hfound
  obtain ⟨file', happend, hadds⟩ := JsonlBackend.append_spec (B := B) file h
  obtain rfl := (Prod.mk.inj ((JsonlBackend.append_added h file).symm.trans happend)).2
  obtain ⟨w, -, hw, htext⟩ := exists_linesep_eq B.linesep
  have hboth := hadds.fileText hfile
  rw [joinLines_cons, B.linesep.translate_line (newline_not_mem_line r), htext] at hboth
  replace hboth : fileText (B.added P file [r]) = .ok (l ++ r.line P ++ w ++ [10]) := by
    rw [hboth]
    simp [joinLines, LineSep.translate]
  obtain ⟨s, hs⟩ := line_eq r (P := P)
  have hbrace : ch '\x7b' ∈ r.line P := by simp [hs]
  have hpart : tailPart (l ++ r.line P ++ w ++ [10]) = some (l ++ r.line P ++ w) := by
    refine tailPart_append_newline ?_ (List.all_eq_false.mpr ⟨ch '\x7b', ?_, by decide⟩)
    · simp only [List.mem_append, not_or]
      exact ⟨⟨hnewline, newline_not_mem_line r⟩, hw⟩
    · simp [hbrace]
  rcases (loadLast_eq_ok hboth).mp hfound with ⟨hnone, -⟩ | ⟨part, r', hsome, -, hr'⟩
  · rw [hpart] at hnone
    cases hnone
  · obtain rfl := Option.some.inj (hpart.symm.trans hsome)
    rw [List.append_assoc] at hr'
    have hspace := ((hreads.append_iff _).mp hr').1
    exact absurd (hspace (ch '\x7b') (List.mem_append_left _ hbrace)) (by decide)

/-- The log of the sample with this tail, shared and open on a file. -/
def sharedWorld (tail : Option AuditRecord) (file : LogFile) :
    World referenceRuntime (JsonlBackend.storage referenceRuntime ⟨lit "log", .lf⟩) :=
  ⟨sharedLog.withTail tail true, file⟩

theorem findTail_sharedWorld (tail : Option AuditRecord) {found : Option AuditRecord}
    {file : LogFile}
    (h : (JsonlBackend.loadLast referenceRuntime ⟨lit "log", .lf⟩ file).1 = .ok found) :
    World.findTail (sharedWorld tail file) = (.ok (), sharedWorld found file) :=
  World.findTail_shared rfl rfl h

/-- What the shared log writes can be stored. -/
theorem encodable_ids_sharedWorld {tail : Option AuditRecord} {file : LogFile} {r : AuditRecord}
    (h : WrittenBy (sharedWorld tail file).log r) : Encodable r.keyId ∧ Encodable r.signerId := by
  rw [h.keyId, h.signerId]
  exact ⟨(by decide : Encodable (lit "k0")), (by decide : Encodable (lit "s0"))⟩

/-- Behind a record without its newline, a second append finds no record to follow. -/
theorem appendAll_unended {file : LogFile} {l : PyStr} {r₀ r : AuditRecord} {e : BatchEntry}
    (hfile : fileText file = .ok l) (hnewline : 10 ∉ l) (hreads : Reads referenceRuntime l r₀)
    (hfind : World.findTail (sharedWorld none file) = (.ok (), sharedWorld (some r₀) file))
    (hseal : (sharedWorld (some r₀) file).log.seal
      ((sharedWorld (some r₀) file).log.recordFor e (lit "noon") (some r₀)) = .ok r)
    (e' : BatchEntry) (es : List BatchEntry) (now : ℕ → PyStr) : ∃ err,
      (World.appendAll (e :: e' :: es) (fun _ => lit "noon") now (sharedWorld none file)).1
        = .error err := by
  have hwritten := (written_of_seal hseal).1
  have hids := encodable_ids_sharedWorld hwritten
  obtain ⟨s, hstore, hview⟩ :=
    World.sealAndStore_ok (JsonlBackend.sink referenceRuntime _) hseal hids
  replace hstore : World.sealAndStore e (lit "noon") (sharedWorld (some r₀) file)
      = (.ok r, sharedWorld (some r) s) := hstore
  have hnone : ∃ err w, World.findTail (sharedWorld (some r) s) = (.error err, w) := by
    cases hlast : (JsonlBackend.loadLast referenceRuntime ⟨lit "log", .lf⟩ s).1 with
    | ok found =>
      rw [show s = _ from hview] at hlast
      exact absurd hlast
        (loadLast_merged hfile hnewline hreads (hwritten.finished.writable hids) found)
    | error err => exact ⟨err, _, World.findTail_shared_error rfl rfl hlast⟩
  obtain ⟨err, w, hnone⟩ := hnone
  have hnoon : lit "noon" ≠ [] := by decide
  refine ⟨err, ?_⟩
  rw [World.appendAll, World.append_eq _ hnoon, Operation.bind_assoc, Operation.bind_ok hfind,
    Operation.bind_ok hstore, World.appendAll, World.append_eq _ hnoon,
    Operation.bind_error (Operation.bind_error (Operation.bind_error hnone))]

/-- An empty batch opens the log, and no append does not.  Behind a line that was not ended, the
second append finds no record to follow. -/
theorem appendMany_eq_appendAll_counterexample :
    (¬∀ (P : Runtime) (entries : List BatchEntry) (clock now : ℕ → PyStr),
        (∀ i, clock i ≠ [] ∧ Encodable (clock i)) → (∀ e ∈ entries, e.Serializable) →
          ∀ (B : OrderedBackend) (w : World P B.toStorageBackend),
            (World.appendMany entries clock w).2.log.last
              = (World.appendAll entries clock now w).2.log.last) ∧
      ¬∀ (P : Runtime) (entries : List BatchEntry) (clock now : ℕ → PyStr),
        (∀ i, clock i ≠ [] ∧ Encodable (clock i)) → entries ≠ [] →
          (∀ e ∈ entries, e.Serializable ∧ e.FloatsKept P) →
            ∀ (B : JsonlBackend) (w : World P (B.storage P)),
              (World.appendMany entries clock w).1 = (World.appendAll entries clock now w).1 := by
  have hnoon : lit "noon" ≠ [] ∧ Encodable (lit "noon") := ⟨by decide, by decide⟩
  have halice := serializable_plainEntry (lit "alice") (by decide)
  constructor
  · intro hclaim
    have hlast := hclaim referenceRuntime [] (fun _ => lit "noon") (fun _ => []) (fun _ => hnoon)
      (by simp) memoryBackend ⟨sampleLog, [recordOf []]⟩
    cases hlast
  · intro hclaim
    obtain ⟨hwritable, -, hreads⟩ := recordOf_nil_spec
    obtain ⟨b, hb⟩ := utf8Encode_ok_iff.mpr hwritable.encodable
    have htext := fileText_of_encode hb
    -- the tail of the file is read, so both ways begin
    have hlast : (JsonlBackend.loadLast referenceRuntime ⟨lit "log", .lf⟩ (some b)).1
        = .ok (some (recordOf [])) := by
      obtain ⟨s, hs⟩ := line_eq (recordOf []) (P := referenceRuntime)
      refine (loadLast_eq_ok htext).mpr (Or.inr ⟨_, _, ?_, rfl, hreads⟩)
      exact tailPart_of_not_mem (newline_not_mem_line _) (List.all_eq_false.mpr
        ⟨ch '\x7b', by simp [hs], by decide⟩)
    have hfind := findTail_sharedWorld none hlast
    obtain ⟨r, hseal⟩ := (exists_seal_recordFor_iff
      (sharedWorld (some (recordOf [])) (some b)).log (plainEntry (lit "alice")) (lit "noon")
      (some (recordOf []))).mpr
      ⟨halice, hnoon.2, (by decide : IsAscii []), fun _ => (by decide : Encodable (lit "s0"))⟩
    have hrest : ∀ e ∈ [plainEntry (lit "alice")], e.Serializable :=
      List.forall_mem_singleton.mpr halice
    obtain ⟨rs, hmany⟩ :=
      sealMany_of_first (fun _ => lit "noon") hseal hrest fun _ => hnoon.2
    obtain ⟨s, hbatch, -⟩ := World.sealAndStoreMany_ok (JsonlBackend.sink referenceRuntime _)
      hmany fun x hx =>
        have hwritten := (written_of_sealMany hmany).1 x hx
        ⟨hwritten.finished, encodable_ids_sharedWorld hwritten⟩
    obtain ⟨err, hall⟩ := appendAll_unended htext (newline_not_mem_line _) hreads hfind hseal
      (plainEntry (lit "alice")) [] fun _ => []
    have hsame := hclaim referenceRuntime [plainEntry (lit "alice"), plainEntry (lit "alice")]
      (fun _ => lit "noon") (fun _ => []) (fun _ => hnoon) (by simp)
      (by simpa using ⟨halice, trivial⟩) ⟨lit "log", .lf⟩ (sharedWorld none (some b))
    have hmanyOk : (World.appendMany [plainEntry (lit "alice"), plainEntry (lit "alice")]
        (fun _ => lit "noon") (sharedWorld none (some b))).1 = .ok (r :: rs) := by
      rw [World.appendMany_eq, Operation.bind_ok hfind, hbatch]
    rw [hmanyOk, hall] at hsame
    cases hsame

end AuditChain
