/-
AuditChain/FileGrowth.lean

Adding records to a JSONL file that is already there.

A write ends the line of a record and does not begin it, so the first new record
goes on the line that the file ends with.  Spaces and tabs on that line are
ignored; anything else makes one line of two records, or of a record and
something that is none.

    load_make_iff    the new records are read behind the old ones exactly when the
                     last line of the file is ended, up to spaces and tabs
-/
import AuditChain.Jsonl
import AuditChain.JsonPrefix

namespace AuditChain

open Python Pieces

variable {P : Runtime}

/-! ### The end of a text -/

/-- The text behind the last line break. -/
def lastPart (text : PyStr) : PyStr := lastRun isLineBreak text

theorem avoids_lastPart (text : PyStr) : Avoids isLineBreak (lastPart text) :=
  fun _ => not_sep_of_mem_lastRun

/-- The lines of a longer text: those in front of the last break, and those behind it. -/
theorem exists_filledLines_append (text : PyStr) : ∃ lines, ∀ t,
    filledLines (text ++ t) = lines ++ filledLines (lastPart text ++ t) := by
  simp only [filledLines_eq_pieces]
  exact exists_pieces_append text

theorem filledLines_append_linesep (sep : LineSep) (s t : PyStr) :
    filledLines (s ++ (sep.text ++ t)) = filledLines s ++ filledLines t := by
  have hlf : filledLines (10 :: t) = filledLines t := filledLines_append_break (by decide) [] t
  cases sep with
  | lf => exact filledLines_append_break (by decide) s t
  | crlf => rw [← hlf]; exact filledLines_append_break (by decide) s (10 :: t)

/-- Joined lines, the first one on the line that a text ends with. -/
theorem filledLines_translate_joinLines (sep : LineSep) (s : PyStr) {l : PyStr}
    {lines : List PyStr} (hl : Avoids isLineBreak l) (hlines : ∀ x ∈ lines, Avoids isLineBreak x) :
    filledLines (s ++ sep.translate (joinLines (l :: lines)))
      = filledLines (s ++ l) ++ lines.flatMap filledLines := by
  have hnewline : ∀ {x : PyStr}, Avoids isLineBreak x → 10 ∉ x := by
    intro x hx hmem
    exact absurd (hx 10 hmem) (by decide)
  induction lines generalizing s l with
  | nil =>
    rw [joinLines_cons, sep.translate_line (hnewline hl), ← List.append_assoc,
      filledLines_append_linesep]
    rfl
  | cons x lines ih =>
    obtain ⟨hx, hrest⟩ := List.forall_mem_cons.mp hlines
    have htail := ih [] hx hrest
    rw [List.nil_append, List.nil_append] at htail
    rw [joinLines_cons, sep.translate_line (hnewline hl), ← List.append_assoc,
      filledLines_append_linesep, htail, List.flatMap_cons]

/-! ### Records that come back -/

/-- White space starts no value. -/
theorem not_startsValue_of_isWhitespace {c : CodePoint} (h : isWhitespace c = true) :
    startsValue c = false := by
  rw [← Bool.not_eq_true]
  intro hstarts
  simp only [startsValue, List.contains_eq_mem, List.mem_cons, List.not_mem_nil, or_false,
    Bool.or_eq_true, decide_eq_true_eq] at hstarts
  rcases hstarts with hdigit | rfl | rfl | rfl | rfl | rfl | rfl | rfl | rfl | rfl
  · simp only [isDigit, isWhitespace, Bool.or_eq_true, Bool.and_eq_true, decide_eq_true_eq,
      beq_iff_eq] at hdigit h
    omega
  all_goals exact absurd h (by decide)

/-- In front of a record a line holds nothing but white space of JSON. -/
theorem Reads.allSpace {w s : PyStr} {r : AuditRecord} (h : Reads P (w ++ s) r)
    (hw : isBlank w = true) : AllSpace w := by
  rcases forall_not_or_first_sep (fun c => !isJsonSpace c) w with hspace | ⟨u, c, v, rfl, hc, hu⟩
  · exact fun c hc => by simpa using hspace c hc
  · obtain ⟨value, hloads, -⟩ := h
    have hu' : AllSpace u := fun d hd => by simpa using hu d hd
    have hwhite : isWhitespace c = true := List.all_eq_true.mp hw c (by simp)
    rw [loads_eq_ok, List.append_assoc, List.cons_append, loads?_space_append _ hu'] at hloads
    have hstarts := loads?_head (by simpa using hc) hloads
    rw [not_startsValue_of_isWhitespace hwhite] at hstarts
    cases hstarts

theorem reads_space_append {w : PyStr} (hw : AllSpace w) {s : PyStr} {r : AuditRecord} :
    Reads P (w ++ s) r ↔ Reads P s r := by
  simp only [Reads, loads_eq_ok, loads?_space_append _ hw]

theorem isBlank_of_allSpace {w : PyStr} (h : AllSpace w) : isBlank w = true := by
  apply List.all_eq_true.mpr
  intro c hc
  have hspace := h c hc
  simp only [isJsonSpace, isWhitespace, Bool.or_eq_true, Bool.and_eq_true, decide_eq_true_eq,
    beq_iff_eq] at hspace ⊢
  omega

variable (P) in
/-- Written to a file of its own, the record `r` is read as `r'`. -/
def ComesBack (B : JsonlBackend) (r r' : AuditRecord) : Prop :=
  ∃ file, B.append P r none = (.ok (), file) ∧ (B.load P file).1 = .ok [r']

theorem newline_not_mem_line (r : AuditRecord) : 10 ∉ r.line P := fun hmem =>
  absurd (printable_line r 10 hmem) (by decide)

/-- What comes back was written on one line, and is read from it. -/
theorem ComesBack.spec {B : JsonlBackend} {r r' : AuditRecord} (h : ComesBack P B r r') :
    r.Writable P ∧ Avoids isLineBreak (r.line P) ∧ Reads P (r.line P) r' := by
  obtain ⟨file, happend, hload⟩ := h
  obtain ⟨hser, hadds⟩ := JsonlBackend.append_eq_ok.mp happend
  have hencodable := hadds.encodable
  rw [joinLines_cons, encodable_append] at hencodable
  obtain ⟨text, htext, hreads⟩ := JsonlBackend.load_eq_ok.mp hload
  have hnone : fileText none = .ok [] := rfl
  obtain rfl := Except.ok.inj ((hadds.fileText hnone).symm.trans htext)
  rw [List.nil_append, joinLines_cons, LineSep.translate_line _ (newline_not_mem_line r),
    filledLines_append_linesep] at hreads
  replace hreads : List.Forall₂ (Reads P) (filledLines (r.line P) ++ []) [r'] := hreads
  rw [List.append_nil] at hreads
  have hone : r.OneLine := by
    by_contra hbroken
    have htwo := (filledLines_line r (P := P)).2 hbroken
    rw [hreads.length_eq] at htwo
    simp at htwo
  have havoids := (avoids_isLineBreak_line r (P := P)).mpr hone
  rw [filledLines_of_avoids havoids, isBlank_line] at hreads
  exact ⟨⟨hser, hencodable.1⟩, havoids, (List.forall₂_cons.mp hreads).1⟩

/-! ### Behind what is there -/

/-- Behind the last line break of the file there are at most spaces and tabs. -/
def LineEnded (file : LogFile) : Prop :=
  ∀ text, fileText file = .ok text → AllSpace (lastPart text)

/-- The lines of a text with new lines behind it: the first of these goes on the last line
of the text. -/
theorem exists_filledLines_added (sep : LineSep) (text : PyStr) : ∃ lines,
    (filledLines text = lines ++ if isBlank (lastPart text) then [] else [lastPart text]) ∧
      ∀ {l : PyStr} {ls : List PyStr}, isBlank l = false → (∀ x ∈ ls, isBlank x = false) →
        Avoids isLineBreak l → (∀ x ∈ ls, Avoids isLineBreak x) →
          filledLines (text ++ sep.translate (joinLines (l :: ls)))
            = lines ++ (lastPart text ++ l) :: ls := by
  obtain ⟨lines, hlines⟩ := exists_filledLines_append text
  refine ⟨lines, ?_, fun {l ls} hfilled hfilleds hl hls => ?_⟩
  · have hself := hlines []
    rwa [List.append_nil, List.append_nil, filledLines_of_avoids (avoids_lastPart text)] at hself
  · have hone : filledLines (lastPart text ++ l) = [lastPart text ++ l] := by
      have hnot : isBlank (lastPart text ++ l) = false := by
        rw [isBlank, List.all_append, show l.all isWhitespace = false from hfilled, Bool.and_false]
      rw [filledLines_of_avoids (avoids_append.mpr ⟨avoids_lastPart text, hl⟩), hnot]
      rfl
    have hrest : ls.flatMap filledLines = ls := by
      rw [List.flatMap_congr (g := fun x => [x]) fun x hx => by
        rw [filledLines_of_avoids (hls x hx), hfilleds x hx]
        rfl]
      exact List.flatMap_singleton' ls
    rw [hlines, filledLines_translate_joinLines sep _ hl hls, hone, hrest]
    rfl

/-- Behind the lines that gave `rs` the new lines give `rs'` exactly when the text in front
of the first one is only white space of JSON. -/
theorem forall₂_reads_added_iff (sep : LineSep) {text : PyStr} {rs : List AuditRecord}
    (hreads : List.Forall₂ (Reads P) (filledLines text) rs) {records rs' : List AuditRecord}
    (hone : ∀ r ∈ records, Avoids isLineBreak (r.line P))
    (hnew : List.Forall₂ (Reads P) (records.map (AuditRecord.line P)) rs') :
    List.Forall₂ (Reads P)
        (filledLines (text ++ sep.translate (joinLines (records.map (AuditRecord.line P)))))
        (rs ++ rs') ↔ records = [] ∨ AllSpace (lastPart text) := by
  obtain ⟨lines, hold, hadded⟩ := exists_filledLines_added sep text
  cases records with
  | nil =>
    obtain rfl := List.forall₂_nil_left_iff.mp hnew
    simpa [joinLines, LineSep.translate] using hreads
  | cons r records =>
    obtain ⟨r', rs', hr, hrest, rfl⟩ := List.forall₂_cons_left_iff.mp hnew
    obtain ⟨hline, hlines⟩ := List.forall_mem_cons.mp hone
    rw [List.map_cons, hadded (isBlank_line r) (List.forall_mem_map.mpr fun x _ => isBlank_line x)
      hline (List.forall_mem_map.mpr hlines)]
    rw [hold] at hreads
    constructor
    · intro h
      -- as many lines in front as there were records, so the last one was blank
      have hblank : isBlank (lastPart text) = true := by
        by_contra hfilled
        have hlen := h.length_eq
        have hlen' := hreads.length_eq
        have hlen'' := hrest.length_eq
        rw [if_neg hfilled] at hlen'
        simp only [List.length_append, List.length_cons, List.length_nil, List.length_map]
          at hlen hlen' hlen''
        omega
      rw [if_pos hblank, List.append_nil] at hreads
      have hbehind := List.forall₂_drop_append _ _ _ h
      rw [← hreads.length_eq, List.drop_left] at hbehind
      exact Or.inr ((List.forall₂_cons.mp hbehind).1.allSpace hblank)
    · rintro (hnil | hspace)
      · cases hnil
      rw [if_pos (isBlank_of_allSpace hspace), List.append_nil] at hreads
      exact List.rel_append hreads (List.Forall₂.cons ((reads_space_append hspace).mpr hr) hrest)

theorem ComesBack.all {B : JsonlBackend} {records rs : List AuditRecord}
    (h : List.Forall₂ (ComesBack P B) records rs) :
    (∀ r ∈ records, r.Writable P ∧ Avoids isLineBreak (r.line P)) ∧
      List.Forall₂ (Reads P) (records.map (AuditRecord.line P)) rs := by
  rw [List.forall₂_map_left_iff, ← List.forall₂_and_left]
  exact h.imp fun r r' hr => ⟨⟨hr.spec.1, hr.spec.2.1⟩, hr.spec.2.2⟩

/-- What comes back: what is on one line, and is read from it. -/
theorem comesBack_iff {B : JsonlBackend} {r r' : AuditRecord} : ComesBack P B r r' ↔
    r.Writable P ∧ Avoids isLineBreak (r.line P) ∧ Reads P (r.line P) r' := by
  refine ⟨ComesBack.spec, ?_⟩
  rintro ⟨hwritable, hone, hreads⟩
  obtain ⟨file, happend, hadds⟩ := JsonlBackend.append_spec (B := B) none hwritable
  have hnone : fileText none = .ok [] := rfl
  have hempty : List.Forall₂ (Reads P) (filledLines []) [] := List.Forall₂.nil
  have hlines : ∀ x ∈ [r], Avoids isLineBreak (x.line P) := List.forall_mem_singleton.mpr hone
  have hnew : List.Forall₂ (Reads P) ([r].map (AuditRecord.line P)) [r'] :=
    List.Forall₂.cons hreads List.Forall₂.nil
  refine ⟨file, happend, JsonlBackend.load_eq_ok.mpr ⟨_, hadds.fileText hnone, ?_⟩⟩
  exact (forall₂_reads_added_iff B.linesep hempty hlines hnew).mpr (Or.inr allSpace_nil)

/-- **When new records are read behind the old ones**: when the last line of the file is
ended, up to spaces and tabs. -/
theorem load_make_iff (B : JsonlBackend) {file : LogFile} {rs : List AuditRecord}
    (hload : (B.load P file).1 = .ok rs) (call : WriteCall) {rs' : List AuditRecord}
    (hrs : List.Forall₂ (ComesBack P B) call.records rs') :
    ∃ file', call.make P B file = (.ok (), file') ∧
      ((B.load P file').1 = .ok (rs ++ rs') ↔ call.records = [] ∨ LineEnded file) := by
  obtain ⟨text, htext, hreads⟩ := JsonlBackend.load_eq_ok.mp hload
  obtain ⟨hrecords, hnew⟩ := ComesBack.all hrs
  obtain ⟨file', hmake, hadds⟩ :=
    JsonlBackend.make_spec (B := B) file call fun r hr => (hrecords r hr).1
  refine ⟨file', hmake, ?_⟩
  have hended : LineEnded file ↔ AllSpace (lastPart text) := by
    constructor
    · exact fun h => h text htext
    · intro h text' h'
      rwa [← Except.ok.inj (htext.symm.trans h')]
  rw [hended, ← forall₂_reads_added_iff B.linesep hreads (fun r hr => (hrecords r hr).2) hnew,
    JsonlBackend.load_eq_ok, hadds.fileText htext]
  constructor
  · rintro ⟨text', heq, h⟩
    rwa [← Except.ok.inj heq] at h
  · exact fun h => ⟨_, rfl, h⟩

/-- A record without a text outside ASCII is stored as it is. -/
theorem reads_recordOf {actor : PyStr} (h : actor.all (fun c => !isSurrogate c) = true) :
    Reads referenceRuntime ((recordOf actor).line referenceRuntime) (recordOf actor) := by
  obtain ⟨v, -, hloads, hstored⟩ := fromStored_serialize
    (storable_recordOf (P := referenceRuntime) h).serializable (storable_recordOf h).floats
  refine ⟨v, hloads, hstored.trans ?_⟩
  rfl

/-- A record whose actor breaks no line is written on one line, and is read from it. -/
theorem recordOf_spec {actor : PyStr} (h : actor.all (fun c => !isSurrogate c) = true)
    (hone : Avoids isWideBreak actor) : (recordOf actor).Writable referenceRuntime ∧
      Avoids isLineBreak ((recordOf actor).line referenceRuntime) ∧
        Reads referenceRuntime ((recordOf actor).line referenceRuntime) (recordOf actor) :=
  ⟨(storable_recordOf h).writable, (avoids_isLineBreak_line _).mpr
    (allLeaves_recordOf beyondAscii_isWideBreak hone), reads_recordOf h⟩

theorem recordOf_nil_spec : (recordOf []).Writable referenceRuntime ∧
    Avoids isLineBreak ((recordOf []).line referenceRuntime) ∧
      Reads referenceRuntime ((recordOf []).line referenceRuntime) (recordOf []) :=
  recordOf_spec (by decide) avoids_nil

theorem fileText_of_encode {t : PyStr} {b : Bytes} (h : utf8Encode t = .ok b) :
    fileText (some b) = .ok t := utf8Decode_utf8Encode h

/-- A batch behind a record, and behind a space and a tab on the next line. -/
theorem load_make_sample : ∃ file file',
    (JsonlBackend.load referenceRuntime ⟨lit "log", .lf⟩ file).1 = .ok [recordOf []] ∧
      JsonlBackend.appendMany referenceRuntime ⟨lit "log", .lf⟩ [recordOf [], recordOf [0xE9]] file
        = (.ok (), file') ∧
      (JsonlBackend.load referenceRuntime ⟨lit "log", .lf⟩ file').1
        = .ok ([recordOf []] ++ [recordOf [], recordOf [0xE9]]) := by
  have hletter : Avoids isWideBreak [0xE9] := avoids_cons.mpr ⟨by decide, avoids_nil⟩
  obtain ⟨hwritable, hone, hreads⟩ := recordOf_nil_spec
  have hspace : Avoids isLineBreak [32, 9] := by
    simp only [avoids_cons, avoids_nil, and_true]
    decide
  obtain ⟨b, hb⟩ := utf8Encode_ok_iff.mpr
    (encodable_append.mpr ⟨hwritable.encodable, encodable_of_all (s := [10, 32, 9]) (by decide)⟩)
  have htext := fileText_of_encode hb
  have hload : (JsonlBackend.load referenceRuntime ⟨lit "log", .lf⟩ (some b)).1
      = .ok [recordOf []] := by
    refine JsonlBackend.load_eq_ok.mpr ⟨_, htext, ?_⟩
    rw [filledLines_append_break (by decide), filledLines_of_avoids hone, isBlank_line,
      filledLines_of_avoids hspace]
    exact List.Forall₂.cons hreads List.Forall₂.nil
  obtain ⟨file', hmake, hiff⟩ := load_make_iff (P := referenceRuntime) ⟨lit "log", .lf⟩ hload
    (.appendMany [recordOf [], recordOf [0xE9]]) (List.Forall₂.cons
      (comesBack_iff.mpr recordOf_nil_spec) (List.Forall₂.cons
        (comesBack_iff.mpr (recordOf_spec (by decide) hletter)) List.Forall₂.nil))
  refine ⟨some b, file', hload, hmake, hiff.mpr (Or.inr fun text htext' => ?_)⟩
  obtain rfl := Except.ok.inj (htext.symm.trans htext')
  rw [show lastPart _ = _ from lastRun_append_sep (by decide) hspace]
  exact List.forall_mem_cons.mpr ⟨by decide, List.forall_mem_singleton.mpr (by decide)⟩

/-- A file that ends without a newline. -/
theorem load_make_counterexample :
    ¬∀ (P : Runtime) (B : JsonlBackend) (file : LogFile) (rs : List AuditRecord)
      (r : AuditRecord), (B.load P file).1 = .ok rs → ComesBack P B r r →
        (B.load P (B.append P r file).2).1 = .ok (rs ++ [r]) := by
  intro hclaim
  obtain ⟨hwritable, hone, hreads⟩ := recordOf_nil_spec
  obtain ⟨b, hb⟩ := utf8Encode_ok_iff.mpr hwritable.encodable
  have htext := fileText_of_encode hb
  have hlines : List.Forall₂ (Reads referenceRuntime)
      (filledLines ((recordOf []).line referenceRuntime)) [recordOf []] := by
    rw [filledLines_of_avoids hone, isBlank_line]
    exact List.Forall₂.cons hreads List.Forall₂.nil
  obtain ⟨file', happend, hadds⟩ :=
    JsonlBackend.append_spec (B := ⟨lit "log", .lf⟩) (some b) hwritable
  have hload := hclaim referenceRuntime ⟨lit "log", .lf⟩ (some b) [recordOf []] (recordOf [])
    (JsonlBackend.load_eq_ok.mpr ⟨_, htext, hlines⟩)
    (comesBack_iff.mpr recordOf_nil_spec)
  rw [happend] at hload
  obtain ⟨text', htext', hboth⟩ := JsonlBackend.load_eq_ok.mp hload
  obtain rfl := Except.ok.inj ((hadds.fileText htext).symm.trans htext')
  have hones : ∀ r ∈ [recordOf []], Avoids isLineBreak (r.line referenceRuntime) :=
    List.forall_mem_singleton.mpr hone
  rcases (forall₂_reads_added_iff _ hlines hones
    (List.Forall₂.cons hreads List.Forall₂.nil)).mp hboth with hnil | hspace
  · cases hnil
  · rw [show lastPart _ = _ from lastRun_of_forall_not hone] at hspace
    obtain ⟨s, hs⟩ := line_eq (recordOf []) (P := referenceRuntime)
    have hbrace := hspace (ch '\x7b') (by rw [hs]; exact List.mem_cons_self)
    exact absurd hbrace (by decide)

end AuditChain
