/-
AuditChain/TornWrites.lean

Writes to a JSONL file that are cut off.

A process that dies while it writes leaves the first bytes of what it was writing.  Where
the cut is at the end of a line the records in front of it are read; anywhere else the
file cannot be read any more, and no log that has to read it adds anything to it.

    load_cut_iff      what is read behind a write that was cut off
    untouched_run     no log that has to read it writes to a storage that cannot be read
-/
import AuditChain.BatchAppend
import AuditChain.Rotation

namespace AuditChain

open Python Pieces Machine

variable {P : Runtime}

/-! ### Lines that are cut -/

theorem Reads.unique {s : PyStr} {r r' : AuditRecord} (h : Reads P s r) (h' : Reads P s r') :
    r' = r := by
  rw [← List.append_nil s] at h'
  exact ((h.append_iff []).mp h').2

theorem forall₂_reads_unique {lines : List PyStr} {rs rs' : List AuditRecord}
    (h : List.Forall₂ (Reads P) lines rs) (h' : List.Forall₂ (Reads P) lines rs') : rs = rs' :=
  List.right_unique_forall₂' (fun _ _ _ hr hr' => hr'.unique hr) h h'

/-- **No part of the line of a record** is the line of a record. -/
theorem not_reads_of_cut {r r' r'' : AuditRecord} (h : Reads P (r.line P) r') {u v : PyStr}
    (hcut : r.line P = u ++ v) (hv : v ≠ []) : ¬Reads P u r'' := by
  intro hu
  rw [hcut, hu.append_iff] at h
  -- the line ends with a brace, which is no white space
  obtain ⟨s, hline⟩ := line_eq r (P := P)
  have hlast : v.getLast? = some (ch '\x7d') := by
    have hboth : (u ++ v).getLast? = some (ch '\x7d') := by
      rw [← hcut, hline, List.getLast?_concat]
    rwa [List.getLast?_append_of_ne_nil u hv] at hboth
  exact absurd (h.1 _ (List.mem_of_getLast? hlast)) (by decide)

/-- The lines of a text whose last line is ended, with one more line. -/
theorem filledLines_append_part {text u : PyStr} (hended : AllSpace (lastPart text))
    (hu : Avoids isLineBreak u) (hfilled : isBlank u = false) :
    filledLines (text ++ u) = filledLines text ++ [lastPart text ++ u] := by
  obtain ⟨lines, hlines⟩ := exists_filledLines_append text
  have hself := hlines []
  rw [List.append_nil, List.append_nil, filledLines_of_avoids (avoids_lastPart text),
    if_pos (isBlank_of_allSpace hended), List.append_nil] at hself
  have hnot : isBlank (lastPart text ++ u) = false := by
    rw [isBlank, List.all_append, show u.all isWhitespace = false from hfilled, Bool.and_false]
  rw [hlines, hself, filledLines_of_avoids (avoids_append.mpr ⟨avoids_lastPart text, hu⟩), hnot]
  rfl

/-- What is read behind a record whose line is not ended yet. -/
theorem forall₂_reads_whole {text w : PyStr} (hended : AllSpace (lastPart text))
    {rs : List AuditRecord} (hreads : List.Forall₂ (Reads P) (filledLines text) rs)
    {r r' : AuditRecord} (hr : Avoids isLineBreak (r.line P) ∧ Reads P (r.line P) r')
    (hw : w = [] ∨ w = [13]) {rs' : List AuditRecord} :
    List.Forall₂ (Reads P) (filledLines (text ++ (r.line P ++ w))) rs' ↔ rs' = rs ++ [r'] := by
  have hlines : filledLines (text ++ (r.line P ++ w))
      = filledLines text ++ [lastPart text ++ r.line P] := by
    rw [← filledLines_append_part hended hr.1 (isBlank_line r)]
    rcases hw with rfl | rfl
    · rw [List.append_nil]
    · rw [← List.append_assoc, filledLines_append_break (by decide)]
      exact List.append_nil _
  have hall : List.Forall₂ (Reads P) (filledLines text ++ [lastPart text ++ r.line P])
      (rs ++ [r']) :=
    List.rel_append hreads (List.Forall₂.cons ((reads_space_append hended).mpr hr.2)
      List.Forall₂.nil)
  rw [hlines]
  exact ⟨fun h => forall₂_reads_unique h hall, fun h => by rw [h]; exact hall⟩

/-- A line that is cut is no record, so the file is not read. -/
theorem not_forall₂_reads_part {text u v : PyStr} (hended : AllSpace (lastPart text))
    {r r' : AuditRecord} (hr : Avoids isLineBreak (r.line P) ∧ Reads P (r.line P) r')
    (hcut : r.line P = u ++ v) (hu : u ≠ []) (hv : v ≠ []) {rs' : List AuditRecord} :
    ¬List.Forall₂ (Reads P) (filledLines (text ++ u)) rs' := by
  intro h
  obtain ⟨s, hline⟩ := line_eq r (P := P)
  have hbrace : ch '\x7b' ∈ u := by
    obtain ⟨c, u, rfl⟩ := List.exists_cons_of_ne_nil hu
    rw [hline, List.cons_append, List.cons_append] at hcut
    rw [(List.cons.inj hcut).1]
    exact List.mem_cons_self
  have havoids : Avoids isLineBreak u := by
    rw [hcut] at hr
    exact (avoids_append.mp hr.1).1
  rw [filledLines_append_part hended havoids (isBlank_of_mem (by decide) hbrace)] at h
  obtain ⟨r'', -, hpart, -⟩ :=
    List.forall₂_cons_right_iff.mp (List.forall₂_drop_append _ _ _ h.flip)
  exact not_reads_of_cut hr.2 hcut hv ((reads_space_append hended).mp hpart)

/-! ### Writes that are cut -/

/-- The bytes of a line separator. -/
def LineSep.bytes : LineSep → Bytes
  | .lf => [10]
  | .crlf => [13, 10]

theorem utf8Encode_linesep (sep : LineSep) : utf8Encode sep.text = .ok (LineSep.bytes sep) := by
  cases sep <;> rfl

theorem fileText_some_getD (file : LogFile) : fileText (some (file.getD [])) = fileText file := by
  cases file <;> rfl

/-- Where nothing but white space of JSON is behind the last newline, nothing else is behind the
last line break. -/
theorem NewlineEnded.lineEnded {file : LogFile} (h : NewlineEnded file) : LineEnded file := by
  intro text htext
  obtain ⟨w, hw, hrun⟩ := h
  rw [← fileText_some_getD] at htext
  obtain ⟨cs, hbytes, rfl⟩ := utf8Decode_eq_ok.mp htext
  have hfree : ∀ ds : List Char, (∀ x ∈ ds, (x == '\n') = false) →
      ∀ b ∈ ds.flatMap String.utf8EncodeChar, (b == (10 : UInt8)) = false := by
    intro ds hds b hb
    rw [beq_eq_false_iff_ne]
    rintro rfl
    obtain ⟨x, hx, hbyte⟩ := List.mem_flatMap.mp hb
    exact beq_eq_false_iff_ne.mp (hds x hx) (eq_newline_of_mem hbyte)
  have hlast : ∀ ds : List Char, lastRun (· == 10) (file.getD [])
      = ds.flatMap String.utf8EncodeChar → w = ds.map ch := by
    intro ds hds
    rw [hds] at hrun
    exact Except.ok.inj ((utf8Decode_utf8Encode hrun).symm.trans (utf8Decode_flatMap ds))
  rcases forall_not_or_last_sep (· == '\n') cs with hcs | ⟨x, c, y, rfl, hc, hy⟩
  · rw [hbytes, lastRun_of_forall_not (hfree cs hcs)] at hlast
    rw [← hlast cs rfl]
    exact allSpace_lastPart hw
  · obtain rfl := beq_iff_eq.mp hc
    have hsplit : (x ++ '\n' :: y).flatMap String.utf8EncodeChar
        = x.flatMap String.utf8EncodeChar ++ 10 :: y.flatMap String.utf8EncodeChar := by
      rw [List.flatMap_append, List.flatMap_cons]
      rfl
    rw [hbytes, hsplit, lastRun_append_sep (by decide) (hfree y hy)] at hlast
    rw [List.map_append, List.map_cons, show lastPart _ = _ from lastRun_append_cons (by decide),
      ← hlast y rfl]
    exact allSpace_lastPart hw

/-- A file on a system whose lines end with a newline. -/
def plainFile : JsonlBackend := ⟨lit "log", .lf⟩

namespace JsonlBackend

variable {B : JsonlBackend} {file : LogFile} {rs rs' rs'' : List AuditRecord} {r r' : AuditRecord}

/-- The bytes of a line begin with a brace and end with the line separator. -/
theorem exists_lineBytes_split (h : Encodable (r.line P)) : ∃ b,
    b.head? = some 0x7b ∧ utf8Encode (r.line P) = .ok b ∧
      B.lineBytes P r = b ++ LineSep.bytes B.linesep ∧
        (B.lineBytes P r).length = b.length + B.linesep.text.length := by
  obtain ⟨b, hb⟩ := utf8Encode_ok_iff.mpr h
  have hline := lineBytes_spec (B := B) h
  rw [joinLines_cons, B.linesep.translate_line (newline_not_mem_line r)] at hline
  have hbytes : B.lineBytes P r = b ++ LineSep.bytes B.linesep := by
    refine Except.ok.inj (hline.symm.trans ?_)
    rw [show LineSep.translate B.linesep (joinLines []) = [] from rfl, List.append_nil]
    exact utf8Encode_append hb (utf8Encode_linesep _)
  have hhead : b.head? = some 0x7b := by
    obtain ⟨s, hs⟩ := line_eq r (P := P)
    rw [hs, List.cons_append, ← List.singleton_append] at h hb
    obtain ⟨c, hc⟩ := utf8Encode_ok_iff.mpr (encodable_append.mp h).2
    have hbrace : utf8Encode [ch '\x7b'] = .ok [0x7b] := rfl
    rw [← Except.ok.inj ((utf8Encode_append hbrace hc).symm.trans hb)]
    rfl
  have hsep : (LineSep.bytes B.linesep).length = B.linesep.text.length := by
    cases B.linesep <;> rfl
  exact ⟨b, hhead, hb, hbytes, by rw [hbytes, List.length_append, hsep]⟩

/-- The file behind a write of these records of which only `n` bytes were written. -/
def cutWrite (B : JsonlBackend) (P : Runtime) (file : LogFile) (records : List AuditRecord)
    (n : ℕ) : LogFile :=
  some (file.getD [] ++ (records.flatMap (B.lineBytes P)).take n)

/-- A file whose text has these records, on lines that are ended. -/
structure Ended (P : Runtime) (file : LogFile) (rs : List AuditRecord) (text : PyStr) : Prop where
  decoded : fileText file = .ok text
  ended : AllSpace (lastPart text)
  reads : List.Forall₂ (Reads P) (filledLines text) rs

/-- One more line. -/
theorem Ended.append {text : PyStr} (h : Ended P file rs text) (hr : ComesBack P B r r') :
    Ended P (some (file.getD [] ++ B.lineBytes P r)) (rs ++ [r'])
      (text ++ (r.line P ++ B.linesep.text)) := by
  obtain ⟨hwritable, hone, hreads⟩ := hr.spec
  obtain ⟨b, -, hb, hbytes, -⟩ := exists_lineBytes_split (B := B) hwritable.encodable
  have hdecode := utf8Decode_utf8Encode (utf8Encode_append hb (utf8Encode_linesep B.linesep))
  refine ⟨?_, ?_, ?_⟩
  · have htext := h.decoded
    rw [← fileText_some_getD] at htext
    rw [hbytes]
    exact (utf8Decode_append_iff htext).mpr ⟨_, hdecode, rfl⟩
  · have hlast : lastPart (text ++ (r.line P ++ B.linesep.text)) = [] := by
      rw [← List.append_assoc]
      cases B.linesep with
      | lf => exact lastRun_append_sep (by decide) (by simp)
      | crlf =>
        rw [show LineSep.crlf.text = [13] ++ [10] from rfl, ← List.append_assoc]
        exact lastRun_append_sep (by decide) (by simp)
    rw [hlast]
    exact allSpace_nil
  · have hlines : filledLines (text ++ (r.line P ++ B.linesep.text))
        = filledLines (text ++ (r.line P ++ [])) := by
      rw [List.append_nil, ← List.append_assoc, ← List.append_nil B.linesep.text,
        filledLines_append_linesep]
      exact List.append_nil _
    rw [hlines]
    exact (forall₂_reads_whole h.ended h.reads ⟨hone, hreads⟩ (Or.inl rfl)).mpr rfl

/-- **One line that is cut off**: what is read is what was there, or the record as well if
only the end of its line is missing. -/
theorem Ended.load_cut {text : PyStr} (h : Ended P file rs text) (hr : ComesBack P B r r') {n : ℕ}
    (hn : n < (B.lineBytes P r).length) :
    (B.load P (some (file.getD [] ++ (B.lineBytes P r).take n))).1 = .ok rs'' ↔
      n = 0 ∧ rs'' = rs ∨
        (B.lineBytes P r).length ≤ n + B.linesep.text.length ∧ rs'' = rs ++ [r'] := by
  obtain ⟨hwritable, hone, hreads⟩ := hr.spec
  obtain ⟨b, hhead, hb, hbytes, hlength⟩ := exists_lineBytes_split (B := B) hwritable.encodable
  have hdecode := utf8Decode_utf8Encode hb
  have htext := h.decoded
  rw [← fileText_some_getD] at htext
  have hsep : 0 < B.linesep.text.length := by cases B.linesep <;> decide
  have hpos : b ≠ [] := by
    rintro rfl
    cases hhead
  rw [load_eq_ok]
  by_cases hwhole : b.length ≤ n
  · -- only the end of the line is missing
    obtain ⟨w, hw, hcut⟩ : ∃ w, (w = [] ∨ w = [13]) ∧
        utf8Decode ((B.lineBytes P r).take n) = .ok (r.line P ++ w) := by
      have htake : (B.lineBytes P r).take n
          = b ++ (LineSep.bytes B.linesep).take (n - b.length) := by
        rw [hbytes, List.take_append, List.take_of_length_le hwhole]
      have hpart : ∃ w, (w = [] ∨ w = [13]) ∧
          utf8Encode w = .ok ((LineSep.bytes B.linesep).take (n - b.length)) := by
        rw [hlength] at hn
        cases hcase : B.linesep with
        | lf =>
          rw [hcase] at hn
          have hzero : n - b.length = 0 := by
            simp only [LineSep.text, List.length_singleton] at hn
            omega
          exact ⟨[], Or.inl rfl, by rw [hzero]; rfl⟩
        | crlf =>
          rw [hcase] at hn
          have hone : n - b.length = 0 ∨ n - b.length = 1 := by
            simp only [LineSep.text, List.length_cons, List.length_nil] at hn
            omega
          rcases hone with hzero | hone
          · exact ⟨[], Or.inl rfl, by rw [hzero]; rfl⟩
          · exact ⟨[13], Or.inr rfl, by rw [hone]; rfl⟩
      obtain ⟨w, hw, hencode⟩ := hpart
      exact ⟨w, hw, by rw [htake]; exact utf8Decode_utf8Encode (utf8Encode_append hb hencode)⟩
    have hall := (utf8Decode_append_iff htext).mpr ⟨_, hcut, rfl⟩
    have hnonzero : n ≠ 0 := by
      rintro rfl
      exact hpos (List.length_eq_zero_iff.mp (Nat.le_zero.mp hwhole))
    constructor
    · rintro ⟨text', htext', hreads'⟩
      obtain rfl := Except.ok.inj (hall.symm.trans htext')
      refine Or.inr ⟨by omega, ?_⟩
      exact (forall₂_reads_whole h.ended h.reads ⟨hone, hreads⟩ hw).mp hreads'
    · rintro (⟨hzero, -⟩ | ⟨-, rfl⟩)
      · exact absurd hzero hnonzero
      · exact ⟨_, hall, (forall₂_reads_whole h.ended h.reads ⟨hone, hreads⟩ hw).mpr rfl⟩
  · have htake : (B.lineBytes P r).take n = b.take n := by
      rw [hbytes, List.take_append_of_le_length (by omega)]
    rw [htake]
    by_cases hzero : n = 0
    · -- nothing was written
      subst hzero
      rw [List.take_zero, List.append_nil]
      constructor
      · rintro ⟨text', htext', hreads'⟩
        obtain rfl := Except.ok.inj (htext.symm.trans htext')
        exact Or.inl ⟨rfl, forall₂_reads_unique hreads' h.reads⟩
      · rintro (⟨-, rfl⟩ | ⟨hle, -⟩)
        · exact ⟨text, htext, h.reads⟩
        · omega
    · refine iff_of_false ?_ (by omega)
      rintro ⟨text', htext', hreads'⟩
      obtain ⟨u, hu, rfl⟩ := (utf8Decode_append_iff htext).mp htext'
      have hsplit := hdecode
      rw [← List.take_append_drop n b] at hsplit
      obtain ⟨v, hv, hline⟩ := (utf8Decode_append_iff hu).mp hsplit
      refine not_forall₂_reads_part h.ended ⟨hone, hreads⟩ hline ?_ ?_ hreads'
      · rintro rfl
        have hnil := utf8Decode_eq_nil hu
        rw [List.take_eq_nil_iff] at hnil
        exact hnil.elim hzero hpos
      · rintro rfl
        have hnil := List.drop_eq_nil_iff.mp (utf8Decode_eq_nil hv)
        omega

/-! ### Whole lines and a part of one -/

variable (P) in
/-- Where the line of the `k`-th record ends, of the bytes of these records. -/
def lineEnd (B : JsonlBackend) (records : List AuditRecord) (k : ℕ) : ℕ :=
  ((records.take k).flatMap (B.lineBytes P)).length

variable (P) in
/-- `n` bytes are the lines of the first `k` records, up to the end of the last one. -/
def CutAt (B : JsonlBackend) (records : List AuditRecord) (k n : ℕ) : Prop :=
  n ≤ B.lineEnd P records k ∧ B.lineEnd P records k ≤ n + B.linesep.text.length

variable {records : List AuditRecord} {n : ℕ}

theorem lineEnd_zero : B.lineEnd P records 0 = 0 := rfl

theorem cutAt_zero : B.CutAt P records 0 n ↔ n = 0 := by
  rw [CutAt, lineEnd_zero]
  omega

theorem lineEnd_succ (k : ℕ) : B.lineEnd P (r :: records) (k + 1)
    = (B.lineBytes P r).length + B.lineEnd P records k := by
  rw [lineEnd, List.take_succ_cons, List.flatMap_cons, List.length_append, lineEnd]

theorem cutAt_succ (h : (B.lineBytes P r).length ≤ n) (k : ℕ) :
    B.CutAt P (r :: records) (k + 1) n
      ↔ B.CutAt P records k (n - (B.lineBytes P r).length) := by
  rw [CutAt, CutAt, lineEnd_succ]
  omega

theorem cutWrite_of_le (h : (B.lineBytes P r).length ≤ n) :
    B.cutWrite P file (r :: records) n = B.cutWrite P (some (file.getD [] ++ B.lineBytes P r))
      records (n - (B.lineBytes P r).length) := by
  rw [cutWrite, cutWrite, List.flatMap_cons, List.take_append, List.take_of_length_le h,
    Option.getD_some, List.append_assoc]

theorem cutWrite_of_lt (h : n < (B.lineBytes P r).length) :
    B.cutWrite P file (r :: records) n = some (file.getD [] ++ (B.lineBytes P r).take n) := by
  rw [cutWrite, List.flatMap_cons, List.take_append_of_le_length (Nat.le_of_lt h)]

/-- A line is more than a brace and its end. -/
theorem linesep_lt_lineBytes (h : Encodable (r.line P)) :
    B.linesep.text.length + 1 < (B.lineBytes P r).length := by
  obtain ⟨b, hhead, hb, -, hlength⟩ := exists_lineBytes_split (B := B) h
  obtain ⟨s, hline⟩ := line_eq r (P := P)
  rw [hlength]
  match b, hhead with
  | [_], rfl =>
    -- a line is more than one brace
    have hshort : r.line P = [ch '\x7b'] := Except.ok.inj (utf8Decode_utf8Encode hb).symm
    rw [hline] at hshort
    simp at hshort
  | _ :: _ :: b, _ =>
    rw [List.length_cons, List.length_cons]
    omega

/-- Every line in turn is there as a whole, or is the one that is cut. -/
theorem Ended.load_cut_all {text : PyStr} (h : Ended P file rs text)
    (hrs : List.Forall₂ (ComesBack P B) records rs')
    (hn : n ≤ B.lineEnd P records records.length) :
    (B.load P (B.cutWrite P file records n)).1 = .ok rs'' ↔
      ∃ k ≤ records.length, rs'' = rs ++ rs'.take k ∧ B.CutAt P records k n := by
  induction hrs generalizing file rs text n with
  | nil =>
    obtain rfl : n = 0 := Nat.le_zero.mp hn
    have hload : (B.load P (B.cutWrite P file [] 0)).1 = .ok rs := by
      rw [cutWrite, List.take_zero, List.append_nil]
      exact load_eq_ok.mpr ⟨text, (fileText_some_getD file).trans h.decoded, h.reads⟩
    rw [hload]
    constructor
    · rintro hsame
      rw [← Except.ok.inj hsame]
      exact ⟨0, le_rfl, (List.append_nil rs).symm, cutAt_zero.mpr rfl⟩
    · rintro ⟨k, -, hsame, -⟩
      rw [hsame, List.take_nil, List.append_nil]
  | @cons r r' records rs' hr hrest ih =>
    by_cases hle : (B.lineBytes P r).length ≤ n
    · -- the whole line of `r` is there
      have hlength : n - (B.lineBytes P r).length ≤ B.lineEnd P records records.length := by
        rw [List.length_cons, lineEnd_succ] at hn
        omega
      rw [cutWrite_of_le hle, ih (h.append hr) hlength]
      constructor
      · rintro ⟨k, hk, hsame, hcut⟩
        refine ⟨k + 1, Nat.succ_le_succ hk, ?_, (cutAt_succ hle k).mpr hcut⟩
        rw [hsame, List.take_succ_cons, List.append_assoc, List.singleton_append]
      · rintro ⟨k, hk, hsame, hcut⟩
        obtain _ | k := k
        · rw [cutAt_zero] at hcut
          have hpos := linesep_lt_lineBytes (B := B) hr.spec.1.encodable
          omega
        · refine ⟨k, Nat.le_of_succ_le_succ hk, ?_, (cutAt_succ hle k).mp hcut⟩
          rw [hsame, List.take_succ_cons, List.append_assoc, List.singleton_append]
    · rw [not_le] at hle
      have hfirst : B.lineEnd P (r :: records) 1 = (B.lineBytes P r).length := by
        rw [lineEnd_succ 0, lineEnd_zero, add_zero]
      rw [cutWrite_of_lt hle, h.load_cut hr hle]
      constructor
      · rintro (⟨hzero, hsame⟩ | ⟨hlate, hsame⟩)
        · exact ⟨0, Nat.zero_le _, by rw [hsame]; exact (List.append_nil rs).symm,
            cutAt_zero.mpr hzero⟩
        · exact ⟨1, Nat.succ_le_succ (Nat.zero_le _), hsame,
            by rw [hfirst]; exact Nat.le_of_lt hle, by rw [hfirst]; exact hlate⟩
      · rintro ⟨k, hk, hsame, hcut⟩
        obtain _ | _ | k := k
        · rw [List.take_zero, List.append_nil] at hsame
          exact Or.inl ⟨cutAt_zero.mp hcut, hsame⟩
        · have hlate := hcut.2
          rw [hfirst] at hlate
          exact Or.inr ⟨hlate, hsame⟩
        · -- the end of a later line is too far away
          exfalso
          obtain ⟨r₁, r₁', records, rs', hr₁, -, rfl, rfl⟩ :
              ∃ r₁ r₁' rest rest', ComesBack P B r₁ r₁' ∧ List.Forall₂ (ComesBack P B) rest rest' ∧
                records = r₁ :: rest ∧ rs' = r₁' :: rest' := by
            cases hrest with
            | nil => simp at hk
            | cons h₁ h₂ => exact ⟨_, _, _, _, h₁, h₂, rfl, rfl⟩
          have hlate := hcut.2
          rw [lineEnd_succ, lineEnd_succ] at hlate
          have hlong := linesep_lt_lineBytes (B := B) hr₁.spec.1.encodable
          omega

/-- **What is read behind a write that was cut off**: the records up to some point, and
nothing at all unless the cut is at the end of a line. -/
theorem load_cut_iff (B : JsonlBackend) {file : LogFile} {rs : List AuditRecord}
    (hload : (B.load P file).1 = .ok rs) (hended : LineEnded file)
    {records rs' : List AuditRecord} (hrs : List.Forall₂ (ComesBack P B) records rs') {n : ℕ}
    (hn : n ≤ B.lineEnd P records records.length) {rs'' : List AuditRecord} :
    (B.load P (B.cutWrite P file records n)).1 = .ok rs'' ↔
      ∃ k ≤ records.length, rs'' = rs ++ rs'.take k ∧ B.CutAt P records k n := by
  obtain ⟨text, htext, hreads⟩ := load_eq_ok.mp hload
  exact Ended.load_cut_all ⟨htext, hended text htext, hreads⟩ hrs hn

/-- A batch of two records that is cut at the end of the first line. -/
theorem load_cut_sample : (plainFile.load referenceRuntime
    (plainFile.cutWrite referenceRuntime none [recordOf [], recordOf []]
      (plainFile.lineEnd referenceRuntime [recordOf [], recordOf []] 1))).1
        = .ok [recordOf []] := by
  have hback : ComesBack referenceRuntime plainFile (recordOf []) (recordOf []) :=
    comesBack_iff.mpr recordOf_nil_spec
  have hshort : plainFile.lineEnd referenceRuntime [recordOf [], recordOf []] 1
      ≤ plainFile.lineEnd referenceRuntime [recordOf [], recordOf []] 2 := by
    rw [lineEnd_succ 0, lineEnd_succ 1, lineEnd_zero]
    omega
  exact (load_cut_iff (P := referenceRuntime) plainFile
    (show (plainFile.load referenceRuntime none).1 = .ok [] from rfl)
    (newlineEnded_of_empty rfl).lineEnded
    (List.Forall₂.cons hback (List.Forall₂.cons hback List.Forall₂.nil)) hshort).mpr
      ⟨1, Nat.le_succ 1, rfl, le_rfl, Nat.le_add_right _ _⟩

/-! ### The end of a torn file -/

theorem tailLines_append_part {content u : Bytes} (hu : 10 ∉ u)
    (hfilled : u.all isSpaceByte = false) :
    (tailLines (content ++ u)).getLast? = some (lastRun (· == 10) content ++ u) := by
  obtain ⟨front, hfront⟩ : ∃ front, ∀ m, pieces (· == 10) isSpaceByte (content ++ m)
      = front ++ pieces (· == 10) isSpaceByte (lastRun (· == 10) content ++ m) :=
    exists_pieces_append _
  have hfree : ∀ x ∈ lastRun (· == 10) content ++ u, (x == (10 : UInt8)) = false := by
    intro x hx
    rcases List.mem_append.mp hx with hx | hx
    · have hnot := not_sep_of_mem_lastRun hx
      exact hnot
    · rw [beq_eq_false_iff_ne]
      rintro rfl
      exact hu hx
  rw [tailLines_eq_pieces, hfront, pieces_of_forall_not hfree, List.all_append, hfilled,
    Bool.and_false]
  simp

/-- A line that is cut is not found as the last record either. -/
theorem loadLast_cut (hfile : NewlineEnded file) (hr : ComesBack P B r r') {n : ℕ} (hpos : 0 < n)
    (hn : n + B.linesep.text.length < (B.lineBytes P r).length) : ∃ e,
      B.loadLast P (some (file.getD [] ++ (B.lineBytes P r).take n))
        = (.error e, some (file.getD [] ++ (B.lineBytes P r).take n)) := by
  obtain ⟨hwritable, -, hreads⟩ := hr.spec
  obtain ⟨b, hhead, hb, hbytes, hlength⟩ := exists_lineBytes_split (B := B) hwritable.encodable
  rw [hbytes, List.take_append_of_le_length (by omega)]
  obtain ⟨w, hw, hrun⟩ := hfile
  have hbrace : (0x7b : UInt8) ∈ b.take n := by
    have hfirst : (b.take n).head? = some 0x7b := by
      rw [List.head?_take, if_neg (Nat.ne_of_gt hpos), hhead]
    exact List.mem_of_mem_head? hfirst
  have hnewline : (10 : UInt8) ∉ b.take n := fun h =>
    newline_not_mem_encode hb (newline_not_mem_line r) (List.take_subset _ _ h)
  have htail : (tailLines (file.getD [] ++ b.take n)).getLast?
      = some (lastRun (· == 10) (file.getD []) ++ b.take n) := tailLines_append_part hnewline
    (List.all_eq_false.mpr ⟨_, hbrace, by decide⟩)
  cases hfound : (B.loadLast P (some (file.getD [] ++ b.take n))).1 with
  | error e => exact ⟨e, Prod.ext hfound rfl⟩
  | ok found =>
    exfalso
    cases hdecode : utf8Decode (lastRun (· == 10) (file.getD []) ++ b.take n) with
    | error e =>
      rw [loadLast, lastLine, scanTail_length, htail] at hfound
      simp only [hdecode] at hfound
      cases hfound
    | ok part =>
      have hlast : lastLine (some (file.getD [] ++ b.take n)) = .ok (some part) := by
        rw [lastLine, scanTail_length, htail]
        simp only [hdecode]
        rfl
      obtain ⟨u, hu, rfl⟩ := (utf8Decode_append_iff (utf8Decode_utf8Encode hrun)).mp hdecode
      have hsplit := utf8Decode_utf8Encode hb
      rw [← List.take_append_drop n b] at hsplit
      obtain ⟨v, hv, hcut⟩ := (utf8Decode_append_iff hu).mp hsplit
      have hne : w ++ u ≠ [] := by
        rintro hnil
        rw [(List.append_eq_nil_iff.mp hnil).2] at hu
        rw [utf8Decode_eq_nil hu] at hbrace
        cases hbrace
      obtain ⟨r'', -, hpart⟩ := (loadLast_of_lastLine hlast hne).mp hfound
      refine not_reads_of_cut hreads hcut ?_ ((reads_space_append hw).mp hpart)
      rintro rfl
      have hnil := List.drop_eq_nil_iff.mp (utf8Decode_eq_nil hv)
      omega

theorem loadLast_cut_all (hfile : NewlineEnded file)
    (hrs : List.Forall₂ (ComesBack P B) records rs') (hn : n ≤ B.lineEnd P records records.length)
    (htorn : ∀ k ≤ records.length, ¬B.CutAt P records k n) : ∃ e,
      B.loadLast P (B.cutWrite P file records n) = (.error e, B.cutWrite P file records n) := by
  induction hrs generalizing file n with
  | nil => exact absurd (cutAt_zero.mpr (Nat.le_zero.mp hn)) (htorn 0 le_rfl)
  | @cons r r' records rs' hr hrest ih =>
    by_cases hle : (B.lineBytes P r).length ≤ n
    · rw [cutWrite_of_le hle]
      apply ih
      · have hadded := newlineEnded_added (P := P) (B := B) hfile [r]
        rwa [added, if_neg (List.cons_ne_nil _ _), List.flatMap_singleton] at hadded
      · rw [List.length_cons, lineEnd_succ] at hn
        omega
      · intro k hk hcut
        exact htorn (k + 1) (Nat.succ_le_succ hk) ((cutAt_succ hle k).mpr hcut)
    · rw [not_le] at hle
      rw [cutWrite_of_lt hle]
      apply loadLast_cut hfile hr
      · by_contra hzero
        exact htorn 0 (Nat.zero_le _) (cutAt_zero.mpr (Nat.eq_zero_of_not_pos hzero))
      · by_contra hlate
        refine htorn 1 (Nat.succ_le_succ (Nat.zero_le _)) ?_
        rw [CutAt, lineEnd_succ 0, lineEnd_zero]
        omega

end JsonlBackend

/-! ### Storages that cannot be read -/

/-- A storage that opens, and can be read neither as a whole nor at its end. -/
structure Unreadable (B : StorageBackend) (s : B.State) : Prop where
  opens : B.init s = (.ok (), s)
  load : ∃ e, B.load s = (.error e, s)
  loadLast : ∃ e, B.loadLast s = (.error e, s)

/-- A log that reads the storage before it writes to it. -/
def AuditLog.ReadsFirst (log : AuditLog P) : Prop := log.inited = false ∨ log.shared = true

namespace World

variable {B : StorageBackend} {w : World P B}

theorem storage_unchanged {α : Type} {x : Operation PyError B.State α} {res : Except PyError α}
    (h : x w.store = (res, w.store)) : storage x w = (res, w) := by
  rw [storage, Operation.zoom_apply, h]

theorem init_unreadable (hs : Unreadable B w.store) : ∃ e, init w = (.error e, w) := by
  obtain ⟨e, he⟩ := hs.load
  refine ⟨e, ?_⟩
  rw [init, Operation.bind_ok (storage_unchanged hs.opens),
    Operation.bind_error (storage_unchanged he)]

theorem ensureInited_unreadable (hs : Unreadable B w.store) : ensureInited w = (.ok (), w) ∨
    w.log.inited = false ∧ ∃ e, ensureInited w = (.error e, w) := by
  cases hinited : w.log.inited with
  | true => exact Or.inl (ensureInited_of_inited hinited)
  | false =>
    rw [ensureInited_of_not_inited (by rw [hinited]; decide)]
    exact Or.inr ⟨rfl, init_unreadable hs⟩

/-- What needs the tail fails in front of anything else. -/
theorem tail_unreadable (hs : Unreadable B w.store) (hlog : w.log.ReadsFirst) {α : Type}
    (rest : Op P B α) :
    ∃ e, (ensureInited >>= fun _ => refreshTail >>= fun _ => rest) w = (.error e, w) := by
  have hinited := ensureInited_unreadable hs
  rcases hlog with hfresh | hshared
  · obtain ⟨e, he⟩ := init_unreadable hs
    refine ⟨e, Operation.bind_error ?_⟩
    rw [ensureInited_of_not_inited (by rw [hfresh]; decide), he]
  · rcases hinited with hok | ⟨-, e, he⟩
    · obtain ⟨e, he⟩ := hs.loadLast
      refine ⟨e, ?_⟩
      rw [Operation.bind_ok hok]
      apply Operation.bind_error
      rw [refreshTail_of_shared_error hshared (e := e) (by rw [he]), he]
    · exact ⟨e, Operation.bind_error he⟩

theorem rotate_unreadable (hs : Unreadable B w.store) (hlog : w.log.ReadsFirst)
    (newSealKey : Bytes) (newKeyId actor now : PyStr) :
    ∃ e, rotate newSealKey newKeyId actor now w = (.error e, w) := by
  unfold rotate
  split
  · rcases ensureInited_unreadable hs with hok | ⟨-, e, he⟩
    · rw [Operation.bind_ok hok, Operation.bind_ok (Operation.get_apply w)]
      obtain ⟨e, he⟩ := tail_unreadable hs hlog _
      exact ⟨e, Operation.bind_error he⟩
    · exact ⟨e, Operation.bind_error he⟩
  · exact ⟨_, rfl⟩

/-- **verify** reports that it could not read. -/
theorem verify_unreadable (hs : Unreadable B w.store) (expectedCount : Option ℤ)
    (checkpoint : Option Checkpoint) (signers : Option (StrDict (KeyArg P.PublicKey))) :
    ∃ reason, (verify expectedCount checkpoint signers w).1 = .ok {
      ok := false, recordsChecked := 0, firstErrorSeq := none, reason := some reason } := by
  obtain ⟨e, he⟩ : ∃ e, read w = (.error e, w) := by
    rcases ensureInited_unreadable hs with hok | ⟨-, e, he⟩
    · obtain ⟨e, he⟩ := hs.load
      exact ⟨e, by rw [read, Operation.bind_ok hok, storage_unchanged he]⟩
    · exact ⟨e, Operation.bind_error he⟩
  exact ⟨e.msg, by rw [verify, he]⟩

end World

/-- **One call on a storage that cannot be read.** -/
theorem step_unreadable {B : StorageBackend} {w : World P B} (hs : Unreadable B w.store)
    (hlog : w.log.ReadsFirst) (c : Call P) :
    ∃ log : AuditLog P, log.ReadsFirst ∧ c.step w = ([], ⟨log, w.store⟩) := by
  have hrefused : (∃ e, c.exec w = (.error e, w)) →
      ∃ log : AuditLog P, log.ReadsFirst ∧ c.step w = ([], ⟨log, w.store⟩) := by
    rintro ⟨e, he⟩
    exact ⟨w.log, hlog, by rw [Call.step, he]⟩
  cases c with
  | init =>
    obtain ⟨e, he⟩ := World.init_unreadable hs
    exact hrefused ⟨e, Operation.bind_error he⟩
  | reopen cfg =>
    cases hnew : AuditLog.new cfg with
    | error e => exact hrefused ⟨e, Operation.bind_ofExcept_error hnew _ w⟩
    | ok log =>
      obtain ⟨e, he⟩ := World.init_unreadable (w := ⟨log, w.store⟩) hs
      refine ⟨log, Or.inl (new_inited hnew), ?_⟩
      rw [Call.step, Call.exec, Operation.bind_ofExcept_ok hnew, World.modifyLog,
        Operation.bind_ok (Operation.modify_apply _ _), Operation.bind_error he]
  | append actor action subject metadata timestamp now =>
    obtain ⟨e, he⟩ := World.tail_unreadable hs hlog _
    exact hrefused ⟨e, Operation.bind_error he⟩
  | appendMany entries clock => exact hrefused (World.tail_unreadable hs hlog _)
  | rotate newSealKey newKeyId actor now =>
    obtain ⟨e, he⟩ := World.rotate_unreadable hs hlog newSealKey newKeyId actor now
    exact hrefused ⟨e, Operation.bind_error he⟩

/-- **A storage that cannot be read is left alone** by the logs that read first. -/
theorem untouched_run {B : StorageBackend} (calls : List (Call P)) {w : World P B}
    (hs : Unreadable B w.store) (hlog : w.log.ReadsFirst) :
    (runCalls calls w).1 = [] ∧ (runCalls calls w).2.store = w.store := by
  induction calls generalizing w with
  | nil => exact ⟨rfl, rfl⟩
  | cons c calls ih =>
    obtain ⟨log, hfirst, hstep⟩ := step_unreadable hs hlog c
    rw [runCalls, run_cons, hstep]
    exact ih (w := ⟨log, w.store⟩) hs hfirst

/-- **A torn file is left alone**: behind a write that was cut inside a line, no run of a log
that reads first returns a record or changes a byte, and `verify` reports failure. -/
theorem torn_run {B : JsonlBackend} {file : LogFile} {rs : List AuditRecord}
    (hload : (B.load P file).1 = .ok rs) (hended : NewlineEnded file)
    {records rs' : List AuditRecord} (hrs : List.Forall₂ (ComesBack P B) records rs') {n : ℕ}
    (hn : n ≤ B.lineEnd P records records.length)
    (htorn : ∀ k ≤ records.length, ¬B.CutAt P records k n) {log : AuditLog P}
    (hlog : log.ReadsFirst) (calls : List (Call P)) :
    ∃ w : World P (B.storage P),
      runCalls calls ⟨log, B.cutWrite P file records n⟩ = ([], w) ∧
        w.store = B.cutWrite P file records n ∧
          ∀ expectedCount checkpoint signers, ∃ reason,
            (w.verify expectedCount checkpoint signers).1 = .ok {
              ok := false, recordsChecked := 0, firstErrorSeq := none, reason := some reason } := by
  obtain ⟨text, htext, hreads⟩ := JsonlBackend.load_eq_ok.mp hload
  have hs : Unreadable (B.storage P) (B.cutWrite P file records n) := by
    refine ⟨rfl, ?_, JsonlBackend.loadLast_cut_all hended hrs hn htorn⟩
    cases hcut : (B.load P (B.cutWrite P file records n)).1 with
    | error e => exact ⟨e, Prod.ext hcut rfl⟩
    | ok rs'' =>
      have hall : JsonlBackend.Ended P file rs text := ⟨htext, hended.lineEnded text htext, hreads⟩
      obtain ⟨k, hk, -, hat⟩ := (hall.load_cut_all hrs hn).mp hcut
      exact absurd hat (htorn k hk)
  obtain ⟨hnone, hstore⟩ := untouched_run calls
    (w := (⟨log, B.cutWrite P file records n⟩ : World P (B.storage P))) hs hlog
  refine ⟨_, Prod.ext hnone rfl, hstore, fun expectedCount checkpoint signers => ?_⟩
  exact World.verify_unreadable (by rw [hstore]; exact hs) expectedCount checkpoint signers

/-- The first byte of a line is a torn file. -/
theorem torn_sample : ∃ w : World referenceRuntime (plainFile.storage referenceRuntime),
    runCalls [.init, .append (lit "eve") (lit "login") [] none none (lit "now")]
      ⟨plainLog, plainFile.cutWrite referenceRuntime none [recordOf []] 1⟩ = ([], w) ∧
        w.store = plainFile.cutWrite referenceRuntime none [recordOf []] 1 := by
  have hlong := JsonlBackend.linesep_lt_lineBytes (B := plainFile) recordOf_nil_spec.1.encodable
  have hall : List.Forall₂ (ComesBack referenceRuntime plainFile) [recordOf []] [recordOf []] :=
    List.Forall₂.cons (comesBack_iff.mpr recordOf_nil_spec) List.Forall₂.nil
  have hend : plainFile.lineEnd referenceRuntime [recordOf []] 1
      = (plainFile.lineBytes referenceRuntime (recordOf [])).length := by
    rw [JsonlBackend.lineEnd_succ 0, JsonlBackend.lineEnd_zero, add_zero]
  have hlinesep : plainFile.linesep.text.length = 1 := rfl
  obtain ⟨w, hrun, hstore, -⟩ := torn_run (P := referenceRuntime) (B := plainFile)
    (show (plainFile.load referenceRuntime none).1 = .ok [] from rfl) (newlineEnded_of_empty rfl)
    hall (n := 1)
    (by rw [List.length_singleton, hend]; omega) (fun k hk hcut => by
      obtain rfl | rfl : k = 0 ∨ k = 1 := by rw [List.length_singleton] at hk; omega
      · exact absurd (JsonlBackend.cutAt_zero.mp hcut) one_ne_zero
      · have hlate := hcut.2
        rw [hend] at hlate
        omega)
    (Or.inl (new_inited new_default))
    [.init, .append (lit "eve") (lit "login") [] none none (lit "now")]
  exact ⟨w, hrun, hstore⟩

end AuditChain
