/-
AuditChain/JsonlTail.lean

The last record of a JSONL file, found from the end.

`load` splits a text where Python breaks lines and skips what Python calls blank;
`load_last` splits bytes at newlines and skips what is white space in ASCII.  The
part that `load_last` reads may therefore be several lines for `load`, or none.

    scanTailBy_spec    whatever the chunks, the last part between newlines is found
    loadLast_iff       it gives the last record exactly when it is one line, up to
                       white space of JSON
-/
import AuditChain.FileGrowth
import Mathlib.Data.PNat.Basic

namespace AuditChain

open Python Pieces

/-! ### The code -/

/-- What `bytes.strip` strips. -/
def isSpaceByte (b : UInt8) : Bool := b == 32 || (9 ≤ b && b ≤ 13)

/-- `[line for line in buffer.split(b"\n") if line.strip()]`. -/
def tailLines (buffer : Bytes) : List Bytes :=
  (buffer.splitOn 10).filter fun line => !line.all isSpaceByte

/-- The loop of `_last_line`: chunks are put in front of the buffer until the last line
in it is complete. -/
def scanTail (content : Bytes) (position : ℕ) (buffer : Bytes) : Option Bytes :=
  if position = 0 then none
  else
    let step := min 65536 position
    let start := position - step
    let buffer := (content.drop start).take step ++ buffer
    let lines := tailLines buffer
    -- the first line may be the end of a longer one
    if 1 < lines.length ∨ (start = 0 ∧ lines ≠ []) then lines.getLast?
    else scanTail content start buffer
termination_by position

/-- The same loop with chunks of any positive size. -/
def scanTailBy (chunk : ℕ+) (content : Bytes) (position : ℕ) (buffer : Bytes) : Option Bytes :=
  if position = 0 then none
  else
    let step := min (chunk : ℕ) position
    let start := position - step
    let buffer := (content.drop start).take step ++ buffer
    let lines := tailLines buffer
    if 1 < lines.length ∨ (start = 0 ∧ lines ≠ []) then lines.getLast?
    else scanTailBy chunk content start buffer
termination_by position
decreasing_by
  have hchunk := chunk.pos
  omega

/-- `_last_line`. -/
def lastLine (file : LogFile) : Except PyError (Option PyStr) :=
  match file with
  | none => .ok none
  | some content =>
    match scanTail content content.length [] with
    | none => .ok none
    | some line => (utf8Decode line).map some

variable (P : Runtime)

/-- `JsonlBackend.load_last`. -/
def JsonlBackend.loadLast (B : JsonlBackend) : Operation PyError LogFile (Option AuditRecord) :=
  fun file =>
    (do
      match ← lastLine file with
      | none => return none
      | some line =>
        if line = [] then return none
        else
          match (do let v ← loads P.floats line; AuditRecord.fromStored P v) with
          | .ok r => return some r
          | .error e =>
            if isUnreadable e then
              .error (logCorruptedError (B.path ++ lit ": last line: " ++ e.msg))
            else .error e, file)

variable {P}

/-! ### The last part of a file -/

theorem tailLines_eq_pieces (buffer : Bytes) :
    tailLines buffer = pieces (· == 10) isSpaceByte buffer := by
  rw [tailLines, List.splitOn_eq_splitOnP]
  rfl

/-- The loop of the code reads chunks of 65536 bytes. -/
theorem scanTail_eq_scanTailBy (content : Bytes) (position : ℕ) (buffer : Bytes) :
    scanTail content position buffer = scanTailBy 65536 content position buffer := by
  induction position using Nat.strongRecOn generalizing buffer with
  | ind position ih =>
    rw [scanTail, scanTailBy]
    by_cases hzero : position = 0
    · rw [if_pos hzero, if_pos hzero]
    · rw [if_neg hzero, if_neg hzero]
      show (if _ then _ else scanTail _ (position - min 65536 position) _) = _
      rw [ih _ (by omega)]
      rfl

/-- **The chunks do not matter**: the last line of the whole file is found. -/
theorem scanTailBy_eq (chunk : ℕ+) (content : Bytes) (position : ℕ)
    (hle : position ≤ content.length) (hstart : position = 0 → tailLines content = []) :
    scanTailBy chunk content position (content.drop position) = (tailLines content).getLast? := by
  have hchunk := chunk.pos
  induction position using Nat.strongRecOn with
  | ind position ih =>
    rw [scanTailBy]
    by_cases hzero : position = 0
    · rw [if_pos hzero, hstart hzero]
      rfl
    · rw [if_neg hzero]
      have hbuffer : (content.drop (position - min (chunk : ℕ) position)).take
          (min (chunk : ℕ) position) ++ content.drop position
            = content.drop (position - min (chunk : ℕ) position) := by
        have hdrop : content.drop position
            = (content.drop (position - min (chunk : ℕ) position)).drop
                (min (chunk : ℕ) position) := by
          rw [List.drop_drop]
          congr 1
          omega
        rw [hdrop, List.take_append_drop]
      simp only [hbuffer]
      split
      · rename_i hfound
        rcases hfound with htwo | ⟨hwhole, -⟩
        · -- with two lines in the buffer, the last one is complete
          conv_rhs => rw [← List.take_append_drop (position - min (chunk : ℕ) position) content]
          rw [tailLines_eq_pieces] at htwo ⊢
          rw [tailLines_eq_pieces, getLast?_pieces_append htwo]
        · rw [hwhole, List.drop_zero]
      · rename_i hmore
        refine ih _ (by omega) (by omega) fun hwhole => ?_
        by_contra hlines
        rw [hwhole, List.drop_zero] at hmore
        exact hmore (Or.inr ⟨rfl, hlines⟩)

/-- From the end of the file the scan starts with an empty buffer. -/
theorem scanTailBy_length (chunk : ℕ+) (content : Bytes) :
    scanTailBy chunk content content.length [] = (tailLines content).getLast? := by
  have hscan := scanTailBy_eq chunk content content.length le_rfl (by
    intro hlength
    rw [List.length_eq_zero_iff.mp hlength]
    rfl)
  rwa [List.drop_length] at hscan

theorem scanTail_length (content : Bytes) :
    scanTail content content.length [] = (tailLines content).getLast? := by
  rw [scanTail_eq_scanTailBy, scanTailBy_length]

/-- **The backward scan**: whatever the size of the chunks, the loop ends with the last of
the lines of the whole file that is not blank.  It is a whole line: it begins at the start
of the file or behind a newline and ends at a newline or at the end of the file, and what
follows it is blank. -/
theorem scanTailBy_spec (chunk : ℕ+) (content : Bytes) :
    scanTailBy chunk content content.length []
        = ((content.splitOn 10).filter fun line => !line.all isSpaceByte).getLast? ∧
      ∀ line, scanTailBy chunk content content.length [] = some line → ∃ front back,
        content = front ++ (line ++ back) ∧ (front = [] ∨ ∃ f, front = f ++ [10]) ∧
          (back = [] ∨ ∃ b, back = 10 :: b) ∧ 10 ∉ line ∧ line.all isSpaceByte = false ∧
            back.all isSpaceByte = true := by
  refine ⟨scanTailBy_length chunk content, fun line h => ?_⟩
  rw [scanTailBy_length, tailLines_eq_pieces] at h
  have hsep : ∀ b : UInt8, (b == 10) = true → isSpaceByte b = true := by
    intro b hb
    rw [beq_iff_eq.mp hb]
    rfl
  obtain ⟨front, back, hsplit, hfront, hback, hfree, hblank, hrest⟩ := getLast?_pieces hsep h
  refine ⟨front, back, hsplit, hfront.imp_right ?_, hback.imp_right ?_, ?_, hblank, hrest⟩
  · rintro ⟨f, b, rfl, hb⟩
    exact ⟨f, by rw [beq_iff_eq.mp hb]⟩
  · rintro ⟨b, rest, rfl, hb⟩
    exact ⟨rest, by rw [beq_iff_eq.mp hb]⟩
  · intro hmem
    exact absurd (hfree 10 hmem) (by decide)

/-- A chunk that starts inside a character does not cut the line short. -/
theorem scanTailBy_sample :
    scanTailBy 2 [0x61, 0x0A, 0x62, 0xC3, 0xA9, 0x0A] 6 [] = some [0x62, 0xC3, 0xA9] :=
  (scanTailBy_spec 2 [0x61, 0x0A, 0x62, 0xC3, 0xA9, 0x0A]).1.trans (by decide)

/-- The part of a text that `load_last` reads: the last part between newlines that is not
white space in ASCII. -/
def tailPart (text : PyStr) : Option PyStr := (pieces (· == 10) isAsciiSpace text).getLast?

theorem isSpaceByte_eq (b : UInt8) :
    isSpaceByte b = (b.toNat == 32 || (9 ≤ b.toNat && b.toNat ≤ 13)) := by
  rw [Bool.eq_iff_iff]
  simp only [isSpaceByte, Bool.or_eq_true, Bool.and_eq_true, decide_eq_true_eq, beq_iff_eq,
    UInt8.le_iff_toNat_le, ← UInt8.toNat_inj]
  rfl

theorem ch_val (x : Char) : (ch x).val = x.toNat := by
  rw [ch, Fin.val_ofNat]
  have hx := x.valid
  exact Nat.mod_eq_of_lt (by rcases hx with h | ⟨-, h⟩ <;> (show x.val.toNat < _; omega))

theorem all_isSpaceByte_utf8EncodeChar (x : Char) :
    (String.utf8EncodeChar x).all isSpaceByte = isAsciiSpace (ch x) := by
  rw [isAsciiSpace, ch_val]
  rcases utf8EncodeChar_cases x with ⟨hascii, hcode⟩ | ⟨hwide, hne, hcode⟩
  · have hbyte : (UInt8.ofNat x.toNat).toNat = x.toNat := by
      rw [UInt8.toNat_ofNat']
      omega
    rw [hcode, List.all_cons, List.all_nil, Bool.and_true, isSpaceByte_eq, hbyte]
  · obtain ⟨b, bs, hcons⟩ := List.exists_cons_of_ne_nil hne
    have hb := hcode b (by rw [hcons]; exact List.mem_cons_self)
    have hbyte : isSpaceByte b = false := by
      rw [isSpaceByte_eq, ← Bool.not_eq_true]
      simp only [Bool.or_eq_true, Bool.and_eq_true, decide_eq_true_eq, beq_iff_eq]
      omega
    rw [hcons, List.all_cons, hbyte, Bool.false_and, eq_comm, ← Bool.not_eq_true]
    simp only [Bool.or_eq_true, Bool.and_eq_true, decide_eq_true_eq, beq_iff_eq]
    omega

/-- Only a newline has the byte of a newline. -/
theorem eq_newline_of_mem {x : Char} (h : (10 : UInt8) ∈ String.utf8EncodeChar x) : x = '\n' := by
  rcases utf8EncodeChar_cases x with ⟨hascii, hcode⟩ | ⟨-, -, hcode⟩
  · rw [hcode, List.mem_singleton] at h
    have hval := congrArg UInt8.toNat h
    rw [UInt8.toNat_ofNat'] at hval
    have hten : x.toNat = 10 := by
      have h10 : (10 : UInt8).toNat = 10 := rfl
      omega
    exact Char.toNat_inj.mp hten
  · exact absurd (hcode 10 h) (by decide)

/-- The parts of the bytes are the bytes of the parts of the text. -/
theorem tailLines_flatMap (cs : List Char) : ∃ parts : List (List Char),
    tailLines (cs.flatMap String.utf8EncodeChar)
        = parts.map (fun x => x.flatMap String.utf8EncodeChar) ∧
      pieces (· == 10) isAsciiSpace (cs.map ch) = parts.map (fun x => x.map ch) := by
  refine ⟨pieces (· == '\n') (fun x => isAsciiSpace (ch x)) cs, ?_, ?_⟩
  · rw [tailLines_eq_pieces]
    refine pieces_flatMap (fun x hx => ?_) (fun x hx b hb => ?_)
      all_isSpaceByte_utf8EncodeChar cs
    · rw [beq_iff_eq.mp hx]
      exact ⟨10, by decide, by decide⟩
    · rw [beq_eq_false_iff_ne] at hx ⊢
      rintro rfl
      exact hx (eq_newline_of_mem hb)
  · -- in the text every character is one code point
    have hmap : ∀ x : List Char, x.map ch = x.flatMap fun c => [ch c] := fun _ =>
      List.map_eq_flatMap
    simp only [hmap]
    refine pieces_flatMap (fun x hx => ⟨ch x, rfl, ?_⟩) (fun x hx b hb => ?_)
      (fun x => by simp) cs
    · rw [beq_iff_eq.mp hx]
      decide
    · rw [List.mem_singleton] at hb
      rw [beq_eq_false_iff_ne] at hx ⊢
      rintro rfl
      refine hx (Char.toNat_inj.mp ?_)
      rw [← ch_val, ← hb]
      rfl

/-- **What `_last_line` finds** in a file that can be decoded. -/
theorem lastLine_eq {file : LogFile} {text : PyStr} (h : fileText file = .ok text) :
    lastLine file = .ok (tailPart text) := by
  cases file with
  | none =>
    obtain rfl := Except.ok.inj h
    rfl
  | some content =>
    obtain ⟨cs, rfl, rfl⟩ := utf8Decode_eq_ok.mp h
    obtain ⟨parts, hbytes, hchars⟩ := tailLines_flatMap cs
    rw [lastLine, scanTail_length, tailPart, hchars, hbytes, List.getLast?_map, List.getLast?_map]
    cases parts.getLast? with
    | none => rfl
    | some part =>
      simp only [Option.map_some, utf8Decode_flatMap]
      rfl

/-- A line that is found is read like any other. -/
theorem loadLast_of_lastLine {B : JsonlBackend} {file : LogFile} {part : PyStr}
    (h : lastLine file = .ok (some part)) (hne : part ≠ []) {found : Option AuditRecord} :
    (B.loadLast P file).1 = .ok found ↔ ∃ r, found = some r ∧ Reads P part r := by
  rw [JsonlBackend.loadLast, h, ok_bind]
  simp only [if_neg hne, Reads, ← bind_eq_ok]
  split
  · rename_i r hr
    rw [hr]
    simp [eq_comm]
  · rename_i e he
    rw [he]
    split <;> simp

theorem tailPart_ne_nil {text part : PyStr} (h : tailPart text = some part) : part ≠ [] := by
  rintro rfl
  have hmem := List.mem_of_getLast? h
  simp [pieces] at hmem

/-- **What `load_last` returns**: nothing, or the record on the last part. -/
theorem loadLast_eq_ok {B : JsonlBackend} {file : LogFile} {text : PyStr}
    (h : fileText file = .ok text) {found : Option AuditRecord} :
    (B.loadLast P file).1 = .ok found ↔
      (tailPart text = none ∧ found = none) ∨
        ∃ part r, tailPart text = some part ∧ found = some r ∧ Reads P part r := by
  have hlast := lastLine_eq h
  cases hpart : tailPart text with
  | none =>
    rw [JsonlBackend.loadLast, hlast, hpart, ok_bind]
    simp [eq_comm]
  | some part =>
    rw [hpart] at hlast
    simp [loadLast_of_lastLine hlast (tailPart_ne_nil hpart)]

/-! ### The last record -/

/-- One line, inside white space of JSON. -/
def OnOneLine (s : PyStr) : Prop :=
  ∃ w l w', s = w ++ (l ++ w') ∧ AllSpace w ∧ AllSpace w' ∧ Avoids isLineBreak l ∧
    isBlank l = false

/-- Blank text in front of a line changes nothing but the beginning of the line. -/
theorem filledLines_blank_append {w : PyStr} (hw : isBlank w = true) (s : PyStr) :
    filledLines (w ++ s) = filledLines (lastPart w ++ s) := by
  obtain ⟨lines, hlines⟩ := exists_filledLines_append w
  have hnil := hlines []
  rw [List.append_nil, filledLines_eq_nil_iff.mpr hw, eq_comm, List.append_eq_nil_iff] at hnil
  rw [hlines, hnil.1, List.nil_append]

/-- The lines of a text are the lines of its parts. -/
theorem filledLines_eq_flatMap (text : PyStr) :
    filledLines text = (pieces (· == 10) isAsciiSpace text).flatMap filledLines := by
  have hpieces : pieces isLineBreak isWhitespace = filledLines :=
    funext fun s => (filledLines_eq_pieces s).symm
  rw [← hpieces]
  refine pieces_refine (fun c hc => ?_) (fun c hc => ?_) text
  · rw [beq_iff_eq.mp hc]
    decide
  · simp only [isAsciiSpace, isWhitespace, Bool.or_eq_true, Bool.and_eq_true, decide_eq_true_eq,
      beq_iff_eq] at hc ⊢
    omega

/-- Blank text behind a line changes nothing but the end of the line. -/
theorem exists_filledLines_append_blank {s w : PyStr} (hs : Avoids isLineBreak s)
    (hfilled : isBlank s = false) (hw : isBlank w = true) :
    ∃ v v', w = v ++ v' ∧ filledLines (s ++ w) = [s ++ v] := by
  have hline : ∀ {v : PyStr}, Avoids isLineBreak v → filledLines (s ++ v) = [s ++ v] := by
    intro v hv
    have hnot : isBlank (s ++ v) = false := by
      rw [isBlank, List.all_append, show s.all isWhitespace = false from hfilled, Bool.false_and]
    rw [filledLines_of_avoids (avoids_append.mpr ⟨hs, hv⟩), hnot]
    rfl
  rcases forall_not_or_first_sep isLineBreak w with hfree | ⟨x, b, y, rfl, hb, hx⟩
  · exact ⟨w, [], (List.append_nil w).symm, hline hfree⟩
  · have hy : isBlank y = true := by
      simp only [isBlank, List.all_append, List.all_cons, Bool.and_eq_true] at hw
      exact hw.2.2
    refine ⟨x, b :: y, rfl, ?_⟩
    rw [← List.append_assoc, filledLines_append_break hb, hline hx,
      filledLines_eq_nil_iff.mpr hy, List.append_nil]

theorem fromStored_dict {v : PyVal} {r : AuditRecord} (h : AuditRecord.fromStored P v = .ok r) :
    ∃ items, v = .dict items := by
  obtain ⟨found, hfound, -⟩ := bind_eq_ok.mp h
  cases v with
  | dict items => exact ⟨items, rfl⟩
  | _ => cases hfound

/-- Behind a record a line holds nothing but white space of JSON. -/
theorem Reads.append_iff {s : PyStr} {r : AuditRecord} (h : Reads P s r) (w : PyStr)
    {r' : AuditRecord} : Reads P (s ++ w) r' ↔ AllSpace w ∧ r' = r := by
  obtain ⟨v, hloads, hstored⟩ := h
  obtain ⟨items, rfl⟩ := fromStored_dict hstored
  have happend := loads?_dict_append (loads_eq_ok.mp hloads) w
  rw [← skipWs_eq_nil_iff, Reads]
  by_cases hw : skipWs w = []
  · rw [if_pos hw] at happend
    simp only [loads_eq_ok, happend, Option.some.injEq, exists_eq_left', hstored,
      Except.ok.injEq, hw, true_and]
    exact eq_comm
  · rw [if_neg hw] at happend
    simp [loads_eq_ok, happend, hw]

theorem allSpace_append {w v : PyStr} : AllSpace (w ++ v) ↔ AllSpace w ∧ AllSpace v :=
  List.forall_mem_append

theorem allSpace_lastPart {w : PyStr} (h : AllSpace w) : AllSpace (lastPart w) :=
  fun c hc => h c (lastRun_subset w hc)

/-- A part on one line is one line for `load`, and the same record is on it. -/
theorem reads_onOneLine {part : PyStr} (h : OnOneLine part) {rs : List AuditRecord}
    (hreads : List.Forall₂ (Reads P) (filledLines part) rs) :
    ∃ r, rs = [r] ∧ Reads P part r := by
  obtain ⟨w, l, w', rfl, hw, hw', hl, hfilled⟩ := h
  have hfront : isBlank (lastPart w ++ l) = false := by
    rw [isBlank, List.all_append, show l.all isWhitespace = false from hfilled, Bool.and_false]
  obtain ⟨v, v', rfl, hlines⟩ := exists_filledLines_append_blank
    (avoids_append.mpr ⟨avoids_lastPart w, hl⟩) hfront (isBlank_of_allSpace hw')
  rw [filledLines_blank_append (isBlank_of_allSpace hw), ← List.append_assoc, hlines] at hreads
  obtain ⟨r, rs', hr, hrs', rfl⟩ := List.forall₂_cons_left_iff.mp hreads
  obtain rfl := List.forall₂_nil_left_iff.mp hrs'
  refine ⟨r, rfl, ?_⟩
  rw [List.append_assoc, reads_space_append (allSpace_lastPart hw)] at hr
  rw [reads_space_append hw, ← List.append_assoc]
  exact (hr.append_iff v').mpr ⟨(allSpace_append.mp hw').2, rfl⟩

/-- A part with a record is on one line when `load` reads all its lines. -/
theorem onOneLine_of_reads {part : PyStr} {r : AuditRecord} (h : Reads P part r)
    {rs : List AuditRecord} (hreads : List.Forall₂ (Reads P) (filledLines part) rs) :
    OnOneLine part := by
  rcases forall_not_or_first_sep (fun c => !isJsonSpace c) part with
    hspace | ⟨u, c, v, rfl, hc, hu⟩
  · have hall : AllSpace part := fun c hc => by simpa using hspace c hc
    rw [← List.append_nil part, reads_space_append hall] at h
    obtain ⟨v, hloads, -⟩ := h
    cases hloads
  have hspace : AllSpace u := fun d hd => by simpa using hu d hd
  rw [reads_space_append hspace] at h
  -- the record starts at `c`, which therefore breaks no line
  have hblack : isWhitespace c = false := by
    obtain ⟨value, hloads, -⟩ := h
    have hstarts := loads?_head (by simpa using hc) (loads_eq_ok.mp hloads)
    rw [← Bool.not_eq_true]
    intro hwhite
    rw [not_startsValue_of_isWhitespace hwhite] at hstarts
    cases hstarts
  have hbreak : isLineBreak c = false := by
    rw [← Bool.not_eq_true]
    intro hbreak
    rw [isWhitespace_of_isLineBreak hbreak] at hblack
    cases hblack
  rcases forall_not_or_first_sep isLineBreak (c :: v) with hfree | ⟨x, b, y, hsplit, hb, hx⟩
  · refine ⟨u, c :: v, [], by rw [List.append_nil], hspace, allSpace_nil, hfree, ?_⟩
    exact isBlank_of_mem hblack List.mem_cons_self
  · have hmem : c ∈ x := by
      cases x with
      | nil =>
        obtain ⟨rfl, -⟩ := List.cons.inj hsplit
        rw [hb] at hbreak
        cases hbreak
      | cons d x =>
        obtain ⟨rfl, -⟩ := List.cons.inj hsplit
        exact List.mem_cons_self
    have hfilled : isBlank (lastPart u ++ x) = false :=
      isBlank_of_mem hblack (List.mem_append_right _ hmem)
    rw [hsplit] at h
    rw [hsplit, filledLines_blank_append (isBlank_of_allSpace hspace), ← List.append_assoc,
      filledLines_append_break hb,
      filledLines_of_avoids (avoids_append.mpr ⟨avoids_lastPart u, hx⟩), hfilled] at hreads
    obtain ⟨r', -, hr', -⟩ := List.forall₂_cons_left_iff.mp hreads
    rw [reads_space_append (allSpace_lastPart hspace)] at hr'
    refine ⟨u, x, b :: y, by rw [hsplit], hspace, ((hr'.append_iff _).mp h).1, hx, ?_⟩
    exact isBlank_of_mem hblack hmem

/-- The part that `load_last` reads is one line, up to white space of JSON. -/
def TailOnOneLine (file : LogFile) : Prop :=
  ∀ text part, fileText file = .ok text → tailPart text = some part → OnOneLine part

/-- **When the two tails agree**: when the last part between newlines is one line. -/
theorem loadLast_iff (B : JsonlBackend) {file : LogFile} {rs : List AuditRecord}
    (hload : (B.load P file).1 = .ok rs) :
    (B.loadLast P file).1 = .ok rs.getLast? ↔ TailOnOneLine file := by
  obtain ⟨text, htext, hreads⟩ := JsonlBackend.load_eq_ok.mp hload
  have htail : TailOnOneLine file ↔ ∀ part, tailPart text = some part → OnOneLine part := by
    constructor
    · exact fun h part => h text part htext
    · intro h text' part h'
      rw [← Except.ok.inj (htext.symm.trans h')]
      exact h part
  rw [htail, loadLast_eq_ok htext]
  rw [filledLines_eq_flatMap] at hreads
  cases hpart : tailPart text with
  | none =>
    rw [List.getLast?_eq_none_iff.mp hpart] at hreads
    obtain rfl := List.forall₂_nil_left_iff.mp hreads
    simp
  | some part =>
    obtain ⟨front, hfront⟩ := List.getLast?_eq_some_iff.mp hpart
    rw [hfront, List.flatMap_append, List.flatMap_singleton] at hreads
    -- the records on the last part are the last ones
    have hlast := List.forall₂_drop (front.flatMap filledLines).length hreads
    rw [List.drop_left] at hlast
    constructor
    · rintro (⟨hnone, -⟩ | ⟨part', r, heq, -, hr⟩)
      · cases hnone
      · obtain rfl := Option.some.inj heq
        intro part' heq'
        rw [← Option.some.inj heq']
        exact onOneLine_of_reads hr hlast
    · intro hone
      obtain ⟨r, hrs, hr⟩ := reads_onOneLine (hone part rfl) hlast
      refine Or.inr ⟨part, r, rfl, List.getLast?_eq_some_iff.mpr
        ⟨rs.take (front.flatMap filledLines).length, ?_⟩, hr⟩
      rw [← hrs, List.take_append_drop]

theorem pieces_of_not_mem {s : PyStr} (hs : 10 ∉ s) (hfilled : s.all isAsciiSpace = false) :
    pieces (· == 10) isAsciiSpace s = [s] := by
  have hfree : ∀ c ∈ s, (c == (10 : CodePoint)) = false := by
    intro c hc
    rw [beq_eq_false_iff_ne]
    rintro rfl
    exact hs hc
  rw [pieces_of_forall_not hfree, hfilled]
  rfl

theorem tailPart_of_not_mem {s : PyStr} (hs : 10 ∉ s) (hfilled : s.all isAsciiSpace = false) :
    tailPart s = some s := by
  rw [tailPart, pieces_of_not_mem hs hfilled]
  rfl

theorem tailPart_append_newline {s : PyStr} (hs : 10 ∉ s) (hfilled : s.all isAsciiSpace = false) :
    tailPart (s ++ [10]) = some s := by
  rw [tailPart, pieces_append_sep (by decide), pieces_of_not_mem hs hfilled]
  rfl

/-- A record on a line that CRLF ends. -/
theorem loadLast_sample : ∃ file,
    (JsonlBackend.load referenceRuntime ⟨lit "log", .lf⟩ file).1 = .ok [recordOf []] ∧
      (JsonlBackend.loadLast referenceRuntime ⟨lit "log", .lf⟩ file).1
        = .ok [recordOf []].getLast? := by
  obtain ⟨hwritable, hone, hreads⟩ := recordOf_nil_spec
  obtain ⟨s, hs⟩ := line_eq (recordOf []) (P := referenceRuntime)
  have hbrace : ch '\x7b' ∈ (recordOf []).line referenceRuntime ++ [13] := by simp [hs]
  have hnewline : 10 ∉ (recordOf []).line referenceRuntime ++ [13] := by
    simp [newline_not_mem_line]
  obtain ⟨b, hb⟩ := utf8Encode_ok_iff.mpr (encodable_append.mpr ⟨encodable_append.mpr
    ⟨hwritable.encodable, encodable_of_all (s := [13]) (by decide)⟩,
      encodable_of_all (s := [10]) (by decide)⟩)
  have htext := fileText_of_encode hb
  have hload : (JsonlBackend.load referenceRuntime ⟨lit "log", .lf⟩ (some b)).1
      = .ok [recordOf []] := by
    refine JsonlBackend.load_eq_ok.mpr ⟨_, htext, ?_⟩
    rw [List.append_assoc, List.singleton_append, filledLines_append_break (by decide),
      filledLines_of_avoids hone, isBlank_line, filledLines_eq_nil_iff.mpr (by decide)]
    exact List.Forall₂.cons hreads List.Forall₂.nil
  refine ⟨some b, hload, (loadLast_iff ⟨lit "log", .lf⟩ hload).mpr fun text part htext' h => ?_⟩
  obtain rfl := Except.ok.inj (htext.symm.trans htext')
  rw [tailPart_append_newline hnewline
    (List.all_eq_false.mpr ⟨ch '\x7b', hbrace, by decide⟩)] at h
  obtain rfl := Option.some.inj h
  exact ⟨[], _, [13], rfl, allSpace_nil, List.forall_mem_singleton.mpr (by decide), hone,
    isBlank_line _⟩

/-- A file with a record, and a line that is blank but not in ASCII: U+00A0. -/
theorem loadLast_counterexample :
    ¬∀ (P : Runtime) (B : JsonlBackend) (file : LogFile) (rs : List AuditRecord),
      (B.load P file).1 = .ok rs → (B.loadLast P file).1 = .ok rs.getLast? := by
  intro hclaim
  obtain ⟨hwritable, hone, hreads⟩ := recordOf_nil_spec
  obtain ⟨b, hb⟩ := utf8Encode_ok_iff.mpr (encodable_append.mpr
    ⟨hwritable.encodable, encodable_of_all (s := [10, 0xA0]) (by decide)⟩)
  have htext := fileText_of_encode hb
  have hload : (JsonlBackend.load referenceRuntime ⟨lit "log", .lf⟩ (some b)).1
      = .ok [recordOf []] := by
    refine JsonlBackend.load_eq_ok.mpr ⟨_, htext, ?_⟩
    rw [filledLines_append_break (by decide), filledLines_of_avoids hone, isBlank_line,
      filledLines_eq_nil_iff.mpr (by decide)]
    exact List.Forall₂.cons hreads List.Forall₂.nil
  have hpart : tailPart ((recordOf []).line referenceRuntime ++ [10, 0xA0]) = some [0xA0] := by
    rw [tailPart, pieces_append_sep (by decide), List.getLast?_append]
    rfl
  rcases (loadLast_eq_ok htext).mp (hclaim _ _ _ _ hload) with ⟨hnone, -⟩ | ⟨part, r, h, -, hr⟩
  · rw [hpart] at hnone
    cases hnone
  · obtain rfl := Option.some.inj (hpart.symm.trans h)
    obtain ⟨v, hloads, -⟩ := hr
    exact absurd (loads?_head (by decide) (loads_eq_ok.mp hloads)) (by decide)

end AuditChain
