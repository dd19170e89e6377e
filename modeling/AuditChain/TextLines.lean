/-
AuditChain/TextLines.lean

Text files and lines of text.

A file opened for appending gets the line separator of the platform for every
newline; a file opened for reading turns all separators into newlines again
(`universalNewlines_translate`).  `str.splitlines` breaks a text at more
characters than that.  Lines that hold none of them are split as they were
joined (`splitlines_joined`), and a line that holds one gives several pieces
(`two_le_filledLines`).
-/
import AuditChain.Pieces
import AuditChain.RawChars

namespace Python

open Pieces

/-- Where `str.splitlines` breaks a text. -/
def isLineBreak (c : CodePoint) : Bool :=
  (10 ≤ c.val && c.val ≤ 13) || (28 ≤ c.val && c.val ≤ 30) || c.val == 0x85
    || c.val == 0x2028 || c.val == 0x2029

/-- The line breaks outside ASCII. -/
def isWideBreak (c : CodePoint) : Bool := c.val == 0x85 || c.val == 0x2028 || c.val == 0x2029

/-- What `str.strip` takes for white space. -/
def isWhitespace (c : CodePoint) : Bool :=
  (9 ≤ c.val && c.val ≤ 13) || (28 ≤ c.val && c.val ≤ 32) || c.val == 0x85 || c.val == 0xA0
    || c.val == 0x1680 || (0x2000 ≤ c.val && c.val ≤ 0x200A) || c.val == 0x2028
    || c.val == 0x2029 || c.val == 0x202F || c.val == 0x205F || c.val == 0x3000

/-- `not s.strip()`. -/
def isBlank (s : PyStr) : Bool := s.all isWhitespace

/-- A character in front of the first line. -/
def consFirst (c : CodePoint) : List PyStr → List PyStr
  | [] => [[c]]
  | l :: ls => (c :: l) :: ls

/-- `s.splitlines()`. -/
def splitlines : PyStr → List PyStr
  | [] => []
  | [c] => if isLineBreak c then [[]] else [[c]]
  | c :: d :: s =>
    if c = 13 ∧ d = 10 then [] :: splitlines s
    else if isLineBreak c then [] :: splitlines (d :: s)
    else consFirst c (splitlines (d :: s))

/-- The line separator of a platform, `os.linesep`. -/
inductive LineSep
  | lf
  | crlf

/-- What is written for a newline. -/
def LineSep.text : LineSep → PyStr
  | .lf => [10]
  | .crlf => [13, 10]

/-- What a text file opened with the default newline mode gets for a text. -/
def LineSep.translate (sep : LineSep) (s : PyStr) : PyStr :=
  s.flatMap fun c => if c = 10 then sep.text else [c]

/-- What is read from a text file opened with the default newline mode. -/
def universalNewlines : PyStr → PyStr
  | [] => []
  | [c] => [if c = 13 then 10 else c]
  | c :: d :: s =>
    if c = 13 ∧ d = 10 then 10 :: universalNewlines s
    else (if c = 13 then 10 else c) :: universalNewlines (d :: s)

/-! ### Writing and reading newlines -/

theorem LineSep.translate_append (sep : LineSep) (s t : PyStr) :
    sep.translate (s ++ t) = sep.translate s ++ sep.translate t := List.flatMap_append

theorem LineSep.translate_cons (sep : LineSep) (c : CodePoint) (s : PyStr) :
    sep.translate (c :: s) = (if c = 10 then sep.text else [c]) ++ sep.translate s :=
  List.flatMap_cons

theorem LineSep.translate_of_not_mem (sep : LineSep) {s : PyStr} (h : 10 ∉ s) :
    sep.translate s = s := by
  induction s with
  | nil => rfl
  | cons c s ih =>
    obtain ⟨hc, hs⟩ := not_or.mp (mt List.mem_cons.mpr h)
    rw [translate_cons, if_neg (Ne.symm hc), ih hs, List.singleton_append]

theorem LineSep.translate_line (sep : LineSep) {l : PyStr} (h : 10 ∉ l) (t : PyStr) :
    sep.translate (l ++ 10 :: t) = l ++ (sep.text ++ sep.translate t) := by
  rw [translate_append, translate_of_not_mem sep h, translate_cons, if_pos rfl]

/-- Separators change nothing about what can be encoded. -/
theorem LineSep.encodable_translate_iff (sep : LineSep) {t : PyStr} :
    Encodable (sep.translate t) ↔ Encodable t := by
  have htext : Encodable sep.text := by
    cases sep <;> decide
  constructor
  · intro h c hc
    by_cases hnewline : c = 10
    · rw [hnewline]
      decide
    · exact h c (List.mem_flatMap.mpr ⟨c, hc, by simp [hnewline]⟩)
  · intro h c hc
    obtain ⟨d, hd, hc⟩ := List.mem_flatMap.mp hc
    split at hc
    · exact htext c hc
    · rw [List.mem_singleton.mp hc]
      exact h d hd

theorem universalNewlines_cons {c : CodePoint} (hc : c ≠ 13) (s : PyStr) :
    universalNewlines (c :: s) = c :: universalNewlines s := by
  cases s with
  | nil => simp only [universalNewlines, if_neg hc]
  | cons d s => rw [universalNewlines, if_neg (fun h => hc h.1), if_neg hc]

/-- **A text comes back** whatever separator the platform writes. -/
theorem universalNewlines_translate (sep : LineSep) {s : PyStr} (h : 13 ∉ s) :
    universalNewlines (sep.translate s) = s := by
  induction s with
  | nil => rfl
  | cons c s ih =>
    obtain ⟨hc, hs⟩ := not_or.mp (mt List.mem_cons.mpr h)
    rw [LineSep.translate_cons]
    by_cases hnewline : c = 10
    · rw [if_pos hnewline, hnewline]
      cases sep with
      | lf => rw [LineSep.text, List.singleton_append, universalNewlines_cons (by decide), ih hs]
      | crlf =>
        rw [LineSep.text, List.cons_append, List.singleton_append, universalNewlines,
          if_pos ⟨rfl, rfl⟩, ih hs]
    · rw [if_neg hnewline, List.singleton_append, universalNewlines_cons (Ne.symm hc), ih hs]

/-! ### Splitting -/

theorem isWhitespace_of_isLineBreak {c : CodePoint} (h : isLineBreak c = true) :
    isWhitespace c = true := by
  simp only [isLineBreak, isWhitespace, Bool.or_eq_true, Bool.and_eq_true, decide_eq_true_eq,
    beq_iff_eq] at h ⊢
  omega

theorem beyondAscii_isWideBreak : BeyondAscii isWideBreak := by
  intro c hc
  simp only [isWideBreak, Bool.or_eq_false_iff, beq_eq_false_iff_ne]
  omega

/-- A printable character breaks a line when it is one of the wide breaks. -/
theorem isLineBreak_of_printable {c : CodePoint} (hc : 32 ≤ c.val) :
    isLineBreak c = isWideBreak c := by
  rw [Bool.eq_iff_iff]
  simp only [isLineBreak, isWideBreak, Bool.or_eq_true, Bool.and_eq_true, decide_eq_true_eq,
    beq_iff_eq]
  omega

theorem splitlines_break {c : CodePoint} (hc : isLineBreak c = true) (hne : c ≠ 13) (s : PyStr) :
    splitlines (c :: s) = [] :: splitlines s := by
  cases s with
  | nil => simp only [splitlines, if_pos hc]
  | cons d s => rw [splitlines, if_neg (fun h => hne h.1), if_pos hc]

theorem splitlines_cons {c : CodePoint} (hc : isLineBreak c = false) (s : PyStr) :
    splitlines (c :: s) = consFirst c (splitlines s) := by
  have hne : c ≠ 13 := by
    rintro rfl
    exact absurd hc (by decide)
  cases s with
  | nil =>
    simp only [splitlines, hc]
    rfl
  | cons d s =>
    rw [splitlines, if_neg (fun h => hne h.1), hc]
    rfl

/-- The first line ends at the first break. -/
theorem splitlines_line {l : PyStr} (hl : Avoids isLineBreak l) {c : CodePoint}
    (hc : isLineBreak c = true) (hne : c ≠ 13) (s : PyStr) :
    splitlines (l ++ c :: s) = l :: splitlines s := by
  induction l with
  | nil => exact splitlines_break hc hne s
  | cons d l ih =>
    obtain ⟨hd, hl⟩ := avoids_cons.mp hl
    rw [List.cons_append, splitlines_cons hd, ih hl]
    rfl

/-- Turning separators into newlines moves no break. -/
theorem splitlines_universalNewlines (s : PyStr) :
    splitlines (universalNewlines s) = splitlines s := by
  fun_induction universalNewlines s with
  | case1 => rfl
  | case2 c =>
    by_cases hcr : c = 13
    · rw [hcr]
      rfl
    · rw [if_neg hcr]
  | case3 c d s hcrlf ih =>
    rw [splitlines_break (by decide) (by decide), ih, splitlines, if_pos hcrlf]
  | case4 c d s hcrlf ih =>
    by_cases hcr : c = 13
    · rw [if_pos hcr, splitlines_break (by decide) (by decide), ih, splitlines, if_neg hcrlf,
        if_pos (by rw [hcr]; decide)]
    · rw [if_neg hcr]
      by_cases hbreak : isLineBreak c = true
      · rw [splitlines_break hbreak hcr, splitlines_break hbreak hcr, ih]
      · rw [Bool.not_eq_true] at hbreak
        rw [splitlines_cons hbreak, splitlines_cons hbreak, ih]

/-- Each line, and a newline behind it. -/
def joinLines (lines : List PyStr) : PyStr := lines.flatMap fun l => l ++ [10]

theorem joinLines_cons (l : PyStr) (lines : List PyStr) :
    joinLines (l :: lines) = l ++ 10 :: joinLines lines := by
  rw [joinLines, List.flatMap_cons, List.append_assoc]
  rfl

theorem joinLines_append (lines lines' : List PyStr) :
    joinLines (lines ++ lines') = joinLines lines ++ joinLines lines' := List.flatMap_append

theorem encodable_joinLines {lines : List PyStr} (h : ∀ l ∈ lines, Encodable l) :
    Encodable (joinLines lines) := by
  intro c hc
  obtain ⟨l, hl, hc⟩ := List.mem_flatMap.mp hc
  rcases List.mem_append.mp hc with hc | hc
  · exact h l hl c hc
  · rw [List.mem_singleton.mp hc]
    decide

/-- `"\n".join(lines)`, and a newline behind it. -/
theorem intercalate_newline {lines : List PyStr} (h : lines ≠ []) :
    [10].intercalate lines ++ [10] = joinLines lines := by
  induction lines with
  | nil => exact absurd rfl h
  | cons l lines ih =>
    cases lines with
    | nil => simp [joinLines]
    | cons l' lines =>
      rw [List.intercalate_cons_cons, List.append_assoc, ih (by simp), joinLines_cons l,
        List.append_assoc, List.singleton_append]

/-- **Lines without breaks are split as they were joined.** -/
theorem splitlines_joined {lines : List PyStr} (h : ∀ l ∈ lines, Avoids isLineBreak l) :
    splitlines (joinLines lines) = lines := by
  induction lines with
  | nil => rfl
  | cons l lines ih =>
    obtain ⟨hl, hlines⟩ := List.forall_mem_cons.mp h
    rw [joinLines_cons, splitlines_line hl (by decide) (by decide), ih hlines]

/-! ### The lines that are not blank -/

/-- The lines that are not blank. -/
def filledLines (s : PyStr) : List PyStr := (splitlines s).filter fun l => !isBlank l

theorem splitlines_of_avoids {l : PyStr} (hl : Avoids isLineBreak l) :
    splitlines l = if l = [] then [] else [l] := by
  induction l with
  | nil => rfl
  | cons c l ih =>
    obtain ⟨hc, hl⟩ := avoids_cons.mp hl
    rw [splitlines_cons hc, ih hl, if_neg (List.cons_ne_nil c l)]
    split
    · rename_i hnil
      rw [hnil]
      rfl
    · rfl

/-- The first line ends at the first break, and what follows is split as if it were by
itself.  The second half of a CRLF pair leaves a blank line at most. -/
theorem exists_splitlines_line {l : PyStr} (hl : Avoids isLineBreak l) {c : CodePoint}
    (hc : isLineBreak c = true) (s : PyStr) : ∃ s', splitlines (l ++ c :: s) = l :: splitlines s' ∧
      filledLines s' = filledLines s := by
  induction l with
  | nil =>
    by_cases hne : c = 13
    · subst hne
      cases s with
      | nil => exact ⟨[], rfl, rfl⟩
      | cons d s =>
        rw [List.nil_append, splitlines]
        by_cases hd : d = 10
        · subst hd
          refine ⟨s, if_pos ⟨rfl, rfl⟩, ?_⟩
          rw [filledLines, filledLines, splitlines_break (by decide) (by decide)]
          rfl
        · exact ⟨d :: s, by rw [if_neg (fun h => hd h.2), if_pos hc], rfl⟩
    · exact ⟨s, splitlines_break hc hne s, rfl⟩
  | cons d l ih =>
    obtain ⟨hd, hl⟩ := avoids_cons.mp hl
    obtain ⟨s', hsplit, hfilled⟩ := ih hl
    exact ⟨s', by rw [List.cons_append, splitlines_cons hd, hsplit]; rfl, hfilled⟩

/-- **The lines that are not blank are pieces of the text**: which breaks belong together
does not matter for them. -/
theorem filledLines_eq_pieces (s : PyStr) :
    filledLines s = pieces isLineBreak isWhitespace s := by
  induction s using sepInduction isLineBreak with
  | free l hl =>
    rw [filledLines, splitlines_of_avoids hl, pieces_of_forall_not hl]
    cases l with
    | nil => rfl
    | cons c l =>
      rw [if_neg (List.cons_ne_nil c l)]
      cases hblank : (c :: l).all isWhitespace <;> simp [isBlank, hblank]
  | cut x a y hx ha ih =>
    obtain ⟨s', hsplit, hfilled⟩ := exists_splitlines_line hx ha y
    rw [pieces_append_sep ha, pieces_of_forall_not hx, ← ih, ← hfilled, filledLines, filledLines,
      hsplit]
    cases hblank : x.all isWhitespace <;> simp [isBlank, hblank]

theorem filledLines_append_break {b : CodePoint} (hb : isLineBreak b = true) (s t : PyStr) :
    filledLines (s ++ b :: t) = filledLines s ++ filledLines t := by
  simp only [filledLines_eq_pieces, pieces_append_sep hb]

theorem filledLines_of_avoids {l : PyStr} (hl : Avoids isLineBreak l) :
    filledLines l = if isBlank l then [] else [l] := by
  rw [filledLines_eq_pieces, pieces_of_forall_not hl]
  rfl

/-- A text has lines that are not blank unless it is blank. -/
theorem filledLines_eq_nil_iff {s : PyStr} : filledLines s = [] ↔ isBlank s = true := by
  rw [filledLines_eq_pieces]
  exact pieces_eq_nil_iff fun _ => isWhitespace_of_isLineBreak

theorem isBlank_of_mem {c : CodePoint} {s : PyStr} (hc : isWhitespace c = false) (h : c ∈ s) :
    isBlank s = false :=
  List.all_eq_false.mpr ⟨c, h, by simp [hc]⟩

/-- A text with a character that is no white space has a line that is not blank. -/
theorem filledLines_pos {c : CodePoint} {s : PyStr} (hc : isWhitespace c = false) (h : c ∈ s) :
    0 < (filledLines s).length := by
  rw [List.length_pos_iff, ne_eq, filledLines_eq_nil_iff, isBlank_of_mem hc h]
  exact Bool.false_ne_true

/-- The lines of joined lines, one line after the other. -/
theorem filledLines_joined (lines : List PyStr) :
    filledLines (joinLines lines) = lines.flatMap filledLines := by
  induction lines with
  | nil => rfl
  | cons l lines ih =>
    rw [joinLines_cons, filledLines_append_break (by decide), List.flatMap_cons, ih]

/-- A break inside a line makes two of it. -/
theorem two_le_filledLines {c d b : CodePoint} {s t : PyStr} (hc : isWhitespace c = false)
    (hd : isWhitespace d = false) (hb : b ∈ s) (hbreak : isLineBreak b = true) :
    2 ≤ (filledLines (c :: s ++ d :: t)).length := by
  obtain ⟨u, v, rfl⟩ := List.append_of_mem hb
  have hsplit : c :: (u ++ b :: v) ++ d :: t = (c :: u) ++ b :: (v ++ d :: t) := by simp
  have hfirst := filledLines_pos (s := c :: u) hc List.mem_cons_self
  have hsecond := filledLines_pos (s := v ++ d :: t) hd (by simp)
  rw [hsplit, filledLines_append_break hbreak, List.length_append]
  omega

end Python
