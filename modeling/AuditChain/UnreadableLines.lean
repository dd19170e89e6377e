/-
AuditChain/UnreadableLines.lean

Files that cannot be read.

`load` and `load_last` guard the decoding of a line with

    except (json.JSONDecodeError, KeyError, TypeError, ValueError)

and turn what they catch into `LogCorruptedError`.  Decoding can fail in two more
ways: a JSON value that is no object has no `get`, which is an `AttributeError`,
and `int` of an infinite float is an `OverflowError`.  Everything else is caught.

    caught_fromStored_iff    the guard catches every failure on a value exactly when
                             the value is an object whose seq is not infinite
    reports_iff              on which files nothing but `LogCorruptedError` is raised
-/
import AuditChain.JsonlTail

namespace AuditChain

open Python

/-! ### Exceptions -/

/-- The readers catch it. -/
def Caught (e : PyError) : Prop := isUnreadable e = true

/-- It is a `LogCorruptedError`. -/
def IsCorrupted (e : PyError) : Prop := e.cls = .user (lit "LogCorruptedError")

variable {P : Runtime}

/-! ### One value -/

/-- A value that the guard does not cover: no object, or an object with an infinite seq. -/
def EscapingValue (v : PyVal) : Prop :=
  (∀ items, v ≠ .dict items) ∨
    ∃ items neg, v = .dict items ∧ PyDict.get? items (lit "seq") = some (.float (.inf neg))

theorem caught_getItem (v : PyVal) (key : PyStr) : RaisesOnly Caught (getItem P v key) := by
  unfold getItem
  split
  · split
    · exact raisesOnly_ok _
    · exact raisesOnly_error.mpr rfl
  · exact raisesOnly_error.mpr rfl

theorem caught_getText (items : PyDict) (key : PyStr) :
    RaisesOnly Caught (getText P (.dict items) key) := raisesOnly_ok _

/-- `int` fails with a `ValueError` or a `TypeError`, but for infinite floats. -/
theorem caught_toInt {v : PyVal} (h : ∀ neg, v ≠ .float (.inf neg)) :
    RaisesOnly Caught (v.toInt P.unicode P.floats) := by
  cases v with
  | float f =>
    cases f with
    | nan => exact raisesOnly_error.mpr rfl
    | inf neg => exact absurd rfl (h neg)
    | fin t => exact raisesOnly_ok _
  | str s =>
    rw [PyVal.toInt]
    split
    · exact raisesOnly_ok _
    · exact raisesOnly_error.mpr rfl
  | int i => exact raisesOnly_ok _
  | bool b => exact raisesOnly_ok _
  | _ => exact raisesOnly_error.mpr rfl

theorem caught_pairOf (v : PyVal) : RaisesOnly Caught (pairOf v) := by
  unfold pairOf
  split
  all_goals first | exact raisesOnly_ok _ | exact raisesOnly_error.mpr rfl

theorem caught_dictOfSequence (xs : List PyVal) :
    ∀ d, RaisesOnly Caught (dictOfSequence P.floats d xs) := by
  induction xs with
  | nil => exact fun d => raisesOnly_ok d
  | cons x xs ih =>
    intro d
    rw [dictOfSequence]
    apply (caught_pairOf x).bind
    rintro ⟨a, b⟩ _
    dsimp only
    split
    · exact ih _
    · exact raisesOnly_error.mpr rfl

/-- `dict` fails with a `ValueError` or a `TypeError`. -/
theorem caught_dictOf (v : PyVal) : RaisesOnly Caught (dictOf P.floats v) := by
  cases v with
  | dict items => exact raisesOnly_ok items
  | list xs => exact caught_dictOfSequence xs []
  | tuple xs => exact caught_dictOfSequence xs []
  | str s => exact caught_dictOfSequence _ []
  | _ => exact raisesOnly_error.mpr rfl

/-- What happens on an object whose seq is not infinite. -/
theorem caught_fromStored {items : PyDict}
    (h : ∀ neg, PyDict.get? items (lit "seq") ≠ some (.float (.inf neg))) :
    RaisesOnly Caught (AuditRecord.fromStored P (.dict items)) := by
  have hseq : ∀ v, getItem P (.dict items) (lit "seq") = .ok v →
      RaisesOnly Caught (v.toInt P.unicode P.floats) := by
    intro v hv
    refine caught_toInt fun neg hneg => h neg ?_
    rw [getItem] at hv
    split at hv
    · rename_i w hw
      rw [hw, ← hneg, Except.ok.inj hv]
    · cases hv
  have hmeta : RaisesOnly Caught (getField (.dict items) (lit "meta")) := raisesOnly_ok _
  unfold AuditRecord.fromStored
  apply hmeta.bind; intro found _
  apply (caught_getItem _ _).bind; intro v hv
  apply (hseq v hv).bind; intro seq _
  apply (caught_getItem _ _).bind; intro timestamp _
  apply (caught_getItem _ _).bind; intro actor _
  apply (caught_getItem _ _).bind; intro action _
  apply (caught_getText _ _).bind; intro subject _
  apply (caught_dictOf _).bind; intro metadata _
  apply (caught_getItem _ _).bind; intro prevHash _
  apply (caught_getItem _ _).bind; intro hash _
  apply (caught_getText _ _).bind; intro keyId _
  apply (caught_getText _ _).bind; intro signerId _
  apply (caught_getText _ _).bind; intro signature _
  exact raisesOnly_ok _

/-- What happens on any other value. -/
theorem fromStored_escaping {v : PyVal} (h : EscapingValue v) :
    ∃ e, AuditRecord.fromStored P v = .error e ∧
      (e.cls = .attributeError ∨ e.cls = .overflowError) := by
  rcases h with hother | ⟨items, neg, rfl, hseq⟩
  · refine ⟨⟨.attributeError, lit "object has no attribute 'get'"⟩, ?_, Or.inl rfl⟩
    cases v with
    | dict items => exact absurd rfl (hother items)
    | _ => rfl
  · refine ⟨⟨.overflowError, lit "cannot convert float infinity to integer"⟩, ?_, Or.inr rfl⟩
    have hitem : getItem P (.dict items) (lit "seq") = .ok (.float (.inf neg)) := by
      rw [getItem, hseq]
    show (getItem P (.dict items) (lit "seq") >>= _) = _
    rw [hitem]
    rfl

/-- **What the guard covers.** -/
theorem caught_fromStored_iff {v : PyVal} :
    RaisesOnly Caught (AuditRecord.fromStored P v) ↔ ¬EscapingValue v := by
  constructor
  · intro h hesc
    obtain ⟨e, he, hcls⟩ := fromStored_escaping (P := P) hesc
    have hcaught : isUnreadable e = true := h e he
    unfold isUnreadable PyError.isValueError at hcaught
    rcases hcls with hcls | hcls
    · rw [hcls] at hcaught
      exact absurd hcaught (by decide)
    · rw [hcls] at hcaught
      exact absurd hcaught (by decide)
  · intro hesc
    cases v with
    | dict items =>
      exact caught_fromStored fun neg hneg => hesc (Or.inr ⟨items, neg, rfl, hneg⟩)
    | _ => exact absurd (Or.inl fun items h => by cases h) hesc

/-! ### One line -/

variable (P) in
/-- A line with such a value. -/
def EscapingLine (line : PyStr) : Prop := ∃ v, loads P.floats line = .ok v ∧ EscapingValue v

/-- Decoding a line. -/
theorem caught_line_iff {line : PyStr} :
    RaisesOnly Caught (do let v ← loads P.floats line; AuditRecord.fromStored P v)
      ↔ ¬EscapingLine P line := by
  cases hloads : loads P.floats line with
  | error e =>
    have hcls : isUnreadable e = true := by
      rw [loads] at hloads
      split at hloads
      · cases hloads
      · rw [← Except.error.inj hloads]
        rfl
    constructor
    · rintro - ⟨v, hv, -⟩
      rw [hloads] at hv
      cases hv
    · exact fun _ => raisesOnly_error.mpr hcls
  | ok v =>
    rw [ok_bind, caught_fromStored_iff, EscapingLine, hloads]
    simp

/-- On an escaping line the exception goes through. -/
theorem escaping_line_error {line : PyStr} (h : EscapingLine P line) :
    ∃ e, (do let v ← loads P.floats line; AuditRecord.fromStored P v) = .error e ∧
      isUnreadable e = false ∧ e.cls ≠ .user (lit "LogCorruptedError") := by
  obtain ⟨v, hloads, hv⟩ := h
  obtain ⟨e, he, hcls⟩ := fromStored_escaping (P := P) hv
  refine ⟨e, by rw [hloads, ok_bind, he], ?_⟩
  unfold isUnreadable PyError.isValueError
  rcases hcls with hcls | hcls
  · rw [hcls]
    exact ⟨rfl, fun h => by cases h⟩
  · rw [hcls]
    exact ⟨rfl, fun h => by cases h⟩

namespace JsonlBackend

variable {B : JsonlBackend}

theorem reported_readLine_iff {line : PyStr} {n : ℕ} :
    RaisesOnly IsCorrupted (B.readLine P n line) ↔ ¬EscapingLine P line := by
  constructor
  · intro h hesc
    obtain ⟨e, he, hcaught, hcls⟩ := escaping_line_error hesc
    refine hcls (h e ?_)
    rw [readLine, he]
    show (if isUnreadable e = true then _ else _) = _
    rw [hcaught, if_neg Bool.false_ne_true]
  · intro hesc e he
    rw [readLine] at he
    split at he
    · cases he
    · rename_i e' he'
      rw [if_pos (show isUnreadable e' = true from caught_line_iff.mpr hesc e' he')] at he
      rw [← Except.error.inj he]
      rfl

end JsonlBackend

/-! ### A file -/

variable (P) in
/-- The lines hold an escaping one, and a record on each line in front of it. -/
def ReachesEscaping (lines : List PyStr) : Prop :=
  ∃ front line back, lines = front ++ line :: back ∧ (∀ l ∈ front, ∃ r, Reads P l r) ∧
    EscapingLine P line

theorem not_reachesEscaping_nil : ¬ReachesEscaping P [] := by
  rintro ⟨front, line, back, h, -⟩
  simp at h

theorem reachesEscaping_cons {line : PyStr} {lines : List PyStr} :
    ReachesEscaping P (line :: lines) ↔
      EscapingLine P line ∨ (∃ r, Reads P line r) ∧ ReachesEscaping P lines := by
  constructor
  · rintro ⟨front, l, back, h, hfront, hesc⟩
    cases front with
    | nil =>
      obtain ⟨rfl, -⟩ := List.cons.inj h
      exact Or.inl hesc
    | cons first front =>
      obtain ⟨rfl, hlines⟩ := List.cons.inj h
      obtain ⟨hfirst, hfront⟩ := List.forall_mem_cons.mp hfront
      exact Or.inr ⟨hfirst, front, l, back, hlines, hfront, hesc⟩
  · rintro (hesc | ⟨hreads, front, l, back, rfl, hfront, hesc⟩)
    · exact ⟨[], line, lines, rfl, by simp, hesc⟩
    · exact ⟨line :: front, l, back, rfl, List.forall_mem_cons.mpr ⟨hreads, hfront⟩, hesc⟩

namespace JsonlBackend

variable {B : JsonlBackend}

theorem reported_readFrom_iff {lines : List PyStr} {n : ℕ} :
    RaisesOnly IsCorrupted (B.readFrom P n lines)
      ↔ ¬ReachesEscaping P (lines.filter fun l => !isBlank l) := by
  induction lines generalizing n with
  | nil => exact iff_of_true (raisesOnly_ok _) not_reachesEscaping_nil
  | cons line lines ih =>
    rw [readFrom]
    by_cases hblank : isBlank line = true
    · rw [if_pos hblank, ih, List.filter_cons_of_neg (by simp [hblank])]
    · rw [if_neg hblank, List.filter_cons_of_pos (by simpa using hblank), reachesEscaping_cons,
        not_or, ← reported_readLine_iff (B := B) (n := n), not_and]
      cases hline : B.readLine P n line with
      | error e =>
        -- what the line raises is raised, and the lines behind it are not read
        have hreads : ¬∃ r, Reads P line r := by
          rintro ⟨r, hr⟩
          rw [readLine_eq_ok.mpr hr] at hline
          cases hline
        show RaisesOnly IsCorrupted (Except.error e) ↔ _
        rw [raisesOnly_error, raisesOnly_error]
        exact ⟨fun h => ⟨h, fun hr => absurd hr hreads⟩, fun h => h.1⟩
      | ok r =>
        have hreads : ∃ r, Reads P line r := ⟨r, readLine_eq_ok.mp hline⟩
        rw [ok_bind]
        have hrest :
            RaisesOnly IsCorrupted (do let rs ← B.readFrom P (n + 1) lines; return r :: rs) ↔
              RaisesOnly IsCorrupted (B.readFrom P (n + 1) lines) := by
          cases B.readFrom P (n + 1) lines with
          | error e => exact Iff.rfl
          | ok rs => exact iff_of_true (raisesOnly_ok _) (raisesOnly_ok _)
        rw [hrest, ih]
        exact ⟨fun h => ⟨raisesOnly_ok _, fun _ => h⟩, fun h => h.2 hreads⟩

/-- **`load`** stops at the first line without a record. -/
theorem reported_load_iff {file : LogFile} {text : PyStr} (h : fileText file = .ok text) :
    RaisesOnly IsCorrupted (B.load P file).1 ↔ ¬ReachesEscaping P (filledLines text) := by
  rw [load_of_fileText h]
  exact reported_readFrom_iff

/-- **`load_last`** looks at the last part. -/
theorem reported_loadLast_iff {file : LogFile} {text : PyStr} (h : fileText file = .ok text) :
    RaisesOnly IsCorrupted (B.loadLast P file).1
      ↔ ∀ part, tailPart text = some part → ¬EscapingLine P part := by
  have hlast := lastLine_eq h
  cases hpart : tailPart text with
  | none =>
    rw [hpart] at hlast
    rw [loadLast, hlast]
    refine iff_of_true (raisesOnly_ok _) fun part h => ?_
    cases h
  | some part =>
    rw [hpart] at hlast
    rw [loadLast, hlast, ok_bind]
    simp only [if_neg (tailPart_ne_nil hpart), Option.some.injEq, forall_eq']
    constructor
    · intro h hesc
      obtain ⟨e, he, hcaught, hcls⟩ := escaping_line_error hesc
      refine hcls (h e ?_)
      rw [he]
      show (if isUnreadable e = true then _ else _) = _
      rw [hcaught, if_neg Bool.false_ne_true]
    · intro hesc e he
      split at he
      · cases he
      · rename_i e' he'
        rw [if_pos (show isUnreadable e' = true from caught_line_iff.mpr hesc e' he')] at he
        rw [← Except.error.inj he]
        rfl

/-- **Nothing but `LogCorruptedError`** is raised on a file exactly when no line that `load`
comes to escapes, nor the part that `load_last` reads. -/
theorem reports_iff {file : LogFile} {text : PyStr} (h : fileText file = .ok text) :
    RaisesOnly IsCorrupted (B.load P file).1 ∧ RaisesOnly IsCorrupted (B.loadLast P file).1 ↔
      ¬ReachesEscaping P (filledLines text) ∧
        ∀ part, tailPart text = some part → ¬EscapingLine P part :=
  and_congr (reported_load_iff h) (reported_loadLast_iff h)

/-- A line that was cut short is reported. -/
theorem reports_sample :
    RaisesOnly IsCorrupted
        (load referenceRuntime ⟨lit "log", .lf⟩ (some [0x7B, 0x22])).1 ∧
      RaisesOnly IsCorrupted
        (loadLast referenceRuntime ⟨lit "log", .lf⟩ (some [0x7B, 0x22])).1 := by
  have hnone : loads referenceRuntime.floats [ch '\x7b', 34]
      = .error ⟨.jsonDecodeError, lit "malformed JSON"⟩ := rfl
  have hline : ¬EscapingLine referenceRuntime [ch '\x7b', 34] := by
    rintro ⟨v, hv, -⟩
    rw [hnone] at hv
    cases hv
  have htext : fileText (some [0x7B, 0x22]) = .ok [ch '\x7b', 34] := rfl
  refine (reports_iff htext).mpr ⟨?_, fun part hpart => ?_⟩
  · rw [show filledLines [ch '\x7b', 34] = [[ch '\x7b', 34]] by decide, reachesEscaping_cons]
    rintro (hesc | ⟨-, hesc⟩)
    · exact hline hesc
    · exact not_reachesEscaping_nil hesc
  · rw [tailPart_of_not_mem (by decide) (by decide)] at hpart
    obtain rfl := Option.some.inj hpart
    exact hline

/-- A file with the line `[]`. -/
theorem reports_counterexample : ¬∀ (P : Runtime) (B : JsonlBackend) (file : LogFile)
    (text : PyStr), fileText file = .ok text →
      RaisesOnly IsCorrupted (B.load P file).1 ∧ RaisesOnly IsCorrupted (B.loadLast P file).1 := by
  intro hclaim
  have htext : fileText (some [0x5B, 0x5D]) = .ok (lit "[]") := rfl
  have hesc : EscapingLine referenceRuntime (lit "[]") :=
    ⟨.list [], rfl, Or.inl fun items h => by cases h⟩
  have hload := (hclaim referenceRuntime ⟨lit "log", .lf⟩ _ _ htext).1
  rw [reported_load_iff htext] at hload
  refine hload ⟨[], lit "[]", [], ?_, by simp, hesc⟩
  decide

end JsonlBackend

end AuditChain
