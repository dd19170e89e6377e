/-
AuditChain/Pieces.lean

A list in pieces.

`pieces sep blank l` is a list split at its separators, without the pieces that
are blank.  Two equations compute it: it goes on behind every separator
(`pieces_append_sep`), and a list without separators is one piece or none
(`pieces_of_forall_not`).  `sepInduction` is induction over the separators of a
list.

    pieces_refine            splitting at fewer separators first
    getLast?_pieces          the last piece ends at separators
    getLast?_pieces_append   it is found in any end of the list that has two pieces
    pieces_flatMap           splitting before or after encoding
-/
import Mathlib.Data.List.Basic
import Mathlib.Data.List.DropRight

namespace Pieces

variable {α β : Type} {sep blank : α → Bool}

/-- A list split at its separators, without the blank pieces. -/
def pieces (sep blank : α → Bool) (l : List α) : List (List α) :=
  (l.splitOnP sep).filter fun x => !x.all blank

/-! ### Separators -/

/-- A list has no separator, or it has a first one. -/
theorem forall_not_or_first_sep (sep : α → Bool) (l : List α) : (∀ a ∈ l, sep a = false) ∨
    ∃ x a y, l = x ++ a :: y ∧ sep a = true ∧ ∀ b ∈ x, sep b = false := by
  induction l with
  | nil => exact Or.inl (by simp)
  | cons c l ih =>
    by_cases hc : sep c = true
    · exact Or.inr ⟨[], c, l, rfl, hc, by simp⟩
    · rw [Bool.not_eq_true] at hc
      rcases ih with hfree | ⟨x, a, y, rfl, ha, hx⟩
      · exact Or.inl (List.forall_mem_cons.mpr ⟨hc, hfree⟩)
      · exact Or.inr ⟨c :: x, a, y, rfl, ha, List.forall_mem_cons.mpr ⟨hc, hx⟩⟩

/-- A list has no separator, or it has a last one. -/
theorem forall_not_or_last_sep (sep : α → Bool) (l : List α) : (∀ a ∈ l, sep a = false) ∨
    ∃ x a y, l = x ++ a :: y ∧ sep a = true ∧ ∀ b ∈ y, sep b = false := by
  induction l with
  | nil => exact Or.inl (by simp)
  | cons c l ih =>
    rcases ih with hfree | ⟨x, a, y, rfl, ha, hy⟩
    · by_cases hc : sep c = true
      · exact Or.inr ⟨[], c, l, rfl, hc, hfree⟩
      · exact Or.inl (List.forall_mem_cons.mpr ⟨by simpa using hc, hfree⟩)
    · exact Or.inr ⟨c :: x, a, y, rfl, ha, hy⟩

/-- Induction over the separators of a list. -/
theorem sepInduction {motive : List α → Prop} (sep : α → Bool)
    (free : ∀ l, (∀ a ∈ l, sep a = false) → motive l)
    (cut : ∀ x a y, (∀ b ∈ x, sep b = false) → sep a = true → motive y → motive (x ++ a :: y))
    (l : List α) : motive l := by
  induction hn : l.length using Nat.strongRecOn generalizing l with
  | ind n ih =>
    rcases forall_not_or_first_sep sep l with hfree | ⟨x, a, y, rfl, ha, hx⟩
    · exact free l hfree
    · refine cut x a y hx ha (ih y.length ?_ y rfl)
      rw [← hn, List.length_append, List.length_cons]
      omega

/-- What is behind the last separator. -/
def lastRun (sep : α → Bool) (l : List α) : List α := l.rtakeWhile fun a => !sep a

theorem lastRun_of_forall_not {l : List α} (h : ∀ a ∈ l, sep a = false) : lastRun sep l = l :=
  List.rtakeWhile_eq_self_iff.mpr fun a ha => by rw [h a ha]; rfl

theorem lastRun_append_sep {l m : List α} {a : α} (ha : sep a = true)
    (hm : ∀ b ∈ m, sep b = false) : lastRun sep (l ++ a :: m) = m := by
  have hrev : ∀ b ∈ m.reverse, (!sep b) = true := by
    intro b hb
    rw [hm b (List.mem_reverse.mp hb)]
    rfl
  rw [lastRun, List.rtakeWhile, List.reverse_append, List.reverse_cons, List.append_assoc,
    List.takeWhile_append_of_pos hrev]
  simp [ha]

theorem lastRun_append_cons {l m : List α} {a : α} (ha : sep a = true) :
    lastRun sep (l ++ a :: m) = lastRun sep m := by
  rcases forall_not_or_last_sep sep m with hm | ⟨x, b, y, rfl, hb, hy⟩
  · rw [lastRun_append_sep ha hm, lastRun_of_forall_not hm]
  · rw [← List.cons_append, ← List.append_assoc, lastRun_append_sep hb hy,
      lastRun_append_sep hb hy]

theorem not_sep_of_mem_lastRun {l : List α} {a : α} (h : a ∈ lastRun sep l) : sep a = false := by
  simpa using List.mem_rtakeWhile_imp h

theorem lastRun_subset (l : List α) : lastRun sep l ⊆ l := (List.rtakeWhile_suffix _ l).subset

/-! ### Pieces -/

theorem pieces_append_sep {a : α} (ha : sep a = true) (l m : List α) :
    pieces sep blank (l ++ a :: m) = pieces sep blank l ++ pieces sep blank m := by
  rw [pieces, List.splitOnP_append_cons l m ha, List.filter_append]
  rfl

theorem pieces_of_forall_not {l : List α} (h : ∀ a ∈ l, sep a = false) :
    pieces sep blank l = if l.all blank then [] else [l] := by
  rw [pieces, List.splitOnP_eq_singleton h]
  cases hblank : l.all blank <;> simp [hblank]

/-- The pieces of a longer list: those in front of the last separator, and those behind. -/
theorem exists_pieces_append (l : List α) : ∃ front, ∀ m,
    pieces sep blank (l ++ m) = front ++ pieces sep blank (lastRun sep l ++ m) := by
  rcases forall_not_or_last_sep sep l with hfree | ⟨x, a, y, rfl, ha, hy⟩
  · exact ⟨[], fun m => by rw [lastRun_of_forall_not hfree, List.nil_append]⟩
  · refine ⟨pieces sep blank x, fun m => ?_⟩
    rw [lastRun_append_sep ha hy, List.append_assoc, List.cons_append, pieces_append_sep ha]

/-- A blank list has no pieces. -/
theorem pieces_of_blank {l : List α} (h : l.all blank = true) : pieces sep blank l = [] := by
  induction l using sepInduction sep with
  | free l hfree => rw [pieces_of_forall_not hfree, if_pos h]
  | cut x a y hx ha ih =>
    rw [List.all_append, List.all_cons, Bool.and_eq_true, Bool.and_eq_true] at h
    rw [pieces_append_sep ha, pieces_of_forall_not hx, if_pos h.1, ih h.2.2]
    rfl

/-- Only a blank list has no pieces, when separators are blank. -/
theorem pieces_eq_nil_iff (hsep : ∀ a, sep a = true → blank a = true) {l : List α} :
    pieces sep blank l = [] ↔ l.all blank = true := by
  refine ⟨fun h => ?_, pieces_of_blank⟩
  induction l using sepInduction sep with
  | free l hfree =>
    rw [pieces_of_forall_not hfree] at h
    by_contra hblank
    rw [if_neg hblank] at h
    cases h
  | cut x a y hx ha ih =>
    rw [pieces_append_sep ha, List.append_eq_nil_iff, pieces_of_forall_not hx] at h
    rw [List.all_append, List.all_cons, hsep a ha, ih h.2, Bool.and_true, Bool.and_true]
    by_contra hblank
    rw [if_neg hblank] at h
    cases h.1

/-- **The last piece is whole**: it ends at the ends of the list or at separators, there is no
separator in it, and everything behind it is blank. -/
theorem getLast?_pieces (hsep : ∀ a, sep a = true → blank a = true) {l p : List α}
    (h : (pieces sep blank l).getLast? = some p) : ∃ front back,
    l = front ++ (p ++ back) ∧ (front = [] ∨ ∃ f a, front = f ++ [a] ∧ sep a = true) ∧
      (back = [] ∨ ∃ a b, back = a :: b ∧ sep a = true) ∧
        (∀ a ∈ p, sep a = false) ∧ p.all blank = false ∧ back.all blank = true := by
  induction l using sepInduction sep with
  | free l hl =>
    rw [pieces_of_forall_not hl] at h
    split at h
    · cases h
    · rename_i hblank
      obtain rfl := Option.some.inj h
      exact ⟨[], [], by simp, Or.inl rfl, Or.inl rfl, hl, by simpa using hblank, rfl⟩
  | cut x a y hx ha ih =>
    rw [pieces_append_sep ha] at h
    by_cases hy : pieces sep blank y = []
    · -- the last piece is the one in front of the separator
      rw [hy, List.append_nil, pieces_of_forall_not hx] at h
      split at h
      · cases h
      · rename_i hblank
        obtain rfl := Option.some.inj h
        refine ⟨[], a :: y, rfl, Or.inl rfl, Or.inr ⟨a, y, rfl, ha⟩, hx, by simpa using hblank, ?_⟩
        rw [List.all_cons, hsep a ha, (pieces_eq_nil_iff hsep).mp hy]
        rfl
    · rw [List.getLast?_append_of_ne_nil _ hy] at h
      obtain ⟨front, back, rfl, hfront, hrest⟩ := ih h
      refine ⟨x ++ a :: front, back, by simp, Or.inr ?_, hrest⟩
      rcases hfront with rfl | ⟨f, b, rfl, hb⟩
      · exact ⟨x, a, rfl, ha⟩
      · exact ⟨x ++ a :: f, b, by simp, hb⟩

/-- What stands in front of a list with two pieces does not change the last one. -/
theorem getLast?_pieces_append {l m : List α} (h : 1 < (pieces sep blank m).length) :
    (pieces sep blank (l ++ m)).getLast? = (pieces sep blank m).getLast? := by
  rcases forall_not_or_first_sep sep m with hfree | ⟨x, a, y, rfl, ha, hx⟩
  · rw [pieces_of_forall_not hfree] at h
    split at h <;> simp at h
  · have hy : pieces sep blank y ≠ [] := by
      intro hnil
      rw [pieces_append_sep ha, hnil, List.append_nil, pieces_of_forall_not hx] at h
      split at h <;> simp at h
    rw [← List.append_assoc, pieces_append_sep ha, pieces_append_sep ha,
      List.getLast?_append_of_ne_nil _ hy, List.getLast?_append_of_ne_nil _ hy]

/-- A list may be split at some of its separators first. -/
theorem pieces_refine {sep' blank' : α → Bool} (hsep : ∀ a, sep a = true → sep' a = true)
    (hblank : ∀ a, blank a = true → blank' a = true) (l : List α) :
    pieces sep' blank' l = (pieces sep blank l).flatMap (pieces sep' blank') := by
  induction l using sepInduction sep with
  | free l hfree =>
    rw [pieces_of_forall_not hfree]
    split
    · rename_i hall
      rw [List.all_eq_true] at hall
      rw [pieces_of_blank (List.all_eq_true.mpr fun a ha => hblank a (hall a ha))]
      rfl
    · simp
  | cut x a y hx ha ih =>
    rw [pieces_append_sep (hsep a ha), pieces_append_sep ha, List.flatMap_append, ← ih,
      pieces_of_forall_not hx]
    split
    · rename_i hall
      rw [List.all_eq_true] at hall
      rw [pieces_of_blank (List.all_eq_true.mpr fun a ha => hblank a (hall a ha))]
      rfl
    · simp

/-- Splitting before or after encoding, when separators and blanks can be told from the
code. -/
theorem pieces_flatMap {sep' blank' : β → Bool} {code : α → List β}
    (hsep : ∀ a, sep a = true → ∃ b, code a = [b] ∧ sep' b = true)
    (hfree : ∀ a, sep a = false → ∀ b ∈ code a, sep' b = false)
    (hblank : ∀ a, (code a).all blank' = blank a) (l : List α) :
    pieces sep' blank' (l.flatMap code) = (pieces sep blank l).map fun x => x.flatMap code := by
  have hall : ∀ x : List α, (x.flatMap code).all blank' = x.all blank := by
    intro x
    rw [List.all_flatMap]
    simp only [hblank]
  have hpiece : ∀ x : List α, (∀ a ∈ x, sep a = false) →
      pieces sep' blank' (x.flatMap code)
        = (pieces sep blank x).map fun y => y.flatMap code := by
    intro x hx
    rw [pieces_of_forall_not hx, pieces_of_forall_not, hall]
    · split <;> rfl
    · intro b hb
      obtain ⟨a, ha, hb⟩ := List.mem_flatMap.mp hb
      exact hfree a (hx a ha) b hb
  induction l using sepInduction sep with
  | free l hl => exact hpiece l hl
  | cut x a y hx ha ih =>
    obtain ⟨b, hcode, hb⟩ := hsep a ha
    rw [List.flatMap_append, List.flatMap_cons, hcode, List.singleton_append,
      pieces_append_sep hb, pieces_append_sep ha, List.map_append, hpiece x hx, ih]

end Pieces
