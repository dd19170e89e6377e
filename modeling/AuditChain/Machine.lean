/-
AuditChain/Machine.lean

Machines that take an input, change their state and put something out.

A step returns what it put out and the next state.  A run collects the output
of its steps.  `run_preserves` is the induction over runs, done once: what is
proved of a run is an invariant of the output so far and the state, and what is
assumed of its steps may depend on the state each of them starts from.
-/
import Mathlib.Data.List.Induction

namespace Machine

variable {S I O : Type*} (step : I → S → List O × S)

/-- A run: the output of all steps, and the last state. -/
def run : List I → S → List O × S
  | [], s => ([], s)
  | i :: is, s =>
    ((step i s).1 ++ (run is (step i s).2).1, (run is (step i s).2).2)

/-- `ok` holds of every input of the run, at the state it meets. -/
def StepsOk (ok : I → S → Prop) : List I → S → Prop
  | [], _ => True
  | i :: is, s => ok i s ∧ StepsOk ok is (step i s).2

variable {step}

instance StepsOk.instDecidable {ok : I → S → Prop} [∀ i s, Decidable (ok i s)] :
    ∀ (is : List I) (s : S), Decidable (StepsOk step ok is s)
  | [], _ => isTrue trivial
  | i :: is, s =>
    have : Decidable (StepsOk step ok is (step i s).2) := StepsOk.instDecidable is (step i s).2
    inferInstanceAs (Decidable (ok i s ∧ StepsOk step ok is (step i s).2))

@[simp] theorem run_nil (s : S) : run step [] s = ([], s) := rfl

@[simp] theorem run_cons (i : I) (is : List I) (s : S) : run step (i :: is) s =
    ((step i s).1 ++ (run step is (step i s).2).1, (run step is (step i s).2).2) := rfl

/-- A run whose steps are all fine is fine up to any point. -/
theorem StepsOk.take {ok : I → S → Prop} : ∀ {is : List I} {s : S}, StepsOk step ok is s →
    ∀ n, StepsOk step ok (is.take n) s
  | [], _, _, n => by
    rw [List.take_nil]
    trivial
  | _ :: _, _, _, 0 => trivial
  | _ :: _, _, ⟨hi, his⟩, n + 1 => ⟨hi, his.take n⟩

theorem StepsOk.append {ok : I → S → Prop} : ∀ {is js : List I} {s : S}, StepsOk step ok is s →
    StepsOk step ok js (run step is s).2 → StepsOk step ok (is ++ js) s
  | [], _, _, _, hjs => hjs
  | _ :: _, _, _, ⟨hi, his⟩, hjs => ⟨hi, his.append hjs⟩

theorem StepsOk.and {ok : I → S → Prop} {p : I → Prop} : ∀ {is : List I} {s : S},
    (∀ i ∈ is, p i) → StepsOk step ok is s → StepsOk step (fun i s => p i ∧ ok i s) is s
  | [], _, _, _ => trivial
  | i :: _, _, hp, ⟨hi, his⟩ =>
    ⟨⟨hp i List.mem_cons_self, hi⟩, his.and fun j hj => hp j (List.mem_cons_of_mem i hj)⟩

theorem stepsOk_of_forall {ok : I → S → Prop} {is : List I} (h : ∀ i ∈ is, ∀ s, ok i s) (s : S) :
    StepsOk step ok is s := by
  induction is generalizing s with
  | nil => trivial
  | cons i is ih =>
    exact ⟨h i List.mem_cons_self s, ih (fun j hj => h j (List.mem_cons_of_mem i hj)) _⟩

/-- What an invariant implies is fine in every run that starts from it. -/
theorem stepsOk_of_invariant (ok : I → S → Prop) (Inv : S → Prop) (hok : ∀ i s, Inv s → ok i s)
    (hinv : ∀ i s, ok i s → Inv s → Inv (step i s).2) :
    ∀ (is : List I) {s : S}, Inv s → StepsOk step ok is s
  | [], _, _ => trivial
  | i :: is, s, h =>
    ⟨hok i s h, stepsOk_of_invariant ok Inv hok hinv is (hinv i s (hok i s h) h)⟩

/-- **Induction over runs.** -/
theorem run_preserves (ok : I → S → Prop) (Inv : List O → S → Prop)
    (hstep : ∀ i s os, ok i s → Inv os s → Inv (os ++ (step i s).1) (step i s).2) :
    ∀ (is : List I) (s : S) (os : List O), StepsOk step ok is s → Inv os s →
      Inv (os ++ (run step is s).1) (run step is s).2
  | [], s, os, _, hinv => by
    rw [run_nil, List.append_nil]
    exact hinv
  | i :: is, s, os, ⟨hi, his⟩, hinv => by
    have hnext := run_preserves ok Inv hstep is (step i s).2 (os ++ (step i s).1) his
      (hstep i s os hi hinv)
    rw [List.append_assoc] at hnext
    exact hnext

/-- What an onlooker notes down of a run, who sees each input and the state it meets. -/
def observed {C : Type*} (step : I → S → List O × S) (look : I → S → List C) :
    List I → S → List C
  | [], _ => []
  | i :: is, s => look i s ++ observed step look is (step i s).2

/-- **Induction over runs**, for invariants that compare the notes with the output. -/
theorem observed_preserves {C : Type*} (look : I → S → List C) (ok : I → S → Prop)
    (Inv : List C → List O → S → Prop)
    (hstep : ∀ i s cs os, ok i s → Inv cs os s →
      Inv (cs ++ look i s) (os ++ (step i s).1) (step i s).2) :
    ∀ (is : List I) (s : S) (cs : List C) (os : List O), StepsOk step ok is s → Inv cs os s →
      Inv (cs ++ observed step look is s) (os ++ (run step is s).1) (run step is s).2
  | [], s, cs, os, _, hinv => by
    rw [run_nil, observed, List.append_nil, List.append_nil]
    exact hinv
  | i :: is, s, cs, os, ⟨hi, his⟩, hinv => by
    have hnext := observed_preserves look ok Inv hstep is (step i s).2 (cs ++ look i s)
      (os ++ (step i s).1) his (hstep i s cs os hi hinv)
    rw [List.append_assoc, List.append_assoc] at hnext
    exact hnext

/-- The steps of a run were all fine if nothing bad is left at its end. -/
theorem stepsOk_iff_run (ok : I → S → Prop) (Inv good : S → Prop)
    (hinv : ∀ i s, Inv s → Inv (step i s).2)
    (hgood : ∀ i s, Inv s → (good (step i s).2 ↔ good s ∧ ok i s)) :
    ∀ (is : List I) {s : S}, Inv s → (good (run step is s).2 ↔ good s ∧ StepsOk step ok is s)
  | [], _, _ => ⟨fun h => ⟨h, trivial⟩, And.left⟩
  | i :: is, s, h => by
    rw [run_cons, stepsOk_iff_run ok Inv good hinv hgood is (hinv i s h), hgood i s h, and_assoc]
    rfl

/-- A run in two parts. -/
theorem run_append (is js : List I) (s : S) : run step (is ++ js) s =
    ((run step is s).1 ++ (run step js (run step is s).2).1,
      (run step js (run step is s).2).2) := by
  induction is generalizing s with
  | nil => rfl
  | cons i is ih =>
    rw [List.cons_append, run_cons, ih, run_cons]
    simp only [List.append_assoc]

/-- Induction over the prefixes of one run, for invariants that look at the inputs. -/
theorem run_prefixes (Inv : List I → List O → S → Prop) (all : List I) {s : S}
    (hstart : Inv [] [] s)
    (hstep : ∀ past i rest, past ++ i :: rest = all → ∀ os s, Inv past os s →
      Inv (past ++ [i]) (os ++ (step i s).1) (step i s).2) :
    Inv all (run step all s).1 (run step all s).2 := by
  suffices hprefix : ∀ past rest, past ++ rest = all →
      Inv past (run step past s).1 (run step past s).2 from hprefix all [] (List.append_nil all)
  intro past
  induction past using List.reverseRecOn with
  | nil => exact fun _ _ => hstart
  | append_singleton past i ih =>
    intro rest hall
    rw [List.append_assoc, List.singleton_append] at hall
    have hnext := hstep past i rest hall _ _ (ih (i :: rest) hall)
    rw [run_append, run_cons, run_nil, List.append_nil]
    exact hnext

end Machine
