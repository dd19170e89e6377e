/-
AuditChain/TaskQueue.lean

A queue that counts its unfinished tasks, and a sentinel that stops who reads it.

`put` adds a task at the end and `get` takes the first one; `unfinished` counts
the tasks that were put and that nobody has declared finished with `taskDone`.
In a queue of options `none` is the sentinel: what stands behind it
(`behindStop`) is never read.
-/
import Mathlib.Data.List.ReduceOption

/-- A queue that counts its unfinished tasks. -/
structure TaskQueue (α : Type*) where
  items : List α
  unfinished : ℕ

namespace TaskQueue

variable {α : Type*}

def empty : TaskQueue α := ⟨[], 0⟩

/-- Add a task at the end. -/
def put (q : TaskQueue α) (x : α) : TaskQueue α := ⟨q.items ++ [x], q.unfinished + 1⟩

/-- Take the first task; nothing while there is none. -/
def get (q : TaskQueue α) : Option (α × TaskQueue α) :=
  match q.items with
  | [] => none
  | x :: xs => some (x, ⟨xs, q.unfinished⟩)

/-- A task that was taken is finished. -/
def taskDone (q : TaskQueue α) : TaskQueue α := { q with unfinished := q.unfinished - 1 }

theorem get_eq_some {q q' : TaskQueue α} {x : α} (h : q.get = some (x, q')) :
    q.items = x :: q'.items ∧ q'.unfinished = q.unfinished := by
  unfold get at h
  split at h
  · cases h
  · rename_i hitems
    obtain ⟨rfl, rfl⟩ := Prod.mk.inj (Option.some.inj h)
    exact ⟨hitems, rfl⟩

/-! ### The sentinel -/

/-- How many sentinels there are. -/
def stops (xs : List (Option α)) : ℕ := xs.countP Option.isNone

/-- What stands behind the first sentinel. -/
def behindStop : List (Option α) → List α
  | [] => []
  | none :: xs => xs.reduceOption
  | some _ :: xs => behindStop xs

@[simp] theorem stops_append_some (xs : List (Option α)) (x : α) :
    stops (xs ++ [some x]) = stops xs := by
  simp [stops]

@[simp] theorem stops_append_none (xs : List (Option α)) :
    stops (xs ++ [none]) = stops xs + 1 := by
  simp [stops]

@[simp] theorem stops_some_cons (x : α) (xs : List (Option α)) :
    stops (some x :: xs) = stops xs := by
  simp [stops]

@[simp] theorem stops_none_cons (xs : List (Option α)) : stops (none :: xs) = stops xs + 1 := by
  simp [stops]

theorem behindStop_eq_nil {xs : List (Option α)} (h : stops xs = 0) : behindStop xs = [] := by
  induction xs with
  | nil => rfl
  | cons o xs ih =>
    cases o with
    | none => simp at h
    | some x => exact ih (by simpa using h)

/-- The end of the queue is behind the sentinel as soon as there is one. -/
theorem behindStop_append_some {xs : List (Option α)} (h : stops xs ≠ 0) (x : α) :
    behindStop (xs ++ [some x]) = behindStop xs ++ [x] := by
  induction xs with
  | nil => exact absurd rfl h
  | cons o xs ih =>
    cases o with
    | none =>
      show (xs ++ [some x]).reduceOption = xs.reduceOption ++ [x]
      rw [List.reduceOption_append, List.reduceOption_singleton, Option.toList_some]
    | some y => exact ih (by simpa using h)

theorem behindStop_append_none {xs : List (Option α)} (h : stops xs = 0) :
    behindStop (xs ++ [none]) = [] := by
  induction xs with
  | nil => rfl
  | cons o xs ih =>
    cases o with
    | none => simp at h
    | some x => exact ih (by simpa using h)

end TaskQueue
