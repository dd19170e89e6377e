/-
AuditChain/ColumnTables.lean

Tables that gain columns.

A row has a fixed part `ρ`, and a value for each of the columns `κ` that its table has.  A
column that is added has the same value in all the rows there are.  `full` reads a table as
if it had all columns, and adding one changes nothing about that.
-/
import Mathlib.Logic.Function.Basic

/-- A table.  What a row has where the table has no column means nothing. -/
structure ColumnTable (κ ρ α : Type*) where
  columns : κ → Bool
  rows : List (ρ × (κ → α))

namespace ColumnTable

variable {κ ρ α : Type*}

/-- A new table has all columns and no rows. -/
def new : ColumnTable κ ρ α := ⟨fun _ => true, []⟩

/-- Add a row. -/
def insert (T : ColumnTable κ ρ α) (row : ρ × (κ → α)) : ColumnTable κ ρ α :=
  { T with rows := T.rows ++ [row] }

/-- Add a column, unless the table has it. -/
def addColumn [DecidableEq κ] (T : ColumnTable κ ρ α) (c : κ) (value : α) :
    Option (ColumnTable κ ρ α) :=
  if T.columns c then none
  else some {
    columns := Function.update T.columns c true
    rows := T.rows.map fun row => (row.1, Function.update row.2 c value) }

/-- The rows, with `values` in the columns that the table does not have. -/
def full (T : ColumnTable κ ρ α) (values : κ → α) : List (ρ × (κ → α)) :=
  T.rows.map fun row => (row.1, fun c => if T.columns c then row.2 c else values c)

variable {T T' : ColumnTable κ ρ α} {values : κ → α}

/-- A table with all columns is read as it is. -/
theorem full_of_columns (h : ∀ c, T.columns c = true) : T.full values = T.rows := by
  rw [full, List.map_congr_left (g := id) fun row _ => ?_, List.map_id]
  refine Prod.ext rfl (funext fun c => ?_)
  show (if T.columns c then row.2 c else values c) = row.2 c
  rw [h c, if_pos rfl]

theorem full_insert (h : ∀ c, T.columns c = true) (row : ρ × (κ → α)) :
    (T.insert row).full values = T.full values ++ [row] := by
  rw [full_of_columns (T := T.insert row) h, full_of_columns h]
  rfl

variable [DecidableEq κ] {c c' : κ}

theorem columns_addColumn {value : α} (h : T.addColumn c value = some T') :
    T'.columns c' = true ↔ c' = c ∨ T.columns c' = true := by
  rw [addColumn] at h
  split at h
  · cases h
  · obtain rfl := Option.some.inj h
    show Function.update T.columns c true c' = true ↔ _
    by_cases hc : c' = c
    · simp [hc]
    · rw [Function.update_of_ne hc]
      simp [hc]

/-- A column that is there already is refused. -/
theorem addColumn_eq_none {value : α} : T.addColumn c value = none ↔ T.columns c = true := by
  rw [addColumn]
  split <;> simp_all

/-- **Adding a column** with the value that stands for it changes nothing. -/
theorem full_addColumn (h : T.addColumn c (values c) = some T') :
    T'.full values = T.full values := by
  rw [addColumn] at h
  split at h
  · cases h
  · rename_i hc
    obtain rfl := Option.some.inj h
    rw [full, full, List.map_map]
    apply List.map_congr_left
    intro row _
    refine Prod.ext rfl (funext fun c' => ?_)
    show (if Function.update T.columns c true c' = true
      then Function.update row.2 c (values c) c' else values c')
        = if T.columns c' = true then row.2 c' else values c'
    by_cases hc' : c' = c
    · rw [hc', Function.update_self, if_pos rfl, Function.update_self, if_neg hc]
    · rw [Function.update_of_ne hc', Function.update_of_ne hc']

end ColumnTable
