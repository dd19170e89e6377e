/-
AuditChain/Transactions.lean

Implicit transactions on a table.

A session holds what is committed and, while a transaction is open, the rows that are
pending in it; the session itself sees both.  An insertion opens a transaction if
there is none, and one that is refused undoes nothing but itself.  A commit that
fails leaves everything pending.

    atomically_spec    a batch that is rolled back on failure is stored as a whole, or
                       nothing happened
-/
import AuditChain.Operation
import Mathlib.Data.Nat.Notation

/-- A session on a table. -/
structure Session (α : Type) where
  committed : List α
  /-- The rows of the open transaction, if one is open. -/
  pending : Option (List α)

namespace Operation

variable {ε S α : Type}

/-- `try: ... except: cleanup; raise`. -/
def onError (x : Operation ε S α) (cleanup : Operation ε S Unit) : Operation ε S α := fun s =>
  match x s with
  | (.ok a, s') => (.ok a, s')
  | (.error e, s') => (.error e, (cleanup s').2)

theorem onError_ok {x : Operation ε S α} {cleanup : Operation ε S Unit} {s s' : S} {a : α}
    (h : x s = (.ok a, s')) : x.onError cleanup s = (.ok a, s') := by
  show (match x s with | (.ok a, s') => _ | (.error e, s') => _) = _
  rw [h]

theorem onError_error {x : Operation ε S α} {cleanup : Operation ε S Unit} {s s' : S} {e : ε}
    (h : x s = (.error e, s')) : x.onError cleanup s = (.error e, (cleanup s').2) := by
  show (match x s with | (.ok a, s') => _ | (.error e, s') => _) = _
  rw [h]

end Operation

namespace Session

variable {α ε : Type}

/-- What the session sees. -/
def visible (s : Session α) : List α := s.committed ++ s.pending.getD []

/-- Insert a row that passes a check against the rows there are. -/
def insert (check : List α → α → Except ε Unit) (row : α) : Operation ε (Session α) Unit := fun s =>
  match check s.visible row with
  | .ok () => (.ok (), { s with pending := some (s.pending.getD [] ++ [row]) })
  | .error e => (.error e, { s with pending := some (s.pending.getD []) })

/-- Insert rows one after the other, the first with the check number `n`. -/
def insertAll (check : ℕ → List α → α → Except ε Unit) :
    ℕ → List α → Operation ε (Session α) Unit
  | _, [] => Operation.modify fun s => { s with pending := some (s.pending.getD []) }
  | n, row :: rows => do
    insert (check n) row
    insertAll check (n + 1) rows

/-- Commit, unless there is something in the way. -/
def commit (fault : Option ε) : Operation ε (Session α) Unit := fun s =>
  match fault with
  | none => (.ok (), ⟨s.visible, none⟩)
  | some e => (.error e, s)

/-- Give up the open transaction. -/
def rollback : Operation ε (Session α) Unit := Operation.modify fun s => { s with pending := none }

/-! ### One insertion -/

variable {check : List α → α → Except ε Unit} {row : α} {s : Session α}

theorem insert_ok (h : check s.visible row = .ok ()) :
    insert check row s = (.ok (), { s with pending := some (s.pending.getD [] ++ [row]) }) := by
  rw [insert, h]

theorem insert_error {e : ε} (h : check s.visible row = .error e) :
    insert check row s = (.error e, { s with pending := some (s.pending.getD []) }) := by
  rw [insert, h]

/-! ### Batches -/

/-- Whatever becomes of a batch, nothing is committed yet. -/
theorem insertAll_committed (check : ℕ → List α → α → Except ε Unit) (rows : List α) :
    ∀ (n : ℕ) (s : Session α), (insertAll check n rows s).2.committed = s.committed := by
  induction rows with
  | nil => exact fun n s => rfl
  | cons row rows ih =>
    intro n s
    rw [insertAll]
    cases hcheck : check n s.visible row with
    | ok u =>
      rw [Operation.bind_ok (insert_ok hcheck), ih]
    | error e => rw [Operation.bind_error (insert_error hcheck)]

/-- A batch that passes is pending as a whole. -/
theorem insertAll_ok (check : ℕ → List α → α → Except ε Unit) (rows : List α) :
    ∀ (n : ℕ) (s s' : Session α), insertAll check n rows s = (.ok (), s') →
      s' = ⟨s.committed, some (s.pending.getD [] ++ rows)⟩ := by
  induction rows with
  | nil =>
    intro n s s' h
    rw [← (Prod.mk.inj h).2, List.append_nil]
  | cons row rows ih =>
    intro n s s' h
    rw [insertAll] at h
    cases hcheck : check n s.visible row with
    | ok u =>
      rw [Operation.bind_ok (insert_ok hcheck)] at h
      rw [ih _ _ _ h, Option.getD_some, List.append_assoc]
      rfl
    | error e =>
      rw [Operation.bind_error (insert_error hcheck)] at h
      cases (Prod.mk.inj h).1

/-- A batch goes in when every row passes against what is in front of it. -/
theorem insertAll_of_checks (check : ℕ → List α → α → Except ε Unit) (rows : List α) :
    ∀ (n : ℕ) (s : Session α), (∀ front row back, rows = front ++ row :: back →
        check (n + front.length) (s.visible ++ front) row = .ok ()) →
      insertAll check n rows s = (.ok (), ⟨s.committed, some (s.pending.getD [] ++ rows)⟩) := by
  induction rows with
  | nil =>
    intro n s _
    rw [insertAll, Operation.modify_apply, List.append_nil]
  | cons row rows ih =>
    intro n s h
    have hfirst := h [] row rows rfl
    rw [List.length_nil, Nat.add_zero, List.append_nil] at hfirst
    rw [insertAll, Operation.bind_ok (insert_ok hfirst), ih]
    · rw [Option.getD_some, List.append_assoc]
      rfl
    · intro front row' back hrows
      have hnext := h (row :: front) row' back (by rw [hrows]; rfl)
      rw [show n + 1 + front.length = n + (row :: front).length by
        rw [List.length_cons]; omega]
      rw [visible, Option.getD_some, List.append_assoc, List.append_assoc, ← List.append_assoc]
      exact hnext

/-- In a batch that went in, every row passed. -/
theorem checks_of_insertAll (check : ℕ → List α → α → Except ε Unit) (rows : List α) :
    ∀ (n : ℕ) (s s' : Session α), insertAll check n rows s = (.ok (), s') →
      ∀ front row back, rows = front ++ row :: back →
        check (n + front.length) (s.visible ++ front) row = .ok () := by
  induction rows with
  | nil =>
    intro n s s' _ front row back hrows
    simp at hrows
  | cons row rows ih =>
    intro n s s' h front row' back hrows
    rw [insertAll] at h
    cases hcheck : check n s.visible row with
    | error e =>
      rw [Operation.bind_error (insert_error hcheck)] at h
      cases (Prod.mk.inj h).1
    | ok u =>
      rw [Operation.bind_ok (insert_ok hcheck)] at h
      rcases List.cons_eq_append_iff.mp hrows with ⟨rfl, hrest⟩ | ⟨front', rfl, hrest⟩
      · obtain ⟨rfl, -⟩ := List.cons.inj hrest
        rw [List.length_nil, Nat.add_zero, List.append_nil]
        exact hcheck
      · have hnext := ih _ _ _ h front' row' back hrest
        rw [visible, Option.getD_some, List.append_assoc, List.append_assoc,
          ← List.append_assoc] at hnext
        rw [List.length_cons, show n + (front'.length + 1) = n + 1 + front'.length by omega]
        exact hnext

/-- **All or nothing**: from a session without a transaction, a batch that is rolled back on
failure is committed as a whole, or leaves the session as it was. -/
theorem atomically_spec (check : ℕ → List α → α → Except ε Unit) (rows : List α)
    (fault : Option ε) {s : Session α} (hs : s.pending = none) :
    ((do insertAll check 0 rows; commit fault : Operation ε (Session α) Unit).onError rollback) s
        = (.ok (), ⟨s.committed ++ rows, none⟩) ∨
      ∃ e, ((do insertAll check 0 rows; commit fault :
        Operation ε (Session α) Unit).onError rollback) s = (.error e, s) := by
  obtain ⟨committed, pending⟩ := s
  obtain rfl : pending = none := hs
  rcases hall : insertAll check 0 rows ⟨committed, none⟩ with ⟨e | u, s'⟩
  · refine Or.inr ⟨e, ?_⟩
    have hkeep := insertAll_committed check rows 0 ⟨committed, none⟩
    rw [hall] at hkeep
    rw [Operation.onError_error (Operation.bind_error hall), rollback, Operation.modify_apply]
    show (_, Session.mk s'.committed none) = _
    rw [hkeep]
  · obtain rfl := insertAll_ok check rows 0 _ s' hall
    cases fault with
    | none =>
      refine Or.inl ?_
      have hcommit := Operation.bind_ok (f := fun _ => commit none) hall
      rw [Operation.onError_ok (hcommit.trans rfl)]
      rfl
    | some e =>
      refine Or.inr ⟨e, ?_⟩
      have hcommit := Operation.bind_ok (f := fun _ => commit (some e)) hall
      rw [Operation.onError_error (hcommit.trans rfl)]
      rfl

end Session
