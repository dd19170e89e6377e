/-
AuditChain/Backend.lean

Storage backends.

`StorageBackend` is the interface, with operations that may do and raise
anything.  `OrderedBackend` is a backend that stores the records it is given and
returns them in order; the in-memory backend is one.
-/
import AuditChain.Operation
import AuditChain.Records

namespace AuditChain

open Python

/-- The storage interface. -/
structure StorageBackend where
  State : Type
  init : Operation PyError State Unit
  append : AuditRecord → Operation PyError State Unit
  appendMany : List AuditRecord → Operation PyError State Unit
  load : Operation PyError State (List AuditRecord)
  loadLast : Operation PyError State (Option AuditRecord)

/-- A backend that stores what it is given, and returns it in order. -/
structure OrderedBackend extends StorageBackend where
  contents : State → List AuditRecord
  init_ok : ∀ s, (init s).1 = .ok ()
  init_contents : ∀ s, contents (init s).2 = contents s
  append_ok : ∀ r s, (append r s).1 = .ok ()
  append_contents : ∀ r s, contents (append r s).2 = contents s ++ [r]
  appendMany_ok : ∀ rs s, (appendMany rs s).1 = .ok ()
  appendMany_contents : ∀ rs s, contents (appendMany rs s).2 = contents s ++ rs
  load_ok : ∀ s, (load s).1 = .ok (contents s)
  load_contents : ∀ s, contents (load s).2 = contents s
  loadLast_ok : ∀ s, (loadLast s).1 = .ok (contents s).getLast?
  loadLast_contents : ∀ s, contents (loadLast s).2 = contents s

/-- `MemoryBackend.append`. -/
def memoryAppend (r : AuditRecord) : Operation PyError (List AuditRecord) Unit :=
  fun records => (.ok (), records ++ [r])

/-- `StorageBackend.append_many`, which `MemoryBackend` inherits: one by one. -/
def memoryAppendMany : List AuditRecord → Operation PyError (List AuditRecord) Unit
  | [] => pure ()
  | r :: rs => do
    memoryAppend r
    memoryAppendMany rs

theorem memoryAppendMany_apply (rs records : List AuditRecord) :
    memoryAppendMany rs records = (.ok (), records ++ rs) := by
  induction rs generalizing records with
  | nil => simp [memoryAppendMany]
  | cons r rs ih =>
    have happend : memoryAppend r records = (.ok (), records ++ [r]) := rfl
    rw [memoryAppendMany, Operation.bind_ok happend, ih, List.append_assoc]
    rfl

/-- `MemoryBackend`. -/
def memoryBackend : OrderedBackend where
  State := List AuditRecord
  init := pure ()
  append := memoryAppend
  appendMany := memoryAppendMany
  load records := (.ok records, records)
  loadLast records := (.ok records.getLast?, records)
  contents := id
  init_ok _ := rfl
  init_contents _ := rfl
  append_ok _ _ := rfl
  append_contents _ _ := rfl
  appendMany_ok rs s := by rw [memoryAppendMany_apply]
  appendMany_contents rs s := by rw [memoryAppendMany_apply]; rfl
  load_ok _ := rfl
  load_contents _ := rfl
  loadLast_ok _ := rfl
  loadLast_contents _ := rfl

end AuditChain
