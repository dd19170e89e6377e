/-
AuditChain/FileLocks.lean

`FileLock`, statement by statement.

The instances `ι` are all for one lock file, each in a process `home i`, and so is each
thread `proc t`.  One action lets one thread execute one statement of `acquire` or
`release`, so that anything may happen between the two reads of the reentrancy test,
between reading a counter and writing it back, and between taking one part of the lock
and the next.  A thread gives back what it acquired, and nothing else.

That the lock is held is written down in four places.  The invariant says what they look
like at each line, as far as the thread there knows it:

    Inv.change    what it takes for a step of one thread to keep the invariant
-/
import AuditChain.Exclusion
import AuditChain.Machine
import AuditChain.OpenFiles
import Mathlib.Data.Finset.Card

namespace AuditChain

open Exclusion Machine

/-! ### The code -/

/-- The statements in the `try` block of `acquire`. -/
inductive Guarded
  | openFile
  | tryLock
  /-- `LockTimeout`, or a sleep. -/
  | checkDeadline
  | setDepth
  | setOwner
  /-- A note in the file, which nobody reads. -/
  | writeOwner
  deriving DecidableEq

/-- Why a lock is given up: in `release`, or in `acquire` after an exception at a statement. -/
inductive Exit
  | released
  | raised (g : Guarded)
  deriving DecidableEq

/-- The statement that a thread is at. -/
inductive Line
  /-- `if self._depth and` -/
  | testDepth
  /-- `self._owner == threading.get_ident():` -/
  | testOwner
  /-- `self._depth += 1`, in two steps. -/
  | loadDepth
  | storeDepth (depth : ℕ)
  /-- `self._mutex.acquire()` -/
  | takeMutex
  | guarded (g : Guarded)
  /-- `if self._depth == 0:` -/
  | releaseTest
  /-- `self._depth -= 1`, in two steps. -/
  | releaseLoad
  | releaseStore (depth : ℕ)
  /-- `if self._depth:` -/
  | releaseRetest
  | unlockOs
  /-- `_close_fd`, in two steps. -/
  | closeFd (e : Exit)
  | clearFd (e : Exit)
  /-- `self._owner = None` -/
  | clearOwner
  /-- `self._mutex.release()` -/
  | giveMutex (e : Exit)
  deriving DecidableEq

/-- How a call ends. -/
inductive Ending (θ ι : Type)
  | acquired (t : θ) (i : ι)
  | raised (t : θ) (i : ι)
  | released (t : θ) (i : ι)
  deriving DecidableEq

/-- What can happen next. -/
inductive LockAction (θ ι : Type)
  | acquire (t : θ) (i : ι)
  | release (t : θ) (i : ι)
  | advance (t : θ)
  /-- `flock` fails, although the lock may be free. -/
  | refuse (t : θ)
  /-- The statement raises. -/
  | raise (t : θ)

/-- The processes `π`, the threads `θ` and the instances `ι`. -/
structure LockSystem (π θ ι : Type) where
  depth : ι → ℕ
  owner : ι → Option θ
  /-- The descriptors in `_fd`, and the OS lock. -/
  files : OpenFiles ι
  /-- `_PROCESS_MUTEXES`, at the path of the lock file. -/
  mutex : π → Lock θ
  line : θ → Option (ι × Line)
  /-- How often a thread has acquired an instance and not begun to release it. -/
  held : θ → ι → ℕ

/-- After `_close_fd`. -/
def Exit.next : Exit → Line
  | .released => .clearOwner
  | .raised g => .giveMutex (.raised g)

def Exit.ending {θ ι : Type} (t : θ) (i : ι) : Exit → Ending θ ι
  | .released => .released t i
  | .raised _ => .raised t i

namespace LockSystem

variable {π θ ι : Type} [DecidableEq π] [DecidableEq θ] [DecidableEq ι]

/-- Nobody has called anything. -/
def start : LockSystem π θ ι where
  depth _ := 0
  owner _ := none
  files := .untouched
  mutex _ := .free
  line _ := none
  held _ _ := 0

section

variable (s : LockSystem π θ ι) (t : θ) (i : ι)

def setDepth (depth : ℕ) : LockSystem π θ ι :=
  { s with depth := Function.update s.depth i depth }

def setOwner (owner : Option θ) : LockSystem π θ ι :=
  { s with owner := Function.update s.owner i owner }

def setFiles (files : OpenFiles ι) : LockSystem π θ ι := { s with files := files }

def setMutex (p : π) (m : Lock θ) : LockSystem π θ ι :=
  { s with mutex := Function.update s.mutex p m }

def setHeld (n : ℕ) : LockSystem π θ ι :=
  { s with held := Function.update s.held t (Function.update (s.held t) i n) }

/-- Go on with another statement of the same call. -/
def goto (l : Line) : LockSystem π θ ι :=
  { s with line := Function.update s.line t (some (i, l)) }

/-- Leave the call. -/
def leave : LockSystem π θ ι := { s with line := Function.update s.line t none }

/-- Return from `acquire`. -/
def returnAcquired : List (Ending θ ι) × LockSystem π θ ι :=
  ([.acquired t i], (s.setHeld t i (s.held t i + 1)).leave t)

end

/-- A thread executes a statement. -/
def execute (home : ι → π) (s : LockSystem π θ ι) (t : θ) (i : ι) :
    Line → List (Ending θ ι) × LockSystem π θ ι
  | .testDepth => ([], s.goto t i (if s.depth i = 0 then .takeMutex else .testOwner))
  | .testOwner => ([], s.goto t i (if s.owner i = some t then .loadDepth else .takeMutex))
  | .loadDepth => ([], s.goto t i (.storeDepth (s.depth i)))
  | .storeDepth depth => (s.setDepth i (depth + 1)).returnAcquired t i
  | .takeMutex =>
    match (s.mutex (home i)).acquire t with
    | none => ([], s)
    | some m => ([], (s.setMutex (home i) m).goto t i (.guarded .openFile))
  | .guarded .openFile => ([], (s.setFiles (s.files.openFile i)).goto t i (.guarded .tryLock))
  | .guarded .tryLock =>
    -- The assertion in `_try_os_lock`.
    if s.files.fd i = none then ([], s.goto t i (.closeFd (.raised .tryLock))) else
    match s.files.tryLock i with
    | none => ([], s.goto t i (.guarded .checkDeadline))
    | some files => ([], (s.setFiles files).goto t i (.guarded .setDepth))
  | .guarded .checkDeadline => ([], s.goto t i (.guarded .tryLock))
  | .guarded .setDepth => ([], (s.setDepth i 1).goto t i (.guarded .setOwner))
  | .guarded .setOwner => ([], (s.setOwner i (some t)).goto t i (.guarded .writeOwner))
  | .guarded .writeOwner => s.returnAcquired t i
  | .releaseTest =>
    if s.depth i = 0 then ([.released t i], s.leave t) else ([], s.goto t i .releaseLoad)
  | .releaseLoad => ([], s.goto t i (.releaseStore (s.depth i)))
  | .releaseStore depth => ([], (s.setDepth i (depth - 1)).goto t i .releaseRetest)
  | .releaseRetest =>
    if s.depth i = 0 then ([], s.goto t i .unlockOs) else ([.released t i], s.leave t)
  | .unlockOs => ([], (s.setFiles (s.files.unlock i)).goto t i (.closeFd .released))
  | .closeFd e =>
    if s.files.fd i = none then ([], s.goto t i e.next)
    else ([], (s.setFiles (s.files.unlock i)).goto t i (.clearFd e))
  | .clearFd e => ([], (s.setFiles (s.files.forget i)).goto t i e.next)
  | .clearOwner => ([], (s.setOwner i none).goto t i (.giveMutex .released))
  | .giveMutex e =>
    ([e.ending t i], (s.setMutex (home i) ((s.mutex (home i)).release t)).leave t)

/-- A thread executes the statement it is at. -/
def advance (home : ι → π) (s : LockSystem π θ ι) (t : θ) :
    List (Ending θ ι) × LockSystem π θ ι :=
  match s.line t with
  | none => ([], s)
  | some (i, l) => s.execute home t i l

/-- One action.  Only threads of its process call an instance. -/
def step (proc : θ → π) (home : ι → π) (a : LockAction θ ι) (s : LockSystem π θ ι) :
    List (Ending θ ι) × LockSystem π θ ι :=
  match a with
  | .acquire t i =>
    if s.line t = none ∧ proc t = home i then ([], s.goto t i .testDepth) else ([], s)
  | .release t i =>
    if s.line t = none ∧ s.held t i ≠ 0 then
      ([], (s.setHeld t i (s.held t i - 1)).goto t i .releaseTest)
    else ([], s)
  | .advance t => s.advance home t
  | .refuse t =>
    match s.line t with
    | some (i, .guarded .tryLock) => ([], s.goto t i (.guarded .checkDeadline))
    | _ => ([], s)
  | .raise t =>
    match s.line t with
    | some (i, .guarded g) => ([], s.goto t i (.closeFd (.raised g)))
    | _ => ([], s)

end LockSystem

/-! ### What a thread knows -/

/-- What a lock looks like. -/
structure LockView (θ : Type) where
  depth : ℕ
  owner : Option θ
  file : Standing
  deriving DecidableEq

section

variable {θ : Type} (t : θ) (n : ℕ)

/-- Nobody has the lock. -/
def LockView.free : LockView θ := ⟨0, none, .absent⟩

/-- A lock that `t` has acquired `n` times, unless it has not acquired it. -/
def holding : Option (LockView θ) := if n = 0 then none else some ⟨n, some t, .locked⟩

/-- The lock at a statement of the `try` block. -/
def Guarded.view : Guarded → LockView θ
  | .openFile => ⟨0, none, .absent⟩
  | .tryLock | .checkDeadline => ⟨0, none, .opened⟩
  | .setDepth => ⟨0, none, .locked⟩
  | .setOwner => ⟨1, none, .locked⟩
  | .writeOwner => ⟨1, some t, .locked⟩

/-- The lock before `_close_fd`. -/
def Exit.view : Exit → LockView θ
  | .released => ⟨0, some t, .opened⟩
  | .raised g => g.view t

/-- The lock at a line, if the thread there is the one that has it. -/
def Line.view : Line → Option (LockView θ)
  | .testDepth | .testOwner | .loadDepth | .storeDepth _ | .takeMutex => holding t n
  | .guarded g => some (g.view t)
  | .releaseTest | .releaseLoad | .releaseStore _ => some ⟨n + 1, some t, .locked⟩
  | .releaseRetest => some ⟨n, some t, .locked⟩
  | .unlockOs => some ⟨0, some t, .locked⟩
  | .closeFd e => some (e.view t)
  | .clearFd e => some { e.view t with file := .opened }
  | .clearOwner => some ⟨0, some t, .absent⟩
  | .giveMutex .released => some .free
  | .giveMutex (.raised g) => some { g.view t with file := .absent }

/-- What a thread can say of a lock, wherever it is. -/
def knows : Option Line → Option (LockView θ)
  | none => holding t n
  | some l => l.view t n

/-- Can a thread that holds the lock `n` times be at this line? -/
def Line.Fits : Line → Prop
  | .testDepth | .testOwner | .releaseTest | .releaseLoad | .releaseRetest => True
  | .loadDepth => n ≠ 0
  | .storeDepth depth => n ≠ 0 ∧ depth = n
  | .releaseStore depth => depth = n + 1
  | .takeMutex | .guarded _ | .unlockOs | .closeFd _ | .clearFd _ | .clearOwner | .giveMutex _ =>
    n = 0

end

namespace LockSystem

variable {π θ ι : Type}

section

variable [DecidableEq θ]

@[simp] theorem line_goto_self (s : LockSystem π θ ι) (t : θ) (i : ι) (l : Line) :
    (s.goto t i l).line t = some (i, l) :=
  Function.update_self _ _ _

theorem line_goto_of_ne {s : LockSystem π θ ι} {t t' : θ} {i : ι} {l : Line}
    (h : t' ≠ t) : (s.goto t i l).line t' = s.line t' :=
  Function.update_of_ne h _ _

@[simp] theorem line_leave_self (s : LockSystem π θ ι) (t : θ) : (s.leave t).line t = none :=
  Function.update_self _ _ _

theorem line_leave_of_ne {s : LockSystem π θ ι} {t t' : θ} (h : t' ≠ t) :
    (s.leave t).line t' = s.line t' :=
  Function.update_of_ne h _ _

end

def view (s : LockSystem π θ ι) (i : ι) : LockView θ := ⟨s.depth i, s.owner i, s.files.standing i⟩

variable [DecidableEq ι]

/-- Where the thread is in a call on `i`. -/
def lineAt (s : LockSystem π θ ι) (t : θ) (i : ι) : Option Line :=
  (s.line t).bind fun x => if x.1 = i then some x.2 else none

/-- What `t` can say of `i`. -/
def expects (s : LockSystem π θ ι) (t : θ) (i : ι) : Option (LockView θ) :=
  knows t (s.held t i) (s.lineAt t i)

variable {s : LockSystem π θ ι} {t t' : θ} {i j : ι} {l : Line}

theorem lineAt_self (h : s.line t = some (i, l)) : s.lineAt t i = some l := by
  rw [lineAt, h, Option.bind_some, if_pos rfl]

theorem lineAt_none (h : s.line t = none) (i : ι) : s.lineAt t i = none := by
  rw [lineAt, h, Option.bind_none]

/-- Only the lock of the call is at a line. -/
theorem lineAt_other (hline : s.line t = some (i, l)) (j : ι) (hj : j ≠ i) :
    s.lineAt t j = none := by
  rw [lineAt, hline, Option.bind_some, if_neg hj.symm]

theorem expects_line (hline : s.line t = some (i, l)) : s.expects t i = l.view t (s.held t i) := by
  rw [expects, lineAt_self hline, knows]

/-! ### One step of one thread -/

section

variable [DecidableEq θ]

/-- A step of `t` on `i`. -/
def put (s : LockSystem π θ ι) (t : θ) (i : ι) (v : ℕ × Option θ) (files : OpenFiles ι)
    (mutex : π → Lock θ) (l : Option Line) (n : ℕ) : LockSystem π θ ι where
  depth := Function.update s.depth i v.1
  owner := Function.update s.owner i v.2
  files := files
  mutex := mutex
  line := Function.update s.line t (l.map fun l => (i, l))
  held := Function.update s.held t (Function.update (s.held t) i n)

variable (v : ℕ × Option θ) (files : OpenFiles ι) (mutex : π → Lock θ) (l : Option Line) (n : ℕ)

@[simp] theorem held_put_self : (s.put t i v files mutex l n).held t i = n := by
  simp [put]

theorem held_put_of_ne (h : t' ≠ t ∨ j ≠ i) :
    (s.put t i v files mutex l n).held t' j = s.held t' j := by
  show Function.update s.held t (Function.update (s.held t) i n) t' j = s.held t' j
  by_cases ht : t' = t
  · subst ht
    rw [Function.update_self, Function.update_of_ne (h.resolve_left (not_not_intro rfl))]
  · rw [Function.update_of_ne ht]

@[simp] theorem lineAt_put_self : (s.put t i v files mutex l n).lineAt t i = l := by
  cases l <;> simp [put, lineAt]

/-- A thread is in one call at a time. -/
theorem lineAt_put_of_ne (hat : ∀ j, j ≠ i → s.lineAt t j = none) (h : t' ≠ t ∨ j ≠ i) :
    (s.put t i v files mutex l n).lineAt t' j = s.lineAt t' j := by
  by_cases ht : t' = t
  · subst ht
    have hj := h.resolve_left (not_not_intro rfl)
    rw [hat j hj]
    cases l <;> simp [put, lineAt, hj.symm]
  · simp [put, lineAt, Function.update_of_ne ht]

@[simp] theorem expects_put_self :
    (s.put t i v files mutex l n).expects t i = knows t n l := by
  rw [expects, held_put_self, lineAt_put_self]

theorem expects_put_of_ne (hat : ∀ j, j ≠ i → s.lineAt t j = none) (h : t' ≠ t ∨ j ≠ i) :
    (s.put t i v files mutex l n).expects t' j = s.expects t' j := by
  rw [expects, held_put_of_ne _ _ _ _ _ h, lineAt_put_of_ne _ _ _ _ _ hat h, expects]

@[simp] theorem view_put_self :
    (s.put t i v files mutex l n).view i = ⟨v.1, v.2, files.standing i⟩ := by
  simp [view, put]

theorem view_put_of_ne (hj : j ≠ i) (h : files.standing j = s.files.standing j) :
    (s.put t i v files mutex l n).view j = s.view j := by
  simp [view, put, Function.update_of_ne hj, h]

end

/-! ### The invariant -/

variable [DecidableEq π] (proc : θ → π) (home : ι → π)

/-- **The invariant.**  Every lock looks as the thread that has it expects, or is free, and
each thread has taken the mutex of its process once for each lock that it has. -/
structure Inv (s : LockSystem π θ ι) : Prop where
  files : s.files.Valid
  counts : ∀ p, (s.mutex p).Counts
  proc_eq : ∀ t i, s.lineAt t i ≠ none ∨ s.held t i ≠ 0 → proc t = home i
  fits : ∀ t i l, s.lineAt t i = some l → l.Fits (s.held t i)
  view : ∀ t i v, s.expects t i = some v → s.view i = v
  free : ∀ i, (∀ t, s.expects t i = none) → s.view i = .free
  mutex : ∀ t, ∃ has : Finset ι, (∀ i, i ∈ has ↔ s.expects t i ≠ none) ∧
    ∀ p, (s.mutex p).depth t = if p = proc t then has.card else 0

variable {proc home}

theorem start_inv : Inv proc home (start : LockSystem π θ ι) where
  files := OpenFiles.valid_untouched
  counts _ := Lock.counts_free
  proc_eq t i h := by
    rcases h with h | h
    · exact absurd (lineAt_none rfl i) h
    · exact absurd rfl h
  fits t i l h := by cases (lineAt_none (s := (start : LockSystem π θ ι)) rfl i).symm.trans h
  view t i v h := by cases h
  free i _ := rfl
  mutex t := by
    refine ⟨∅, fun i => iff_of_false (Finset.notMem_empty i) fun h => h rfl, fun p => ?_⟩
    simp [start, Lock.free]

namespace Inv

variable (h : Inv proc home s)

include h

/-- A thread has locks of its own process. -/
theorem proc_of_expects (hexp : s.expects t i ≠ none) : proc t = home i := by
  refine h.proc_eq t i ?_
  by_contra hnot
  rw [not_or, not_not, not_not] at hnot
  rw [expects, hnot.1, hnot.2] at hexp
  exact hexp rfl

/-- A thread that has a lock has the mutex. -/
theorem depth_ne_zero (hexp : s.expects t i ≠ none) : (s.mutex (home i)).depth t ≠ 0 := by
  obtain ⟨has, hhas, hdepth⟩ := h.mutex t
  rw [hdepth, if_pos (h.proc_of_expects hexp).symm]
  exact Finset.card_ne_zero_of_mem ((hhas i).mpr hexp)

/-- One thread has a lock. -/
theorem alone (ht : s.expects t i ≠ none) (ht' : s.expects t' i ≠ none) : t = t' :=
  (h.counts (home i)).eq (h.depth_ne_zero ht) (h.depth_ne_zero ht')

theorem other_none (ht : s.expects t i ≠ none) (hne : t' ≠ t) : s.expects t' i = none := by
  by_contra ht'
  exact hne (h.alone ht' ht)

end Inv

/-! ### What a step keeps -/

variable [DecidableEq θ]

namespace Inv

variable (h : Inv proc home s)

include h

variable {v : ℕ × Option θ} {files : OpenFiles ι} {o : Option Line} {n : ℕ}

/-- What it takes for a step of `t` on `i` to keep the invariant. -/
theorem change {mutex : π → Lock θ} (hproc : proc t = home i)
    (hat : ∀ j, j ≠ i → s.lineAt t j = none) (hvalid : files.Valid)
    (hstanding : ∀ j, j ≠ i → files.standing j = s.files.standing j)
    (hfits : ∀ l', o = some l' → l'.Fits n)
    (hview : ∀ w, knows t n o = some w → (⟨v.1, v.2, files.standing i⟩ : LockView θ) = w)
    (hothers : ∀ t', t' ≠ t → ∀ w, s.expects t' i = some w →
      (⟨v.1, v.2, files.standing i⟩ : LockView θ) = w)
    (hfree : knows t n o = none → (∀ t', t' ≠ t → s.expects t' i = none) →
      (⟨v.1, v.2, files.standing i⟩ : LockView θ) = .free)
    (hcounts : ∀ p, (mutex p).Counts)
    (hmutex : ∀ t', t' ≠ t → ∀ p, (mutex p).depth t' = (s.mutex p).depth t')
    (hown : ∃ has : Finset ι,
      (∀ j, j ∈ has ↔ (s.put t i v files mutex o n).expects t j ≠ none) ∧
        ∀ p, (mutex p).depth t = if p = proc t then has.card else 0) :
    Inv proc home (s.put t i v files mutex o n) := by
  have hsame : ∀ t' j, t' ≠ t ∨ j ≠ i →
      (s.put t i v files mutex o n).expects t' j = s.expects t' j :=
    fun t' j hne => expects_put_of_ne _ _ _ _ _ hat hne
  refine ⟨hvalid, hcounts, fun t' j hj => ?_, fun t' j l' hl' => ?_, fun t' j w hw => ?_,
    fun j hj => ?_, fun t' => ?_⟩
  · by_cases hne : t' ≠ t ∨ j ≠ i
    · rw [lineAt_put_of_ne _ _ _ _ _ hat hne, held_put_of_ne _ _ _ _ _ hne] at hj
      exact h.proc_eq t' j hj
    · obtain ⟨rfl, rfl⟩ : t' = t ∧ j = i := by simpa using hne
      exact hproc
  · by_cases hne : t' ≠ t ∨ j ≠ i
    · rw [lineAt_put_of_ne _ _ _ _ _ hat hne] at hl'
      rw [held_put_of_ne _ _ _ _ _ hne]
      exact h.fits t' j l' hl'
    · obtain ⟨rfl, rfl⟩ : t' = t ∧ j = i := by simpa using hne
      rw [lineAt_put_self] at hl'
      rw [held_put_self]
      exact hfits l' hl'
  · by_cases hj : j = i
    · subst hj
      rw [view_put_self]
      by_cases ht : t' = t
      · subst ht
        rw [expects_put_self] at hw
        exact hview w hw
      · rw [hsame _ _ (Or.inl ht)] at hw
        exact hothers t' ht w hw
    · rw [hsame _ _ (Or.inr hj)] at hw
      rw [view_put_of_ne _ _ _ _ _ hj (hstanding j hj)]
      exact h.view t' j w hw
  · by_cases hji : j = i
    · subst hji
      rw [view_put_self]
      refine hfree ?_ fun t' ht => ?_
      · rw [← hj t, expects_put_self]
      · rw [← hj t', hsame _ _ (Or.inl ht)]
    · rw [view_put_of_ne _ _ _ _ _ hji (hstanding j hji)]
      refine h.free j fun t' => ?_
      rw [← hj t', hsame _ _ (Or.inr hji)]
  · by_cases ht : t' = t
    · subst ht
      exact hown
    · obtain ⟨has, hhas, hdepth⟩ := h.mutex t'
      refine ⟨has, fun j => ?_, fun p => ?_⟩
      · rw [hsame _ _ (Or.inl ht)]
        exact hhas j
      · rw [← hdepth p]
        exact hmutex t' ht p

/-- A step that leaves the mutex alone. -/
theorem put (hproc : proc t = home i) (hat : ∀ j, j ≠ i → s.lineAt t j = none)
    (hvalid : files.Valid) (hstanding : ∀ j, j ≠ i → files.standing j = s.files.standing j)
    (hfits : ∀ l', o = some l' → l'.Fits n)
    (hview : knows t n o = (s.expects t i).map fun _ => ⟨v.1, v.2, files.standing i⟩)
    (hquiet : s.expects t i = none →
      (⟨v.1, v.2, files.standing i⟩ : LockView θ) = s.view i) :
    Inv proc home (s.put t i v files s.mutex o n) := by
  refine h.change hproc hat hvalid hstanding hfits ?_ ?_ ?_ h.counts (fun _ _ _ => rfl) ?_
  · intro w hw
    rw [hview] at hw
    obtain ⟨_, -, rfl⟩ := Option.map_eq_some_iff.mp hw
    rfl
  · intro t' ht w hw
    have hnone : s.expects t i = none := by
      by_contra hsome
      rw [h.other_none hsome ht] at hw
      cases hw
    rw [hquiet hnone]
    exact h.view t' i w hw
  · intro hnone hothers
    rw [hview, Option.map_eq_none_iff] at hnone
    rw [hquiet hnone]
    refine h.free i fun t' => ?_
    by_cases ht : t' = t
    · rw [ht, hnone]
    · exact hothers t' ht
  · obtain ⟨has, hhas, hdepth⟩ := h.mutex t
    refine ⟨has, fun j => ?_, hdepth⟩
    rw [hhas j]
    by_cases hj : j = i
    · subst hj
      rw [expects_put_self, hview, Ne, Ne, Option.map_eq_none_iff]
    · rw [expects_put_of_ne _ _ _ _ _ hat (Or.inr hj)]

/-- A step that takes the mutex or gives it back, and changes nothing else about the lock. -/
theorem changeMutex {m : Lock θ} (has : Finset ι) (hproc : proc t = home i)
    (hat : ∀ j, j ≠ i → s.lineAt t j = none) (hfits : ∀ l', o = some l' → l'.Fits n)
    (hfree : s.view i = .free) (hothers : ∀ t', t' ≠ t → s.expects t' i = none)
    (hview : ∀ w, knows t n o = some w → w = .free)
    (hhas : ∀ j, j ∈ has ↔ if j = i then knows t n o ≠ none else s.expects t j ≠ none)
    (hcounts : m.Counts)
    (hdepth : m.depth = Function.update (s.mutex (home i)).depth t has.card) :
    Inv proc home (s.put t i (s.depth i, s.owner i) s.files
      (Function.update s.mutex (home i) m) o n) := by
  refine h.change hproc hat h.files (fun _ _ => rfl) hfits ?_ ?_ (fun _ _ => hfree) ?_ ?_ ?_
  · intro w hw
    rw [hview w hw]
    exact hfree
  · intro t' ht w hw
    rw [hothers t' ht] at hw
    cases hw
  · intro p
    by_cases hp : p = home i
    · subst hp
      rwa [Function.update_self]
    · rw [Function.update_of_ne hp]
      exact h.counts p
  · intro t' ht p
    by_cases hp : p = home i
    · subst hp
      rw [Function.update_self, hdepth, Function.update_of_ne ht]
    · rw [Function.update_of_ne hp]
  · refine ⟨has, fun j => (hhas j).trans ?_, fun p => ?_⟩
    · by_cases hj : j = i
      · subst hj
        rw [if_pos rfl, expects_put_self]
      · rw [if_neg hj, expects_put_of_ne _ _ _ _ _ hat (Or.inr hj)]
    · by_cases hp : p = home i
      · subst hp
        rw [Function.update_self, hdepth, Function.update_self, if_pos hproc.symm]
      · obtain ⟨_, -, hold⟩ := h.mutex t
        rw [Function.update_of_ne hp, hold, if_neg (hproc ▸ hp), if_neg (hproc ▸ hp)]

/-- A step that takes the mutex. -/
theorem enter {m : Lock θ} (hat : ∀ j, j ≠ i → s.lineAt t j = none) (hproc : proc t = home i)
    (hexp : s.expects t i = none) (hacquire : (s.mutex (home i)).acquire t = some m)
    (hfits : ∀ l', o = some l' → l'.Fits n) (hview : knows t n o = some .free) :
    Inv proc home (s.put t i (s.depth i, s.owner i) s.files
      (Function.update s.mutex (home i) m) o n) := by
  have hothers : ∀ t', t' ≠ t → s.expects t' i = none := by
    intro t' ht
    by_contra hsome
    exact h.depth_ne_zero hsome ((h.counts (home i)).vacant hacquire ht)
  have hfree : s.view i = .free := by
    refine h.free i fun t' => ?_
    by_cases ht : t' = t
    · rw [ht, hexp]
    · exact hothers t' ht
  obtain ⟨has, hhas, hdepth⟩ := h.mutex t
  have hi : i ∉ has := fun hi => (hhas i).mp hi hexp
  refine h.changeMutex (insert i has) hproc hat hfits hfree hothers ?_ ?_
    ((h.counts _).acquire hacquire) ?_
  · intro w hw
    exact Option.some.inj (hw.symm.trans hview)
  · intro j
    rw [Finset.mem_insert, hhas j]
    by_cases hj : j = i <;> simp [hj, hview]
  · rw [Lock.depth_acquire hacquire, hdepth, if_pos hproc.symm, Finset.card_insert_of_notMem hi]

/-- A step that gives the mutex back, and leaves a free lock. -/
theorem exit (hat : ∀ j, j ≠ i → s.lineAt t j = none) (hexp : s.expects t i = some .free)
    (hfits : ∀ l', o = some l' → l'.Fits n) (hview : knows t n o = none) :
    Inv proc home (s.put t i (s.depth i, s.owner i) s.files
      (Function.update s.mutex (home i) ((s.mutex (home i)).release t)) o n) := by
  have hsome : s.expects t i ≠ none := by rw [hexp]; simp
  have hproc := h.proc_of_expects hsome
  obtain ⟨has, hhas, hdepth⟩ := h.mutex t
  refine h.changeMutex (has.erase i) hproc hat hfits (h.view t i _ hexp)
    (fun t' ht => h.other_none hsome ht) ?_ ?_ ((h.counts _).release t) ?_
  · intro w hw
    cases hw.symm.trans hview
  · intro j
    rw [Finset.mem_erase, hhas j]
    by_cases hj : j = i <;> simp [hj, hview]
  · rw [Lock.depth_release, hdepth, if_pos hproc.symm,
      Finset.card_erase_of_mem ((hhas i).mpr hsome)]

end Inv

end LockSystem

end AuditChain
