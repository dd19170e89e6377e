/-
AuditChain/OpenFiles.lean

Locks on open file descriptions.

Each of the users `ι` has at most one descriptor of one file.  Every `open` makes a
description of its own, and the lock on the file belongs to one description or to none.
It is taken through a descriptor, and given back through it or by closing it; a
descriptor that was closed may still be on record.

    standing_inj    no two descriptors have the lock
-/
import Mathlib.Logic.Function.Basic
import Mathlib.Data.Nat.Basic

/-- The descriptors of a file, and its lock. -/
structure OpenFiles (ι : Type*) where
  /-- The description that a user's descriptor is for. -/
  fd : ι → Option ℕ
  /-- The description that has the lock. -/
  flock : Option ℕ
  /-- How many descriptions there have been. -/
  opened : ℕ

/-- What a user has: no descriptor, a descriptor, or the lock. -/
inductive Standing
  | absent
  | opened
  | locked
  deriving DecidableEq

namespace OpenFiles

variable {ι : Type*}

/-- The file has not been opened. -/
def untouched : OpenFiles ι := ⟨fun _ => none, none, 0⟩

/-- What `i` has. -/
def standing (f : OpenFiles ι) (i : ι) : Standing :=
  match f.fd i with
  | none => .absent
  | some d => if f.flock = some d then .locked else .opened

/-- Take the lock, unless another description has it. -/
def tryLock (f : OpenFiles ι) (i : ι) : Option (OpenFiles ι) :=
  match f.fd i with
  | none => none
  | some d => if f.flock = none ∨ f.flock = some d then some { f with flock := some d } else none

/-- Give the lock back, if this descriptor has it.  Closing the descriptor does the same. -/
def unlock (f : OpenFiles ι) (i : ι) : OpenFiles ι :=
  { f with flock := if f.flock = f.fd i then none else f.flock }

section

variable [DecidableEq ι]

/-- Open the file. -/
def openFile (f : OpenFiles ι) (i : ι) : OpenFiles ι :=
  { f with fd := Function.update f.fd i (some f.opened), opened := f.opened + 1 }

/-- Strike the descriptor off. -/
def forget (f : OpenFiles ι) (i : ι) : OpenFiles ι := { f with fd := Function.update f.fd i none }

end

/-- Descriptors are for descriptions of their own, and one of them has the lock if any has. -/
structure Valid (f : OpenFiles ι) : Prop where
  fresh : ∀ i d, f.fd i = some d → d < f.opened
  inj : ∀ i j d, f.fd i = some d → f.fd j = some d → i = j
  held : ∀ d, f.flock = some d → ∃ i, f.fd i = some d

variable {f f' : OpenFiles ι} {i j : ι}

theorem standing_none (h : f.fd i = none) : f.standing i = .absent := by
  rw [standing, h]

theorem standing_some {d : ℕ} (h : f.fd i = some d) :
    f.standing i = if f.flock = some d then .locked else .opened := by
  rw [standing, h]

theorem standing_eq_absent : f.standing i = .absent ↔ f.fd i = none := by
  cases h : f.fd i with
  | none => exact iff_of_true (standing_none h) rfl
  | some d =>
    rw [standing_some h]
    split <;> simp

theorem standing_eq_locked : f.standing i = .locked ↔ ∃ d, f.fd i = some d ∧ f.flock = some d := by
  cases h : f.fd i with
  | none => simp [standing_none h]
  | some d =>
    rw [standing_some h]
    split <;> simp_all

/-- **One descriptor has the lock.** -/
theorem standing_inj (hf : f.Valid) (hi : f.standing i = .locked) (hj : f.standing j = .locked) :
    i = j := by
  obtain ⟨d, hfd, hflock⟩ := standing_eq_locked.mp hi
  obtain ⟨d', hfd', hflock'⟩ := standing_eq_locked.mp hj
  obtain rfl := Option.some.inj (hflock.symm.trans hflock')
  exact hf.inj i j d hfd hfd'

theorem valid_untouched : (untouched : OpenFiles ι).Valid where
  fresh i d h := by cases h
  inj i j d h := by cases h
  held d h := by cases h

/-! ### Locking -/

/-- What taking the lock comes to. -/
theorem tryLock_eq_some (h : f.tryLock i = some f') :
    ∃ d, f.fd i = some d ∧ (f.flock = none ∨ f.flock = some d) ∧
      f' = { f with flock := some d } := by
  rw [tryLock] at h
  cases hfd : f.fd i with
  | none =>
    rw [hfd] at h
    cases h
  | some d =>
    rw [hfd] at h
    by_cases hfree : f.flock = none ∨ f.flock = some d
    · exact ⟨d, rfl, hfree, (Option.some.inj ((if_pos hfree).symm.trans h)).symm⟩
    · cases (if_neg hfree).symm.trans h

theorem Valid.tryLock (hf : f.Valid) (h : f.tryLock i = some f') : f'.Valid := by
  obtain ⟨d, hfd, -, rfl⟩ := tryLock_eq_some h
  refine ⟨hf.fresh, hf.inj, fun d' hd' => ?_⟩
  obtain rfl := Option.some.inj hd'
  exact ⟨i, hfd⟩

theorem standing_tryLock_self (h : f.tryLock i = some f') : f'.standing i = .locked := by
  obtain ⟨d, hfd, -, rfl⟩ := tryLock_eq_some h
  exact standing_eq_locked.mpr ⟨d, hfd, rfl⟩

theorem standing_tryLock_of_ne (hf : f.Valid) (h : f.tryLock i = some f') (hne : j ≠ i) :
    f'.standing j = f.standing j := by
  obtain ⟨d, hfd, hfree, rfl⟩ := tryLock_eq_some h
  cases hj : f.fd j with
  | none => rw [standing_none (f := { f with flock := some d }) hj, standing_none hj]
  | some d' =>
    have hd : d ≠ d' := by
      rintro rfl
      exact hne (hf.inj j i d hj hfd)
    rw [standing_some (f := { f with flock := some d }) hj, standing_some hj]
    rcases hfree with hfree | hfree <;> simp [hfree, hd]

/-! ### Unlocking -/

theorem Valid.unlock (hf : f.Valid) : (f.unlock i).Valid where
  fresh := hf.fresh
  inj := hf.inj
  held d h := by
    refine hf.held d ?_
    by_contra hne
    simp only [OpenFiles.unlock] at h
    split at h
    · cases h
    · exact hne h

theorem standing_unlock_self (h : f.fd i ≠ none) : (f.unlock i).standing i = .opened := by
  obtain ⟨d, hd⟩ := Option.ne_none_iff_exists'.mp h
  rw [standing_some (f := f.unlock i) hd, if_neg]
  simp only [unlock, hd]
  split <;> simp_all

theorem standing_unlock_of_ne (hf : f.Valid) (hne : j ≠ i) :
    (f.unlock i).standing j = f.standing j := by
  cases hj : f.fd j with
  | none => rw [standing_none (f := f.unlock i) hj, standing_none hj]
  | some d =>
    have hi : f.fd i ≠ some d := fun hi => hne (hf.inj j i d hj hi)
    rw [standing_some (f := f.unlock i) hj, standing_some hj]
    simp only [unlock]
    split
    · rename_i heq
      rw [heq, if_neg hi, if_neg (by simp)]
    · rfl

/-! ### Opening -/

variable [DecidableEq ι]

@[simp] theorem fd_openFile_self (f : OpenFiles ι) (i : ι) :
    (f.openFile i).fd i = some f.opened :=
  Function.update_self _ _ _

theorem fd_openFile_of_ne (f : OpenFiles ι) (h : j ≠ i) : (f.openFile i).fd j = f.fd j :=
  Function.update_of_ne h _ _

theorem Valid.openFile (hf : f.Valid) (hi : f.fd i = none) : (f.openFile i).Valid where
  fresh j d h := by
    show d < f.opened + 1
    by_cases hj : j = i
    · subst hj
      have hd : some f.opened = some d := by rwa [fd_openFile_self] at h
      have := Option.some.inj hd
      omega
    · have hd : f.fd j = some d := by rwa [fd_openFile_of_ne f hj] at h
      have := hf.fresh j d hd
      omega
  inj j k d hj hk := by
    have hnew : ∀ l, (f.openFile i).fd l = some d → d = f.opened → l = i := by
      intro l hl hd
      by_contra hne
      have hd' : f.fd l = some d := by rwa [fd_openFile_of_ne f hne] at hl
      have := hf.fresh l d hd'
      omega
    by_cases hd : d = f.opened
    · rw [hnew j hj hd, hnew k hk hd]
    · have hold : ∀ l, (f.openFile i).fd l = some d → f.fd l = some d := by
        intro l hl
        have hne : l ≠ i := by
          rintro rfl
          rw [fd_openFile_self] at hl
          exact hd (Option.some.inj hl).symm
        rwa [fd_openFile_of_ne f hne] at hl
      exact hf.inj j k d (hold j hj) (hold k hk)
  held d h := by
    obtain ⟨j, hj⟩ := hf.held d h
    refine ⟨j, ?_⟩
    have hne : j ≠ i := by
      rintro rfl
      rw [hi] at hj
      cases hj
    rwa [fd_openFile_of_ne f hne]

theorem standing_openFile_self (hf : f.Valid) : (f.openFile i).standing i = .opened := by
  rw [standing_some (fd_openFile_self f i), if_neg]
  intro h
  obtain ⟨j, hj⟩ := hf.held _ h
  exact absurd (hf.fresh j _ hj) (lt_irrefl _)

theorem standing_openFile_of_ne (h : j ≠ i) : (f.openFile i).standing j = f.standing j := by
  rw [standing, standing, fd_openFile_of_ne f h]
  rfl

/-! ### Striking off -/

@[simp] theorem fd_forget_self (f : OpenFiles ι) (i : ι) : (f.forget i).fd i = none :=
  Function.update_self _ _ _

theorem fd_forget_of_ne (f : OpenFiles ι) (h : j ≠ i) : (f.forget i).fd j = f.fd j :=
  Function.update_of_ne h _ _

theorem Valid.forget (hf : f.Valid) (hi : f.standing i ≠ .locked) : (f.forget i).Valid where
  fresh j d h := by
    by_cases hj : j = i
    · subst hj
      rw [fd_forget_self] at h
      cases h
    · rw [fd_forget_of_ne f hj] at h
      exact hf.fresh j d h
  inj j k d hj hk := by
    have hold : ∀ l, (f.forget i).fd l = some d → f.fd l = some d := by
      intro l hl
      by_cases hne : l = i
      · subst hne
        rw [fd_forget_self] at hl
        cases hl
      · rwa [fd_forget_of_ne f hne] at hl
    exact hf.inj j k d (hold j hj) (hold k hk)
  held d h := by
    obtain ⟨j, hj⟩ := hf.held d h
    refine ⟨j, ?_⟩
    have hne : j ≠ i := by
      rintro rfl
      exact hi (standing_eq_locked.mpr ⟨d, hj, h⟩)
    rwa [fd_forget_of_ne f hne]

theorem standing_forget_self : (f.forget i).standing i = .absent :=
  standing_none (fd_forget_self f i)

theorem standing_forget_of_ne (h : j ≠ i) : (f.forget i).standing j = f.standing j := by
  rw [standing, standing, fd_forget_of_ne f h]
  rfl

/-! ### Dying -/

omit [DecidableEq ι] in
/-- The descriptors of users who die are closed; `locked` is the one of them who has the lock. -/
def closeAll (f : OpenFiles ι) (dead : ι → Bool) (locked : Option ι) : OpenFiles ι where
  fd i := if dead i then none else f.fd i
  flock := if locked.isSome then none else f.flock
  opened := f.opened

omit [DecidableEq ι] in
theorem standing_closeAll_dead {dead : ι → Bool} (locked : Option ι) (hi : dead i = true) :
    (f.closeAll dead locked).standing i = .absent :=
  standing_none (if_pos hi)

section

variable {dead : ι → Bool} {locked : Option ι}
  (hlocked : ∀ i, locked = some i ↔ dead i = true ∧ f.standing i = .locked)

include hlocked

omit [DecidableEq ι] in
theorem standing_closeAll_alive (hf : f.Valid) (hi : dead i = false) :
    (f.closeAll dead locked).standing i = f.standing i := by
  have hfd : (f.closeAll dead locked).fd i = f.fd i := if_neg (by rw [hi]; decide)
  cases hlock : locked with
  | none =>
    rw [standing, standing, ← hlock, hfd]
    simp [closeAll, hlock]
  | some j =>
    -- the lock was with one who dies
    obtain ⟨hdead, hheld⟩ := (hlocked j).mp hlock
    have hnot : f.standing i ≠ .locked := by
      intro hstanding
      rw [standing_inj hf hstanding hheld, hdead] at hi
      cases hi
    rw [hlock] at hfd
    cases hd : f.fd i with
    | none => rw [standing_none (hfd.trans hd), standing_none hd]
    | some d =>
      rw [standing_some (hfd.trans hd), if_neg (by simp [closeAll])]
      rw [standing_some hd] at hnot ⊢
      split
      · rename_i hflock
        exact absurd (if_pos hflock) hnot
      · rfl

omit [DecidableEq ι] in
theorem Valid.closeAll (hf : f.Valid) : (f.closeAll dead locked).Valid where
  fresh i d h := by
    simp only [OpenFiles.closeAll] at h
    split at h
    · cases h
    · exact hf.fresh i d h
  inj i j d hi hj := by
    simp only [OpenFiles.closeAll] at hi hj
    split at hi
    · cases hi
    · split at hj
      · cases hj
      · exact hf.inj i j d hi hj
  held d h := by
    simp only [OpenFiles.closeAll] at h ⊢
    split at h
    · cases h
    · rename_i hnone
      obtain ⟨i, hi⟩ := hf.held d h
      refine ⟨i, ?_⟩
      rw [if_neg, hi]
      intro hdead
      have hsome := (hlocked i).mpr ⟨hdead, standing_eq_locked.mpr ⟨d, hi, h⟩⟩
      rw [hsome] at hnone
      exact hnone rfl

end

end OpenFiles
