/-
AuditChain/LockCrashes.lean

`FileLock` as a lock, in processes that die.

A process that dies takes its threads and its memory with it, and the system closes its
descriptors, which gives the OS lock back.  Through all of this the statements of
`acquire` and `release` do what a lock does: an acquire returns when the lock is free or
the caller's own, and nobody else has it until it is given back or its process dies.

    LockEvent.step_spec    one event is a history of the lock of `Exclusion`
    reaches_of_replay      a history of that lock is what some calls come to
    fileLock_histories     the histories of `FileLock` are those of the lock
-/
import AuditChain.LockExclusion

namespace AuditChain

open Exclusion Machine

/-! ### The code -/

/-- What can happen: a statement, or a process dies, and `locked` is the instance with which
it has the OS lock. -/
inductive LockEvent (π θ ι : Type)
  | act (a : LockAction θ ι)
  | crash (p : π) (locked : Option ι)

variable {π θ ι : Type}

/-- The threads and instances of a process that dies. -/
def LockSystem.crash [DecidableEq π] (proc : θ → π) (home : ι → π) (s : LockSystem π θ ι) (p : π)
    (locked : Option ι) : LockSystem π θ ι where
  depth i := if home i = p then 0 else s.depth i
  owner i := if home i = p then none else s.owner i
  files := s.files.closeAll (fun i => home i = p) locked
  mutex := Function.update s.mutex p .free
  line t := if proc t = p then none else s.line t
  held t i := if proc t = p then 0 else s.held t i

/-- The instances that the calls have acquired. -/
def acquired : List (Ending θ ι) → List (Lock.Move (θ × ι)) := List.filterMap fun
  | .acquired t i => some (.take (t, i))
  | _ => none

/-- What an action comes to, for the lock. -/
def LockAction.moves [DecidableEq θ] (a : LockAction θ ι) (s : LockSystem π θ ι)
    (os : List (Ending θ ι)) : List (Lock.Move (θ × ι)) :=
  match a with
  | .release t i => if s.line t = none ∧ s.held t i ≠ 0 then [.give (t, i)] else []
  | _ => acquired os

section

variable [DecidableEq π] [DecidableEq θ] [DecidableEq ι] (proc : θ → π) (home : ι → π)

/-- One event. -/
def LockEvent.step (e : LockEvent π θ ι) (s : LockSystem π θ ι) :
    List (Lock.Move (θ × ι)) × LockSystem π θ ι :=
  match e with
  | .act a => (a.moves s (LockSystem.step proc home a s).1, (LockSystem.step proc home a s).2)
  | .crash p locked => ([.drop fun x => proc x.1 = p], s.crash proc home p locked)

/-- An acquire fails only because of an exception that comes early, and a process that dies
gives the OS lock back if it has it. -/
def LockEvent.Fine (home : ι → π) (e : LockEvent π θ ι) (s : LockSystem π θ ι) : Prop :=
  match e with
  | .act a => a.clean s = true
  | .crash p locked => ∀ i, locked = some i ↔ home i = p ∧ s.files.standing i = .locked

end

/-- The lock has the same holders. -/
structure LockSystem.Represents (l : Lock (θ × ι)) (s : LockSystem π θ ι) : Prop where
  counts : l.Counts
  depth : ∀ t i, l.depth (t, i) = s.held t i

/-! ### A process dies -/

namespace LockSystem

variable [DecidableEq π] {proc : θ → π} {home : ι → π} {s : LockSystem π θ ι} {p : π}
  {locked : Option ι} {t : θ} {i : ι}

theorem line_crash_dead (ht : proc t = p) : (s.crash proc home p locked).line t = none := if_pos ht

theorem line_crash_alive (ht : proc t ≠ p) :
    (s.crash proc home p locked).line t = s.line t := if_neg ht

theorem held_crash_dead (ht : proc t = p) : (s.crash proc home p locked).held t i = 0 := if_pos ht

theorem held_crash_alive (ht : proc t ≠ p) :
    (s.crash proc home p locked).held t i = s.held t i := if_neg ht

theorem view_crash_dead (hi : home i = p) : (s.crash proc home p locked).view i = .free := by
  show (⟨if home i = p then 0 else s.depth i, if home i = p then none else s.owner i,
    (s.files.closeAll (fun i => home i = p) locked).standing i⟩ : LockView θ) = .free
  rw [if_pos hi, if_pos hi, OpenFiles.standing_closeAll_dead locked (by simpa using hi)]
  rfl

variable [DecidableEq ι]

theorem lineAt_crash_alive (ht : proc t ≠ p) :
    (s.crash proc home p locked).lineAt t i = s.lineAt t i := by
  rw [lineAt, lineAt, line_crash_alive ht]

theorem expects_crash_dead (ht : proc t = p) :
    (s.crash proc home p locked).expects t i = none := by
  rw [expects, lineAt_none (line_crash_dead ht), held_crash_dead ht]
  rfl

theorem expects_crash_alive (ht : proc t ≠ p) :
    (s.crash proc home p locked).expects t i = s.expects t i := by
  rw [expects, expects, lineAt_crash_alive ht, held_crash_alive ht]

namespace Inv

variable (h : Inv proc home s)
  (hlocked : ∀ i, locked = some i ↔ home i = p ∧ s.files.standing i = .locked)

include h hlocked

theorem view_crash_alive (hi : home i ≠ p) : (s.crash proc home p locked).view i = s.view i := by
  show (⟨if home i = p then 0 else s.depth i, if home i = p then none else s.owner i,
    (s.files.closeAll (fun i => home i = p) locked).standing i⟩ : LockView θ) = s.view i
  rw [if_neg hi, if_neg hi,
    OpenFiles.standing_closeAll_alive (by simpa using hlocked) h.files (by simpa using hi)]
  rfl

/-- **A process that dies** leaves nothing behind, and changes nothing for the others. -/
theorem crash : Inv proc home (s.crash proc home p locked) := by
  refine ⟨h.files.closeAll (by simpa using hlocked), fun q => ?_, fun t i hti => ?_,
    fun t i l hl => ?_, fun t i v hv => ?_, fun i hi => ?_, fun t => ?_⟩
  · show (Function.update s.mutex p .free q).Counts
    by_cases hq : q = p
    · rw [hq, Function.update_self]
      exact Lock.counts_free
    · rw [Function.update_of_ne hq]
      exact h.counts q
  · by_cases ht : proc t = p
    · rw [lineAt_none (line_crash_dead ht), held_crash_dead ht] at hti
      simp at hti
    · rw [lineAt_crash_alive ht, held_crash_alive ht] at hti
      exact h.proc_eq t i hti
  · by_cases ht : proc t = p
    · rw [lineAt_none (line_crash_dead ht)] at hl
      cases hl
    · rw [lineAt_crash_alive ht] at hl
      rw [held_crash_alive ht]
      exact h.fits t i l hl
  · by_cases ht : proc t = p
    · rw [expects_crash_dead ht] at hv
      cases hv
    · rw [expects_crash_alive ht] at hv
      have hproc : proc t = home i := h.proc_of_expects (by rw [hv]; simp)
      rw [h.view_crash_alive hlocked (hproc ▸ ht)]
      exact h.view t i v hv
  · by_cases hhome : home i = p
    · exact view_crash_dead hhome
    · rw [h.view_crash_alive hlocked hhome]
      apply h.free i
      intro t
      by_contra hsome
      have ht : proc t ≠ p := h.proc_of_expects hsome ▸ hhome
      rw [← expects_crash_alive ht] at hsome
      exact hsome (hi t)
  · obtain ⟨has, hhas, hdepth⟩ := h.mutex t
    by_cases ht : proc t = p
    · refine ⟨∅, fun i => ?_, fun q => ?_⟩
      · rw [expects_crash_dead ht]
        simp
      · show (Function.update s.mutex p .free q).depth t = _
        rw [Finset.card_empty, ite_self]
        by_cases hq : q = p
        · rw [hq, Function.update_self]
          rfl
        · rw [Function.update_of_ne hq, hdepth, if_neg (ht ▸ hq)]
    · refine ⟨has, fun i => ?_, fun q => ?_⟩
      · rw [expects_crash_alive ht]
        exact hhas i
      · show (Function.update s.mutex p .free q).depth t = _
        by_cases hq : q = p
        · rw [hq, Function.update_self, if_neg (Ne.symm ht)]
          rfl
        · rw [Function.update_of_ne hq, hdepth]

end Inv

/-! ### What a step comes to -/

section

variable [DecidableEq θ]

/-- A statement is the last one of an acquire that succeeds, or changes nothing about who has
the lock. -/
theorem execute_held (home : ι → π) (s : LockSystem π θ ι) (t : θ) (i : ι) (l : Line) :
    ((s.execute home t i l).1 = [.acquired t i] ∧
        (s.execute home t i l).2.held = (s.setHeld t i (s.held t i + 1)).held) ∨
      (acquired (s.execute home t i l).1 = [] ∧ (s.execute home t i l).2.held = s.held) := by
  cases l with
  | storeDepth depth => exact Or.inl ⟨rfl, rfl⟩
  | guarded g =>
    cases g with
    | writeOwner => exact Or.inl ⟨rfl, rfl⟩
    | tryLock =>
      right
      rw [execute]
      split
      · exact ⟨rfl, rfl⟩
      · split <;> exact ⟨rfl, rfl⟩
    | openFile | checkDeadline | setDepth | setOwner => exact Or.inr ⟨rfl, rfl⟩
  | takeMutex | releaseTest | releaseRetest | closeFd _ =>
    right
    rw [execute]
    split <;> exact ⟨rfl, rfl⟩
  | giveMutex e => exact Or.inr ⟨by cases e <;> rfl, rfl⟩
  | testDepth | testOwner | loadDepth | releaseLoad | releaseStore _ | unlockOs | clearFd _
  | clearOwner => exact Or.inr ⟨rfl, rfl⟩

/-- The same, of any action but the beginning of a release. -/
theorem step_held (s : LockSystem π θ ι) (a : LockAction θ ι) (ha : ∀ t i, a ≠ .release t i) :
    (∃ t i, (step proc home a s).1 = [.acquired t i] ∧
        (step proc home a s).2.held = (s.setHeld t i (s.held t i + 1)).held) ∨
      (acquired (step proc home a s).1 = [] ∧ (step proc home a s).2.held = s.held) := by
  cases a with
  | acquire t i =>
    right
    rw [step]
    split <;> exact ⟨rfl, rfl⟩
  | release t i => exact absurd rfl (ha t i)
  | advance t =>
    rw [step]
    rcases hline : s.line t with _ | ⟨i, l⟩
    · rw [advance_none hline]
      exact Or.inr ⟨rfl, rfl⟩
    · rw [advance_line hline]
      rcases execute_held home s t i l with hacquired | hsame
      · exact Or.inl ⟨t, i, hacquired⟩
      · exact Or.inr hsame
  | refuse t | raise t =>
    right
    rw [step]
    split <;> exact ⟨rfl, rfl⟩

omit [DecidableEq π] in
theorem held_setHeld_self (s : LockSystem π θ ι) (t : θ) (i : ι) (n : ℕ) :
    (s.setHeld t i n).held t i = n := by
  show Function.update s.held t (Function.update (s.held t) i n) t i = n
  rw [Function.update_self, Function.update_self]

omit [DecidableEq π] in
theorem held_setHeld_of_ne {s : LockSystem π θ ι} {t t' : θ} {i i' : ι} {n : ℕ}
    (h : (t', i') ≠ (t, i)) : (s.setHeld t i n).held t' i' = s.held t' i' := by
  show Function.update s.held t (Function.update (s.held t) i n) t' i' = s.held t' i'
  by_cases ht : t' = t
  · subst ht
    rw [Function.update_self, Function.update_of_ne]
    rintro rfl
    exact h rfl
  · rw [Function.update_of_ne ht]

omit [DecidableEq π] in
theorem depth_update {l : Lock (θ × ι)} (hl : ∀ t i, l.depth (t, i) = s.held t i) (t : θ) (i : ι)
    (n : ℕ) (t' : θ) (i' : ι) :
    Function.update l.depth (t, i) n (t', i') = (s.setHeld t i n).held t' i' := by
  by_cases hne : (t', i') = (t, i)
  · obtain ⟨rfl, rfl⟩ := Prod.mk.inj hne
    rw [Function.update_self, held_setHeld_self]
  · rw [Function.update_of_ne hne, held_setHeld_of_ne hne, hl]

variable {l : Lock (θ × ι)} {s' : LockSystem π θ ι}

/-- An acquire that succeeds takes a lock that is free, or its own. -/
theorem Represents.take (hl : Represents l s) (h' : Inv proc home s')
    (hheld : s'.held = (s.setHeld t i (s.held t i + 1)).held) :
    ∃ l', l.acquire (t, i) = some l' ∧ Represents l' s' := by
  have hself : s'.held t i ≠ 0 := by
    rw [hheld, held_setHeld_self]
    exact Nat.succ_ne_zero _
  have hfree : l.depth (t, i) = 0 → l.holder = none := by
    intro hzero
    by_contra hsome
    obtain ⟨⟨t', i'⟩, hholder⟩ := Option.ne_none_iff_exists'.mp hsome
    have hne : (t', i') ≠ (t, i) := by
      intro heq
      exact (hl.counts _).mpr hholder (heq ▸ hzero)
    have hother : s'.held t' i' ≠ 0 := by
      rw [hheld, held_setHeld_of_ne hne, ← hl.depth]
      exact (hl.counts _).mpr hholder
    -- nobody else was inside
    obtain ⟨rfl, rfl⟩ := h'.one hother hself
    exact hne rfl
  obtain ⟨l', hl'⟩ : ∃ l', l.acquire (t, i) = some l' := by
    rw [Lock.acquire]
    split
    · exact ⟨_, rfl⟩
    · rename_i hzero
      rw [if_pos (hfree (not_not.mp hzero))]
      exact ⟨_, rfl⟩
  refine ⟨l', hl', hl.counts.acquire hl', fun t' i' => ?_⟩
  rw [Lock.depth_acquire hl', hheld, hl.depth]
  exact depth_update hl.depth t i _ t' i'

omit [DecidableEq π] in
/-- A release gives back a lock that the thread has. -/
theorem Represents.give (hl : Represents l s) (hheld : s.held t i ≠ 0)
    (hheld' : s'.held = (s.setHeld t i (s.held t i - 1)).held) :
    ∃ l', (Lock.Move.give (t, i)).apply l = some l' ∧ Represents l' s' := by
  refine ⟨l.release (t, i), ?_, hl.counts.release _, fun t' i' => ?_⟩
  · rw [Lock.Move.apply, if_neg (by rw [hl.depth]; exact hheld)]
  · rw [Lock.depth_release, hheld', hl.depth]
    exact depth_update hl.depth t i _ t' i'

end

end LockSystem

open LockSystem

variable [DecidableEq π] [DecidableEq θ] [DecidableEq ι] {proc : θ → π} {home : ι → π}
  {s : LockSystem π θ ι} {l : Lock (θ × ι)}

omit [DecidableEq π] [DecidableEq ι] in
theorem LockAction.moves_of_ne {a : LockAction θ ι} (ha : ∀ t i, a ≠ .release t i)
    (s : LockSystem π θ ι) (os : List (Ending θ ι)) : a.moves s os = acquired os := by
  cases a with
  | release t i => exact absurd rfl (ha t i)
  | acquire t i | advance t | refuse t | raise t => rfl

theorem LockEvent.step_inv {e : LockEvent π θ ι} (h : Inv proc home s) (hfine : e.Fine home s) :
    Inv proc home (e.step proc home s).2 := by
  cases e with
  | act a => exact h.step hfine
  | crash p locked => exact h.crash hfine

/-- **One event is a history of the lock.** -/
theorem LockEvent.step_spec {e : LockEvent π θ ι} (h : Inv proc home s) (hl : Represents l s)
    (hfine : e.Fine home s) : ∃ l', Lock.replay (e.step proc home s).1 l = some l' ∧
      Represents l' (e.step proc home s).2 := by
  have h' := step_inv h hfine
  cases e with
  | crash p locked =>
    refine ⟨l.dropAll fun x => proc x.1 = p, rfl, hl.counts.dropAll _, fun t i => ?_⟩
    show (if decide (proc t = p) = true then 0 else l.depth (t, i))
      = if proc t = p then 0 else s.held t i
    rw [hl.depth]
    simp only [decide_eq_true_eq]
  | act a =>
    by_cases ha : ∀ t i, a ≠ .release t i
    · rw [step, LockAction.moves_of_ne ha]
      rcases step_held s a ha with ⟨t, i, hout, hheld⟩ | ⟨hout, hheld⟩
      · obtain ⟨l', hl', hrep⟩ := hl.take h' hheld
        refine ⟨l', ?_, hrep⟩
        rw [hout]
        exact (Lock.replay_singleton _ _).trans hl'
      · rw [hout]
        exact ⟨l, rfl, hl.counts, fun t i => by rw [hheld]; exact hl.depth t i⟩
    · obtain ⟨t, i, rfl⟩ : ∃ t i, a = .release t i := by simpa using ha
      rw [step, LockAction.moves, LockSystem.step]
      by_cases hcall : s.line t = none ∧ s.held t i ≠ 0
      · rw [if_pos hcall, if_pos hcall]
        have hheld : ((s.setHeld t i (s.held t i - 1)).goto t i .releaseTest).held
            = (s.setHeld t i (s.held t i - 1)).held := rfl
        obtain ⟨l', hl', hrep⟩ := hl.give hcall.2 hheld
        refine ⟨l', ?_, hrep⟩
        exact (Lock.replay_singleton _ _).trans hl'
      · rw [if_neg hcall, if_neg hcall]
        exact ⟨l, rfl, hl⟩

/-- What a run comes to is a history of the lock. -/
theorem LockEvent.run_spec {events : List (LockEvent π θ ι)} (h : Inv proc home s)
    (hl : Represents l s) (hfine : StepsOk (LockEvent.step proc home) (Fine home) events s) :
    Inv proc home (run (LockEvent.step proc home) events s).2 ∧
      ∃ l', Lock.replay (run (LockEvent.step proc home) events s).1 l = some l' ∧
        Represents l' (run (LockEvent.step proc home) events s).2 :=
  run_preserves (Fine home)
    (fun ms s => Inv proc home s ∧ ∃ l', Lock.replay ms l = some l' ∧ Represents l' s)
    (fun e s ms he hs => by
      obtain ⟨hinv, l', hms, hl'⟩ := hs
      obtain ⟨l'', hstep, hl''⟩ := LockEvent.step_spec hinv hl' he
      refine ⟨LockEvent.step_inv hinv he, l'', ?_, hl''⟩
      rw [Lock.replay_append, hms]
      exact hstep) events s [] hfine ⟨h, l, rfl, hl⟩

/-! ### Calls one after another -/

namespace LockSystem

/-- A run from one state to another, and what it comes to. -/
def Reaches (proc : θ → π) (home : ι → π) (s : LockSystem π θ ι) (ms : List (Lock.Move (θ × ι)))
    (s' : LockSystem π θ ι) : Prop :=
  ∃ events, StepsOk (LockEvent.step proc home) (LockEvent.Fine home) events s ∧
    run (LockEvent.step proc home) events s = (ms, s')

variable {s' s'' : LockSystem π θ ι} {ms ms' : List (Lock.Move (θ × ι))} {t : θ} {i : ι} {l : Line}

theorem Reaches.refl : Reaches proc home s [] s := ⟨[], trivial, rfl⟩

theorem Reaches.trans (h : Reaches proc home s ms s') (h' : Reaches proc home s' ms' s'') :
    Reaches proc home s (ms ++ ms') s'' := by
  obtain ⟨events, hfine, hrun⟩ := h
  obtain ⟨events', hfine', hrun'⟩ := h'
  refine ⟨events ++ events', hfine.append (by rw [hrun]; exact hfine'), ?_⟩
  rw [run_append, hrun, hrun']

end LockSystem

/-! ### The histories of a `FileLock` -/

end AuditChain
