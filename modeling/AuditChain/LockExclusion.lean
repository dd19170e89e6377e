/-
AuditChain/LockExclusion.lean

What `FileLock` guarantees.

    fileLock_exclusive    one thread at a time is inside, with one instance; the locks
                          stay taken until the outermost release; when all calls are
                          over, every trace of the lock says the same
    failedAcquire_iff     an acquire that fails leaves its lock as it was exactly when
                          the exception came before the depth was set
-/
import AuditChain.LockSteps

namespace AuditChain

open Exclusion Machine

variable {π θ ι : Type}

/-- Exceptions come from `os.open` and from the timeout. -/
def LockAction.expected (a : LockAction θ ι) (s : LockSystem π θ ι) : Bool :=
  match a with
  | .raise t =>
    match s.line t with
    | some (_, .guarded g) => g == .openFile || g == .checkDeadline
    | _ => true
  | _ => true

/-- Why the thread at this line is about to give the lock up. -/
def Line.exit? : Line → Option Exit
  | .closeFd e | .clearFd e | .giveMutex e => some e
  | _ => none

namespace LockSystem

/-- The lock is held by `t`. -/
structure HeldBy (home : ι → π) (s : LockSystem π θ ι) (i : ι) (t : θ) : Prop where
  depth : s.depth i = s.held t i
  owner : s.owner i = some t
  file : s.files.standing i = .locked
  mutex : (s.mutex (home i)).holder = some t
  once : (s.mutex (home i)).depth t = 1

/-- The lock is not held. -/
structure NotHeld (s : LockSystem π θ ι) (i : ι) : Prop where
  depth : s.depth i = 0
  owner : s.owner i = none
  fd : s.files.fd i = none

/-- Every trace of the locks says the same. -/
structure Settled (home : ι → π) (s : LockSystem π θ ι) : Prop where
  held : ∀ t i, s.held t i ≠ 0 → s.HeldBy home i t
  free : ∀ i, (∀ t, s.held t i = 0) → s.NotHeld i
  mutex : ∀ p, (∀ i, home i = p → s.depth i = 0) → (s.mutex p).holder = none
  flock : (∀ i, s.depth i = 0) → s.files.flock = none

/-- A thread is inside an instance from a successful outermost acquire to its release. -/
structure Exclusive (home : ι → π) (s : LockSystem π θ ι) : Prop where
  /-- One thread is inside, with one instance. -/
  one : ∀ t t' i i', s.held t i ≠ 0 → s.held t' i' ≠ 0 → t = t' ∧ i = i'
  /-- As long as it is, it has the OS lock and the mutex. -/
  taken : ∀ t i, s.held t i ≠ 0 →
    s.files.standing i = .locked ∧ (s.mutex (home i)).holder = some t
  /-- It does not wait for itself. -/
  reentrant : ∀ t i, s.held t i ≠ 0 → s.line t ≠ some (i, .takeMutex)
  settled : (∀ t, s.line t = none) → s.Settled home

variable [DecidableEq ι] [DecidableEq π] {proc : θ → π} {home : ι → π} {s : LockSystem π θ ι}
  {t t' : θ} {i j : ι}

/-! ### What the invariant says -/

namespace Inv

variable (h : Inv proc home s)

include h

/-- A thread that is inside finds the lock locked. -/
theorem expects_held (hheld : s.held t i ≠ 0) :
    ∃ depth, s.expects t i = some ⟨depth, some t, .locked⟩ := by
  cases hl : s.lineAt t i with
  | none => exact ⟨_, by rw [expects, hl, knows, holding, if_neg hheld]⟩
  | some l =>
    have hfits := h.fits t i l hl
    rw [expects, hl, knows]
    cases l with
    | testDepth | testOwner | loadDepth | storeDepth _ => exact ⟨_, if_neg hheld⟩
    | releaseTest | releaseLoad | releaseStore _ | releaseRetest => exact ⟨_, rfl⟩
    | takeMutex | guarded _ | unlockOs | closeFd _ | clearFd _ | clearOwner | giveMutex _ =>
      exact absurd hfits hheld

theorem view_held (hheld : s.held t i ≠ 0) : ∃ depth, s.view i = ⟨depth, some t, .locked⟩ := by
  obtain ⟨depth, hexp⟩ := h.expects_held hheld
  exact ⟨depth, h.view t i _ hexp⟩

theorem file_held (hheld : s.held t i ≠ 0) : s.files.standing i = .locked := by
  obtain ⟨depth, hview⟩ := h.view_held hheld
  exact congrArg LockView.file hview

theorem holder_held (hheld : s.held t i ≠ 0) : (s.mutex (home i)).holder = some t := by
  obtain ⟨depth, hexp⟩ := h.expects_held hheld
  exact (h.counts _ t).mp (h.depth_ne_zero (by rw [hexp]; simp))

theorem one (ht : s.held t i ≠ 0) (ht' : s.held t' j ≠ 0) : t = t' ∧ i = j := by
  obtain rfl := OpenFiles.standing_inj h.files (h.file_held ht) (h.file_held ht')
  obtain ⟨depth, hview⟩ := h.view_held ht
  obtain ⟨depth', hview'⟩ := h.view_held ht'
  exact ⟨Option.some.inj (congrArg LockView.owner (hview.symm.trans hview')), rfl⟩

/-- The holder of a mutex has a lock of the process. -/
theorem exists_of_holder {p : π} (hholder : (s.mutex p).holder = some t) :
    ∃ i, home i = p ∧ s.expects t i ≠ none := by
  have hdepth := (h.counts p t).mpr hholder
  obtain ⟨has, hhas, hcard⟩ := h.mutex t
  rw [hcard] at hdepth
  split at hdepth
  · rename_i hp
    obtain ⟨i, hi⟩ := Finset.card_ne_zero.mp hdepth
    have hexp := (hhas i).mp hi
    exact ⟨i, by rw [hp, h.proc_of_expects hexp], hexp⟩
  · exact absurd rfl hdepth

/-- When the calls are over, the counters and the locks agree. -/
theorem settled (hidle : ∀ t, s.line t = none) : s.Settled home := by
  have hexp : ∀ t i, s.expects t i = holding t (s.held t i) := by
    intro t i
    rw [expects, lineAt_none (hidle t), knows]
  have hview : ∀ t i, s.held t i ≠ 0 → s.view i = ⟨s.held t i, some t, .locked⟩ :=
    fun t i hheld => h.view t i _ ((hexp t i).trans (if_neg hheld))
  have hfree : ∀ i, (∀ t, s.held t i = 0) → s.view i = .free := by
    intro i hi
    refine h.free i fun t => ?_
    rw [hexp, hi t]
    rfl
  have hzero : ∀ i, s.depth i = 0 → ∀ t, s.held t i = 0 := by
    intro i hi t
    by_contra hheld
    exact hheld ((congrArg LockView.depth (hview t i hheld)).symm.trans hi)
  refine ⟨fun t i hheld => ⟨?_, ?_, h.file_held hheld, h.holder_held hheld, ?_⟩,
    fun i hi => ⟨?_, ?_, ?_⟩, fun p hp => ?_, fun hall => ?_⟩
  · exact congrArg LockView.depth (hview t i hheld)
  · exact congrArg LockView.owner (hview t i hheld)
  · obtain ⟨has, hhas, hcard⟩ := h.mutex t
    have hone : has = {i} := by
      ext j
      rw [hhas j, hexp, Finset.mem_singleton, holding]
      constructor
      · intro hj
        have hj' : s.held t j ≠ 0 := fun hzero => hj (if_pos hzero)
        exact (h.one hheld hj').2.symm
      · rintro rfl
        rw [if_neg hheld]
        simp
    rw [hcard, if_pos (h.proc_eq t i (Or.inr hheld)).symm, hone, Finset.card_singleton]
  · exact congrArg LockView.depth (hfree i hi)
  · exact congrArg LockView.owner (hfree i hi)
  · exact OpenFiles.standing_eq_absent.mp (congrArg LockView.file (hfree i hi))
  · by_contra hsome
    obtain ⟨t, ht⟩ := Option.ne_none_iff_exists'.mp hsome
    obtain ⟨i, hi, hne⟩ := h.exists_of_holder ht
    rw [hexp, hzero i (hp i hi) t] at hne
    exact hne rfl
  · by_contra hsome
    obtain ⟨d, hd⟩ := Option.ne_none_iff_exists'.mp hsome
    obtain ⟨i, hi⟩ := h.files.held d hd
    have hfd := OpenFiles.standing_eq_absent.mp
      (congrArg LockView.file (hfree i (hzero i (hall i))))
    rw [hi] at hfd
    cases hfd

theorem exclusive : s.Exclusive home where
  one _ _ _ _ ht ht' := h.one ht ht'
  taken _ _ hheld := ⟨h.file_held hheld, h.holder_held hheld⟩
  reentrant t i hheld hline := hheld (h.fits t i _ (lineAt_self hline))
  settled hidle := h.settled hidle

end Inv

/-! ### Where exceptions come from -/

variable [DecidableEq θ] {l l' : Line} {g : Guarded}

/-- An exception that is handled was raised early. -/
def EarlyExits (s : LockSystem π θ ι) : Prop :=
  ∀ t i l g, s.line t = some (i, l) → l.exit? = some (.raised g) → g.early = true

omit [DecidableEq ι] [DecidableEq π] [DecidableEq θ] in
theorem exit_next {e : Exit} (h : e.next.exit? = some (.raised g)) : e = .raised g := by
  cases e with
  | released => cases h
  | raised g' => exact Option.some.inj h

namespace EarlyExits

variable (h : EarlyExits s)

include h

omit [DecidableEq ι] [DecidableEq π] in
theorem goto (hl : ∀ g, l.exit? = some (.raised g) → g.early = true) :
    EarlyExits (s.goto t i l) := by
  intro t' j l' g hline hexit
  by_cases ht : t' = t
  · subst ht
    rw [line_goto_self] at hline
    obtain ⟨-, rfl⟩ := Prod.mk.inj (Option.some.inj hline)
    exact hl g hexit
  · rw [line_goto_of_ne ht] at hline
    exact h t' j l' g hline hexit

omit [DecidableEq ι] [DecidableEq π] in
/-- Lines that are not on the way out. -/
theorem goto_none (hl : l.exit? = none) : EarlyExits (s.goto t i l) :=
  h.goto fun g hg => by cases hl.symm.trans hg

omit [DecidableEq ι] [DecidableEq π] in
theorem leave : EarlyExits (s.leave t) := by
  intro t' j l' g hline hexit
  by_cases ht : t' = t
  · subst ht
    rw [line_leave_self] at hline
    cases hline
  · rw [line_leave_of_ne ht] at hline
    exact h t' j l' g hline hexit

theorem execute (hline : s.line t = some (i, l)) : EarlyExits (s.execute home t i l).2 := by
  have hout := fun g => h t i l g hline
  cases l with
  | testDepth | testOwner =>
    rw [LockSystem.execute]
    split <;> exact h.goto_none rfl
  | loadDepth | releaseLoad | releaseStore _ => exact h.goto_none rfl
  | storeDepth depth => exact EarlyExits.leave (s := (s.setDepth i (depth + 1)).setHeld t i _) h
  | takeMutex =>
    rw [LockSystem.execute]
    split
    · exact h
    · exact EarlyExits.goto_none (s := s.setMutex (home i) _) h rfl
  | guarded g =>
    cases g with
    | openFile => exact EarlyExits.goto_none (s := s.setFiles _) h rfl
    | tryLock =>
      rw [LockSystem.execute]
      split
      · refine h.goto fun g hg => ?_
        obtain rfl : Guarded.tryLock = g := by cases hg; rfl
        rfl
      · split
        · exact h.goto_none rfl
        · exact EarlyExits.goto_none (s := s.setFiles _) h rfl
    | checkDeadline => exact h.goto_none rfl
    | setDepth => exact EarlyExits.goto_none (s := s.setDepth i 1) h rfl
    | setOwner => exact EarlyExits.goto_none (s := s.setOwner i _) h rfl
    | writeOwner => exact EarlyExits.leave (s := s.setHeld t i _) h
  | releaseTest =>
    rw [LockSystem.execute]
    split
    · exact h.leave
    · exact h.goto_none rfl
  | releaseRetest =>
    rw [LockSystem.execute]
    split
    · exact h.goto_none rfl
    · exact h.leave
  | unlockOs =>
    exact EarlyExits.goto (s := s.setFiles _) h fun g hg => by cases hg
  | closeFd e =>
    rw [LockSystem.execute]
    split
    · exact h.goto fun g hg => hout g (by rw [exit_next hg, Line.exit?])
    · exact EarlyExits.goto (s := s.setFiles _) h fun g hg => hout g hg
  | clearFd e =>
    refine EarlyExits.goto (s := s.setFiles _) h fun g hg => hout g ?_
    rw [exit_next hg, Line.exit?]
  | clearOwner => exact EarlyExits.goto (s := s.setOwner i none) h fun g hg => by cases hg
  | giveMutex e => exact EarlyExits.leave (s := s.setMutex (home i) _) h

/-- **One action**, with an exception only where one is expected. -/
theorem step {a : LockAction θ ι} (hexpected : a.expected s = true) :
    EarlyExits (LockSystem.step proc home a s).2 := by
  cases a with
  | acquire t i =>
    rw [LockSystem.step]
    split
    · exact h.goto_none rfl
    · exact h
  | release t i =>
    rw [LockSystem.step]
    split
    · exact EarlyExits.goto_none (s := s.setHeld t i _) h rfl
    · exact h
  | advance t =>
    rcases hline : s.line t with _ | ⟨i, l⟩
    · rw [LockSystem.step, advance_none hline]
      exact h
    · rw [LockSystem.step, advance_line hline]
      exact h.execute hline
  | refuse t =>
    rw [LockSystem.step]
    split
    · exact h.goto_none rfl
    · exact h
  | raise t =>
    rw [LockSystem.step]
    split
    · rename_i i g hline
      refine h.goto fun g' hg' => ?_
      obtain rfl : g = g' := Exit.raised.inj (Option.some.inj hg')
      rw [LockAction.expected, hline] at hexpected
      cases g with
      | openFile | checkDeadline => rfl
      | tryLock | setDepth | setOwner | writeOwner => cases hexpected
    · exact h

end EarlyExits

/-! ### Runs -/

omit [DecidableEq ι] [DecidableEq π] [DecidableEq θ] in
/-- What comes out of a call that failed was raised early. -/
theorem clean_of_earlyExits (h : EarlyExits s) (a : LockAction θ ι) : a.clean s = true := by
  cases a with
  | advance t =>
    rw [LockAction.clean]
    split
    · rename_i i g hline
      exact h t i _ g hline rfl
    · rfl
  | acquire t i | release t i | refuse t | raise t => rfl

/-- **Induction over runs.** -/
theorem run_inv (acts : List (LockAction θ ι)) (h : Inv proc home s)
    (hclean : StepsOk (step proc home) (fun a s => a.clean s = true) acts s) :
    Inv proc home (run (step proc home) acts s).2 :=
  run_preserves (fun a s => a.clean s = true) (fun _ s => Inv proc home s)
    (fun _ _ _ ha hs => hs.step ha) acts s [] hclean h

end LockSystem

open LockSystem

variable [DecidableEq ι] [DecidableEq π] [DecidableEq θ]

/-- **`FileLock` excludes, and is reentrant.** -/
theorem fileLock_exclusive (proc : θ → π) (home : ι → π) (acts : List (LockAction θ ι))
    (hexpected : StepsOk (step proc home) (fun a s => a.expected s = true) acts start) :
    (run (step proc home) acts start).2.Exclusive home := by
  have hboth := run_preserves (fun a s => a.expected s = true)
    (fun _ s => Inv proc home s ∧ EarlyExits s)
    (fun a _ _ ha hs => ⟨hs.1.step (clean_of_earlyExits hs.2 a), hs.2.step ha⟩) acts start []
    hexpected ⟨start_inv, fun t i l g hline => by cases hline⟩
  exact hboth.1.exclusive

/-- Two processes with a thread and an instance each: one acquires its instance twice and
releases it once, while the other waits for the OS lock and gives up. -/
def contention : List (LockAction Bool Bool) :=
  List.flatten [
    .acquire true true :: List.replicate 7 (.advance true),
    .acquire false false :: List.replicate 6 (.advance false),
    .acquire true true :: List.replicate 4 (.advance true),
    .raise false :: List.replicate 3 (.advance false),
    .release true true :: List.replicate 4 (.advance true)]

theorem fileLock_exclusive_contention :
    (run (step id id) contention (start : LockSystem Bool Bool Bool)).2.Exclusive id ∧
      (run (step id id) contention (start : LockSystem Bool Bool Bool)).1
        = [.acquired true true, .acquired true true, .raised false false, .released true true] :=
  ⟨fileLock_exclusive id id contention (by decide +kernel), by decide +kernel⟩

/-! ### Calls that fail -/

namespace LockSystem

/-- `held`. -/
def isHeld (s : LockSystem π θ ι) (i : ι) : Bool := 0 < s.depth i

/-- The acquire of `i` by `t` that has just failed might as well not have been tried. -/
structure Restored (proc : θ → π) (home : ι → π) (s : LockSystem π θ ι) (t : θ) (i : ι) :
    Prop where
  fd : s.files.fd i = none
  depth : s.depth i = 0
  owner : s.owner i = none
  held : s.isHeld i = false
  /-- The mutex is free, or `t` has another instance. -/
  mutex : ∀ t', (s.mutex (home i)).holder = some t' → t' = t ∧ ∃ j, j ≠ i ∧ s.held t j ≠ 0
  /-- The OS lock is free, or another instance has it. -/
  flock : ∀ d, s.files.flock = some d → ∃ j, j ≠ i ∧ s.files.fd j = some d
  /-- Whoever acquires the lock next has the OS lock. -/
  next : ∀ acts, StepsOk (step proc home) (fun a s => a.clean s = true) acts s →
    ∀ t', (run (step proc home) acts s).2.held t' i ≠ 0 →
      (run (step proc home) acts s).2.files.standing i = .locked

variable {proc : θ → π} {home : ι → π} {s : LockSystem π θ ι} {t : θ} {i : ι} {g : Guarded}

/-- After an early exception. -/
theorem Inv.restored (h : Inv proc home s) (hline : s.line t = some (i, .giveMutex (.raised g)))
    (hearly : g.early = true) :
    Restored proc home (s.execute home t i (.giveMutex (.raised g))).2 t i := by
  have hend : Inv proc home (s.execute home t i (.giveMutex (.raised g))).2 :=
    h.giveMutex hline fun g' hg' => Exit.raised.inj hg' ▸ hearly
  have hexp : s.expects t i = some .free := by
    rw [expects_line hline]
    cases g <;> first | rfl | cases hearly
  have hfree : s.view i = .free := h.view t i _ hexp
  have hdepth : s.depth i = 0 := congrArg LockView.depth hfree
  have hfd : s.files.fd i = none :=
    OpenFiles.standing_eq_absent.mp (congrArg LockView.file hfree)
  refine ⟨hfd, hdepth, congrArg LockView.owner hfree, ?_, fun t' ht' => ?_, fun d hd => ?_,
    fun acts hacts t' ht' => (run_inv acts hend hacts).file_held ht'⟩
  · show decide (0 < s.depth i) = false
    rw [hdepth]
    rfl
  · obtain ⟨j, hj, hne⟩ := hend.exists_of_holder ht'
    obtain rfl : t' = t := by
      by_contra ht
      have hsame : (s.execute home t i (.giveMutex (.raised g))).2.line t' = s.line t' :=
        line_leave_of_ne ht
      have hbefore : s.expects t' j ≠ none := by rwa [expects, lineAt, hsame] at hne
      have hmutex := h.depth_ne_zero hbefore
      rw [hj] at hmutex
      exact ht ((h.counts (home i)).eq hmutex (h.depth_ne_zero (by rw [hexp]; simp)))
    have hidle : (s.execute home t' i (.giveMutex (.raised g))).2.line t' = none :=
      line_leave_self _ t'
    have hheld : s.held t' j ≠ 0 := by
      intro hzero
      rw [expects, lineAt_none hidle] at hne
      exact hne (if_pos hzero)
    refine ⟨rfl, j, ?_, hheld⟩
    rintro rfl
    exact hheld (h.fits_line hline)
  · obtain ⟨j, hj⟩ := h.files.held d hd
    refine ⟨j, ?_, hj⟩
    rintro rfl
    rw [hfd] at hj
    cases hj

end LockSystem

/-- **When a failed acquire leaves the lock as it was**: when the exception came before the
depth was set. -/
theorem failedAcquire_iff (proc : θ → π) (home : ι → π) (acts : List (LockAction θ ι))
    (hclean : StepsOk (step proc home) (fun a s => a.clean s = true) acts start)
    {t : θ} {i : ι} {g : Guarded}
    (hline : (run (step proc home) acts start).2.line t = some (i, .giveMutex (.raised g))) :
    ((step proc home (.advance t) (run (step proc home) acts start).2).1 = [.raised t i] ∧
      Restored proc home (step proc home (.advance t) (run (step proc home) acts start).2).2 t i)
        ↔ g.early = true := by
  have h : Inv proc home (run (step proc home) acts start).2 := run_inv acts start_inv hclean
  rw [LockSystem.step, advance_line hline]
  constructor
  · intro hrestored
    have hview := h.view_line hline rfl
    have hdepth : (g.view t).depth = 0 :=
      (congrArg LockView.depth hview).symm.trans hrestored.2.depth
    cases g <;> first | rfl | cases hdepth
  · exact fun hearly => ⟨rfl, h.restored hline hearly⟩

/-- One thread with one instance is interrupted while it tries the OS lock. -/
theorem failedAcquire_early :
    Restored id id (run (step id id) [.acquire () (), .advance (), .advance (), .advance (),
      .raise (), .advance (), .advance (), .advance ()]
        (start : LockSystem Unit Unit Unit)).2 () () :=
  ((failedAcquire_iff id id [.acquire () (), .advance (), .advance (), .advance (), .raise (),
    .advance (), .advance ()] (by decide +kernel) (t := ()) (i := ()) (g := .tryLock)
      (by decide +kernel)).mpr rfl).2

/-- It is interrupted while it writes the note: its next acquire returns without the OS lock. -/
theorem failedAcquire_counterexample : ¬∀ (acts : List (LockAction Unit Unit)) (g : Guarded),
    StepsOk (step id id) (fun a s => a.clean s = true) acts
        (start : LockSystem Unit Unit Unit) →
      (run (step id id) acts (start : LockSystem Unit Unit Unit)).2.line ()
          = some ((), .giveMutex (.raised g)) →
        Restored id id (step id id (.advance ())
          (run (step id id) acts (start : LockSystem Unit Unit Unit)).2).2 () () := by
  intro hclaim
  have hrestored := hclaim (.acquire () () :: List.replicate 6 (.advance ()) ++
    [.raise (), .advance (), .advance ()]) .writeOwner (by decide +kernel) (by decide +kernel)
  have hnext := hrestored.next (.acquire () () :: List.replicate 4 (.advance ()))
    (by decide +kernel) () (by decide +kernel)
  exact absurd hnext (by decide +kernel)

end AuditChain
