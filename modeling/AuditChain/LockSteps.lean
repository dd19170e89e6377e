/-
AuditChain/LockSteps.lean

What the statements of `FileLock` preserve.

A thread that has a lock knows what it looks like, and a statement changes that as it
says.  A thread that does not have it only looks: what it read may be out of date, but
it finds itself named as the owner only if it is.  The last statement of a call that failed
is the exception, since it leaves a lock that is not free if the exception came after
the depth was set.

    Inv.step    what one action preserves
-/
import AuditChain.FileLocks

namespace AuditChain

open Exclusion Machine

/-- The statements before the depth is set, and the one that sets it. -/
def Guarded.early : Guarded → Bool
  | .openFile | .tryLock | .checkDeadline | .setDepth => true
  | .setOwner | .writeOwner => false

theorem next_view {θ : Type} (t : θ) (e : Exit) (n : ℕ) :
    e.next.view t n = some { e.view t with file := .absent } := by
  cases e <;> rfl

/-- Nobody but a thread itself writes that it is the owner. -/
theorem owner_eq_of_knows {θ : Type} {n : ℕ} {o : Option Line} {w : LockView θ} {t t' : θ}
    (hw : knows t' n o = some w) (howner : w.owner = some t) : t' = t := by
  have hholding : holding t' n = some w → t' = t := by
    intro hw
    rw [holding] at hw
    split at hw
    · cases hw
    · rw [← Option.some.inj hw] at howner
      exact Option.some.inj howner
  have hexit : ∀ e : Exit, (e.view t').owner = some t → t' = t := by
    rintro (_ | g) he
    · exact Option.some.inj he
    · cases g <;> first | exact Option.some.inj he | cases he
  cases o with
  | none => exact hholding hw
  | some l =>
    cases l with
    | testDepth | testOwner | loadDepth | storeDepth _ | takeMutex => exact hholding hw
    | guarded g =>
      rw [← Option.some.inj hw] at howner
      exact hexit (.raised g) howner
    | closeFd e | clearFd e =>
      rw [← Option.some.inj hw] at howner
      exact hexit e howner
    | giveMutex e =>
      cases e with
      | released =>
        rw [← Option.some.inj hw] at howner
        cases howner
      | raised g =>
        rw [← Option.some.inj hw] at howner
        exact hexit (.raised g) howner
    | releaseTest | releaseLoad | releaseStore _ | releaseRetest | unlockOs | clearOwner =>
      rw [← Option.some.inj hw] at howner
      exact Option.some.inj howner

/-- Does a call that fails do so because of an exception that came early? -/
def LockAction.clean {π θ ι : Type} (a : LockAction θ ι) (s : LockSystem π θ ι) : Bool :=
  match a with
  | .advance t =>
    match s.line t with
    | some (_, .giveMutex (.raised g)) => g.early
    | _ => true
  | _ => true

namespace LockSystem

variable {π θ ι : Type} [DecidableEq ι] [DecidableEq π] [DecidableEq θ] {proc : θ → π}
  {home : ι → π} {s : LockSystem π θ ι} {t t' : θ} {i j : ι} {l l' : Line}

namespace Inv

/-! ### Kinds of statements -/

section

variable (h : Inv proc home s) (hline : s.line t = some (i, l))

include h hline

omit [DecidableEq θ] in
theorem proc_line : proc t = home i :=
  h.proc_eq t i (Or.inl (by rw [lineAt_self hline]; simp))

omit [DecidableEq θ] in
theorem fits_line : l.Fits (s.held t i) := h.fits t i l (lineAt_self hline)

omit [DecidableEq θ] in
theorem view_line {w : LockView θ} (hw : l.view t (s.held t i) = some w) : s.view i = w :=
  h.view t i w (by rw [expects_line hline, hw])

/-- A step of the thread that has the lock. -/
theorem work {w : LockView θ} (hw : l.view t (s.held t i) = some w) {v : ℕ × Option θ}
    {files : OpenFiles ι} {o : Option Line} {n : ℕ} (hvalid : files.Valid)
    (hstanding : ∀ j, j ≠ i → files.standing j = s.files.standing j)
    (hfits : ∀ l', o = some l' → l'.Fits n)
    (hview : knows t n o = some ⟨v.1, v.2, files.standing i⟩) :
    Inv proc home (s.put t i v files s.mutex o n) := by
  have hexp : s.expects t i = some w := by rw [expects_line hline, hw]
  refine h.put (h.proc_line hline) (lineAt_other hline) hvalid hstanding hfits ?_ ?_
  · rw [hview, hexp, Option.map_some]
  · intro hnone
    cases hexp.symm.trans hnone

/-- A step that changes nothing but the line. -/
theorem look {o : Option Line} (hfits : ∀ l', o = some l' → l'.Fits (s.held t i))
    (hview : knows t (s.held t i) o = l.view t (s.held t i)) :
    Inv proc home
      (s.put t i (s.depth i, s.owner i) s.files s.mutex o (s.held t i)) := by
  refine h.put (h.proc_line hline) (lineAt_other hline) h.files (fun _ _ => rfl) hfits ?_ ?_
  · rw [hview, ← expects_line hline]
    cases hexp : s.expects t i with
    | none => rfl
    | some w => rw [Option.map_some, ← h.view t i w hexp, LockSystem.view]
  · exact fun _ => rfl

theorem goto (hfits : l'.Fits (s.held t i))
    (hview : l'.view t (s.held t i) = l.view t (s.held t i)) :
    Inv proc home (s.goto t i l') := by
  have hlook := h.look hline (o := some l') (fun l₁ h₁ => Option.some.inj h₁ ▸ hfits) hview
  simpa [LockSystem.put, LockSystem.goto] using hlook

theorem leave (hview : holding t (s.held t i) = l.view t (s.held t i)) :
    Inv proc home (s.leave t) := by
  have hlook := h.look hline (o := none) (fun l₁ h₁ => by cases h₁) hview
  simpa [LockSystem.put, LockSystem.leave] using hlook

variable {w : LockView θ} (hw : l.view t (s.held t i) = some w)

include hw

theorem setDepth_goto {depth : ℕ} (hfits : l'.Fits (s.held t i))
    (hview : l'.view t (s.held t i) = some { w with depth := depth }) :
    Inv proc home ((s.setDepth i depth).goto t i l') := by
  have hwork := h.work hline hw (v := (depth, s.owner i)) (o := some l') h.files
    (fun _ _ => rfl) (fun l₁ h₁ => Option.some.inj h₁ ▸ hfits)
    (hview.trans (by rw [← h.view_line hline hw]; rfl))
  simpa [LockSystem.put, LockSystem.goto, LockSystem.setDepth] using hwork

theorem setOwner_goto {owner : Option θ} (hfits : l'.Fits (s.held t i))
    (hview : l'.view t (s.held t i) = some { w with owner := owner }) :
    Inv proc home ((s.setOwner i owner).goto t i l') := by
  have hwork := h.work hline hw (v := (s.depth i, owner)) (o := some l') h.files
    (fun _ _ => rfl) (fun l₁ h₁ => Option.some.inj h₁ ▸ hfits)
    (hview.trans (by rw [← h.view_line hline hw]; rfl))
  simpa [LockSystem.put, LockSystem.goto, LockSystem.setOwner] using hwork

theorem setFiles_goto {files : OpenFiles ι} (hvalid : files.Valid)
    (hstanding : ∀ j, j ≠ i → files.standing j = s.files.standing j)
    (hfits : l'.Fits (s.held t i))
    (hview : l'.view t (s.held t i) = some { w with file := files.standing i }) :
    Inv proc home ((s.setFiles files).goto t i l') := by
  have hwork := h.work hline hw (v := (s.depth i, s.owner i)) (o := some l') hvalid
    hstanding (fun l₁ h₁ => Option.some.inj h₁ ▸ hfits)
    (hview.trans (by rw [← h.view_line hline hw]; rfl))
  simpa [LockSystem.put, LockSystem.goto, LockSystem.setFiles] using hwork

/-- The lock that is acquired looks like one that has been acquired once more. -/
theorem returnAcquired {depth : ℕ} (hview : holding t (s.held t i + 1)
    = some { w with depth := depth }) :
    Inv proc home ((s.setDepth i depth).returnAcquired t i).2 := by
  have hwork := h.work hline hw (v := (depth, s.owner i)) (o := none) (n := s.held t i + 1)
    h.files (fun _ _ => rfl) (fun l₁ h₁ => by cases h₁)
    (hview.trans (by rw [← h.view_line hline hw]; rfl))
  simpa [LockSystem.put, LockSystem.returnAcquired, LockSystem.setDepth, LockSystem.setHeld,
    LockSystem.leave] using hwork

end

/-! ### The reentrancy test -/

section

variable (h : Inv proc home s)

include h

omit [DecidableEq θ] in
/-- What a thread that has acquired a lock finds, when it looks. -/
theorem view_holding (hline : s.line t = some (i, l))
    (hl : l.view t (s.held t i) = holding t (s.held t i)) (hheld : s.held t i ≠ 0) :
    s.view i = ⟨s.held t i, some t, .locked⟩ :=
  h.view_line hline (hl.trans (if_neg hheld))

omit [DecidableEq θ] in
/-- A thread that finds itself named as the owner has the lock. -/
theorem expects_of_owner (howner : s.owner i = some t) : s.expects t i ≠ none := by
  intro hnone
  by_cases hall : ∀ t', s.expects t' i = none
  · have hfree : s.owner i = none := congrArg LockView.owner (h.free i hall)
    rw [hfree] at howner
    cases howner
  · obtain ⟨t', ht'⟩ := not_forall.mp hall
    obtain ⟨w, hw⟩ := Option.ne_none_iff_exists'.mp ht'
    have hview : w.owner = some t := by
      rw [← h.view t' i w hw]
      exact howner
    obtain rfl := owner_eq_of_knows hw hview
    rw [hw] at hnone
    cases hnone

theorem testDepth (hline : s.line t = some (i, .testDepth)) :
    Inv proc home (s.goto t i (if s.depth i = 0 then .takeMutex else .testOwner)) := by
  split
  · rename_i hzero
    refine h.goto hline ?_ rfl
    by_contra hheld
    have hview := congrArg LockView.depth (h.view_holding hline rfl hheld)
    exact hheld (hview.symm.trans hzero)
  · exact h.goto hline trivial rfl

theorem testOwner (hline : s.line t = some (i, .testOwner)) :
    Inv proc home (s.goto t i (if s.owner i = some t then .loadDepth else .takeMutex)) := by
  split
  · rename_i howner
    refine h.goto hline (fun hheld => h.expects_of_owner howner ?_) rfl
    rw [expects_line hline, hheld]
    rfl
  · rename_i howner
    refine h.goto hline ?_ rfl
    by_contra hheld
    exact howner (congrArg LockView.owner (h.view_holding hline rfl hheld))

theorem loadDepth (hline : s.line t = some (i, .loadDepth)) :
    Inv proc home (s.goto t i (.storeDepth (s.depth i))) := by
  have hheld : s.held t i ≠ 0 := h.fits_line hline
  have hdepth := congrArg LockView.depth (h.view_holding hline rfl hheld)
  exact h.goto hline ⟨hheld, hdepth⟩ rfl

theorem storeDepth {depth : ℕ} (hline : s.line t = some (i, .storeDepth depth)) :
    Inv proc home ((s.setDepth i (depth + 1)).returnAcquired t i).2 := by
  obtain ⟨hheld, rfl⟩ := h.fits_line hline
  exact h.returnAcquired hline (if_neg hheld) rfl

/-! ### The outermost acquire -/

theorem takeMutex (hline : s.line t = some (i, .takeMutex)) :
    Inv proc home (s.execute home t i .takeMutex).2 := by
  rw [execute]
  split
  · exact h
  · rename_i m hacquire
    have hheld : s.held t i = 0 := h.fits_line hline
    have hexp : s.expects t i = none := by
      rw [expects_line hline, hheld]
      rfl
    have henter := h.enter (o := some (.guarded .openFile)) (n := s.held t i) (lineAt_other hline)
      (h.proc_line hline) hexp hacquire (fun l' hl' => Option.some.inj hl' ▸ hheld) rfl
    simpa [LockSystem.put, LockSystem.goto, setMutex] using henter

theorem openFile (hline : s.line t = some (i, .guarded .openFile)) :
    Inv proc home ((s.setFiles (s.files.openFile i)).goto t i (.guarded .tryLock)) := by
  have hheld : s.held t i = 0 := h.fits_line hline
  have hfile := congrArg LockView.file (h.view_line hline rfl)
  refine h.setFiles_goto hline rfl (h.files.openFile (OpenFiles.standing_eq_absent.mp hfile))
    (fun j hj => OpenFiles.standing_openFile_of_ne hj) hheld ?_
  rw [OpenFiles.standing_openFile_self h.files]
  rfl

/-- An exception goes to the handler. -/
theorem handle {g : Guarded} (hline : s.line t = some (i, .guarded g)) :
    Inv proc home (s.goto t i (.closeFd (.raised g))) := by
  have hheld : s.held t i = 0 := h.fits_line hline
  exact h.goto hline hheld rfl

theorem wait (hline : s.line t = some (i, .guarded .tryLock)) :
    Inv proc home (s.goto t i (.guarded .checkDeadline)) := by
  have hheld : s.held t i = 0 := h.fits_line hline
  exact h.goto hline hheld rfl

theorem tryLock (hline : s.line t = some (i, .guarded .tryLock)) :
    Inv proc home (s.execute home t i (.guarded .tryLock)).2 := by
  rw [execute]
  split
  · exact h.handle hline
  · split
    · exact h.wait hline
    · rename_i files hfiles
      have hheld : s.held t i = 0 := h.fits_line hline
      refine h.setFiles_goto hline rfl (h.files.tryLock hfiles)
        (fun j hj => OpenFiles.standing_tryLock_of_ne h.files hfiles hj) hheld ?_
      rw [OpenFiles.standing_tryLock_self hfiles]
      rfl

theorem writeOwner (hline : s.line t = some (i, .guarded .writeOwner)) :
    Inv proc home (s.returnAcquired t i).2 := by
  have hheld : s.held t i = 0 := h.fits_line hline
  have hdepth : s.depth i = 1 := congrArg LockView.depth (h.view_line hline rfl)
  have hreturn : Inv proc home ((s.setDepth i 1).returnAcquired t i).2 :=
    h.returnAcquired hline rfl (by rw [hheld]; rfl)
  rwa [LockSystem.setDepth, ← hdepth, Function.update_eq_self] at hreturn

/-! ### Releasing -/

theorem releaseTest (hline : s.line t = some (i, .releaseTest)) :
    Inv proc home (s.execute home t i .releaseTest).2 := by
  have hdepth : s.depth i = s.held t i + 1 := congrArg LockView.depth (h.view_line hline rfl)
  rw [execute, if_neg (by omega)]
  exact h.goto hline trivial rfl

theorem releaseLoad (hline : s.line t = some (i, .releaseLoad)) :
    Inv proc home (s.goto t i (.releaseStore (s.depth i))) := by
  have hdepth : s.depth i = s.held t i + 1 := congrArg LockView.depth (h.view_line hline rfl)
  exact h.goto hline hdepth rfl

theorem releaseStore {depth : ℕ} (hline : s.line t = some (i, .releaseStore depth)) :
    Inv proc home ((s.setDepth i (depth - 1)).goto t i .releaseRetest) := by
  obtain rfl : depth = s.held t i + 1 := h.fits_line hline
  exact h.setDepth_goto hline rfl trivial rfl

theorem releaseRetest (hline : s.line t = some (i, .releaseRetest)) :
    Inv proc home (s.execute home t i .releaseRetest).2 := by
  have hdepth : s.depth i = s.held t i := congrArg LockView.depth (h.view_line hline rfl)
  rw [execute]
  split
  · rename_i hzero
    have hheld : s.held t i = 0 := hdepth.symm.trans hzero
    refine h.goto hline hheld ?_
    rw [hheld]
    rfl
  · rename_i hne
    exact h.leave hline (if_neg fun hheld => hne (hdepth.trans hheld))

/-! ### Giving the lock up -/

theorem unlock {w : LockView θ} (hline : s.line t = some (i, l))
    (hw : l.view t (s.held t i) = some w) (hfd : s.files.fd i ≠ none)
    (hfits : l'.Fits (s.held t i))
    (hview : l'.view t (s.held t i) = some { w with file := .opened }) :
    Inv proc home ((s.setFiles (s.files.unlock i)).goto t i l') := by
  refine h.setFiles_goto hline hw h.files.unlock
    (fun j hj => OpenFiles.standing_unlock_of_ne h.files hj) hfits ?_
  rw [OpenFiles.standing_unlock_self hfd]
  exact hview

theorem unlockOs (hline : s.line t = some (i, .unlockOs)) :
    Inv proc home ((s.setFiles (s.files.unlock i)).goto t i (.closeFd .released)) := by
  have hheld : s.held t i = 0 := h.fits_line hline
  have hfile := congrArg LockView.file (h.view_line hline rfl)
  have hfd : s.files.fd i ≠ none := by
    intro hnone
    cases (OpenFiles.standing_eq_absent.mpr hnone).symm.trans hfile
  exact h.unlock hline rfl hfd hheld rfl

theorem closeFd {e : Exit} (hline : s.line t = some (i, .closeFd e)) :
    Inv proc home (s.execute home t i (.closeFd e)).2 := by
  have hheld : s.held t i = 0 := h.fits_line hline
  have hfits : e.next.Fits (s.held t i) := by cases e <;> exact hheld
  rw [execute]
  split
  · rename_i hfd
    have hfile : (e.view t).file = .absent :=
      (congrArg LockView.file (h.view_line hline rfl)).symm.trans
        (OpenFiles.standing_eq_absent.mpr hfd)
    refine h.goto hline hfits ?_
    rw [next_view, ← hfile]
    rfl
  · rename_i hfd
    exact h.unlock hline rfl hfd hheld rfl

theorem clearFd {e : Exit} (hline : s.line t = some (i, .clearFd e)) :
    Inv proc home ((s.setFiles (s.files.forget i)).goto t i e.next) := by
  have hheld : s.held t i = 0 := h.fits_line hline
  have hfile := congrArg LockView.file (h.view_line hline rfl)
  refine h.setFiles_goto hline rfl (h.files.forget ?_)
    (fun j hj => OpenFiles.standing_forget_of_ne hj) (by cases e <;> exact hheld) ?_
  · intro hlocked
    cases hlocked.symm.trans hfile
  · rw [next_view, OpenFiles.standing_forget_self]

/-- The lock is free, unless an exception came too late. -/
theorem giveMutex {e : Exit} (hline : s.line t = some (i, .giveMutex e))
    (hearly : ∀ g, e = .raised g → g.early = true) :
    Inv proc home (s.execute home t i (.giveMutex e)).2 := by
  have hheld : s.held t i = 0 := h.fits_line hline
  have hexp : s.expects t i = some .free := by
    rw [expects_line hline]
    cases e with
    | released => rfl
    | raised g => cases g <;> first | rfl | cases hearly _ rfl
  have hexit := h.exit (o := none) (n := s.held t i) (lineAt_other hline) hexp
    (fun l' hl' => by cases hl') (if_pos hheld)
  simpa [LockSystem.put, LockSystem.leave, setMutex, execute] using hexit

end

end Inv

/-! ### Actions -/

theorem advance_none (hline : s.line t = none) :
    s.advance home t = ([], s) := by
  rw [advance, hline]

theorem advance_line (hline : s.line t = some (i, l)) :
    s.advance home t = s.execute home t i l := by
  rw [advance, hline]

namespace Inv

variable (h : Inv proc home s)

include h

/-- **One statement.** -/
theorem advance (hearly : ∀ i g, s.line t = some (i, .giveMutex (.raised g)) → g.early = true) :
    Inv proc home (s.advance home t).2 := by
  rcases hline : s.line t with _ | ⟨i, l⟩
  · rw [advance_none hline]
    exact h
  rw [advance_line hline]
  cases l with
  | testDepth => exact h.testDepth hline
  | testOwner => exact h.testOwner hline
  | loadDepth => exact h.loadDepth hline
  | storeDepth depth => exact h.storeDepth hline
  | takeMutex => exact h.takeMutex hline
  | guarded g =>
    have hheld : s.held t i = 0 := h.fits_line hline
    cases g with
    | openFile => exact h.openFile hline
    | tryLock => exact h.tryLock hline
    | checkDeadline => exact h.goto hline hheld rfl
    | setDepth => exact h.setDepth_goto hline rfl hheld rfl
    | setOwner => exact h.setOwner_goto hline rfl hheld rfl
    | writeOwner => exact h.writeOwner hline
  | releaseTest => exact h.releaseTest hline
  | releaseLoad => exact h.releaseLoad hline
  | releaseStore depth => exact h.releaseStore hline
  | releaseRetest => exact h.releaseRetest hline
  | unlockOs => exact h.unlockOs hline
  | closeFd e => exact h.closeFd hline
  | clearFd e => exact h.clearFd hline
  | clearOwner =>
    have hheld : s.held t i = 0 := h.fits_line hline
    exact h.setOwner_goto hline rfl hheld rfl
  | giveMutex e =>
    refine h.giveMutex hline fun g he => hearly i g ?_
    rw [hline, he]

theorem callAcquire (hline : s.line t = none) (hproc : proc t = home i) :
    Inv proc home (s.goto t i .testDepth) := by
  have hexp : s.expects t i = holding t (s.held t i) := by
    rw [expects, lineAt_none hline, knows]
  have hput := h.put (v := (s.depth i, s.owner i)) (o := some .testDepth) (n := s.held t i) hproc
    (fun j _ => lineAt_none hline j) h.files (fun _ _ => rfl)
    (fun l' hl' => Option.some.inj hl' ▸ trivial) ?_ (fun _ => rfl)
  · simpa [LockSystem.put, LockSystem.goto] using hput
  · show holding t (s.held t i) = _
    rw [← hexp]
    cases hw : s.expects t i with
    | none => rfl
    | some w => rw [Option.map_some, ← h.view t i w hw, LockSystem.view]

theorem callRelease (hline : s.line t = none) (hheld : s.held t i ≠ 0) :
    Inv proc home ((s.setHeld t i (s.held t i - 1)).goto t i .releaseTest) := by
  have hexp : s.expects t i = some ⟨s.held t i, some t, .locked⟩ := by
    rw [expects, lineAt_none hline, knows, holding, if_neg hheld]
  have hview := h.view t i _ hexp
  have hput := h.put (v := (s.depth i, s.owner i)) (o := some .releaseTest) (n := s.held t i - 1)
    (h.proc_eq t i (Or.inr hheld)) (fun j _ => lineAt_none hline j) h.files (fun _ _ => rfl)
    (fun l' hl' => Option.some.inj hl' ▸ trivial) ?_ (fun _ => rfl)
  · simpa [LockSystem.put, LockSystem.goto, setHeld] using hput
  · rw [hexp, Option.map_some]
    refine congrArg some (Eq.trans ?_ hview.symm)
    rw [Nat.sub_add_cancel (Nat.one_le_iff_ne_zero.mpr hheld)]

/-- **One action.** -/
theorem step {a : LockAction θ ι} (hclean : a.clean s = true) :
    Inv proc home (LockSystem.step proc home a s).2 := by
  cases a with
  | acquire t i =>
    rw [LockSystem.step]
    split
    · rename_i hcall
      exact h.callAcquire hcall.1 hcall.2
    · exact h
  | release t i =>
    rw [LockSystem.step]
    split
    · rename_i hcall
      exact h.callRelease hcall.1 hcall.2
    · exact h
  | advance t =>
    refine h.advance fun i g hline => ?_
    rwa [LockAction.clean, hline] at hclean
  | refuse t =>
    rw [LockSystem.step]
    split
    · rename_i i hline
      exact h.wait hline
    · exact h
  | raise t =>
    rw [LockSystem.step]
    split
    · rename_i i g hline
      exact h.handle hline
    · exact h

end Inv

end LockSystem

end AuditChain
