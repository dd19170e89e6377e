/-
AuditChain/Exclusion.lean

A lock that its holder may take again.

`ω` are the holders, `τ` the tasks, and `owner` says on whose behalf a task
takes the lock.  Two tasks of one holder do not exclude each other: the second
takes the lock again.  `Excludes` is what holds as long as nobody does that, one
task at a time inside and the lock taken exactly as often; the lemmas say what
entering, leaving and a crash do to it.  `Lock.Counts` is the invariant of the lock
itself, however often its holder takes it.
-/
import Mathlib.Logic.Function.Basic
import Mathlib.Data.Nat.Basic

namespace Exclusion

variable {ω τ : Type*} [DecidableEq ω]

/-- Who holds the lock, and how often each holder has taken it. -/
structure Lock (ω : Type*) where
  holder : Option ω
  depth : ω → ℕ

/-- Nobody holds the lock. -/
def Lock.free : Lock ω := ⟨none, fun _ => 0⟩

/-- Take the lock, or take it again; nothing while another holder has it. -/
def Lock.acquire (l : Lock ω) (w : ω) : Option (Lock ω) :=
  if l.depth w ≠ 0 then some { l with depth := Function.update l.depth w (l.depth w + 1) }
  else if l.holder = none then some ⟨some w, Function.update l.depth w 1⟩
  else none

/-- Give the lock back, once. -/
def Lock.release (l : Lock ω) (w : ω) : Lock ω :=
  if l.depth w = 0 then l
  else if l.depth w = 1 then ⟨none, Function.update l.depth w 0⟩
  else { l with depth := Function.update l.depth w (l.depth w - 1) }

/-- The holder dies, and what it holds is free. -/
def Lock.drop (l : Lock ω) (w : ω) : Lock ω :=
  ⟨if l.holder = some w then none else l.holder, Function.update l.depth w 0⟩

/-- One task at a time is inside, and its owner holds the lock, once. -/
structure Excludes (owner : τ → ω) (inside : τ → Prop) (l : Lock ω) : Prop where
  held : ∀ t, inside t → l.holder = some (owner t)
  unique : ∀ t t', inside t → inside t' → t = t'
  depth : ∀ w, l.depth w = if l.holder = some w then 1 else 0
  occupied : ∀ w, l.holder = some w → ∃ t, inside t ∧ owner t = w

namespace Excludes

variable {owner : τ → ω} {inside inside' : τ → Prop} {l l' : Lock ω} {t : τ} {w : ω}

theorem free (h : ∀ t, ¬inside t) : Excludes owner inside Lock.free where
  held t ht := absurd ht (h t)
  unique t _ ht := absurd ht (h t)
  depth _ := rfl
  occupied w hw := by cases hw

theorem congr (h : Excludes owner inside l) (hsame : ∀ t, inside' t ↔ inside t) :
    Excludes owner inside' l := by
  obtain rfl : inside' = inside := by
    funext t
    exact propext (hsame t)
  exact h

/-- A task whose owner holds nothing may enter. -/
theorem enter (h : Excludes owner inside l) (hfree : l.depth (owner t) = 0)
    (hacquire : l.acquire (owner t) = some l') (ht : inside' t)
    (hsame : ∀ t', t' ≠ t → (inside' t' ↔ inside t')) : Excludes owner inside' l' := by
  rw [Lock.acquire, if_neg (by simpa using hfree)] at hacquire
  split at hacquire
  · rename_i hnone
    obtain rfl := Option.some.inj hacquire
    have hempty : ∀ t', inside' t' → t' = t := by
      intro t' ht'
      by_contra hne
      have hheld := h.held t' ((hsame t' hne).mp ht')
      rw [hnone] at hheld
      cases hheld
    refine ⟨fun t' ht' => by rw [hempty t' ht'], fun t₁ t₂ h₁ h₂ => ?_, fun w => ?_, ?_⟩
    · rw [hempty t₁ h₁, hempty t₂ h₂]
    · show Function.update l.depth (owner t) 1 w = _
      by_cases hw : w = owner t
      · rw [hw, Function.update_self, if_pos rfl]
      · rw [Function.update_of_ne hw, h.depth w, hnone, if_neg (by simp),
          if_neg (fun heq => hw (Option.some.inj heq).symm)]
    · rintro w hw
      obtain rfl := Option.some.inj hw
      exact ⟨t, ht, rfl⟩
  · cases hacquire

/-- The task inside leaves. -/
theorem leave (h : Excludes owner inside l) (ht : inside t) (hout : ¬inside' t)
    (hsame : ∀ t', t' ≠ t → (inside' t' ↔ inside t')) :
    Excludes owner inside' (l.release (owner t)) := by
  have hheld := h.held t ht
  have hone : l.depth (owner t) = 1 := by rw [h.depth, if_pos hheld]
  have hempty : ∀ t', ¬inside' t' := by
    intro t' ht'
    by_cases hne : t' = t
    · exact hout (hne ▸ ht')
    · exact hne (h.unique t' t ((hsame t' hne).mp ht') ht)
  rw [Lock.release, if_neg (by omega), if_pos hone]
  refine ⟨fun t' ht' => absurd ht' (hempty t'), fun t' _ ht' => absurd ht' (hempty t'),
    fun w => ?_, fun w hw => by cases hw⟩
  show Function.update l.depth (owner t) 0 w = _
  rw [if_neg (by simp)]
  by_cases hw : w = owner t
  · rw [hw, Function.update_self]
  · rw [Function.update_of_ne hw, h.depth w, hheld,
      if_neg (fun heq => hw (Option.some.inj heq).symm)]

/-- A holder dies, and its tasks with it. -/
theorem drop (h : Excludes owner inside l)
    (hsame : ∀ t, inside' t ↔ inside t ∧ owner t ≠ w) :
    Excludes owner inside' (l.drop w) := by
  have hholder : ∀ w', (l.drop w).holder = some w' ↔ l.holder = some w' ∧ w' ≠ w := by
    intro w'
    show (if l.holder = some w then none else l.holder) = some w' ↔ _
    split
    · rename_i hw
      rw [hw]
      simp [eq_comm]
    · rename_i hw
      refine ⟨fun h' => ⟨h', ?_⟩, And.left⟩
      rintro rfl
      exact hw h'
  refine ⟨fun t ht => ?_, fun t t' ht ht' => ?_, fun w' => ?_, fun w' hw' => ?_⟩
  · obtain ⟨hin, hne⟩ := (hsame t).mp ht
    exact (hholder _).mpr ⟨h.held t hin, hne⟩
  · exact h.unique t t' ((hsame t).mp ht).1 ((hsame t').mp ht').1
  · show Function.update l.depth w 0 w' = _
    by_cases hw : w' = w
    · rw [hw, Function.update_self, if_neg (fun heq => ((hholder w).mp heq).2 rfl)]
    · rw [Function.update_of_ne hw, h.depth w']
      simp only [hholder, ne_eq, hw, not_false_eq_true, and_true]
  · obtain ⟨hheld, hne⟩ := (hholder w').mp hw'
    obtain ⟨t, hin, rfl⟩ := h.occupied w' hheld
    exact ⟨t, (hsame t).mpr ⟨hin, hne⟩, rfl⟩

/-- With one task for each owner, a task outside holds nothing. -/
theorem depth_eq_zero (h : Excludes owner inside l) (hinj : Function.Injective owner)
    (hout : ¬inside t) : l.depth (owner t) = 0 := by
  rw [h.depth, if_neg]
  intro hheld
  obtain ⟨t', hin, howner⟩ := h.occupied _ hheld
  exact hout (hinj howner ▸ hin)

end Excludes

/-! ### Who holds it -/

namespace Lock

variable {l l' : Lock ω} {w w' : ω}

/-- The lock counts for its holder, and for nobody else. -/
def Counts (l : Lock ω) : Prop := ∀ w, l.depth w ≠ 0 ↔ l.holder = some w

theorem depth_acquire (h : l.acquire w = some l') :
    l'.depth = Function.update l.depth w (l.depth w + 1) := by
  rw [acquire] at h
  split at h
  · rw [← Option.some.inj h]
  · rename_i hzero
    split at h
    · rw [← Option.some.inj h, not_not.mp hzero]
    · cases h

theorem depth_release (l : Lock ω) (w : ω) :
    (l.release w).depth = Function.update l.depth w (l.depth w - 1) := by
  rw [release]
  split
  · rename_i hzero
    rw [hzero, Nat.zero_sub, ← hzero, Function.update_eq_self]
  · split
    · rename_i hone
      rw [hone]
    · rfl

omit [DecidableEq ω] in
theorem counts_free : (free : Lock ω).Counts := fun w =>
  iff_of_false (fun h => h rfl) (fun h => by cases h)

omit [DecidableEq ω] in
/-- Two who have it are one. -/
theorem Counts.eq (h : l.Counts) (hw : l.depth w ≠ 0) (hw' : l.depth w' ≠ 0) : w = w' :=
  Option.some.inj (((h w).mp hw).symm.trans ((h w').mp hw'))

/-- Who takes the lock has it to itself. -/
theorem Counts.vacant (h : l.Counts) (hacquire : l.acquire w = some l') (hne : w' ≠ w) :
    l.depth w' = 0 := by
  by_contra hw'
  rw [acquire] at hacquire
  split at hacquire
  · rename_i hw
    exact hne (h.eq hw' hw)
  · rw [if_neg (by rw [(h w').mp hw']; simp)] at hacquire
    cases hacquire

theorem Counts.acquire (h : l.Counts) (hacquire : l.acquire w = some l') : l'.Counts := by
  have hdepth := depth_acquire hacquire
  have hvacant : ∀ w', w' ≠ w → l.depth w' = 0 := fun w' hne => h.vacant hacquire hne
  have hholder : l'.holder = some w := by
    rw [Lock.acquire] at hacquire
    split at hacquire
    · rename_i hw
      rw [← Option.some.inj hacquire, ← (h w).mp hw]
    · split at hacquire
      · rw [← Option.some.inj hacquire]
      · cases hacquire
  intro w'
  rw [hdepth, hholder]
  by_cases hw' : w' = w
  · subst hw'
    simp
  · rw [Function.update_of_ne hw', hvacant w' hw']
    exact iff_of_false (fun h => h rfl) fun h => hw' (Option.some.inj h).symm

theorem Counts.release (h : l.Counts) (w : ω) : (l.release w).Counts := by
  intro w'
  rw [Lock.release]
  split
  · exact h w'
  · rename_i hw
    have hholder := (h w).mp hw
    split
    · rename_i hone
      by_cases hw' : w' = w
      · subst hw'
        simp
      · have hzero : l.depth w' = 0 := by
          by_contra hne
          exact hw' (h.eq hne hw)
        simp [Function.update_of_ne hw', hzero]
    · rename_i hone
      by_cases hw' : w' = w
      · subst hw'
        refine iff_of_true ?_ hholder
        show Function.update l.depth w' (l.depth w' - 1) w' ≠ 0
        rw [Function.update_self]
        omega
      · show Function.update l.depth w (l.depth w - 1) w' ≠ 0 ↔ _
        rw [Function.update_of_ne hw']
        exact h w'

/-- Some holders die, and what they hold is free. -/
def dropAll (l : Lock ω) (dead : ω → Bool) : Lock ω :=
  ⟨l.holder.filter fun w => !dead w, fun w => if dead w then 0 else l.depth w⟩

omit [DecidableEq ω] in
theorem Counts.dropAll (h : l.Counts) (dead : ω → Bool) : (l.dropAll dead).Counts := by
  intro w
  show (if dead w then 0 else l.depth w) ≠ 0 ↔ (l.holder.filter fun w => !dead w) = some w
  rw [Option.filter_eq_some_iff]
  cases hw : dead w with
  | true => simp
  | false => simpa using h w

/-! ### Histories -/

/-- What holders do to a lock. -/
inductive Move (ω : Type*)
  | take (w : ω)
  | give (w : ω)
  | drop (dead : ω → Bool)

/-- A holder takes a lock that is free or its own, and gives back a lock that it has. -/
def Move.apply : Move ω → Lock ω → Option (Lock ω)
  | .take w, l => l.acquire w
  | .give w, l => if l.depth w = 0 then none else some (l.release w)
  | .drop dead, l => some (l.dropAll dead)

/-- A history of a lock, if it can be one. -/
def replay : List (Move ω) → Lock ω → Option (Lock ω)
  | [], l => some l
  | m :: ms, l => (m.apply l).bind (replay ms)

theorem replay_singleton (m : Move ω) (l : Lock ω) : replay [m] l = m.apply l := by
  rw [replay]
  cases m.apply l <;> rfl

theorem replay_append (ms ms' : List (Move ω)) (l : Lock ω) :
    replay (ms ++ ms') l = (replay ms l).bind (replay ms') := by
  induction ms generalizing l with
  | nil => rfl
  | cons m ms ih =>
    rw [List.cons_append, replay, replay]
    cases m.apply l with
    | none => rfl
    | some l' => exact ih l'

end Lock

end Exclusion
