/-
AuditChain/Unlocked.lean

Writers without a lock.

Without a lock a log builds on the tail that it remembers, and writers overtake each
other: what a record was built on need not be the end of the chain when it is written.  A
table has the numbers of its records for a primary key and refuses such a record; a file
takes it.  An action lets one call do its next step, from one point at which it can be
interrupted to the next.

    Inv.step               what one action preserves, over a table
    unlocked_chain         over a table there is one chain, with all that was returned
    overtaken_run          a log that was overtaken writes nothing until it is opened again
    unlocked_verify_iff    over a file, verification passes exactly when no log was overtaken
-/
import AuditChain.FailedWrites
import AuditChain.StoredLogs
import AuditChain.Writers

namespace AuditChain

open Python HashChain Machine

namespace Unlocked

/-! ### The code -/

/-- Where a call is; the call is `none` if only `init` is called. -/
inductive Phase
  | idle
  /-- In `init`, before the storage was read. -/
  | opening (c : Option Request)
  /-- In `init`, with the last record that was read. -/
  | loaded (c : Option Request) (last : Option AuditRecord)
  /-- Sealed, before the write. -/
  | writing (rs : List AuditRecord)
  /-- Written, before the log remembers it. -/
  | written (rs : List AuditRecord)

/-- What can happen next. -/
inductive Action (ω τ : Type)
  | call (t : τ) (c : Option Request)
  | advance (t : τ)
  /-- The operation the call waits for raises, and nothing was stored. -/
  | fail (t : τ) (e : PyError)
  /-- The records are stored, and the call does not learn of it. -/
  | lose (t : τ) (e : PyError)
  /-- The process of the writer dies, and a new one is started. -/
  | reopen (w : ω)

variable (P : Runtime) (ω τ : Type)

/-- A log without a lock. -/
abbrev PlainLog := { log : AuditLog P // log.shared = false }

/-- The storage, the logs and the calls. -/
structure System where
  stored : List AuditRecord
  log : ω → PlainLog P
  phase : τ → Phase

variable {P ω τ}

/-- `self._last = last`. -/
def PlainLog.setTail (log : PlainLog P) (last : Option AuditRecord) : PlainLog P :=
  ⟨log.val.withTail last true, log.property⟩

/-- The log of a new process. -/
def PlainLog.closed (log : PlainLog P) : PlainLog P := ⟨log.val.withTail none false, log.property⟩

namespace System

variable [DecidableEq ω] [DecidableEq τ] (owner : τ → ω) (s : System P ω τ) (t : τ)

/-- Go on to another phase. -/
def goto (p : Phase) : System P ω τ := { s with phase := Function.update s.phase t p }

/-- `self._last = last`, of the log that the call is on. -/
def setTail (last : Option AuditRecord) : System P ω τ :=
  { s with log := Function.update s.log (owner t) ((s.log (owner t)).setTail last) }

/-- Build and seal on the cached tail; an empty batch is not written. -/
def build (c : Request) : List (Outcome τ) × System P ω τ :=
  match c.seal (s.log (owner t)).val with
  | .error e => ([.raised t e], s.goto t .idle)
  | .ok [] => ([.returned t []], s.goto t .idle)
  | .ok (r :: rs) => ([], s.goto t (.writing (r :: rs)))

/-- Go on behind `init`. -/
def proceed (c : Option Request) : List (Outcome τ) × System P ω τ :=
  match c with
  | none => ([.returned t []], s.goto t .idle)
  | some c => s.build owner t c

/-- Make a call. -/
def start (c : Option Request) : List (Outcome τ) × System P ω τ :=
  match c with
  | none => ([], s.goto t (.opening none))
  | some c =>
    if (s.log (owner t)).val.inited then s.build owner t c
    else ([], s.goto t (.opening (some c)))

/-- The next step of a call.  `refuses` is the storage's own check of what it is given. -/
def advance (refuses : List AuditRecord → List AuditRecord → Option PyError) :
    List (Outcome τ) × System P ω τ :=
  match s.phase t with
  | .idle => ([], s)
  | .opening c => ([], s.goto t (.loaded c s.stored.getLast?))
  | .loaded c last => (s.setTail owner t last).proceed owner t c
  | .writing rs =>
    match refuses s.stored rs with
    | some e => ([.raised t e], s.goto t .idle)
    | none => ([], { s with stored := s.stored ++ rs }.goto t (.written rs))
  | .written rs => ([.returned t rs], (s.setTail owner t rs.getLast?).goto t .idle)

/-- What the call waits for raises. -/
def interrupt (e : PyError) : List (Outcome τ) × System P ω τ :=
  match s.phase t with
  | .opening _ | .writing _ => ([.raised t e], s.goto t .idle)
  | _ => ([], s)

/-- The write is done, if it can be done, and the call raises. -/
def lose (refuses : List AuditRecord → List AuditRecord → Option PyError) (e : PyError) :
    List (Outcome τ) × System P ω τ :=
  match s.phase t with
  | .writing rs =>
    match refuses s.stored rs with
    | some e' => ([.raised t e'], s.goto t .idle)
    | none => ([.raised t e], { s with stored := s.stored ++ rs }.goto t .idle)
  | _ => ([], s)

/-- A new process, with nothing in flight. -/
def reopen (w : ω) : System P ω τ where
  stored := s.stored
  log := Function.update s.log w (s.log w).closed
  phase t := if owner t = w then .idle else s.phase t

end System

section

variable [DecidableEq ω] [DecidableEq τ] (owner : τ → ω)
  (refuses : List AuditRecord → List AuditRecord → Option PyError)

/-- One action. -/
def Action.step (a : Action ω τ) (s : System P ω τ) : List (Outcome τ) × System P ω τ :=
  match a with
  | .call t c =>
    match s.phase t with
    | .idle => s.start owner t c
    | _ => ([], s)
  | .advance t => s.advance owner t refuses
  | .fail t e => s.interrupt t e
  | .lose t e => s.lose t refuses e
  | .reopen w => ([], s.reopen owner w)

/-- Every process has just been started. -/
def System.init (stored : List AuditRecord) (log : ω → PlainLog P) : System P ω τ where
  stored := stored
  log w := (log w).closed
  phase _ := .idle

/-- The actions of a run. -/
abbrev runActions (actions : List (Action ω τ)) (s : System P ω τ) :
    List (Outcome τ) × System P ω τ :=
  run (Action.step owner refuses) actions s

end

/-! ### What is known of the storage -/

/-- The tail is a record that is stored, if there is one. -/
def Known (stored : List AuditRecord) (last : Option AuditRecord) : Prop :=
  ∀ r, last = some r → r ∈ stored

/-- What a phase knows of the storage. -/
def Phase.Ok (log : AuditLog P) (stored : List AuditRecord) : Phase → Prop
  | .loaded _ last => Known stored last
  | .writing rs => rs ≠ [] ∧ (∃ last, Known stored last ∧ Follows last rs) ∧
      ∀ r ∈ rs, WrittenBy log r
  | .written rs => rs ≠ [] ∧ rs <:+: stored
  | _ => True

theorem known_getLast? (stored : List AuditRecord) : Known stored stored.getLast? :=
  fun _ => List.mem_of_getLast?

theorem Known.append {stored : List AuditRecord} {last : Option AuditRecord}
    (h : Known stored last) (rs : List AuditRecord) : Known (stored ++ rs) last :=
  fun r hr => List.mem_append_left _ (h r hr)

theorem Phase.Ok.append {log : AuditLog P} {stored : List AuditRecord} {p : Phase}
    (h : p.Ok log stored) (rs : List AuditRecord) : p.Ok log (stored ++ rs) := by
  cases p with
  | loaded c last => exact Known.append h rs
  | writing rs' =>
    obtain ⟨hne, ⟨last, hlast, hfollows⟩, hwritten⟩ := h
    exact ⟨hne, ⟨last, hlast.append rs, hfollows⟩, hwritten⟩
  | written rs' => exact ⟨h.1, h.2.trans (List.prefix_append _ _).isInfix⟩
  | _ => trivial

/-- The logs that were `log` know the storage, which was `start`. -/
structure Knows (owner : τ → ω) (log : ω → PlainLog P) (start : List AuditRecord)
    (s : System P ω τ) : Prop where
  keys : ∀ w, SameKeys (log w).val (s.log w).val
  tails : ∀ w, Known s.stored (s.log w).val.last
  phases : ∀ t, (s.phase t).Ok (log (owner t)).val s.stored
  kept : start <+: s.stored
  written : ∀ r ∈ s.stored, r ∈ start ∨ ∃ w, WrittenBy (log w).val r

section

variable [DecidableEq ω] [DecidableEq τ] {owner : τ → ω}
  {refuses : List AuditRecord → List AuditRecord → Option PyError} {log : ω → PlainLog P}
  {start : List AuditRecord} {s : System P ω τ} {t : τ}

omit [DecidableEq ω] in
theorem phase_goto_self (s : System P ω τ) (t : τ) (p : Phase) : (s.goto t p).phase t = p :=
  Function.update_self _ _ _

omit [DecidableEq ω] in
theorem phase_goto_of_ne {t t' : τ} (h : t' ≠ t) (s : System P ω τ) (p : Phase) :
    (s.goto t p).phase t' = s.phase t' := Function.update_of_ne h _ _

/-- The writer that an action is of. -/
def Action.writer (owner : τ → ω) : Action ω τ → ω
  | .call t _ | .advance t | .fail t _ | .lose t _ => owner t
  | .reopen w => w

/-- What an action of a writer can do to the storage and the calls. -/
inductive Change (owner : τ → ω) (refuses : List AuditRecord → List AuditRecord → Option PyError)
    (log : ω → PlainLog P) (s : System P ω τ) : ω → List (Outcome τ) → System P ω τ → Prop
  | stay (w : ω) : Change owner refuses log s w [] s
  /-- A call goes on, and may have found a tail. -/
  | go {t : τ} {s₁ : System P ω τ} {p : Phase} {os : List (Outcome τ)}
      (tail : s₁ = s ∨ ∃ last, Known s.stored last ∧ s₁ = s.setTail owner t last)
      (ok : p.Ok (log (owner t)).val s.stored) (unwritten : ∀ rs, p ≠ .written rs)
      (silent : ∀ o ∈ os, (∃ e, o = .raised t e) ∨ o = .returned t []) :
      Change owner refuses log s (owner t) os (s₁.goto t p)
  | store {t : τ} {rs : List AuditRecord} (phase : s.phase t = .writing rs)
      (taken : refuses s.stored rs = none) : Change owner refuses log s (owner t) []
        ({ s with stored := s.stored ++ rs }.goto t (.written rs))
  | lose {t : τ} {rs : List AuditRecord} (e : PyError) (phase : s.phase t = .writing rs)
      (taken : refuses s.stored rs = none) : Change owner refuses log s (owner t) [.raised t e]
        ({ s with stored := s.stored ++ rs }.goto t .idle)
  | finish {t : τ} {rs : List AuditRecord} (phase : s.phase t = .written rs) :
      Change owner refuses log s (owner t) [.returned t rs]
        ((s.setTail owner t rs.getLast?).goto t .idle)
  | reopen (w : ω) : Change owner refuses log s w [] (s.reopen owner w)

namespace Knows

/-- A call that stores nothing. -/
theorem change_goto {p : Phase} (ok : p.Ok (log (owner t)).val s.stored)
    (unwritten : ∀ rs, p ≠ .written rs) {os : List (Outcome τ)}
    (silent : ∀ o ∈ os, (∃ e, o = .raised t e) ∨ o = .returned t []) :
    Change owner refuses log s (owner t) os (s.goto t p) :=
  .go (Or.inl rfl) ok unwritten silent

/-- Building, on the log at hand or on one that has found a tail. -/
theorem change_build (h : Knows owner log start s) {s₁ : System P ω τ}
    (tail : s₁ = s ∨ ∃ last, Known s.stored last ∧ s₁ = s.setTail owner t last) (c : Request) :
    Change owner refuses log s (owner t) (s₁.build owner t c).1 (s₁.build owner t c).2 := by
  have hlog : SameKeys (log (owner t)).val (s₁.log (owner t)).val ∧
      Known s.stored (s₁.log (owner t)).val.last := by
    rcases tail with rfl | ⟨last, hlast, rfl⟩
    · exact ⟨h.keys _, h.tails _⟩
    · obtain ⟨last', inited', hkeys⟩ := h.keys (owner t)
      show SameKeys _ (Function.update s.log (owner t) _ (owner t)).val ∧
        Known _ (Function.update s.log (owner t) _ (owner t)).val.last
      rw [Function.update_self]
      refine ⟨⟨last, true, ?_⟩, hlast⟩
      show (s.log (owner t)).val.withTail last true = _
      rw [hkeys, withTail_withTail]
  unfold System.build
  cases hseal : c.seal (s₁.log (owner t)).val with
  | error e => exact .go tail trivial (by simp) (by simp)
  | ok rs =>
    obtain ⟨hwritten, hfollows⟩ := written_of_request hseal
    cases rs with
    | nil => exact .go tail trivial (by simp) (by simp)
    | cons r rs =>
      refine .go tail ⟨by simp, ⟨_, hlog.2, hfollows⟩, fun x hx => ?_⟩ (by simp) (by simp)
      exact hlog.1.writtenBy (hwritten x hx)

/-- **What an action can do.** -/
theorem change (h : Knows owner log start s) (a : Action ω τ) :
    Change owner refuses log s (a.writer owner) (a.step owner refuses s).1
      (a.step owner refuses s).2 := by
  cases a with
  | call t c =>
    simp only [Action.step]
    split
    · cases c with
      | none =>
        simp only [System.start]
        exact change_goto (p := .opening none) trivial (by simp) (by simp)
      | some c =>
        simp only [System.start]
        split
        · exact h.change_build (Or.inl rfl) c
        · exact change_goto (p := .opening (some c)) trivial (by simp) (by simp)
    · exact .stay _
  | advance t =>
    have hok := h.phases t
    simp only [Action.step, System.advance]
    cases hphase : s.phase t with
    | idle => exact .stay _
    | opening c => exact change_goto (p := .loaded c _) (known_getLast? _) (by simp) (by simp)
    | loaded c last =>
      rw [hphase] at hok
      cases c with
      | none =>
        simp only [System.proceed]
        exact .go (Or.inr ⟨last, hok, rfl⟩) trivial (by simp) (by simp)
      | some c => exact h.change_build (Or.inr ⟨last, hok, rfl⟩) c
    | writing rs =>
      dsimp only
      cases htaken : refuses s.stored rs with
      | some e => exact change_goto (p := .idle) trivial (by simp) (by simp)
      | none => exact .store hphase htaken
    | written rs => exact .finish hphase
  | fail t e =>
    simp only [Action.step, System.interrupt]
    split
    · exact change_goto (p := .idle) trivial (by simp) (by simp)
    · exact change_goto (p := .idle) trivial (by simp) (by simp)
    · exact .stay _
  | lose t e =>
    simp only [Action.step, System.lose]
    cases hphase : s.phase t with
    | writing rs =>
      dsimp only
      cases htaken : refuses s.stored rs with
      | some e' => exact change_goto (p := .idle) trivial (by simp) (by simp)
      | none => exact .lose e hphase htaken
    | _ => exact .stay _
  | reopen w => exact .reopen w

omit [DecidableEq ω] in
theorem goto (h : Knows owner log start s) {p : Phase} (ok : p.Ok (log (owner t)).val s.stored) :
    Knows owner log start (s.goto t p) := by
  refine ⟨h.keys, h.tails, fun t' => ?_, h.kept, h.written⟩
  by_cases hne : t' = t
  · rw [hne, phase_goto_self]
    exact ok
  · rw [phase_goto_of_ne hne]
    exact h.phases t'

omit [DecidableEq τ] in
theorem setTail (h : Knows owner log start s) (t : τ) {last : Option AuditRecord}
    (hlast : Known s.stored last) : Knows owner log start (s.setTail owner t last) := by
  have hlog : ∀ w, SameKeys (log w).val ((s.setTail owner t last).log w).val ∧
      Known s.stored ((s.setTail owner t last).log w).val.last := by
    intro w
    by_cases hw : w = owner t
    · obtain ⟨last', inited', hkeys⟩ := h.keys (owner t)
      rw [hw, show (s.setTail owner t last).log (owner t) = (s.log (owner t)).setTail last from
        Function.update_self _ _ _]
      refine ⟨⟨last, true, ?_⟩, hlast⟩
      show (s.log (owner t)).val.withTail last true = _
      rw [hkeys, withTail_withTail]
    · rw [show (s.setTail owner t last).log w = s.log w from Function.update_of_ne hw _ _]
      exact ⟨h.keys w, h.tails w⟩
  exact ⟨fun w => (hlog w).1, fun w => (hlog w).2, h.phases, h.kept, h.written⟩

omit [DecidableEq ω] [DecidableEq τ] in
/-- The storage takes a batch. -/
theorem store (h : Knows owner log start s) {rs : List AuditRecord}
    (phase : s.phase t = .writing rs) :
    Knows owner log start { s with stored := s.stored ++ rs } := by
  have hok := h.phases t
  rw [phase] at hok
  refine ⟨h.keys, fun w => (h.tails w).append rs, fun t' => (h.phases t').append rs,
    h.kept.trans (List.prefix_append _ _), fun r hr => ?_⟩
  rcases List.mem_append.mp hr with hr | hr
  · exact h.written r hr
  · exact Or.inr ⟨owner t, hok.2.2 r hr⟩

omit [DecidableEq τ] in
theorem reopen (h : Knows owner log start s) (w : ω) :
    Knows owner log start (s.reopen owner w) := by
  have hlog : ∀ w', SameKeys (log w').val ((s.reopen owner w).log w').val ∧
      Known s.stored ((s.reopen owner w).log w').val.last := by
    intro w'
    by_cases hw : w' = w
    · obtain ⟨last', inited', hkeys⟩ := h.keys w
      rw [hw, show (s.reopen owner w).log w = (s.log w).closed from Function.update_self _ _ _]
      refine ⟨⟨none, false, ?_⟩, by rintro r ⟨⟩⟩
      show (s.log w).val.withTail none false = _
      rw [hkeys, withTail_withTail]
    · rw [show (s.reopen owner w).log w' = s.log w' from Function.update_of_ne hw _ _]
      exact ⟨h.keys w', h.tails w'⟩
  refine ⟨fun w' => (hlog w').1, fun w' => (hlog w').2, fun t => ?_, h.kept, h.written⟩
  show Phase.Ok _ _ (if owner t = w then .idle else s.phase t)
  split
  · trivial
  · exact h.phases t

/-- What is known stays known. -/
theorem next (h : Knows owner log start s) {w : ω} {os : List (Outcome τ)}
    {s' : System P ω τ} (hchange : Change owner refuses log s w os s') :
    Knows owner log start s' := by
  cases hchange with
  | stay => exact h
  | go tail ok unwritten silent =>
    rcases tail with rfl | ⟨last, hlast, rfl⟩
    · exact h.goto ok
    · exact (h.setTail _ hlast).goto ok
  | @store t rs phase taken =>
    have hok := h.phases t
    rw [phase] at hok
    exact (h.store phase).goto ⟨hok.1, (List.suffix_append _ _).isInfix⟩
  | lose e phase taken => exact (h.store phase).goto trivial
  | @finish t rs phase =>
    have hok := h.phases t
    rw [phase] at hok
    refine (h.setTail t fun r hr => ?_).goto trivial
    exact hok.2.subset (List.mem_of_getLast? hr)
  | reopen w => exact h.reopen w

theorem step (h : Knows owner log start s) (a : Action ω τ) :
    Knows owner log start (a.step owner refuses s).2 := by
  have hchange : Change owner refuses log s (a.writer owner) (a.step owner refuses s).1
    (a.step owner refuses s).2 := h.change a
  exact h.next hchange

end Knows

omit [DecidableEq ω] [DecidableEq τ] in
/-- New processes know nothing yet. -/
theorem knows_init (owner : τ → ω) (log : ω → PlainLog P) (start : List AuditRecord) :
    Knows owner log start (System.init start log) where
  keys w := ⟨none, false, rfl⟩
  tails w := by rintro r ⟨⟩
  phases t := trivial
  kept := List.prefix_refl _
  written r hr := Or.inl hr

/-! ### Over a table -/

/-- The numbers of the records are a primary key. -/
def PrimaryKey (refuses : List AuditRecord → List AuditRecord → Option PyError) : Prop :=
  ∀ stored rs, refuses stored rs = none → ∀ x ∈ stored, ∀ r ∈ rs, x.seq ≠ r.seq

/-- What follows a chain somewhere, at the number of its length, follows its end. -/
theorem follows_end {stored rs : List AuditRecord} (hchained : ChainedRecords stored)
    {last : Option AuditRecord} (hlast : Known stored last)
    (hlength : nextSeq recordLinks last = stored.length) (hfollows : Follows last rs) :
    Follows stored.getLast? rs := by
  rwa [← Chained.eq_getLast? hchained hlast hlength]

theorem head_seq_of_follows {last : Option AuditRecord} {r : AuditRecord} {rs : List AuditRecord}
    (h : Follows last (r :: rs)) : r.seq = nextSeq recordLinks last := h.1

/-- **A batch with new numbers follows the end**, whatever it was built on. -/
theorem chained_of_taken {stored rs : List AuditRecord} (hchained : ChainedRecords stored)
    {last : Option AuditRecord} (hlast : Known stored last) (hfollows : Follows last rs)
    (hnew : ∀ x ∈ stored, ∀ r ∈ rs, x.seq ≠ r.seq) : ChainedRecords (stored ++ rs) := by
  cases rs with
  | nil => rwa [List.append_nil]
  | cons r rs =>
    refine Follows.chained hchained (follows_end hchained hlast ?_ hfollows)
    apply Chained.nextSeq_eq_length hchained hlast
    intro x hx
    rw [← head_seq_of_follows hfollows]
    exact hnew x hx r List.mem_cons_self

/-- What was returned is stored, and no record was returned twice; nor is it about to be. -/
structure Told (os : List (Outcome τ)) (stored : List AuditRecord) (phase : τ → Phase) : Prop where
  contiguous : ∀ rs ∈ returned os, rs <:+: stored
  distinct : (returned os).flatten.Nodup
  pending : ∀ t rs, phase t = .written rs → ∀ r ∈ rs, r ∉ (returned os).flatten
  apart : ∀ t t' rs rs', t ≠ t' → phase t = .written rs → phase t' = .written rs' →
    ∀ r ∈ rs, r ∉ rs'

omit [DecidableEq τ] in
/-- Exceptions are no records. -/
theorem flatten_returned {os : List (Outcome τ)}
    (h : ∀ o ∈ os, (∃ e, o = .raised t e) ∨ o = .returned t []) : (returned os).flatten = [] := by
  induction os with
  | nil => rfl
  | cons o os ih =>
    obtain ⟨ho, hos⟩ := List.forall_mem_cons.mp h
    rcases ho with ⟨e, rfl⟩ | rfl <;> exact ih hos

namespace Told

variable {os os' : List (Outcome τ)} {stored rs : List AuditRecord} {phase : τ → Phase}

omit [DecidableEq τ] in
/-- More is stored, and no other call is about to return. -/
theorem mono (h : Told os stored phase) {stored' : List AuditRecord} (hstored : stored <+: stored')
    {phase' : τ → Phase} (hphase : ∀ t rs, phase' t = .written rs → phase t = .written rs) :
    Told os stored' phase' where
  contiguous rs hrs := (h.contiguous rs hrs).trans hstored.isInfix
  distinct := h.distinct
  pending t rs ht := h.pending t rs (hphase t rs ht)
  apart t t' rs rs' hne ht ht' := h.apart t t' rs rs' hne (hphase t rs ht) (hphase t' rs' ht')

omit [DecidableEq τ] in
theorem silent (h : Told os stored phase) (hempty : (returned os').flatten = []) :
    Told (os ++ os') stored phase := by
  have hflatten : (returned (os ++ os')).flatten = (returned os).flatten := by
    rw [returned_append, List.flatten_append, hempty, List.append_nil]
  refine ⟨fun rs hrs => ?_, by rw [hflatten]; exact h.distinct, by rw [hflatten]; exact h.pending,
    h.apart⟩
  rw [returned_append] at hrs
  rcases List.mem_append.mp hrs with hrs | hrs
  · exact h.contiguous rs hrs
  · rw [List.flatten_eq_nil_iff.mp hempty rs hrs]
    exact List.nil_infix

theorem unwritten (h : Told os stored phase) {t : τ} {p : Phase} (hp : ∀ rs, p ≠ .written rs) :
    Told os stored (Function.update phase t p) := by
  refine h.mono (List.prefix_refl _) fun t' rs ht' => ?_
  by_cases hne : t' = t
  · rw [hne, Function.update_self] at ht'
    exact absurd ht' (hp rs)
  · rwa [Function.update_of_ne hne] at ht'

omit [DecidableEq τ] in
/-- What was returned is among what is stored. -/
theorem subset (h : Told os stored phase) {r : AuditRecord} (hr : r ∈ (returned os).flatten) :
    r ∈ stored := by
  obtain ⟨rs, hrs, hr⟩ := List.mem_flatten.mp hr
  exact (h.contiguous rs hrs).subset hr

theorem write (h : Told os stored phase) {t : τ} (hnew : ∀ r ∈ rs, r ∉ stored)
    (hold : ∀ t rs, phase t = .written rs → rs <:+: stored) :
    Told os (stored ++ rs) (Function.update phase t (.written rs)) := by
  have hphase : ∀ t' rs', Function.update phase t (.written rs) t' = .written rs' →
      (t' = t ∧ rs' = rs) ∨ (t' ≠ t ∧ phase t' = .written rs') := by
    intro t' rs' ht'
    by_cases hne : t' = t
    · rw [hne, Function.update_self] at ht'
      exact Or.inl ⟨hne, (Phase.written.inj ht').symm⟩
    · rw [Function.update_of_ne hne] at ht'
      exact Or.inr ⟨hne, ht'⟩
  refine ⟨fun rs' hrs' => (h.contiguous rs' hrs').trans (List.prefix_append _ _).isInfix,
    h.distinct, fun t' rs' ht' r hr hret => ?_, fun t₁ t₂ rs₁ rs₂ hne ht₁ ht₂ r hr₁ hr₂ => ?_⟩
  · rcases hphase t' rs' ht' with ⟨-, rfl⟩ | ⟨-, ht'⟩
    · exact hnew r hr (h.subset hret)
    · exact h.pending t' rs' ht' r hr hret
  · rcases hphase t₁ rs₁ ht₁ with ⟨rfl, rfl⟩ | ⟨-, h₁⟩ <;>
      rcases hphase t₂ rs₂ ht₂ with ⟨rfl, rfl⟩ | ⟨-, h₂⟩
    · exact hne rfl
    · exact hnew r hr₁ ((hold t₂ rs₂ h₂).subset hr₂)
    · exact hnew r hr₂ ((hold t₁ rs₁ h₁).subset hr₁)
    · exact h.apart t₁ t₂ rs₁ rs₂ hne h₁ h₂ r hr₁ hr₂

theorem finish (h : Told os stored phase) {t : τ} (hphase : phase t = .written rs)
    (hwithin : rs <:+: stored) (hnodup : rs.Nodup) :
    Told (os ++ [.returned t rs]) stored (Function.update phase t .idle) := by
  have hflatten : (returned (os ++ [Outcome.returned t rs])).flatten
      = (returned os).flatten ++ rs := by
    rw [returned_append, List.flatten_append]
    simp [returned]
  have hnext : ∀ t' rs', Function.update phase t .idle t' = .written rs' →
      t' ≠ t ∧ phase t' = .written rs' := by
    intro t' rs' ht'
    by_cases hne : t' = t
    · rw [hne, Function.update_self] at ht'
      cases ht'
    · rw [Function.update_of_ne hne] at ht'
      exact ⟨hne, ht'⟩
  refine ⟨fun rs' hrs' => ?_, ?_, fun t' rs' ht' r hr => ?_,
    fun t₁ t₂ rs₁ rs₂ hne ht₁ ht₂ => h.apart t₁ t₂ rs₁ rs₂ hne (hnext _ _ ht₁).2 (hnext _ _ ht₂).2⟩
  · rw [returned_append] at hrs'
    rcases List.mem_append.mp hrs' with hrs' | hrs'
    · exact h.contiguous rs' hrs'
    · obtain rfl : rs' = rs := by simpa [returned] using hrs'
      exact hwithin
  · rw [hflatten]
    refine h.distinct.append hnodup fun r hret hr => ?_
    exact h.pending t rs hphase r hr hret
  · obtain ⟨hne, ht'⟩ := hnext t' rs' ht'
    rw [hflatten, List.mem_append, not_or]
    exact ⟨h.pending t' rs' ht' r hr, h.apart t' t rs' rs hne ht' hphase r hr⟩

end Told

/-- The invariant over a table, after the outcomes `os`. -/
structure Inv (owner : τ → ω) (log : ω → PlainLog P) (start : List AuditRecord)
    (os : List (Outcome τ)) (s : System P ω τ) : Prop where
  knows : Knows owner log start s
  chained : ChainedRecords s.stored
  told : Told os s.stored s.phase

namespace Inv

variable {os : List (Outcome τ)}

omit [DecidableEq ω] [DecidableEq τ] in
/-- What is taken is new, and continues the chain. -/
theorem taken (h : Inv owner log start os s) (hkey : PrimaryKey refuses) {rs : List AuditRecord}
    (phase : s.phase t = .writing rs) (taken : refuses s.stored rs = none) :
    ChainedRecords (s.stored ++ rs) ∧ ∀ r ∈ rs, r ∉ s.stored := by
  have hok := h.knows.phases t
  rw [phase] at hok
  obtain ⟨-, ⟨last, hlast, hfollows⟩, -⟩ := hok
  have hnew := hkey _ _ taken
  exact ⟨chained_of_taken h.chained hlast hfollows hnew, fun r hr hmem => hnew r hmem r hr rfl⟩

/-- **What one action preserves**, over a table. -/
theorem step (h : Inv owner log start os s) (hkey : PrimaryKey refuses) (a : Action ω τ) :
    Inv owner log start (os ++ (a.step owner refuses s).1) (a.step owner refuses s).2 := by
  have hknows : Knows owner log start (a.step owner refuses s).2 := h.knows.step a
  have hchange : Change owner refuses log s (a.writer owner) (a.step owner refuses s).1
    (a.step owner refuses s).2 := h.knows.change a
  generalize a.writer owner = w at hchange
  generalize (a.step owner refuses s).1 = os' at hchange ⊢
  generalize (a.step owner refuses s).2 = s' at hknows hchange ⊢
  refine ⟨hknows, ?_, ?_⟩
  · cases hchange with
    | stay => exact h.chained
    | go tail ok unwritten silent =>
      rcases tail with rfl | ⟨last, hlast, rfl⟩ <;> exact h.chained
    | store phase taken => exact (h.taken hkey phase taken).1
    | lose e phase taken => exact (h.taken hkey phase taken).1
    | finish phase => exact h.chained
    | reopen w => exact h.chained
  · cases hchange with
    | stay => rw [List.append_nil]; exact h.told
    | go tail ok unwritten silent =>
      refine Told.silent ?_ (flatten_returned silent)
      rcases tail with rfl | ⟨last, hlast, rfl⟩ <;> exact h.told.unwritten unwritten
    | store phase taken =>
      rw [List.append_nil]
      refine h.told.write (h.taken hkey phase taken).2 fun t' rs' ht' => ?_
      have hok := h.knows.phases t'
      rw [ht'] at hok
      exact hok.2
    | lose e phase taken =>
      refine Told.silent ?_ rfl
      exact (h.told.mono (List.prefix_append _ _) fun _ _ ht => ht).unwritten (by simp)
    | @finish t rs phase =>
      have hok := h.knows.phases t
      rw [phase] at hok
      refine h.told.finish phase hok.2 ?_
      exact hok.2.sublist.nodup ((nodup_seq h.chained).of_map _)
    | reopen w =>
      rw [List.append_nil]
      refine h.told.mono (List.prefix_refl _) fun t rs ht => ?_
      have ht : (if owner t = w then .idle else s.phase t) = Phase.written rs := ht
      split at ht
      · cases ht
      · exact ht

end Inv

/-- The storage is one chain, which begins with what there was; all else was sealed under the
key of a writer; and what was returned is there, batch by batch, and no record twice. -/
structure NoFork (log : ω → PlainLog P) (start stored : List AuditRecord)
    (returned : List (List AuditRecord)) : Prop where
  seq : ∀ i (hi : i < stored.length), stored[i].seq = i
  first : ∀ hi : 0 < stored.length, stored[0].prevHash = GENESIS_HASH
  link : ∀ i (h0 : i < stored.length) (h1 : i + 1 < stored.length),
    stored[i + 1].prevHash = stored[i].hash
  kept : start <+: stored
  written : ∀ r ∈ stored, r ∈ start ∨ ∃ w, WrittenBy (log w).val r ∧
    computeRecordHash P r (log w).val.sealKey = .ok r.hash
  contiguous : ∀ rs ∈ returned, rs <:+: stored
  distinct : returned.flatten.Nodup

omit [DecidableEq ω] [DecidableEq τ] in
theorem Inv.noFork {os : List (Outcome τ)} (h : Inv owner log start os s) :
    NoFork log start s.stored (returned os) where
  seq := h.chained.seq_getElem
  first := h.chained.prev_head
  link := fun i _ hi => h.chained.prev_getElem i hi
  kept := h.knows.kept
  written r hr := (h.knows.written r hr).imp_right fun ⟨w, hw⟩ =>
    ⟨w, hw, computeRecordHash_eq_ok.mpr hw.hashed⟩
  contiguous := h.told.contiguous
  distinct := h.told.distinct

omit [DecidableEq ω] [DecidableEq τ] in
theorem inv_init (owner : τ → ω) (log : ω → PlainLog P) {start : List AuditRecord}
    (hstart : ChainedRecords start) : Inv owner log start [] (System.init start log) where
  knows := knows_init owner log start
  chained := hstart
  told :=
    { contiguous := by rintro rs ⟨⟩
      distinct := List.nodup_nil
      pending := by rintro t rs ⟨⟩
      apart := by rintro t t' rs rs' - ⟨⟩ }

/-- After any actions over a table. -/
theorem inv_run (hkey : PrimaryKey refuses) (owner : τ → ω) (log : ω → PlainLog P)
    {start : List AuditRecord} (hstart : ChainedRecords start) (actions : List (Action ω τ)) :
    Inv owner log start (runActions owner refuses actions (System.init start log)).1
      (runActions owner refuses actions (System.init start log)).2 := by
  have hrun := run_preserves (fun _ _ => True) (Inv owner log start)
    (fun a _ _ _ hinv => hinv.step hkey a) actions _ [] (stepsOk_of_forall (fun _ _ _ => trivial) _)
    (inv_init owner log hstart)
  rwa [List.nil_append] at hrun

/-- **A table keeps writers without a lock from forking the log**, whatever they do. -/
theorem unlocked_chain (hkey : PrimaryKey refuses) (owner : τ → ω) (log : ω → PlainLog P)
    {start : List AuditRecord} (hstart : ChainedRecords start) (actions : List (Action ω τ)) :
    NoFork log start (runActions owner refuses actions (System.init start log)).2.stored
      (returned (runActions owner refuses actions (System.init start log)).1) :=
  (inv_run hkey owner log hstart actions).noFork

/-! ### Overtaken logs -/

/-- The tail is stored, and is not the end any more. -/
def Behind (stored : List AuditRecord) (last : Option AuditRecord) : Prop :=
  Known stored last ∧ last ≠ stored.getLast?

/-- A call that will not find the end. -/
def Phase.Behind (stored : List AuditRecord) : Phase → Prop
  | .idle => True
  | .writing rs => rs ≠ [] ∧ ∃ last, Unlocked.Behind stored last ∧ Follows last rs
  | _ => False

/-- The log is open, and neither it nor a call on it knows the end of the chain. -/
structure Overtaken (owner : τ → ω) (w : ω) (s : System P ω τ) : Prop where
  inited : (s.log w).val.inited = true
  tail : Behind s.stored (s.log w).val.last
  calls : ∀ t, owner t = w → (s.phase t).Behind s.stored

/-- The log is not opened again. -/
def Action.KeepsOpen (owner : τ → ω) (w : ω) (a : Action ω τ) : Prop :=
  a ≠ .reopen w ∧ ∀ t, owner t = w → a ≠ .call t none

theorem Behind.append {stored rs : List AuditRecord} {last : Option AuditRecord}
    (h : Behind stored last) (hnew : ∀ r ∈ rs, r ∉ stored) : Behind (stored ++ rs) last := by
  refine ⟨h.1.append rs, fun heq => ?_⟩
  rw [List.getLast?_append] at heq
  cases hlast : rs.getLast? with
  | none =>
    rw [hlast] at heq
    exact h.2 heq
  | some r =>
    rw [hlast] at heq
    exact hnew r (List.mem_of_getLast? hlast) (h.1 r heq)

theorem Phase.Behind.append {stored rs : List AuditRecord} {p : Phase} (h : p.Behind stored)
    (hnew : ∀ r ∈ rs, r ∉ stored) : p.Behind (stored ++ rs) := by
  cases p with
  | writing rs' =>
    obtain ⟨hne, last, hlast, hfollows⟩ := h
    exact ⟨hne, last, Unlocked.Behind.append hlast hnew, hfollows⟩
  | _ => exact h

omit [DecidableEq ω] [DecidableEq τ] in
/-- **What was built on a tail that was overtaken is refused.** -/
theorem Inv.refuses_behind {os : List (Outcome τ)} (h : Inv owner log start os s)
    (hkey : PrimaryKey refuses) {rs : List AuditRecord} (hne : rs ≠ [])
    {last : Option AuditRecord} (hlast : Behind s.stored last) (hfollows : Follows last rs) :
    refuses s.stored rs ≠ none := by
  intro htaken
  obtain ⟨r, rs, rfl⟩ := List.exists_cons_of_ne_nil hne
  refine hlast.2 (Chained.eq_getLast? h.chained hlast.1 ?_)
  refine Chained.nextSeq_eq_length h.chained hlast.1 fun x hx => ?_
  rw [← head_seq_of_follows hfollows]
  exact hkey _ _ htaken x hx r List.mem_cons_self

namespace Overtaken

variable {w : ω} {os : List (Outcome τ)}

/-- Another writer does something. -/
theorem others (h : Overtaken owner w s) (hinv : Inv owner log start os s)
    (hkey : PrimaryKey refuses) {w' : ω} (hne : w' ≠ w) {os' : List (Outcome τ)}
    {s' : System P ω τ} (hchange : Change owner refuses log s w' os' s') :
    Overtaken owner w s' ∧ ∀ t rs, .returned t rs ∈ os' → owner t ≠ w := by
  have hgoto : ∀ {s₁ : System P ω τ}, Overtaken owner w s₁ → ∀ {t : τ}, owner t ≠ w →
      ∀ p, Overtaken owner w (s₁.goto t p) := by
    intro s₁ h₁ t ht p
    refine ⟨h₁.inited, h₁.tail, fun t' ht' => ?_⟩
    rw [phase_goto_of_ne (by rintro rfl; exact ht ht')]
    exact h₁.calls t' ht'
  have hsetTail : ∀ {t : τ}, owner t ≠ w → ∀ last, Overtaken owner w (s.setTail owner t last) := by
    intro t ht last
    have hlog : (s.setTail owner t last).log w = s.log w :=
      Function.update_of_ne (fun heq => ht heq.symm) _ _
    exact ⟨by rw [hlog]; exact h.inited, by rw [hlog]; exact h.tail, h.calls⟩
  have hstore : ∀ {rs : List AuditRecord}, (∀ r ∈ rs, r ∉ s.stored) →
      Overtaken owner w { s with stored := s.stored ++ rs } := fun hnew =>
    ⟨h.inited, h.tail.append hnew, fun t ht => (h.calls t ht).append hnew⟩
  cases hchange with
  | stay => exact ⟨h, by simp⟩
  | @go t s₁ p os' tail ok unwritten silent =>
    refine ⟨?_, fun t' rs hret => ?_⟩
    · rcases tail with rfl | ⟨last, -, rfl⟩
      · exact hgoto h hne p
      · exact hgoto (hsetTail hne last) hne p
    · rcases silent _ hret with ⟨e, he⟩ | heq
      · cases he
      · obtain ⟨rfl, -⟩ := Outcome.returned.inj heq
        exact hne
  | store phase taken => exact ⟨hgoto (hstore (hinv.taken hkey phase taken).2) hne _, by simp⟩
  | lose e phase taken => exact ⟨hgoto (hstore (hinv.taken hkey phase taken).2) hne _, by simp⟩
  | @finish t rs phase =>
    refine ⟨hgoto (hsetTail hne _) hne _, fun t' rs' hret => ?_⟩
    obtain ⟨rfl, -⟩ := Outcome.returned.inj (List.mem_singleton.mp hret)
    exact hne
  | reopen =>
    have hlog : (s.reopen owner w').log w = s.log w :=
      Function.update_of_ne (fun heq => hne heq.symm) _ _
    refine ⟨⟨by rw [hlog]; exact h.inited, by rw [hlog]; exact h.tail, fun t ht => ?_⟩, by simp⟩
    show Phase.Behind _ (if owner t = w' then .idle else s.phase t)
    rw [if_neg fun heq => hne (heq.symm.trans ht)]
    exact h.calls t ht

omit [DecidableEq ω] in
/-- A call of the log goes on without a tail of its own. -/
theorem goto (h : Overtaken owner w s) {p : Phase} (hp : p.Behind s.stored) :
    Overtaken owner w (s.goto t p) := by
  refine ⟨h.inited, h.tail, fun t' ht' => ?_⟩
  by_cases hne : t' = t
  · rw [hne, phase_goto_self]
    exact hp
  · rw [phase_goto_of_ne hne]
    exact h.calls t' ht'

/-- The log itself does something. -/
theorem self (h : Overtaken owner w s) (hinv : Inv owner log start os s)
    (hkey : PrimaryKey refuses) {a : Action ω τ} (hwriter : a.writer owner = w)
    (ha : a.KeepsOpen owner w) : Overtaken owner w (a.step owner refuses s).2 ∧
      ∀ t rs, .returned t rs ∈ (a.step owner refuses s).1 → rs = [] := by
  have hidle : ∀ t, Overtaken owner w (s.goto t .idle) := fun t => h.goto trivial
  cases a with
  | call t c =>
    have hcalls := h.calls t hwriter
    simp only [Action.step]
    split
    · cases c with
      | none => exact absurd rfl (ha.2 t hwriter)
      | some c =>
        have hinited : (s.log (owner t)).val.inited = true := by
          rw [show owner t = w from hwriter]
          exact h.inited
        simp only [System.start, hinited, if_true, System.build]
        cases hseal : c.seal (s.log (owner t)).val with
        | error e => exact ⟨hidle t, by simp⟩
        | ok rs =>
          cases rs with
          | nil => exact ⟨hidle t, by simp⟩
          | cons r rs =>
            have hfollows := (written_of_request hseal).2
            rw [show owner t = w from hwriter] at hfollows
            exact ⟨h.goto ⟨by simp, _, h.tail, hfollows⟩, by simp⟩
    · exact ⟨h, by simp⟩
  | advance t =>
    have hcalls := h.calls t hwriter
    simp only [Action.step, System.advance]
    cases hphase : s.phase t with
    | idle => exact ⟨h, by simp⟩
    | writing rs =>
      rw [hphase] at hcalls
      obtain ⟨hne, last, hlast, hfollows⟩ := hcalls
      have hrefused := hinv.refuses_behind hkey hne hlast hfollows
      dsimp only
      cases htaken : refuses s.stored rs with
      | some e => exact ⟨hidle t, by simp⟩
      | none => exact absurd htaken hrefused
    | _ =>
      rw [hphase] at hcalls
      exact hcalls.elim
  | fail t e =>
    simp only [Action.step, System.interrupt]
    split
    · exact ⟨hidle t, by simp⟩
    · exact ⟨hidle t, by simp⟩
    · exact ⟨h, by simp⟩
  | lose t e =>
    have hcalls := h.calls t hwriter
    simp only [Action.step, System.lose]
    cases hphase : s.phase t with
    | writing rs =>
      rw [hphase] at hcalls
      obtain ⟨hne, last, hlast, hfollows⟩ := hcalls
      have hrefused := hinv.refuses_behind hkey hne hlast hfollows
      dsimp only
      cases htaken : refuses s.stored rs with
      | some e' => exact ⟨hidle t, by simp⟩
      | none => exact absurd htaken hrefused
    | _ => exact ⟨h, by simp⟩
  | reopen w' =>
    obtain rfl : w' = w := hwriter
    exact absurd rfl ha.1

theorem step (h : Overtaken owner w s) (hinv : Inv owner log start os s)
    (hkey : PrimaryKey refuses) {a : Action ω τ} (ha : a.KeepsOpen owner w) :
    Overtaken owner w (a.step owner refuses s).2 ∧
      ∀ t rs, .returned t rs ∈ (a.step owner refuses s).1 → owner t = w → rs = [] := by
  by_cases hwriter : a.writer owner = w
  · obtain ⟨hnext, hret⟩ := h.self hinv hkey hwriter ha
    exact ⟨hnext, fun t rs ht _ => hret t rs ht⟩
  · obtain ⟨hnext, hret⟩ := h.others hinv hkey hwriter (hinv.knows.change a)
    exact ⟨hnext, fun t rs ht hw => absurd hw (hret t rs ht)⟩

end Overtaken

/-- A storage that takes whatever it is given. -/
def takesAll : List AuditRecord → List AuditRecord → Option PyError := fun _ _ => none

/-- The records that the action writes, if it writes any, are numbered from the number of
records that there are. -/
def Action.AtEnd (a : Action ω τ) (s : System P ω τ) : Prop :=
  match a with
  | .advance t | .lose t _ =>
    match s.phase t with
    | .writing (r :: _) => r.seq = s.stored.length
    | _ => True
  | _ => True

instance Action.AtEnd.instDecidable (a : Action ω τ) (s : System P ω τ) :
    Decidable (a.AtEnd s) := by
  unfold Action.AtEnd
  split
  · split <;> infer_instance
  · split <;> infer_instance
  · infer_instance

omit [DecidableEq ω] [DecidableEq τ] in
/-- What is written continues the chain exactly when it is numbered so. -/
theorem chained_append_iff {stored rs : List AuditRecord} {r : AuditRecord}
    {last : Option AuditRecord} (hlast : Known stored last) (hfollows : Follows last (r :: rs)) :
    ChainedRecords (stored ++ r :: rs) ↔ ChainedRecords stored ∧ r.seq = stored.length := by
  constructor
  · intro h
    refine ⟨(chained_append.mp h).1, ?_⟩
    have hseq := h.seq_getElem stored.length (by simp)
    simp only [List.getElem_append_right (le_refl _), Nat.sub_self, List.getElem_cons_zero] at hseq
    exact hseq
  · rintro ⟨h, hseq⟩
    refine Follows.chained h (follows_end h hlast ?_ hfollows)
    rw [← head_seq_of_follows hfollows, hseq]

omit [DecidableEq ω] in
theorem stored_build (c : Request) : (s.build owner t c).2.stored = s.stored := by
  unfold System.build
  split <;> rfl

/-- One action keeps the chain exactly when it writes at the end. -/
theorem Knows.chained_step_iff (h : Knows owner log start s) (a : Action ω τ) :
    ChainedRecords (a.step owner takesAll s).2.stored ↔ ChainedRecords s.stored ∧ a.AtEnd s := by
  have hsame : ∀ {s' : System P ω τ}, s'.stored = s.stored →
      (ChainedRecords s'.stored ↔ ChainedRecords s.stored ∧ True) := by
    intro s' hs'
    rw [hs', and_true]
  cases a with
  | call t c =>
    simp only [Action.step]
    split
    · cases c with
      | none => exact hsame rfl
      | some c =>
        simp only [System.start]
        split
        · exact hsame (stored_build c)
        · exact hsame rfl
    · exact hsame rfl
  | advance t =>
    have hok := h.phases t
    simp only [Action.step, System.advance, Action.AtEnd]
    cases hphase : s.phase t with
    | loaded c last =>
      cases c with
      | none => exact hsame rfl
      | some c => exact hsame (stored_build (s := s.setTail owner t last) c)
    | writing rs =>
      rw [hphase] at hok
      obtain ⟨hne, ⟨last, hlast, hfollows⟩, -⟩ := hok
      obtain ⟨r, rs, rfl⟩ := List.exists_cons_of_ne_nil hne
      exact chained_append_iff hlast hfollows
    | _ => exact hsame rfl
  | fail t e =>
    simp only [Action.step, System.interrupt]
    split <;> exact hsame rfl
  | lose t e =>
    have hok := h.phases t
    simp only [Action.step, System.lose, Action.AtEnd]
    cases hphase : s.phase t with
    | writing rs =>
      rw [hphase] at hok
      obtain ⟨hne, ⟨last, hlast, hfollows⟩, -⟩ := hok
      obtain ⟨r, rs, rfl⟩ := List.exists_cons_of_ne_nil hne
      exact chained_append_iff hlast hfollows
    | _ => exact hsame rfl
  | reopen w => exact hsame rfl

/-- **What a file makes of writers without a lock**: under keys that find those of the
writers, verification passes exactly when every record was written at the end.  A record
that was not is noticed from then on. -/
theorem unlocked_verify_iff (hP : P.SignaturesVerify) (owner : τ → ω) (log : ω → PlainLog P)
    {M : KeyMaterial P} {start : List AuditRecord} (hstart : Accepted M start)
    (hkeys : ∀ w r, WrittenBy (log w).val r → M.keyFor r = (log w).val.sealKey ∧
      (M.signers = none ∨ M.signers = ((log w).val.keyMaterial none).signers))
    (actions : List (Action ω τ)) :
    (∃ report, verifyChain (runActions owner takesAll actions (System.init start log)).2.stored M
        none none = .ok report ∧ report.ok = true) ↔
      StepsOk (Action.step owner takesAll) Action.AtEnd actions (System.init start log) := by
  have hknows := knows_init owner log start
  have hrun : Knows owner log start
      (runActions owner takesAll actions (System.init start log)).2 :=
    run_preserves (fun _ _ => True) (fun _ s => Knows owner log start s)
      (fun a _ _ _ hinv => hinv.step a) actions _ [] (stepsOk_of_forall (fun _ _ _ => trivial) _)
      hknows
  have hiff : ChainedRecords (runActions owner takesAll actions (System.init start log)).2.stored ↔
      ChainedRecords (System.init start log).stored ∧
        StepsOk (Action.step owner takesAll) Action.AtEnd actions (System.init start log) :=
    stepsOk_iff_run Action.AtEnd (Knows owner log start) (fun s => ChainedRecords s.stored)
      (fun a s hinv => hinv.step a) (fun a s hinv => hinv.chained_step_iff a) actions hknows
  rw [verifyChain_plain_iff]
  refine Iff.trans ⟨fun h => h.chained, fun h => ⟨h, fun r hr => ?_⟩⟩
    (hiff.trans (and_iff_right hstart.chained))
  rcases hrun.written r hr with hr | ⟨w, hw⟩
  · exact hstart.records r hr
  · exact recordOk_of_finds hP hw (hkeys w r hw).1 (hkeys w r hw).2

end

/-! ### A table of SQLite -/

/-- What `SqliteBackend` refuses to write behind these records. -/
def sqliteRefuses (P : Runtime) (faults : SqliteFaults) (stored rs : List AuditRecord) :
    Option PyError :=
  match (SqliteBackend.appendMany P faults rs
    (some ⟨stored.map (AuditRecord.row P), none⟩)).1 with
  | .ok _ => none
  | .error e => some e

theorem seq_of_rowValues {r : AuditRecord} {row : SqliteRow} (h : r.rowValues P = .ok row) :
    row.seq = r.seq := by
  obtain ⟨metaText, -, h⟩ := bind_eq_ok.mp h
  rw [← Except.ok.inj h]

theorem exists_row_of_mapM {rs : List AuditRecord} {rows : List SqliteRow}
    (h : rs.mapM (AuditRecord.rowValues P) = .ok rows) {r : AuditRecord} (hr : r ∈ rs) :
    ∃ row ∈ rows, row.seq = r.seq := by
  induction rs generalizing rows with
  | nil => cases hr
  | cons x rs ih =>
    rw [List.mapM_cons] at h
    obtain ⟨row, hrow, h⟩ := bind_eq_ok.mp h
    obtain ⟨rows', hrows, h⟩ := bind_eq_ok.mp h
    obtain rfl := Except.ok.inj h
    rcases List.mem_cons.mp hr with rfl | hr
    · exact ⟨row, List.mem_cons_self, seq_of_rowValues hrow⟩
    · obtain ⟨row', hmem, hseq⟩ := ih hrows hr
      exact ⟨row', List.mem_cons_of_mem _ hmem, hseq⟩

theorem seq_ne_of_insertCheck {faults : SqliteFaults} {n : ℕ} {rows : List SqliteRow}
    {row : SqliteRow} (h : insertCheck faults n rows row = .ok ()) :
    ∀ other ∈ rows, other.seq ≠ row.seq := by
  intro other hother heq
  obtain ⟨u, -, h⟩ := bind_eq_ok.mp h
  rw [if_pos (List.any_eq_true.mpr ⟨other, hother, by simpa using heq⟩)] at h
  cases h

/-- **`seq INTEGER PRIMARY KEY`**: what is taken has new numbers. -/
theorem sqlite_primaryKey (P : Runtime) (faults : SqliteFaults) :
    PrimaryKey (sqliteRefuses P faults) := by
  intro stored rs htaken x hx r hr heq
  rw [sqliteRefuses, SqliteBackend.appendMany] at htaken
  cases hrows : rs.mapM (AuditRecord.rowValues P) with
  | error e =>
    rw [Operation.bind_ofExcept_error hrows] at htaken
    cases htaken
  | ok rows =>
    rw [Operation.bind_ofExcept_ok hrows] at htaken
    rcases hall : Session.insertAll (insertCheck faults) 0 rows
      ⟨stored.map (AuditRecord.row P), none⟩ with ⟨e | u, c⟩
    · have hwrite : SqliteBackend.writeRows faults rows ⟨stored.map (AuditRecord.row P), none⟩
          = (.error e, c) := Operation.bind_error hall
      simp only [SqliteBackend.withConnection, Operation.onError_error hwrite] at htaken
      cases htaken
    · obtain ⟨row, hrow, hseq⟩ := exists_row_of_mapM hrows hr
      obtain ⟨front, back, hsplit⟩ := List.append_of_mem hrow
      have hcheck := Session.checks_of_insertAll _ rows 0 _ _ hall front row back hsplit
      refine seq_ne_of_insertCheck hcheck (x.row P) ?_ (heq.trans hseq.symm)
      rw [Session.visible, Option.getD_none, List.append_nil]
      exact List.mem_append_left _ (List.mem_map_of_mem hx)

/-! ### Two processes -/

/-- `plainLog` in every process. -/
def plainLogs : Bool → PlainLog referenceRuntime := fun _ => ⟨plainLog, rfl⟩

/-- Both processes find the log empty, then both write. -/
def racingActions : List (Action Bool Bool) :=
  [.call true (some sampleRequest), .call false (some sampleRequest)] ++
    [true, true, false, false, true, true, false].map .advance

/-- The second process is refused. -/
theorem unlocked_chain_sample :
    let r := runActions id (sqliteRefuses referenceRuntime SqliteBackend.reliable) racingActions
      (System.init [] plainLogs)
    r.2.stored.length = 1 ∧ NoFork plainLogs [] r.2.stored (returned r.1) :=
  ⟨by decide +kernel, unlocked_chain (sqlite_primaryKey _ _) id plainLogs
    (show ChainedRecords [] from trivial) racingActions⟩

/-- In a file, the race is noticed. -/
theorem unlocked_verify_sample :
    ¬∃ report, verifyChain (runActions id takesAll racingActions
      (System.init [] plainLogs)).2.stored (plainLog.keyMaterial none) none none = .ok report ∧
        report.ok = true := by
  have hstart : Accepted (plainLog.keyMaterial none) [] := ⟨trivial, fun r hr => by cases hr⟩
  have hiff := unlocked_verify_iff referenceRuntime_signaturesVerify id plainLogs hstart
    (fun w r hr => ⟨hr.keyFor none, Or.inr rfl⟩) racingActions
  rw [hiff]
  decide +kernel

end Unlocked

end AuditChain
