/-
AuditChain/Writers.lean

Writers that share a storage through a lock.

A writer is an `AuditLog` with its own lock object, a task is a call of
`append` or `append_many` on some writer's log that may be in flight.  One
action lets one task do its next step, from one point at which it can be
interrupted to the next: the unlocked load of `init`, taking the lock, reading
the tail, building and sealing, the backend write, and giving the lock back.
The storage may refuse, the wait for the lock may time out, and a writer may
crash, at any of these points.

The lock belongs to a writer, not to a task.  As long as no task takes a lock
that its own writer already holds, the records form one chain:

    Inv.step            what one action preserves
    writers_chain       after any actions there is one chain, made of the batches
    processes_chain     one task for each writer: always
    run_alone           a call that has the lock to itself is the call on the log
-/
import AuditChain.Exclusion
import AuditChain.Rotation

namespace AuditChain

open Python HashChain Machine Exclusion

/-! ### The code -/

/-- A call that writes. -/
inductive Request
  | append (actor action subject : PyStr) (metadata : Option PyDict) (timestamp : Option PyStr)
      (now : PyStr)
  | appendMany (entries : List BatchEntry) (clock : ℕ → PyStr)

/-- Where a call is. -/
inductive Phase
  | idle
  /-- In `init`, before the storage was read. -/
  | opening (c : Request)
  /-- In `init`, with the last record that was read. -/
  | loaded (c : Request) (last : Option AuditRecord)
  /-- Before the lock. -/
  | waiting (c : Request)
  /-- In `_refresh_tail`, before the storage was read. -/
  | refreshing (c : Request)
  /-- With the tail to build on. -/
  | refreshed (c : Request) (last : Option AuditRecord)
  /-- Sealed, before the write. -/
  | writing (rs : List AuditRecord)
  /-- Written, with the lock still held. -/
  | written (rs : List AuditRecord)

/-- Is the call inside `with self._lock`? -/
def Phase.locked : Phase → Bool
  | .refreshing _ | .refreshed .. | .writing _ | .written _ => true
  | _ => false

/-- Is the call before the lock? -/
def Phase.isWaiting : Phase → Bool
  | .waiting _ => true
  | _ => false

/-- How a call ended. -/
inductive Outcome (τ : Type)
  | returned (t : τ) (rs : List AuditRecord)
  | raised (t : τ) (e : PyError)

/-- What can happen next. -/
inductive Action (ω τ : Type)
  | call (t : τ) (c : Request)
  | advance (t : τ)
  /-- The operation the call waits for raises. -/
  | fail (t : τ) (e : PyError)
  /-- The process of the writer dies. -/
  | crash (w : ω)

variable (P : Runtime) (ω τ : Type)

/-- A log that was given a lock, so that others may write to its storage. -/
abbrev SharedLog := { log : AuditLog P // log.shared = true }

/-- The storage, the lock, the logs and the calls. -/
structure System where
  stored : List AuditRecord
  lock : Lock ω
  log : ω → SharedLog P
  alive : ω → Bool
  phase : τ → Phase

variable {P ω τ}

/-- `self._last = last`. -/
def SharedLog.setTail (log : SharedLog P) (last : Option AuditRecord) : SharedLog P :=
  ⟨log.val.withTail last true, log.property⟩

/-- Build and seal the records of a call, on the cached tail. -/
def Request.seal (c : Request) (log : AuditLog P) : Except PyError (List AuditRecord) :=
  match c with
  | .append actor action subject metadata timestamp now => do
    let r ← log.seal
      (log.buildRecord actor action subject (metadata.getD []) timestamp now log.last)
    return [r]
  | .appendMany entries clock => log.sealMany entries clock log.last

namespace System

variable [DecidableEq ω] [DecidableEq τ] (owner : τ → ω) (s : System P ω τ) (t : τ)

/-- Go on to another phase. -/
def goto (p : Phase) : System P ω τ := { s with phase := Function.update s.phase t p }

/-- `self._last = last`, of the log that the call is on. -/
def setTail (last : Option AuditRecord) : System P ω τ :=
  { s with log := Function.update s.log (owner t) ((s.log (owner t)).setTail last) }

/-- Leave `with self._lock`. -/
def unlock : System P ω τ := { s with lock := s.lock.release (owner t) }

/-- Take the lock and go on, or wait. -/
def enter (c : Request) : System P ω τ :=
  match s.lock.acquire (owner t) with
  | none => s
  | some l => { s with lock := l }.goto t (.refreshing c)

/-- Build and seal on the cached tail; an empty batch is not written. -/
def build (c : Request) : List (Outcome τ) × System P ω τ :=
  match c.seal (s.log (owner t)).val with
  | .error e => ([.raised t e], (s.unlock owner t).goto t .idle)
  | .ok [] => ([.returned t []], (s.unlock owner t).goto t .idle)
  | .ok (r :: rs) => ([], s.goto t (.writing (r :: rs)))

/-- The next step of a call.  `refuses` is the storage's own check of what it is given. -/
def advance (refuses : List AuditRecord → List AuditRecord → Option PyError) :
    List (Outcome τ) × System P ω τ :=
  match s.phase t with
  | .idle => ([], s)
  | .opening c => ([], s.goto t (.loaded c s.stored.getLast?))
  | .loaded c last => ([], (s.setTail owner t last).goto t (.waiting c))
  | .waiting c => ([], s.enter owner t c)
  | .refreshing c => ([], s.goto t (.refreshed c s.stored.getLast?))
  | .refreshed c last => (s.setTail owner t last).build owner t c
  | .writing rs =>
    match refuses s.stored rs with
    | some e => ([.raised t e], (s.unlock owner t).goto t .idle)
    | none => ([], { s with stored := s.stored ++ rs }.goto t (.written rs))
  | .written rs =>
    ([.returned t rs], ((s.setTail owner t rs.getLast?).unlock owner t).goto t .idle)

/-- What a call waits for raises: `init`, the lock, `load_last` or the write. -/
def interrupt (e : PyError) : List (Outcome τ) × System P ω τ :=
  match s.phase t with
  | .opening _ | .waiting _ => ([.raised t e], s.goto t .idle)
  | .refreshing _ | .writing _ => ([.raised t e], (s.unlock owner t).goto t .idle)
  | _ => ([], s)

end System

section

variable [DecidableEq ω] [DecidableEq τ] (owner : τ → ω)
  (refuses : List AuditRecord → List AuditRecord → Option PyError)

/-- One action.  What a dead writer would do does not happen. -/
def Action.step (a : Action ω τ) (s : System P ω τ) : List (Outcome τ) × System P ω τ :=
  match a with
  | .call t c =>
    match s.alive (owner t), s.phase t with
    | true, .idle =>
      ([], s.goto t (if (s.log (owner t)).val.inited then .waiting c else .opening c))
    | _, _ => ([], s)
  | .advance t => if s.alive (owner t) then s.advance owner t refuses else ([], s)
  | .fail t e => if s.alive (owner t) then s.interrupt owner t e else ([], s)
  | .crash w =>
    ([], { s with alive := Function.update s.alive w false, lock := s.lock.drop w })

/-- Nothing has been called yet. -/
def System.start (stored : List AuditRecord) (log : ω → SharedLog P) : System P ω τ where
  stored := stored
  lock := .free
  log := log
  alive _ := true
  phase _ := .idle

end

/-! ### The invariant -/

/-- The records of the calls that returned, call by call. -/
def returned : List (Outcome τ) → List (List AuditRecord)
  | [] => []
  | .returned _ rs :: os => rs :: returned os
  | .raised .. :: os => returned os

/-- The task is inside `with self._lock`, and its process is alive. -/
def System.inside (owner : τ → ω) (s : System P ω τ) (t : τ) : Prop :=
  s.alive (owner t) = true ∧ (s.phase t).locked = true

/-- What a locked phase knows about the storage. -/
def Phase.Ok (log : AuditLog P) (stored : List AuditRecord) : Phase → Prop
  | .refreshed _ last => last = stored.getLast?
  | .writing rs => Follows stored.getLast? rs ∧ ∀ r ∈ rs, WrittenBy log r
  | _ => True

/-- The storage holds what there was at the start and the batches that were written, and
every batch that was returned is one of them, in this order. -/
structure Batches (log : ω → SharedLog P) (start stored : List AuditRecord)
    (returned : List (List AuditRecord)) (batches : List (List AuditRecord)) : Prop where
  stored : stored = start ++ batches.flatten
  written : ∀ rs ∈ batches, ∃ w, ∀ r ∈ rs, WrittenBy (log w).val r
  returned : returned.Sublist batches

/-- After the outcomes `os`, for logs that were `log` and records that were `start`. -/
structure Inv [DecidableEq ω] (owner : τ → ω) (log : ω → SharedLog P) (start : List AuditRecord)
    (os : List (Outcome τ)) (s : System P ω τ) : Prop where
  excludes : Excludes owner (s.inside owner) s.lock
  keys : ∀ w, SameKeys (log w).val (s.log w).val
  chained : ChainedRecords start → ChainedRecords s.stored
  phases : ∀ t, s.inside owner t → (s.phase t).Ok (log (owner t)).val s.stored
  batches : ∃ bs, Batches log start s.stored (returned os) bs ∧
    ∀ t rs, s.inside owner t → s.phase t = .written rs →
      Batches log start s.stored (returned os ++ [rs]) bs

/-! ### What sealing guarantees -/

theorem written_of_request {log : AuditLog P} {c : Request} {rs : List AuditRecord}
    (h : c.seal log = .ok rs) : (∀ r ∈ rs, WrittenBy log r) ∧ Follows log.last rs := by
  cases c with
  | append actor action subject metadata timestamp now =>
    obtain ⟨r, hseal, h⟩ := bind_eq_ok.mp h
    obtain rfl := Except.ok.inj h
    obtain ⟨hwritten, hfollows⟩ := written_of_seal hseal
    exact ⟨by simpa using hwritten, hfollows⟩
  | appendMany entries clock => exact written_of_sealMany h

/-! ### One step -/

theorem returned_append (os os' : List (Outcome τ)) :
    returned (os ++ os') = returned os ++ returned os' := by
  induction os with
  | nil => rfl
  | cons o os ih => cases o <;> simp [returned, ih]

theorem inside_goto_of_ne [DecidableEq τ] {owner : τ → ω} {s : System P ω τ} {t t' : τ}
    {p : Phase} (h : t' ≠ t) : (s.goto t p).inside owner t' ↔ s.inside owner t' := by
  simp only [System.inside, System.goto, Function.update_of_ne h]

theorem phase_goto_of_ne [DecidableEq τ] {s : System P ω τ} {t t' : τ} {p : Phase} (h : t' ≠ t) :
    (s.goto t p).phase t' = s.phase t' := Function.update_of_ne h _ _

theorem phase_goto_self [DecidableEq τ] (s : System P ω τ) (t : τ) (p : Phase) :
    (s.goto t p).phase t = p := Function.update_self _ _ _

theorem not_inside_goto [DecidableEq τ] {owner : τ → ω} {s : System P ω τ} {t : τ} {p : Phase}
    (hp : p.locked = false) : ¬(s.goto t p).inside owner t := by
  rintro ⟨-, hlocked⟩
  rw [phase_goto_self, hp] at hlocked
  cases hlocked

theorem inside_goto [DecidableEq τ] {owner : τ → ω} {s : System P ω τ} {t : τ} {p : Phase}
    (halive : s.alive (owner t) = true) (hp : p.locked = true) :
    (s.goto t p).inside owner t :=
  ⟨halive, by rw [phase_goto_self, hp]⟩

/-- Who is inside, after a step of a call that is and stays inside. -/
theorem inside_goto_iff [DecidableEq τ] {owner : τ → ω} {s : System P ω τ} {t : τ} {p : Phase}
    (hin : s.inside owner t) (hp : p.locked = true) (t' : τ) :
    (s.goto t p).inside owner t' ↔ s.inside owner t' := by
  by_cases hne : t' = t
  · rw [hne]
    exact ⟨fun _ => hin, fun _ => inside_goto hin.1 hp⟩
  · exact inside_goto_of_ne hne

namespace Inv

variable [DecidableEq ω] [DecidableEq τ] {owner : τ → ω} {log : ω → SharedLog P}
  {start : List AuditRecord} {os : List (Outcome τ)} {s : System P ω τ} {t : τ}

omit [DecidableEq τ] in
/-- The tail that a log remembers does not matter. -/
theorem setTail (h : Inv owner log start os s) (t : τ) (last : Option AuditRecord) :
    Inv owner log start os (s.setTail owner t last) := by
  refine ⟨h.excludes, fun w => ?_, h.chained, h.phases, h.batches⟩
  show SameKeys (log w).val (Function.update s.log (owner t) _ w).val
  by_cases hw : w = owner t
  · rw [hw, Function.update_self]
    obtain ⟨last', inited', hlog⟩ := h.keys (owner t)
    refine ⟨last, true, ?_⟩
    show (s.log (owner t)).val.withTail last true = _
    rw [hlog, withTail_withTail]
  · rw [Function.update_of_ne hw]
    exact h.keys w

/-- A call that is not inside goes on, and stays outside. -/
theorem outside (h : Inv owner log start os s) (hout : ¬s.inside owner t) {p : Phase}
    (hp : p.locked = false) : Inv owner log start os (s.goto t p) := by
  have hinside : ∀ t', (s.goto t p).inside owner t' → t' ≠ t ∧ s.inside owner t' := by
    intro t' ht'
    have hne : t' ≠ t := by
      rintro rfl
      exact not_inside_goto hp ht'
    exact ⟨hne, (inside_goto_of_ne hne).mp ht'⟩
  refine ⟨h.excludes.congr fun t' => ?_, h.keys, h.chained, fun t' ht' => ?_, ?_⟩
  · refine ⟨fun ht' => (hinside t' ht').2, fun ht' => ?_⟩
    have hne : t' ≠ t := by
      rintro rfl
      exact hout ht'
    exact (inside_goto_of_ne hne).mpr ht'
  · obtain ⟨hne, hin⟩ := hinside t' ht'
    rw [phase_goto_of_ne hne]
    exact h.phases t' hin
  · obtain ⟨bs, hbs, hwritten⟩ := h.batches
    refine ⟨bs, hbs, fun t' rs ht' hphase => ?_⟩
    obtain ⟨hne, hin⟩ := hinside t' ht'
    rw [phase_goto_of_ne hne] at hphase
    exact hwritten t' rs hin hphase

/-- A call takes the lock, which its writer does not hold. -/
theorem enter (h : Inv owner log start os s) (halive : s.alive (owner t) = true)
    (hfree : s.lock.depth (owner t) = 0) (c : Request) :
    Inv owner log start os (s.enter owner t c) := by
  unfold System.enter
  cases hacquire : s.lock.acquire (owner t) with
  | none => exact h
  | some l =>
    have hother : ∀ t', t' ≠ t → (({ s with lock := l } : System P ω τ).goto t
        (.refreshing c)).inside owner t' → s.inside owner t' :=
      fun t' hne ht' => (inside_goto_of_ne (s := { s with lock := l }) hne).mp ht'
    refine ⟨?_, h.keys, h.chained, fun t' ht' => ?_, ?_⟩
    · exact h.excludes.enter hfree hacquire (inside_goto halive rfl) fun t' hne =>
        inside_goto_of_ne (s := { s with lock := l }) hne
    · by_cases hne : t' = t
      · rw [hne, phase_goto_self]
        trivial
      · rw [phase_goto_of_ne hne]
        exact h.phases t' (hother t' hne ht')
    · obtain ⟨bs, hbs, hwritten⟩ := h.batches
      refine ⟨bs, hbs, fun t' rs ht' hphase => ?_⟩
      by_cases hne : t' = t
      · rw [hne, phase_goto_self] at hphase
        cases hphase
      · rw [phase_goto_of_ne hne] at hphase
        exact hwritten t' rs (hother t' hne ht') hphase

/-- The call inside goes on, and stays inside. -/
theorem inner (h : Inv owner log start os s) (hin : s.inside owner t) {p : Phase}
    (hp : p.locked = true) (hok : p.Ok (log (owner t)).val s.stored)
    (hpending : ∀ rs, p ≠ .written rs) : Inv owner log start os (s.goto t p) := by
  have hself := inside_goto_iff hin hp
  have honly : ∀ t', (s.goto t p).inside owner t' → t' = t := fun t' ht' =>
    h.excludes.unique t' t ((hself t').mp ht') hin
  refine ⟨h.excludes.congr hself, h.keys, h.chained, fun t' ht' => ?_, ?_⟩
  · rw [honly t' ht', phase_goto_self]
    exact hok
  · obtain ⟨bs, hbs, -⟩ := h.batches
    refine ⟨bs, hbs, fun t' rs ht' hphase => ?_⟩
    rw [honly t' ht', phase_goto_self] at hphase
    exact absurd hphase (hpending rs)

/-- The call inside leaves; what it returned is one of the batches. -/
theorem leave (h : Inv owner log start os s) (hin : s.inside owner t) {os' : List (Outcome τ)}
    (hbatches : ∃ bs, Batches log start s.stored (returned os') bs) :
    Inv owner log start os' ((s.unlock owner t).goto t .idle) := by
  have hother : ∀ t', t' ≠ t →
      (((s.unlock owner t).goto t .idle).inside owner t' ↔ s.inside owner t') :=
    fun t' hne => inside_goto_of_ne (s := s.unlock owner t) hne
  -- nobody is inside any more
  have hempty : ∀ t', ¬((s.unlock owner t).goto t .idle).inside owner t' := by
    intro t' ht'
    by_cases hne : t' = t
    · exact not_inside_goto rfl (hne ▸ ht')
    · exact hne (h.excludes.unique t' t ((hother t' hne).mp ht') hin)
  refine ⟨h.excludes.leave hin (hempty t) hother, h.keys, h.chained,
    fun t' ht' => absurd ht' (hempty t'), ?_⟩
  obtain ⟨bs, hbs⟩ := hbatches
  exact ⟨bs, hbs, fun t' rs ht' => absurd ht' (hempty t')⟩

/-- The storage takes the batch. -/
theorem write (h : Inv owner log start os s) (hin : s.inside owner t) {rs : List AuditRecord}
    (hphase : s.phase t = .writing rs) :
    Inv owner log start os (({ s with stored := s.stored ++ rs } : System P ω τ).goto t
      (.written rs)) := by
  have hself : ∀ t', (({ s with stored := s.stored ++ rs } : System P ω τ).goto t
      (.written rs)).inside owner t' ↔ s.inside owner t' :=
    inside_goto_iff (s := { s with stored := s.stored ++ rs }) hin rfl
  have honly : ∀ t', (({ s with stored := s.stored ++ rs } : System P ω τ).goto t
      (.written rs)).inside owner t' → t' = t := fun t' ht' =>
    h.excludes.unique t' t ((hself t').mp ht') hin
  have hsealed := h.phases t hin
  rw [hphase] at hsealed
  obtain ⟨hfollows, hwritten⟩ := hsealed
  obtain ⟨bs, hbs, -⟩ := h.batches
  have hnext : ∀ rss, rss.Sublist (bs ++ [rs]) →
      Batches log start (s.stored ++ rs) rss (bs ++ [rs]) := by
    intro rss hsub
    refine ⟨?_, fun b hb => ?_, hsub⟩
    · rw [hbs.stored, List.flatten_append, List.append_assoc]
      simp
    · rcases List.mem_append.mp hb with hb | hb
      · exact hbs.written b hb
      · rw [List.mem_singleton.mp hb]
        exact ⟨owner t, hwritten⟩
  refine ⟨h.excludes.congr hself, h.keys, fun hstart => hfollows.chained (h.chained hstart),
    fun t' ht' => ?_, bs ++ [rs], hnext _ (hbs.returned.trans (List.sublist_append_left _ _)),
    fun t' rs' ht' hphase' => ?_⟩
  · rw [honly t' ht', phase_goto_self]
    trivial
  · rw [honly t' ht', phase_goto_self] at hphase'
    obtain rfl : rs = rs' := Phase.written.inj hphase'
    exact hnext _ (hbs.returned.append (List.Sublist.refl _))

omit [DecidableEq τ] in
/-- A writer dies. -/
theorem crash (h : Inv owner log start os s) (w : ω) : Inv owner log start os
    { s with alive := Function.update s.alive w false, lock := s.lock.drop w } := by
  have hinside : ∀ t, System.inside owner ({ s with
      alive := Function.update s.alive w false, lock := s.lock.drop w } : System P ω τ) t
        ↔ s.inside owner t ∧ owner t ≠ w := by
    intro t
    show Function.update s.alive w false (owner t) = true ∧ _ ↔ _
    by_cases hw : owner t = w
    · rw [hw, Function.update_self]
      simp
    · rw [Function.update_of_ne hw]
      exact (and_iff_left hw).symm
  refine ⟨h.excludes.drop hinside, h.keys, h.chained,
    fun t ht => h.phases t ((hinside t).mp ht).1, ?_⟩
  obtain ⟨bs, hbs, hwritten⟩ := h.batches
  exact ⟨bs, hbs, fun t rs ht => hwritten t rs ((hinside t).mp ht).1⟩

end Inv

/-- The call does not take a lock that its own writer holds. -/
def Action.EntersFree (owner : τ → ω) (a : Action ω τ) (s : System P ω τ) : Prop :=
  match a with
  | .advance t => (s.phase t).isWaiting = true → s.lock.depth (owner t) = 0
  | _ => True

instance Action.EntersFree.instDecidable (owner : τ → ω) (a : Action ω τ) (s : System P ω τ) :
    Decidable (a.EntersFree owner s) := by
  unfold Action.EntersFree
  split <;> infer_instance

theorem outside_of_phase {owner : τ → ω} {s : System P ω τ} {t : τ} {p : Phase}
    (h : s.phase t = p) (hp : p.locked = false) : ¬s.inside owner t := by
  rintro ⟨-, hlocked⟩
  rw [h, hp] at hlocked
  cases hlocked

theorem outside_of_waiting {owner : τ → ω} {s : System P ω τ} {t : τ}
    (h : (s.phase t).isWaiting = true) : ¬s.inside owner t := by
  cases hphase : s.phase t with
  | waiting c => exact outside_of_phase hphase rfl
  | _ =>
    rw [hphase] at h
    cases h

theorem inside_of_phase {owner : τ → ω} {s : System P ω τ} {t : τ} {p : Phase}
    (halive : s.alive (owner t) = true) (h : s.phase t = p) (hp : p.locked = true) :
    s.inside owner t := ⟨halive, by rw [h, hp]⟩

section

variable [DecidableEq ω] [DecidableEq τ] {owner : τ → ω}
  {refuses : List AuditRecord → List AuditRecord → Option PyError} {log : ω → SharedLog P}
  {start : List AuditRecord} {os : List (Outcome τ)} {s : System P ω τ} {t : τ}

omit [DecidableEq ω] [DecidableEq τ] in
/-- An exception is no record. -/
theorem batches_raised {stored : List AuditRecord} {bs : List (List AuditRecord)} {e : PyError}
    (h : Batches log start stored (returned os) bs) :
    Batches log start stored (returned (os ++ [.raised t e])) bs := by
  rw [returned_append, returned, returned, List.append_nil]
  exact h

theorem Inv.raise (h : Inv owner log start os s) (hin : s.inside owner t) (e : PyError) :
    Inv owner log start (os ++ [.raised t e]) ((s.unlock owner t).goto t .idle) := by
  obtain ⟨bs, hbs, -⟩ := h.batches
  exact h.leave hin ⟨bs, batches_raised hbs⟩

theorem Inv.raiseOutside (h : Inv owner log start os s) (hout : ¬s.inside owner t)
    (e : PyError) : Inv owner log start (os ++ [.raised t e]) (s.goto t .idle) := by
  have hnext := h.outside hout (p := .idle) rfl
  obtain ⟨bs, hbs, hpending⟩ := hnext.batches
  refine ⟨hnext.excludes, hnext.keys, hnext.chained, hnext.phases, bs, batches_raised hbs, ?_⟩
  intro t' rs hin hphase
  have hrs := hpending t' rs hin hphase
  rw [returned_append, returned, returned, List.append_nil]
  exact hrs

/-- Building keeps the invariant, whether it succeeds or not. -/
theorem Inv.build (h : Inv owner log start os s) (hin : s.inside owner t)
    (hlast : (s.log (owner t)).val.last = s.stored.getLast?) (c : Request) :
    Inv owner log start (os ++ (s.build owner t c).1) (s.build owner t c).2 := by
  unfold System.build
  cases hseal : c.seal (s.log (owner t)).val with
  | error e => exact h.raise hin e
  | ok rs =>
    obtain ⟨hwritten, hfollows⟩ := written_of_request hseal
    cases rs with
    | nil =>
      obtain ⟨bs, hbs, -⟩ := h.batches
      refine h.leave hin ⟨bs ++ [[]], ?_⟩
      rw [returned_append, returned, returned]
      refine ⟨by rw [hbs.stored]; simp, fun b hb => ?_,
        hbs.returned.append (List.Sublist.refl _)⟩
      rcases List.mem_append.mp hb with hb | hb
      · exact hbs.written b hb
      · rw [List.mem_singleton.mp hb]
        exact ⟨owner t, by simp⟩
    | cons r rs =>
      rw [List.append_nil]
      refine h.inner hin rfl ⟨hlast ▸ hfollows, fun r' hr' => ?_⟩ (by simp)
      exact (h.keys (owner t)).writtenBy (hwritten r' hr')

/-- The next step of a call. -/
theorem Inv.advance (h : Inv owner log start os s) (halive : s.alive (owner t) = true)
    (hfree : (s.phase t).isWaiting = true → s.lock.depth (owner t) = 0) :
    Inv owner log start (os ++ (s.advance owner t refuses).1) (s.advance owner t refuses).2 := by
  cases hphase : s.phase t with
  | idle =>
    simp only [System.advance, hphase, List.append_nil]
    exact h
  | opening c =>
    simp only [System.advance, hphase, List.append_nil]
    exact h.outside (outside_of_phase hphase rfl) rfl
  | loaded c last =>
    simp only [System.advance, hphase, List.append_nil]
    exact (h.setTail t last).outside (outside_of_phase (s := s.setTail owner t last) hphase rfl) rfl
  | waiting c =>
    simp only [System.advance, hphase, List.append_nil]
    exact h.enter halive (hfree (by rw [hphase]; rfl)) c
  | refreshing c =>
    simp only [System.advance, hphase, List.append_nil]
    exact h.inner (inside_of_phase halive hphase rfl) rfl rfl (by simp)
  | refreshed c last =>
    simp only [System.advance, hphase]
    have hin := inside_of_phase halive hphase rfl
    have hlast : last = s.stored.getLast? := by
      have hok := h.phases t hin
      rwa [hphase] at hok
    refine (h.setTail t last).build hin ?_ c
    show (Function.update s.log (owner t) _ (owner t)).val.last = s.stored.getLast?
    rw [Function.update_self, ← hlast]
    rfl
  | writing rs =>
    have hin := inside_of_phase halive hphase rfl
    cases hrefuses : refuses s.stored rs with
    | some e =>
      simp only [System.advance, hphase, hrefuses]
      exact h.raise hin e
    | none =>
      simp only [System.advance, hphase, hrefuses, List.append_nil]
      exact h.write hin hphase
  | written rs =>
    simp only [System.advance, hphase]
    have hin := inside_of_phase halive hphase rfl
    obtain ⟨bs, -, hpending⟩ := h.batches
    have hrs := hpending t rs hin hphase
    refine (h.setTail t rs.getLast?).leave hin ⟨bs, ?_⟩
    rw [returned_append, returned, returned]
    exact hrs

variable (refuses) in
/-- **What one action preserves.** -/
theorem Inv.step (h : Inv owner log start os s) (a : Action ω τ) (hfree : a.EntersFree owner s) :
    Inv owner log start (os ++ (a.step owner refuses s).1) (a.step owner refuses s).2 := by
  cases a with
  | call t c =>
    simp only [Action.step]
    split
    · rename_i halive hphase
      rw [List.append_nil]
      refine h.outside (outside_of_phase hphase rfl) ?_
      split <;> rfl
    · rw [List.append_nil]
      exact h
  | advance t =>
    simp only [Action.step]
    split
    · rename_i halive
      exact h.advance halive hfree
    · rw [List.append_nil]
      exact h
  | fail t e =>
    simp only [Action.step]
    split
    · rename_i halive
      cases hphase : s.phase t <;> simp only [System.interrupt, hphase]
      case opening c => exact h.raiseOutside (outside_of_phase hphase rfl) e
      case waiting c => exact h.raiseOutside (outside_of_phase hphase rfl) e
      case refreshing c => exact h.raise (inside_of_phase halive hphase rfl) e
      case writing rs => exact h.raise (inside_of_phase halive hphase rfl) e
      all_goals
        rw [List.append_nil]
        exact h
    · rw [List.append_nil]
      exact h
  | crash w =>
    simp only [Action.step, List.append_nil]
    exact h.crash w

/-! ### Whole runs -/

omit [DecidableEq τ] in
theorem inv_start (owner : τ → ω) (log : ω → SharedLog P) (start : List AuditRecord) :
    Inv owner log start [] (System.start start log) := by
  have hout : ∀ t, ¬(System.start start log).inside owner t := by
    rintro t ⟨-, hlocked⟩
    cases hlocked
  exact ⟨Excludes.free hout, fun w => SameKeys.refl _, id, fun t ht => absurd ht (hout t),
    [], ⟨by simp [System.start], by simp, List.Sublist.refl _⟩, fun t rs ht => absurd ht (hout t)⟩

/-- The storage is one chain; behind what there was at the start every record is sealed
under the key of a writer; and what was returned is there, once and batch by batch. -/
structure OneChain (log : ω → SharedLog P) (start stored : List AuditRecord)
    (returned : List (List AuditRecord)) : Prop where
  seq : ∀ i (hi : i < stored.length), stored[i].seq = i
  first : ∀ hi : 0 < stored.length, stored[0].prevHash = GENESIS_HASH
  link : ∀ i (hi : i + 1 < stored.length), stored[i + 1].prevHash = stored[i].hash
  kept : ∃ new, stored = start ++ new ∧ returned.flatten.Sublist new ∧
    ∀ r ∈ new, ∃ w, WrittenBy (log w).val r ∧
      computeRecordHash P r (log w).val.sealKey = .ok r.hash
  once : stored.Nodup
  contiguous : ∀ rs ∈ returned, rs <:+: stored

omit [DecidableEq ω] [DecidableEq τ] in
/-- No number is twice in a chain. -/
theorem nodup_seq {rs : List AuditRecord} (h : ChainedRecords rs) :
    (rs.map AuditRecord.seq).Nodup := by
  rw [List.nodup_iff_injective_get]
  intro i j hij
  have hi := h.seq_getElem i (by simpa using i.isLt)
  have hj := h.seq_getElem j (by simpa using j.isLt)
  simp only [List.get_eq_getElem, List.getElem_map] at hij
  exact Fin.ext (by exact_mod_cast hi.symm.trans (hij.trans hj))

omit [DecidableEq τ] in
theorem Inv.oneChain (h : Inv owner log start os s) (hstart : ChainedRecords start) :
    OneChain log start s.stored (returned os) := by
  have hchained := h.chained hstart
  obtain ⟨bs, hbs, -⟩ := h.batches
  refine ⟨hchained.seq_getElem, hchained.prev_head, hchained.prev_getElem,
    ⟨bs.flatten, hbs.stored, hbs.returned.flatten, fun r hr => ?_⟩, (nodup_seq hchained).of_map _,
    fun rs hrs => ?_⟩
  · obtain ⟨b, hb, hr⟩ := List.mem_flatten.mp hr
    obtain ⟨w, hw⟩ := hbs.written b hb
    exact ⟨w, hw r hr, computeRecordHash_eq_ok.mpr (hw r hr).hashed⟩
  · rw [hbs.stored]
    exact (List.infix_of_mem_flatten (hbs.returned.subset hrs)).trans
      (List.suffix_append _ _).isInfix

/-- The actions of a run. -/
abbrev runActions (owner : τ → ω)
    (refuses : List AuditRecord → List AuditRecord → Option PyError) (actions : List (Action ω τ))
    (s : System P ω τ) : List (Outcome τ) × System P ω τ :=
  run (Action.step owner refuses) actions s

/-- **Writers that do not enter twice** build one chain. -/
theorem writers_chain (owner : τ → ω)
    (refuses : List AuditRecord → List AuditRecord → Option PyError) (log : ω → SharedLog P)
    (start : List AuditRecord) (actions : List (Action ω τ))
    (hfree : StepsOk (Action.step owner refuses) (Action.EntersFree owner) actions
      (System.start start log)) :
    Inv owner log start (runActions owner refuses actions (System.start start log)).1
      (runActions owner refuses actions (System.start start log)).2 := by
  have hrun := run_preserves (Action.EntersFree owner) (Inv owner log start)
    (fun a _ _ ha hinv => hinv.step refuses a ha) actions _ [] hfree (inv_start owner log start)
  rwa [List.nil_append] at hrun

/-- **Processes never fork a log.**  Each process has a log of its own and one call in
flight at a time. -/
theorem processes_chain (owner : τ → ω) (howner : Function.Injective owner)
    (refuses : List AuditRecord → List AuditRecord → Option PyError) (log : ω → SharedLog P)
    (start : List AuditRecord) (hstart : ChainedRecords start) (actions : List (Action ω τ)) :
    OneChain log start
      (runActions owner refuses actions (System.start start log)).2.stored
      (returned (runActions owner refuses actions (System.start start log)).1) := by
  -- a call that waits is the only one of its process, so its process holds no lock
  have hfree : StepsOk (Action.step owner refuses) (Action.EntersFree owner) actions
      (System.start start log) := by
    apply stepsOk_of_invariant (Action.EntersFree owner) (fun s => ∃ os, Inv owner log start os s)
    · rintro a s ⟨os, hinv⟩
      cases a with
      | advance t =>
        exact fun hwaiting => hinv.excludes.depth_eq_zero howner (outside_of_waiting hwaiting)
      | _ => trivial
    · rintro a s ha ⟨os, hinv⟩
      exact ⟨_, hinv.step refuses a ha⟩
    · exact ⟨[], inv_start owner log start⟩
  have hrun := writers_chain owner refuses log start actions hfree
  exact hrun.oneChain hstart

end

/-- `plainLog`, with a lock. -/
def lockedLog : SharedLog referenceRuntime := ⟨{ plainLog with shared := true }, rfl⟩

/-- `alice` logs in. -/
def sampleRequest : Request :=
  .append (lit "alice") (lit "login") [] none (some (lit "2024-01-01T00:00:00Z")) []

/-- Two processes open the log; one of them takes the lock and dies, with its record
written; the other one builds on that record. -/
theorem processes_chain_sample :
    let r := runActions id (fun _ _ => none)
      ([.call true sampleRequest, .call false sampleRequest] ++
        [true, false, true, false, true, false, true, true, true].map .advance ++
        [.crash true] ++ List.replicate 5 (.advance false))
      (System.start [] fun _ => lockedLog)
    r.2.stored.length = 2 ∧ OneChain (fun _ : Bool => lockedLog) [] r.2.stored (returned r.1) :=
  ⟨by decide +kernel, processes_chain id Function.injective_id _ _ [] trivial _⟩

/-! ### A call on its own -/

/-- The call on a log. -/
def Request.toCall : Request → Call P
  | .append actor action subject metadata timestamp now =>
    .append actor action subject metadata timestamp now
  | .appendMany entries clock => .appendMany entries clock

/-- The log `log` on a storage in memory, open, with this tail. -/
abbrev inMemoryAt (log : AuditLog P) (last : Option AuditRecord) (stored : List AuditRecord) :
    World P memoryBackend.toStorageBackend := ⟨log.withTail last true, stored⟩

theorem ensureInited_memory (log : AuditLog P) (stored : List AuditRecord) :
    ∃ last, World.ensureInited (⟨log, stored⟩ : World P memoryBackend.toStorageBackend)
      = (.ok (), inMemoryAt log last stored) := by
  by_cases hinited : log.inited = true
  · refine ⟨log.last, ?_⟩
    rw [World.ensureInited_of_inited hinited, inMemoryAt, ← hinited, withTail_self]
  · refine ⟨stored.getLast?, ?_⟩
    rw [World.ensureInited_of_not_inited hinited]
    rfl

theorem refreshTail_memory {log : AuditLog P} (hshared : log.shared = true)
    (last : Option AuditRecord) (stored : List AuditRecord) :
    World.refreshTail (inMemoryAt log last stored)
      = (.ok (), inMemoryAt log stored.getLast? stored) := by
  have hsh : (inMemoryAt log last stored).log.shared = true := hshared
  exact World.refreshTail_of_shared hsh rfl

theorem append_shared {log : AuditLog P} (hshared : log.shared = true)
    (stored : List AuditRecord) (actor action subject : PyStr) (metadata : Option PyDict)
    (timestamp : Option PyStr) (now : PyStr) :
    World.append actor action subject metadata timestamp now
        (⟨log, stored⟩ : World P memoryBackend.toStorageBackend) =
      match log.seal (log.buildRecord actor action subject (metadata.getD []) timestamp now
        stored.getLast?) with
      | .error e => (.error e, inMemoryAt log stored.getLast? stored)
      | .ok r => (.ok r, inMemoryAt log (some r) (stored ++ [r])) := by
  obtain ⟨last, hinit⟩ := ensureInited_memory log stored
  rw [World.append, Operation.bind_ok hinit, Operation.bind_ok (refreshTail_memory hshared _ _),
    Operation.bind_ok (Operation.get_apply _)]
  simp only [withTail_seal, withTail_buildRecord, withTail_last]
  cases log.seal (log.buildRecord actor action subject (metadata.getD []) timestamp now
    stored.getLast?) <;> rfl

theorem appendMany_shared {log : AuditLog P} (hshared : log.shared = true)
    (stored : List AuditRecord) (entries : List BatchEntry) (clock : ℕ → PyStr) :
    World.appendMany entries clock (⟨log, stored⟩ : World P memoryBackend.toStorageBackend) =
      match log.sealMany entries clock stored.getLast? with
      | .error e => (.error e, inMemoryAt log stored.getLast? stored)
      | .ok rs => (.ok rs, inMemoryAt log (rs.getLast?.or stored.getLast?) (stored ++ rs)) := by
  obtain ⟨last, hinit⟩ := ensureInited_memory log stored
  rw [World.appendMany, Operation.bind_ok hinit,
    Operation.bind_ok (refreshTail_memory hshared _ _), Operation.bind_ok (Operation.get_apply _)]
  simp only [withTail_sealMany, withTail_last]
  cases log.sealMany entries clock stored.getLast? with
  | error e => rfl
  | ok rs =>
    rw [Operation.bind_ok (Operation.ofExcept_apply _ _)]
    cases rs with
    | nil => exact congrArg (Prod.mk _) (by rw [List.append_nil]; rfl)
    | cons r rs =>
      have hstorage : World.storage (memoryBackend.appendMany (r :: rs))
          (inMemoryAt log stored.getLast? stored)
            = (.ok (), inMemoryAt log stored.getLast? (stored ++ r :: rs)) := by
        rw [World.storage_ok (memoryBackend.appendMany_ok (r :: rs) stored)]
        simp only [memoryBackend, memoryAppendMany_apply]
        rfl
      obtain ⟨x, hx⟩ : ∃ x, (r :: rs).getLast? = some x := ⟨_, List.getLast?_cons⟩
      rw [if_neg (by simp), Operation.bind_ok hstorage, World.modifyLog,
        Operation.bind_ok (Operation.modify_apply _ _), Operation.pure_apply]
      simp only [hx]
      rfl

/-- What a call on a shared log does when nothing else happens. -/
theorem exec_shared (c : Request) {log : AuditLog P} (hshared : log.shared = true)
    (stored : List AuditRecord) :
    (c.toCall : Call P).exec (⟨log, stored⟩ : World P memoryBackend.toStorageBackend) =
      match c.seal (log.withTail stored.getLast? true) with
      | .error e => (.error e, inMemoryAt log stored.getLast? stored)
      | .ok rs => (.ok rs, inMemoryAt log (rs.getLast?.or stored.getLast?) (stored ++ rs)) := by
  cases c with
  | append actor action subject metadata timestamp now =>
    have happend := append_shared hshared stored actor action subject metadata timestamp now
    simp only [Request.toCall, Call.exec, Request.seal, withTail_seal, withTail_buildRecord,
      withTail_last]
    cases hseal : log.seal (log.buildRecord actor action subject (metadata.getD []) timestamp now
        stored.getLast?) with
    | error e =>
      rw [hseal] at happend
      rw [Operation.bind_error happend]
      rfl
    | ok r =>
      rw [hseal] at happend
      rw [Operation.bind_ok happend]
      rfl
  | appendMany entries clock =>
    simp only [Request.toCall, Call.exec, Request.seal, withTail_sealMany, withTail_last]
    exact appendMany_shared hshared stored entries clock

section

variable [DecidableEq ω] [DecidableEq τ] {owner : τ → ω} {s : System P ω τ} {t : τ}

/-- A call that is over does nothing. -/
theorem run_idle {refuses : List AuditRecord → List AuditRecord → Option PyError}
    (hphase : s.phase t = .idle) (n : ℕ) :
    runActions owner refuses (List.replicate n (.advance t)) s = ([], s) := by
  induction n with
  | zero => rfl
  | succ n ih =>
    have hstep : (Action.advance t : Action ω τ).step owner refuses s = ([], s) := by
      simp only [Action.step, System.advance, hphase, ite_self]
    rw [runActions, List.replicate_succ, run_cons, hstep]
    exact ih

/-- The steps of a call under the lock, up to the point where it has built its records. -/
theorem run_locked (halive : s.alive (owner t) = true) (hfree : s.lock.depth (owner t) = 0)
    (hnone : s.lock.holder = none) {c : Request} (hphase : s.phase t = .waiting c)
    (refuses : List AuditRecord → List AuditRecord → Option PyError) :
    ∃ s' : System P ω τ,
      runActions owner refuses (List.replicate 3 (.advance t)) s = s'.build owner t c ∧
      s'.stored = s.stored ∧ s'.alive = s.alive ∧
        (s'.log (owner t)).val = (s.log (owner t)).val.withTail s.stored.getLast? true := by
  have hacquire : s.lock.acquire (owner t)
      = some ⟨some (owner t), Function.update s.lock.depth (owner t) 1⟩ := by
    rw [Lock.acquire, if_neg (by simpa using hfree), if_pos hnone]
  let s₁ : System P ω τ := ({ s with
    lock := ⟨some (owner t), Function.update s.lock.depth (owner t) 1⟩ } : System P ω τ).goto t
      (.refreshing c)
  let s₂ : System P ω τ := s₁.goto t (.refreshed c s.stored.getLast?)
  have hphase₁ : s₁.phase t = .refreshing c := phase_goto_self _ _ _
  have hphase₂ : s₂.phase t = .refreshed c s.stored.getLast? := phase_goto_self _ _ _
  have halive₁ : s₁.alive (owner t) = true := halive
  have halive₂ : s₂.alive (owner t) = true := halive
  have hstep₁ : (Action.advance t : Action ω τ).step owner refuses s = ([], s₁) := by
    simp only [Action.step, halive, System.advance, hphase, System.enter, hacquire, if_true, s₁]
  have hstep₂ : (Action.advance t : Action ω τ).step owner refuses s₁ = ([], s₂) := by
    simp only [Action.step, halive₁, System.advance, hphase₁, if_true]
    rfl
  have hstep₃ : (Action.advance t : Action ω τ).step owner refuses s₂
      = (s₂.setTail owner t s.stored.getLast?).build owner t c := by
    simp only [Action.step, halive₂, System.advance, hphase₂, if_true]
  refine ⟨s₂.setTail owner t s.stored.getLast?, ?_, rfl, rfl, ?_⟩
  · simp only [runActions, List.replicate_succ, List.replicate_zero, run_cons, run_nil, hstep₁,
      hstep₂, hstep₃, List.nil_append, List.append_nil]
  · show (Function.update s.log (owner t) _ (owner t)).val = _
    rw [Function.update_self]
    rfl

/-- The steps of a call from the write on. -/
theorem run_writing (halive : s.alive (owner t) = true) {rs : List AuditRecord}
    (hphase : s.phase t = .writing rs) :
    let r := runActions owner (fun _ _ => none) (List.replicate 2 (.advance t)) s
    r.1 = [.returned t rs] ∧ r.2.phase t = .idle ∧ r.2.stored = s.stored ++ rs ∧
      r.2.log (owner t) = (s.log (owner t)).setTail rs.getLast? := by
  let s₁ : System P ω τ := ({ s with stored := s.stored ++ rs } : System P ω τ).goto t (.written rs)
  have hphase₁ : s₁.phase t = .written rs := phase_goto_self _ _ _
  have halive₁ : s₁.alive (owner t) = true := halive
  have hstep : (Action.advance t : Action ω τ).step owner (fun _ _ => none) s = ([], s₁) := by
    simp only [Action.step, halive, System.advance, hphase, if_true, s₁]
  have hstep₁ : (Action.advance t : Action ω τ).step owner (fun _ _ => none) s₁
      = ([.returned t rs], ((s₁.setTail owner t rs.getLast?).unlock owner t).goto t .idle) := by
    simp only [Action.step, halive₁, System.advance, hphase₁, if_true]
  intro r
  have hr : r = ([.returned t rs],
      ((s₁.setTail owner t rs.getLast?).unlock owner t).goto t .idle) := by
    simp only [r, runActions, List.replicate_succ, List.replicate_zero, run_cons, run_nil, hstep,
      hstep₁, List.nil_append, List.append_nil]
  rw [hr]
  exact ⟨rfl, phase_goto_self _ _ _, rfl, Function.update_self _ _ _⟩

/-- **A call that is alone** with the lock does what it does on the log by itself. -/
theorem run_alone (halive : s.alive (owner t) = true) (hfree : s.lock.depth (owner t) = 0)
    (hnone : s.lock.holder = none) {c : Request} (hphase : s.phase t = .waiting c) :
    let r := runActions owner (fun _ _ => none) (List.replicate 5 (.advance t)) s
    let x := (c.toCall : Call P).exec
      (⟨(s.log (owner t)).val, s.stored⟩ : World P memoryBackend.toStorageBackend)
    r.2.phase t = .idle ∧ r.2.stored = x.2.store ∧ (r.2.log (owner t)).val = x.2.log ∧
      r.1 = [match x.1 with | .ok rs => .returned t rs | .error e => .raised t e] := by
  obtain ⟨s', hrun, hstored, halive', hlog⟩ :=
    run_locked halive hfree hnone hphase fun _ _ => none
  have hsplit : runActions owner (fun _ _ => none) (List.replicate 5 (.advance t)) s
      = ((s'.build owner t c).1
          ++ (runActions owner (fun _ _ => none) (List.replicate 2 (.advance t))
              (s'.build owner t c).2).1,
        (runActions owner (fun _ _ => none) (List.replicate 2 (.advance t))
          (s'.build owner t c).2).2) := by
    rw [← hrun]
    exact run_append (List.replicate 3 _) (List.replicate 2 _) s
  intro r x
  have hx : x = _ := exec_shared c (s.log (owner t)).property s.stored
  rw [← hlog] at hx
  simp only [r, hsplit, hx, System.build]
  cases hseal : c.seal (s'.log (owner t)).val with
  | error e =>
    rw [run_idle (phase_goto_self _ _ _)]
    exact ⟨phase_goto_self _ _ _, hstored, hlog, rfl⟩
  | ok rs =>
    cases rs with
    | nil =>
      rw [run_idle (phase_goto_self _ _ _)]
      exact ⟨phase_goto_self _ _ _, hstored.trans (List.append_nil _).symm, hlog, rfl⟩
    | cons r rs =>
      have hwrites : (s'.goto t (.writing (r :: rs))).alive (owner t) = true :=
        halive'.symm ▸ halive
      obtain ⟨hreturned, hidle, hwritten, htail⟩ := run_writing hwrites (phase_goto_self _ _ _)
      refine ⟨hidle, hwritten.trans (congrArg (· ++ r :: rs) hstored), ?_, hreturned⟩
      rw [htail]
      show (s'.log (owner t)).val.withTail (r :: rs).getLast? true
        = (s.log (owner t)).val.withTail ((r :: rs).getLast?.or s.stored.getLast?) true
      rw [hlog, withTail_withTail, List.getLast?_cons]
      rfl

end

end AuditChain
