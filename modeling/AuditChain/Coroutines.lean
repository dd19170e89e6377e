/-
AuditChain/Coroutines.lean

Calls in flight on one log.

Coroutines of one event loop share the log, its lock object and their thread,
and the lock lets its thread in again.  So the lock does not keep them apart: a
second call may read the tail before the first has written, and then both
records get the same number.  As long as every call takes the lock only when no
other call holds it, the records form one chain, each call ends once, with its
own records or because they cannot be sealed, and no call is ever stuck.

    answered_step       what one action does to the books of calls and ends
    exists_finish       a call in flight can be finished
    coroutines_chain    what holds in runs without a second entry
-/
import AuditChain.Writers

namespace AuditChain

open Python HashChain Machine Exclusion

variable {P : Runtime} {ω τ : Type}

/-! ### What a loop does -/

/-- The calls are made and go on; nothing is interrupted. -/
def Action.Plain : Action ω τ → Prop
  | .call .. | .advance _ => True
  | _ => False

/-- The storage takes records with new numbers: it does not refuse at all, or it refuses
numbers that are there. -/
def TakesNew (refuses : List AuditRecord → List AuditRecord → Option PyError) : Prop :=
  ∀ stored rs, ((stored ++ rs).map AuditRecord.seq).Nodup → refuses stored rs = none

/-- The calls that an action makes: a call on a task that is busy is none. -/
def Action.accepted (owner : τ → ω) (a : Action ω τ) (s : System P ω τ) : List (τ × Request) :=
  match a with
  | .call t c =>
    match s.alive (owner t), s.phase t with
    | true, .idle => [(t, c)]
    | _, _ => []
  | _ => []

/-- The task of an outcome. -/
def Outcome.task : Outcome τ → τ
  | .returned t _ | .raised t _ => t

/-- What a call came to. -/
def Outcome.result : Outcome τ → Except PyError (List AuditRecord)
  | .returned _ rs => .ok rs
  | .raised _ e => .error e

/-- What the call's own records come to, sealed behind what was stored at some point. -/
def Request.SealsTo (log : AuditLog P) (start stored : List AuditRecord) (c : Request)
    (q : Except PyError (List AuditRecord)) : Prop :=
  ∃ front, start <+: front ∧ front <+: stored ∧ c.seal (log.withTail front.getLast? true) = q

/-- The calls that a task in this phase still has to end: at most one. -/
def Phase.Carries (log : AuditLog P) (start stored : List AuditRecord) :
    Phase → List Request → Prop
  | .idle, cs => cs = []
  | .opening c, cs | .loaded c _, cs | .waiting c, cs | .refreshing c, cs | .refreshed c _, cs =>
    cs = [c]
  | .writing rs, cs | .written rs, cs => ∃ c, cs = [c] ∧ c.SealsTo log start stored (.ok rs)

/-- The books of one task: its calls, but for the one in flight, have ended in their order,
each as its own records seal. -/
def Answered (log : AuditLog P) (start stored : List AuditRecord) (calls : List Request)
    (ends : List (Except PyError (List AuditRecord))) (p : Phase) : Prop :=
  ∃ done inFlight, calls = done ++ inFlight ∧
    List.Forall₂ (Request.SealsTo log start stored) done ends ∧ p.Carries log start stored inFlight

/-! ### Keeping the books -/

section

variable {log : AuditLog P} {start stored : List AuditRecord} {calls : List Request}
  {ends : List (Except PyError (List AuditRecord))} {p p' : Phase} {c : Request}
  {q : Except PyError (List AuditRecord)}

theorem Request.SealsTo.mono {stored' : List AuditRecord} (h : c.SealsTo log start stored q)
    (hgrows : stored <+: stored') : c.SealsTo log start stored' q := by
  obtain ⟨front, hstart, hfront, hseal⟩ := h
  exact ⟨front, hstart, hfront.trans hgrows, hseal⟩

theorem Answered.mono {stored' : List AuditRecord} (h : Answered log start stored calls ends p)
    (hgrows : stored <+: stored') : Answered log start stored' calls ends p := by
  obtain ⟨done, inFlight, hcalls, hends, hcarries⟩ := h
  refine ⟨done, inFlight, hcalls, hends.imp fun _ _ hq => hq.mono hgrows, ?_⟩
  cases p with
  | writing rs | written rs =>
    obtain ⟨c, hc, hseals⟩ := hcarries
    exact ⟨c, hc, hseals.mono hgrows⟩
  | _ => exact hcarries

theorem Answered.move (h : Answered log start stored calls ends p)
    (hcarries : ∀ cs, p.Carries log start stored cs → p'.Carries log start stored cs) :
    Answered log start stored calls ends p' := by
  obtain ⟨done, inFlight, hcalls, hends, hc⟩ := h
  exact ⟨done, inFlight, hcalls, hends, hcarries _ hc⟩

theorem Answered.call (h : Answered log start stored calls ends .idle)
    (hcarries : p.Carries log start stored [c]) :
    Answered log start stored (calls ++ [c]) ends p := by
  obtain ⟨done, inFlight, hcalls, hends, rfl⟩ := h
  exact ⟨done, [c], by rw [hcalls, List.append_nil], hends, hcarries⟩

theorem Answered.finish (h : Answered log start stored calls ends p)
    (hcarries : ∀ cs, p.Carries log start stored cs →
      ∃ c, cs = [c] ∧ c.SealsTo log start stored q) :
    Answered log start stored calls (ends ++ [q]) .idle := by
  obtain ⟨done, inFlight, hcalls, hends, hc⟩ := h
  obtain ⟨c, rfl, hq⟩ := hcarries _ hc
  exact ⟨done ++ [c], [], by rw [hcalls, List.append_nil],
    List.rel_append hends (List.Forall₂.cons hq List.Forall₂.nil), rfl⟩

end

section

variable [DecidableEq ω] [DecidableEq τ] {owner : τ → ω}
  {refuses : List AuditRecord → List AuditRecord → Option PyError} {log : ω → SharedLog P}
  {start : List AuditRecord} {os : List (Outcome τ)} {s : System P ω τ} {t : τ}

omit [DecidableEq τ] in
/-- What was sealed onto the tail is not refused. -/
theorem Inv.takes (h : Inv owner log start os s) (hstart : ChainedRecords start)
    (htakes : TakesNew refuses) (hin : s.inside owner t) {rs : List AuditRecord}
    (hphase : s.phase t = .writing rs) : refuses s.stored rs = none := by
  have hok := h.phases t hin
  rw [hphase] at hok
  exact htakes _ _ (nodup_seq (hok.1.chained (h.chained hstart)))

/-- What a step of a call leaves alone. -/
structure Frame (t : τ) (s : System P ω τ) (os : List (Outcome τ)) (s' : System P ω τ) : Prop where
  alive : s'.alive = s.alive
  grows : s.stored <+: s'.stored
  others : ∀ t', t' ≠ t → s'.phase t' = s.phase t'
  outcomes : ∀ o ∈ os, o.task = t

omit [DecidableEq ω] in
theorem frame_goto {s s₁ : System P ω τ} {os : List (Outcome τ)} (p : Phase)
    (halive : s₁.alive = s.alive) (hgrows : s.stored <+: s₁.stored) (hphase : s₁.phase = s.phase)
    (hos : ∀ o ∈ os, o.task = t) : Frame t s os (s₁.goto t p) where
  alive := halive
  grows := hgrows
  others t' hne := by rw [phase_goto_of_ne hne, hphase]
  outcomes := hos

omit [DecidableEq ω] [DecidableEq τ] in
theorem Frame.refl (s : System P ω τ) : Frame t s [] s :=
  ⟨rfl, List.prefix_rfl, fun _ _ => rfl, by simp⟩

variable (owner refuses) in
theorem frame_advance (s : System P ω τ) (t : τ) :
    Frame t s (s.advance owner t refuses).1 (s.advance owner t refuses).2 := by
  cases hphase : s.phase t with
  | idle =>
    simp only [System.advance, hphase]
    exact Frame.refl s
  | opening c | loaded c last | refreshing c =>
    simp only [System.advance, hphase]
    exact frame_goto _ rfl List.prefix_rfl rfl (by simp)
  | waiting c =>
    simp only [System.advance, hphase, System.enter]
    split
    · exact Frame.refl s
    · exact frame_goto _ rfl List.prefix_rfl rfl (by simp)
  | refreshed c last =>
    simp only [System.advance, hphase, System.build]
    split <;> exact frame_goto _ rfl List.prefix_rfl rfl (by simp [Outcome.task])
  | writing rs =>
    simp only [System.advance, hphase]
    split
    · exact frame_goto _ rfl List.prefix_rfl rfl (by simp [Outcome.task])
    · exact frame_goto _ rfl (List.prefix_append _ _) rfl (by simp)
  | written rs =>
    simp only [System.advance, hphase]
    exact frame_goto _ rfl List.prefix_rfl rfl (by simp [Outcome.task])

/-- The calls made on a task. -/
def callsOf (t : τ) (cs : List (τ × Request)) : List Request :=
  (cs.filter (·.1 = t)).map Prod.snd

/-- What the calls on a task came to. -/
def endsOf (t : τ) (os : List (Outcome τ)) : List (Except PyError (List AuditRecord)) :=
  (os.filter (·.task = t)).map Outcome.result

theorem callsOf_append (cs cs' : List (τ × Request)) :
    callsOf t (cs ++ cs') = callsOf t cs ++ callsOf t cs' := by
  simp [callsOf]

theorem callsOf_self (c : Request) : callsOf t [(t, c)] = [c] := by simp [callsOf]

theorem callsOf_of_ne {t' : τ} (hne : t' ≠ t) (c : Request) : callsOf t' [(t, c)] = [] := by
  simp [callsOf, hne.symm]

theorem endsOf_append (os os' : List (Outcome τ)) :
    endsOf t (os ++ os') = endsOf t os ++ endsOf t os' := by
  simp [endsOf]

theorem endsOf_nil : endsOf t ([] : List (Outcome τ)) = [] := rfl

theorem endsOf_returned (rs : List AuditRecord) : endsOf t [.returned t rs] = [.ok rs] := by
  simp [endsOf, Outcome.task, Outcome.result]

theorem endsOf_raised (e : PyError) : endsOf t [.raised t e] = [.error e] := by
  simp [endsOf, Outcome.task, Outcome.result]

variable (refuses) in
/-- A call that goes on ends, if it ends, with what its records seal to. -/
theorem Inv.answered_advance (h : Inv owner log start os s) (hstart : ChainedRecords start)
    (htakes : TakesNew refuses) (halive : s.alive (owner t) = true) {calls : List Request}
    (hans : Answered (log (owner t)).val start s.stored calls (endsOf t os) (s.phase t)) :
    Answered (log (owner t)).val start (s.advance owner t refuses).2.stored calls
      (endsOf t (os ++ (s.advance owner t refuses).1))
      ((s.advance owner t refuses).2.phase t) := by
  rw [endsOf_append]
  cases hphase : s.phase t with
  | idle =>
    rw [hphase] at hans
    simp only [System.advance, hphase, endsOf_nil, List.append_nil]
    exact hans
  | opening c | loaded c last | refreshing c =>
    rw [hphase] at hans
    simp only [System.advance, hphase, phase_goto_self, endsOf_nil, List.append_nil]
    exact hans.move fun _ hc => hc
  | waiting c =>
    rw [hphase] at hans
    simp only [System.advance, hphase, System.enter, endsOf_nil, List.append_nil]
    split
    · rw [hphase]
      exact hans
    · rw [phase_goto_self]
      exact hans.move fun _ hc => hc
  | refreshed c last =>
    rw [hphase] at hans
    have hin := inside_of_phase halive hphase rfl
    have hseals : c.SealsTo (log (owner t)).val start s.stored
        (c.seal ((s.setTail owner t last).log (owner t)).val) := by
      have hlast : last = s.stored.getLast? := by
        have hok := h.phases t hin
        rwa [hphase] at hok
      obtain ⟨bs, hbs, -⟩ := h.batches
      obtain ⟨last', inited', hkeys⟩ := h.keys (owner t)
      refine ⟨s.stored, ⟨_, hbs.stored.symm⟩, List.prefix_rfl, ?_⟩
      show _ = c.seal (Function.update s.log (owner t) _ (owner t)).val
      rw [Function.update_self, ← hlast]
      show _ = c.seal ((s.log (owner t)).val.withTail last true)
      rw [hkeys, withTail_withTail]
    simp only [System.advance, hphase, System.build]
    split
    · rename_i e hseal
      rw [phase_goto_self, endsOf_raised]
      exact hans.finish fun cs hc => ⟨c, hc, hseal ▸ hseals⟩
    · rename_i hseal
      rw [phase_goto_self, endsOf_returned]
      exact hans.finish fun cs hc => ⟨c, hc, hseal ▸ hseals⟩
    · rename_i r rs hseal
      rw [phase_goto_self, endsOf_nil, List.append_nil]
      exact hans.move fun cs hc => ⟨c, hc, hseal ▸ hseals⟩
  | writing rs =>
    have hnone := h.takes hstart htakes (inside_of_phase halive hphase rfl) hphase
    have hmono := hans.mono (List.prefix_append s.stored rs)
    rw [hphase] at hmono
    simp only [System.advance, hphase, hnone, phase_goto_self, endsOf_nil, List.append_nil]
    exact hmono.move fun _ hc => hc
  | written rs =>
    rw [hphase] at hans
    simp only [System.advance, hphase, phase_goto_self, endsOf_returned]
    exact hans.finish fun cs hc => hc

variable (owner refuses) in
/-- A call is taken by a task that is idle, or it is none. -/
theorem call_cases (s : System P ω τ) (t : τ) (c : Request) :
    (s.phase t = .idle ∧ (Action.call t c).accepted owner s = [(t, c)] ∧
      ∃ p, (Action.call t c).step owner refuses s = ([], s.goto t p) ∧
        ∀ (log : AuditLog P) (start stored : List AuditRecord), p.Carries log start stored [c]) ∨
    ((Action.call t c).accepted owner s = [] ∧
      (Action.call t c).step owner refuses s = ([], s)) := by
  simp only [Action.accepted, Action.step]
  cases halive : s.alive (owner t) with
  | false => exact Or.inr ⟨rfl, rfl⟩
  | true =>
    cases hphase : s.phase t with
    | idle =>
      refine Or.inl ⟨rfl, rfl, _, rfl, fun log start stored => ?_⟩
      split <;> rfl
    | _ => exact Or.inr ⟨rfl, rfl⟩

variable (refuses) in
/-- **What a plain action does to the books.** -/
theorem Inv.answered_step (h : Inv owner log start os s) (hstart : ChainedRecords start)
    (htakes : TakesNew refuses) {a : Action ω τ} (ha : a.Plain) {cs : List (τ × Request)}
    (hans : ∀ t, Answered (log (owner t)).val start s.stored (callsOf t cs) (endsOf t os)
      (s.phase t)) :
    (a.step owner refuses s).2.alive = s.alive ∧ ∀ t,
      Answered (log (owner t)).val start (a.step owner refuses s).2.stored
        (callsOf t (cs ++ a.accepted owner s)) (endsOf t (os ++ (a.step owner refuses s).1))
        ((a.step owner refuses s).2.phase t) := by
  cases a with
  | call t c =>
    rcases call_cases owner refuses s t c with ⟨hphase, hcall, p, hstep, hcarries⟩ | ⟨hcall, hstep⟩
    · rw [hcall, hstep]
      refine ⟨rfl, fun t' => ?_⟩
      rw [List.append_nil, callsOf_append]
      by_cases hne : t' = t
      · subst hne
        have hidle := hans t'
        rw [hphase] at hidle
        rw [phase_goto_self, callsOf_self]
        exact hidle.call (hcarries _ _ _)
      · rw [phase_goto_of_ne hne, callsOf_of_ne hne, List.append_nil]
        exact hans t'
    · rw [hcall, hstep, List.append_nil]
      exact ⟨rfl, fun t' => by rw [List.append_nil]; exact hans t'⟩
  | advance t =>
    have hnone : (Action.advance t : Action ω τ).accepted owner s = [] := rfl
    rw [hnone, List.append_nil]
    simp only [Action.step]
    split
    · rename_i halive
      have hframe := frame_advance owner refuses s t
      refine ⟨hframe.alive, fun t' => ?_⟩
      by_cases hne : t' = t
      · subst hne
        exact h.answered_advance refuses hstart htakes halive (hans t')
      · have hnone : endsOf t' (s.advance owner t refuses).1 = [] := by
          rw [endsOf, List.filter_eq_nil_iff.mpr, List.map_nil]
          intro o ho
          simpa [hframe.outcomes o ho] using Ne.symm hne
        rw [endsOf_append, hnone, List.append_nil, hframe.others t' hne]
        exact (hans t').mono hframe.grows
    · rw [List.append_nil]
      exact ⟨rfl, hans⟩
  | fail t e => exact absurd ha id
  | crash w => exact absurd ha id

/-! ### Finishing a call -/

/-- How many steps a call has to go. -/
def Phase.rank : Phase → ℕ
  | .idle => 0
  | .written _ => 1
  | .writing _ => 2
  | .refreshed .. => 3
  | .refreshing _ => 4
  | .waiting _ => 5
  | .loaded .. => 6
  | .opening _ => 7

/-- No other call is inside. -/
def System.Quiet (owner : τ → ω) (s : System P ω τ) (t : τ) : Prop :=
  ∀ t', s.inside owner t' → t' = t

omit [DecidableEq τ] in
/-- If nobody is inside, the lock is free. -/
theorem Inv.lock_free (h : Inv owner log start os s) (hout : ∀ t, ¬s.inside owner t) :
    s.lock.holder = none ∧ ∀ w, s.lock.depth w = 0 := by
  have hnone : s.lock.holder = none := by
    cases hholder : s.lock.holder with
    | none => rfl
    | some w =>
      obtain ⟨t, hin, -⟩ := h.excludes.occupied w hholder
      exact absurd hin (hout t)
  exact ⟨hnone, fun w => by rw [h.excludes.depth, hnone]; rfl⟩

/-- One step of a call: it gets closer to its end, and no other call moves. -/
structure Closer (t : τ) (s s' : System P ω τ) : Prop where
  rank : (s'.phase t).rank < (s.phase t).rank
  others : ∀ t', t' ≠ t → s'.phase t' = s.phase t'
  alive : s'.alive = s.alive

omit [DecidableEq ω] in
theorem closer_goto {s s₁ : System P ω τ} {p : Phase} (hphase : s₁.phase = s.phase)
    (halive : s₁.alive = s.alive) (hp : p.rank < (s.phase t).rank) : Closer t s (s₁.goto t p) where
  rank := by rwa [phase_goto_self]
  others t' hne := by rw [phase_goto_of_ne hne, hphase]
  alive := halive

variable (refuses) in
/-- A call that no other is in the way of goes one step further. -/
theorem Inv.closer_advance (h : Inv owner log start os s) (hquiet : s.Quiet owner t)
    (hbusy : s.phase t ≠ .idle) :
    Closer t s (s.advance owner t refuses).2 := by
  cases hphase : s.phase t with
  | idle => exact absurd hphase hbusy
  | opening c | loaded c last | refreshing c | written rs =>
    simp only [System.advance, hphase]
    exact closer_goto rfl rfl (by rw [hphase]; simp [Phase.rank])
  | waiting c =>
    obtain ⟨hnone, hdepth⟩ := h.lock_free fun t' hin =>
      outside_of_phase hphase rfl (hquiet t' hin ▸ hin)
    have hacquire : s.lock.acquire (owner t)
        = some ⟨some (owner t), Function.update s.lock.depth (owner t) 1⟩ := by
      rw [Lock.acquire, if_neg (by simpa using hdepth _), if_pos hnone]
    simp only [System.advance, hphase, System.enter, hacquire]
    exact closer_goto rfl rfl (by rw [hphase]; simp [Phase.rank])
  | refreshed c last =>
    simp only [System.advance, hphase, System.build]
    split <;> exact closer_goto rfl rfl (by rw [hphase]; simp [Phase.rank])
  | writing rs =>
    simp only [System.advance, hphase]
    split <;> exact closer_goto rfl rfl (by rw [hphase]; simp [Phase.rank])

variable (refuses) in
/-- **A call in flight can be finished**, if no other is inside. -/
theorem Inv.exists_finish (h : Inv owner log start os s) (halive : ∀ w, s.alive w = true)
    (hquiet : s.Quiet owner t) : ∃ n,
      StepsOk (Action.step owner refuses) (Action.EntersFree owner)
        (List.replicate n (.advance t)) s ∧
      let r := runActions owner refuses (List.replicate n (.advance t)) s
      r.2.phase t = .idle ∧ (∀ t', t' ≠ t → r.2.phase t' = s.phase t') ∧ r.2.alive = s.alive := by
  induction hrank : (s.phase t).rank using Nat.strong_induction_on generalizing os s with
  | _ n ih =>
  by_cases hidle : s.phase t = .idle
  · exact ⟨0, trivial, hidle, fun _ _ => rfl, rfl⟩
  have hcloser := h.closer_advance refuses hquiet hidle
  have hstep : (Action.advance t : Action ω τ).step owner refuses s
      = s.advance owner t refuses := by
    simp only [Action.step, halive, if_true]
  have hfree : (Action.advance t : Action ω τ).EntersFree owner s := fun hwaiting =>
    (h.lock_free fun t' hin => outside_of_waiting hwaiting (hquiet t' hin ▸ hin)).2 _
  have hnext := h.step refuses (.advance t) hfree
  rw [hstep] at hnext
  have hquiet' : (s.advance owner t refuses).2.Quiet owner t := by
    rintro t' ⟨ha, hlocked⟩
    by_contra hne
    rw [hcloser.others t' hne] at hlocked
    exact hne (hquiet t' ⟨halive _, hlocked⟩)
  obtain ⟨n', hsteps, hdone, hothers, halive'⟩ := ih _ (hrank ▸ hcloser.rank) hnext
    (fun w => by rw [hcloser.alive]; exact halive w) hquiet' rfl
  refine ⟨n' + 1, ?_, ?_⟩
  · rw [List.replicate_succ]
    exact ⟨hfree, by rw [hstep]; exact hsteps⟩
  · rw [List.replicate_succ]
    simp only [runActions, run_cons, hstep]
    exact ⟨hdone, fun t' hne => (hothers t' hne).trans (hcloser.others t' hne),
      halive'.trans hcloser.alive⟩

/-- **No call is stuck.** -/
theorem Inv.can_finish (h : Inv owner log start os s) (halive : ∀ w, s.alive w = true) (t : τ) :
    ∃ more : List (Action ω τ), (∀ a ∈ more, a.Plain) ∧
      StepsOk (Action.step owner refuses) (Action.EntersFree owner) more s ∧
        (runActions owner refuses more s).2.phase t = .idle := by
  have hplain : ∀ n (t : τ), ∀ a ∈ List.replicate n (Action.advance t : Action ω τ), a.Plain := by
    intro n t a ha
    rw [List.eq_of_mem_replicate ha]
    trivial
  by_cases hinside : ∃ t', s.inside owner t'
  · -- first the call that is inside, then this one
    obtain ⟨t', hin⟩ := hinside
    have hquiet : s.Quiet owner t' := fun t'' hin' => h.excludes.unique t'' t' hin' hin
    obtain ⟨n, hsteps, hdone, hothers, halive'⟩ := h.exists_finish refuses halive hquiet
    have hrun := run_preserves (Action.EntersFree owner) (Inv owner log start)
      (fun a _ _ ha hinv => hinv.step refuses a ha) _ _ _ hsteps h
    have hquiet' :
        (runActions owner refuses (List.replicate n (.advance t')) s).2.Quiet owner t := by
      rintro t'' ⟨-, hlocked⟩
      exfalso
      by_cases hne : t'' = t'
      · rw [hne, hdone] at hlocked
        cases hlocked
      · rw [hothers t'' hne] at hlocked
        exact hne (hquiet t'' ⟨halive _, hlocked⟩)
    obtain ⟨n', hsteps', hdone', -⟩ := hrun.exists_finish refuses
      (fun w => by rw [halive']; exact halive w) hquiet'
    refine ⟨_, ?_, hsteps.append hsteps', ?_⟩
    · intro a ha
      rcases List.mem_append.mp ha with ha | ha
      · exact hplain n t' a ha
      · exact hplain n' t a ha
    · rw [runActions, run_append]
      exact hdone'
  · obtain ⟨n, hsteps, hdone, -⟩ := h.exists_finish refuses halive
      fun t' hin => absurd ⟨t', hin⟩ hinside
    exact ⟨_, hplain n t, hsteps, hdone⟩

/-! ### One log -/

omit [DecidableEq τ] in
/-- What the calls on a log wrote passes under its keys. -/
theorem Inv.accepted (hP : P.SignaturesVerify) {log : SharedLog P} {owner : τ → Unit}
    {s : System P Unit τ} (h : Inv owner (fun _ => log) start os s)
    (hstart : Accepted (log.val.keyMaterial none) start) :
    Accepted (log.val.keyMaterial none) s.stored := by
  refine ⟨h.chained hstart.chained, fun r hr => ?_⟩
  obtain ⟨bs, hbs, -⟩ := h.batches
  rw [hbs.stored] at hr
  rcases List.mem_append.mp hr with hr | hr
  · exact hstart.records r hr
  · obtain ⟨b, hb, hr⟩ := List.mem_flatten.mp hr
    obtain ⟨-, hwritten⟩ := hbs.written b hb
    exact (hwritten r hr).recordOk hP

/-- **Calls in flight on one log.**  If none of them takes the lock while another holds
it, there is one chain, it passes verification, the calls of each task have ended in their
order with what their own records seal to, but for the one in flight, and that one can be
finished. -/
theorem coroutines_chain (hP : P.SignaturesVerify)
    (refuses : List AuditRecord → List AuditRecord → Option PyError) (htakes : TakesNew refuses)
    (log : SharedLog P) (start : List AuditRecord)
    (hstart : Accepted (log.val.keyMaterial none) start) (actions : List (Action Unit τ))
    (hplain : ∀ a ∈ actions, a.Plain)
    (hfree : StepsOk (Action.step (fun _ => ()) refuses) (Action.EntersFree fun _ => ()) actions
      (System.start start fun _ => log)) :
    let r := runActions (fun _ => ()) refuses actions (System.start start fun _ => log)
    let calls := observed (Action.step (fun _ => ()) refuses) (Action.accepted fun _ => ())
      actions (System.start start fun _ => log)
    OneChain (fun _ : Unit => log) start r.2.stored (returned r.1) ∧
      (∃ report, verifyChain r.2.stored (log.val.keyMaterial none) none none = .ok report ∧
        report.ok = true) ∧
      (∀ t, Answered log.val start r.2.stored (callsOf t calls) (endsOf t r.1) (r.2.phase t)) ∧
      ∀ t, ∃ more : List (Action Unit τ), (∀ a ∈ more, a.Plain) ∧
        StepsOk (Action.step (fun _ => ()) refuses) (Action.EntersFree fun _ => ()) more r.2 ∧
          (runActions (fun _ => ()) refuses more r.2).2.phase t = .idle := by
  intro r calls
  have hrun := observed_preserves (Action.accepted fun _ : τ => ())
    (fun a s => a.Plain ∧ a.EntersFree (fun _ : τ => ()) s)
    (fun cs os s => Inv (fun _ : τ => ()) (fun _ => log) start os s ∧
      (∀ w, s.alive w = true) ∧
        ∀ t, Answered log.val start s.stored (callsOf t cs) (endsOf t os) (s.phase t))
    ?_ actions (System.start start fun _ => log) [] []
    (hfree.and hplain) ⟨inv_start _ _ _, fun _ => rfl, fun _ => ⟨[], [], rfl, .nil, rfl⟩⟩
  · obtain ⟨hinv, halive, hans⟩ := hrun
    exact ⟨hinv.oneChain hstart.chained, verifyChain_plain_iff.mpr (hinv.accepted hP hstart),
      hans, fun t => hinv.can_finish halive t⟩
  · rintro a s cs os ⟨ha, hfree⟩ ⟨hinv, halive, hans⟩
    obtain ⟨halive', hans'⟩ := hinv.answered_step refuses hstart.chained htakes ha hans
    exact ⟨hinv.step refuses a hfree, fun w => by rw [halive', halive], hans'⟩

end

/-- Two calls that wait for the lock one after the other. -/
def serialActions : List (Action Unit Bool) :=
  [.call true sampleRequest, .call false sampleRequest] ++
    [true, true, false, false].map .advance ++
    List.replicate 5 (.advance true) ++ List.replicate 5 (.advance false)

theorem coroutines_chain_sample :
    let r := runActions (fun _ => ()) (fun _ _ => none) serialActions
      (System.start [] fun _ => lockedLog)
    r.2.stored.length = 2 ∧ ∃ report,
      verifyChain r.2.stored (lockedLog.val.keyMaterial none) none none = .ok report ∧
        report.ok = true := by
  obtain ⟨-, hreport, -⟩ := coroutines_chain referenceRuntime_signaturesVerify (fun _ _ => none)
    (fun _ _ _ => rfl) lockedLog [] ⟨trivial, by simp⟩ serialActions
    (by simp [serialActions, Action.Plain]) (by decide +kernel)
  exact ⟨by decide +kernel, hreport⟩

/-- Two calls of which the second takes the lock while the first waits for the storage. -/
def nestedActions : List (Action Unit Bool) :=
  [.call true sampleRequest] ++ List.replicate 3 (.advance true) ++
    [.call false sampleRequest, .advance false] ++
    [true, false, true, true, true, false, false, false].map .advance

/-- Both records get the number 0. -/
theorem coroutines_counterexample :
    ¬∀ (P : Runtime) (refuses : List AuditRecord → List AuditRecord → Option PyError)
      (log : SharedLog P) (actions : List (Action Unit Bool)), P.SignaturesVerify →
        TakesNew refuses → (∀ a ∈ actions, a.Plain) →
          let r := runActions (fun _ => ()) refuses actions (System.start [] fun _ => log)
          ∀ i (hi : i < r.2.stored.length), r.2.stored[i].seq = i := by
  intro hclaim
  have hseqs : (runActions (fun _ => ()) (fun _ _ => none) nestedActions
      (System.start [] fun _ => lockedLog)).2.stored.map AuditRecord.seq = [0, 0] := by
    decide +kernel
  exact not_numbered hseqs (hclaim referenceRuntime (fun _ _ => none) lockedLog nestedActions
    referenceRuntime_signaturesVerify (fun _ _ _ => rfl) (by simp [nestedActions, Action.Plain]))

end AuditChain
