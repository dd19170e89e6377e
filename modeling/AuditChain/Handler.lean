/-
AuditChain/Handler.lean

The logging handler, which writes from a background thread.

Any number of threads are inside `emit`, one worker takes entries from the queue
and appends them to the log, and one thread calls `close`.  One action lets one
of them do its next step, from one point at which the others can see it to the
next.  `emit` looks at `_closed` first and puts its entry into the queue last,
and `close` sets `_closed` only after the worker is gone; so an entry can get
into the queue behind the sentinel, and nobody ever takes it out.

    Inv.step              what one action preserves
    late_step             what gets behind the sentinel in one action
    delivers_iff          nothing is lost, if and only if nothing is put there
    world_run             the log is what appending the entries one by one makes it
-/
import AuditChain.Rotation
import AuditChain.TaskQueue

namespace AuditChain

open Python HashChain Machine

/-! ### The code -/

namespace AuditLogHandler

/-- What the emitting thread hands to the worker. -/
structure Entry where
  actor : PyStr
  action : PyStr
  subject : PyStr
  metadata : PyDict
  timestamp : PyStr

variable (θ ι : Type)

/-- An entry, and the `emit` it comes from: its thread and the log record. -/
structure Item where
  thread : θ
  record : ι
  entry : Entry

/-- Where the `emit` of a thread is. -/
inductive Emitting
  | returned
  /-- `_closed` was false. -/
  | checked (record : ι)
  /-- The entry is made, and not yet in the queue. -/
  | resolved (record : ι) (entry : Entry)

/-- Where the worker is. -/
inductive Worker
  | getting
  | writing (x : Item θ ι)
  /-- Before `task_done`. -/
  | finishing
  /-- It got the sentinel. -/
  | stopping
  | stopped

/-- Where `close` is. -/
inductive Closing
  | idle
  /-- In `flush`. -/
  | flushing
  | flushed
  /-- The sentinel is in the queue, and the worker is waited for. -/
  | joining
  | joined
  | returned
  deriving DecidableEq

/-- What can be seen of a handler. -/
inductive Event
  | emitted (t : θ) (record : ι)
  /-- `handleError` was given the log record. -/
  | reported (t : θ) (record : ι) (e : PyError)
  | queued (x : Item θ ι)
  /-- `AuditLog.append` was called with the entry. -/
  | appended (x : Item θ ι) (now : PyStr)
  /-- `handleError` was given a record that says that `append` raised. -/
  | failed (x : Item θ ι) (msg : PyStr) (e : PyError)

/-- What can happen next. -/
inductive Action
  | emit (t : θ) (record : ι)
  | advance (t : θ)
  | work (now : PyStr)
  | close

end AuditLogHandler

open AuditLogHandler in
/-- `AuditLogHandler`, with its threads and the log it writes to. -/
structure AuditLogHandler (P : Runtime) (B : StorageBackend) (θ ι : Type) where
  closed : Bool
  queue : TaskQueue (Option (Item θ ι))
  errorCount : ℕ
  lastError : Option PyError
  world : World P B
  emitting : θ → Emitting ι
  worker : Worker θ ι
  closing : Closing

namespace AuditLogHandler

variable {P : Runtime} {B : StorageBackend} {θ ι : Type}

/-- The log records an item stands for. -/
def Item.source (x : Item θ ι) : θ × ι := (x.thread, x.record)

/-- Has the thread of the worker ended? -/
def Worker.ended : Worker θ ι → Bool
  | .stopped => true
  | _ => false

/-- `RuntimeError("auditchain: the handler is closed")`. -/
def handlerClosed : PyError := ⟨.user (lit "RuntimeError"), lit "auditchain: the handler is closed"⟩

/-- The message of `_synthetic_record`. -/
def syntheticMessage (P : Runtime) (entry : Entry) : PyStr :=
  lit "auditchain: failed to append " ++ strRepr P.unicode entry.actor ++ lit "/" ++
    strRepr P.unicode entry.action

section

variable [DecidableEq θ] (h : AuditLogHandler P B θ ι)

/-- The `emit` of a thread goes on. -/
def goto (t : θ) (e : Emitting ι) : AuditLogHandler P B θ ι :=
  { h with emitting := Function.update h.emitting t e }

/-- `emit`, up to the check of `_closed`. -/
def emit (t : θ) (record : ι) : List (Event θ ι) × AuditLogHandler P B θ ι :=
  if h.closed then ([.emitted t record, .reported t record handlerClosed], h)
  else ([.emitted t record], h.goto t (.checked record))

/-- The rest of `emit`, step by step.  `resolve` is `_entry`. -/
def emitNext (resolve : ι → Except PyError Entry) (t : θ) :
    List (Event θ ι) × AuditLogHandler P B θ ι :=
  match h.emitting t with
  | .returned => ([], h)
  | .checked record =>
    match resolve record with
    | .error e => ([.reported t record e], h.goto t .returned)
    | .ok entry => ([], h.goto t (.resolved record entry))
  | .resolved record entry =>
    ([.queued ⟨t, record, entry⟩],
      { h with queue := h.queue.put (some ⟨t, record, entry⟩) }.goto t .returned)

omit [DecidableEq θ] in
/-- `_write`. -/
def write (x : Item θ ι) (now : PyStr) : List (Event θ ι) × AuditLogHandler P B θ ι :=
  match World.append x.entry.actor x.entry.action x.entry.subject (some x.entry.metadata)
      (some x.entry.timestamp) now h.world with
  | (.ok _, w) => ([.appended x now], { h with world := w })
  | (.error e, w) => ([.appended x now, .failed x (syntheticMessage P x.entry) e],
      { h with world := w, errorCount := h.errorCount + 1, lastError := some e })

omit [DecidableEq θ] in
/-- The worker, step by step. -/
def work (now : PyStr) : List (Event θ ι) × AuditLogHandler P B θ ι :=
  match h.worker with
  | .getting =>
    match h.queue.get with
    | none => ([], h)
    | some (none, q) => ([], { h with queue := q, worker := .stopping })
    | some (some x, q) => ([], { h with queue := q, worker := .writing x })
  | .writing x => ((h.write x now).1, { (h.write x now).2 with worker := .finishing })
  | .finishing => ([], { h with queue := h.queue.taskDone, worker := .getting })
  | .stopping => ([], { h with queue := h.queue.taskDone, worker := .stopped })
  | .stopped => ([], h)

omit [DecidableEq θ] in
/-- `close`, step by step. -/
def closeNext : AuditLogHandler P B θ ι :=
  match h.closing with
  | .idle => { h with closing := if h.closed then .returned else .flushing }
  -- `flush` asks `_closed` again and waits for the queue
  | .flushing => if h.closed || h.queue.unfinished == 0 then { h with closing := .flushed } else h
  | .flushed => { h with queue := h.queue.put none, closing := .joining }
  | .joining => if h.worker.ended then { h with closing := .joined } else h
  | .joined => { h with closed := true, closing := .returned }
  | .returned => h

/-- One action.  A thread calls `emit` again when it has returned. -/
def Action.step (resolve : ι → Except PyError Entry) (a : Action θ ι)
    (h : AuditLogHandler P B θ ι) : List (Event θ ι) × AuditLogHandler P B θ ι :=
  match a with
  | .emit t record =>
    match h.emitting t with
    | .returned => h.emit t record
    | _ => ([], h)
  | .advance t => h.emitNext resolve t
  | .work now => h.work now
  | .close => ([], h.closeNext)

/-- A run. -/
abbrev runHandler (resolve : ι → Except PyError Entry) (actions : List (Action θ ι))
    (h : AuditLogHandler P B θ ι) : List (Event θ ι) × AuditLogHandler P B θ ι :=
  run (Action.step resolve) actions h

end

/-- The handler when it is made. -/
def start (w : World P B) : AuditLogHandler P B θ ι where
  closed := false
  queue := .empty
  errorCount := 0
  lastError := none
  world := w
  emitting _ := .returned
  worker := .getting
  closing := .idle

/-! ### What is promised -/

/-- The calls of `emit`. -/
def emitted : List (Event θ ι) → List (θ × ι) := List.filterMap fun
  | .emitted t record => some (t, record)
  | _ => none

/-- The log records that `handleError` was given. -/
def reported : List (Event θ ι) → List (θ × ι) := List.filterMap fun
  | .reported t record _ => some (t, record)
  | _ => none

/-- The entries that were put into the queue. -/
def queued : List (Event θ ι) → List (Item θ ι) := List.filterMap fun
  | .queued x => some x
  | _ => none

/-- The entries that `append` was called with. -/
def appended : List (Event θ ι) → List (Item θ ι) := List.filterMap fun
  | .appended x _ => some x
  | _ => none

/-- **Nothing is lost and nothing is written twice**, in the order of the queue and of
each thread. -/
structure Delivered [DecidableEq θ] (os : List (Event θ ι)) : Prop where
  once : (emitted os).Perm ((appended os).map Item.source ++ reported os)
  inQueueOrder : appended os <+: queued os
  inThreadOrder : ∀ t, (((appended os).map Item.source).filter (·.1 = t)).Sublist
    ((emitted os).filter (·.1 = t))

/-- Has `close` put the sentinel into the queue? -/
def Closing.sentinelPut : Closing → Bool
  | .joining | .joined | .returned => true
  | _ => false

/-- Is the next step of `emit` to put its entry into the queue? -/
def Emitting.putting : Emitting ι → Bool
  | .resolved .. => true
  | _ => false

/-- The action does not put an entry into the queue after the sentinel. -/
def Action.PutsInTime (a : Action θ ι) (h : AuditLogHandler P B θ ι) : Prop :=
  match a with
  | .advance t => (h.emitting t).putting = true → h.closing.sentinelPut = false
  | _ => True

instance Action.PutsInTime.instDecidable (a : Action θ ι) (h : AuditLogHandler P B θ ι) :
    Decidable (a.PutsInTime h) :=
  match a with
  | .advance t => inferInstanceAs
      (Decidable ((h.emitting t).putting = true → h.closing.sentinelPut = false))
  | .emit .. | .work _ | .close => isTrue trivial

/-! ### The invariant -/

/-- What became of the calls of `emit` that got somewhere: queued or reported. -/
def settled : List (Event θ ι) → List (θ × ι) := List.filterMap fun
  | .queued x => some x.source
  | .reported t record _ => some (t, record)
  | _ => none

/-- The call of `append` for an item. -/
def Item.call (x : Item θ ι) (now : PyStr) : Call P :=
  .append x.entry.actor x.entry.action x.entry.subject (some x.entry.metadata)
    (some x.entry.timestamp) now

/-- The calls of `append`. -/
def appendCalls : List (Event θ ι) → List (Call P) := List.filterMap fun
  | .appended x now => some (x.call now)
  | _ => none

/-- The log record that the `emit` of a thread is about. -/
def Emitting.record (t : θ) : Emitting ι → List (θ × ι)
  | .returned => []
  | .checked record | .resolved record _ => [(t, record)]

/-- The item that the worker has taken and not yet written. -/
def Worker.taken : Worker θ ι → List (Item θ ι)
  | .writing x => [x]
  | _ => []

/-- How many tasks the worker has taken and not finished. -/
def Worker.unfinished : Worker θ ι → ℕ
  | .getting | .stopped => 0
  | _ => 1

/-- Is the worker still to meet the sentinel? -/
def Worker.running : Worker θ ι → Bool
  | .stopping | .stopped => false
  | _ => true

/-- What was queued and not yet written. -/
def pending (h : AuditLogHandler P B θ ι) : List (Item θ ι) :=
  h.worker.taken ++ h.queue.items.reduceOption

/-- What nobody will take out of the queue. -/
def late (h : AuditLogHandler P B θ ι) : List (Item θ ι) :=
  if h.worker.running then TaskQueue.behindStop h.queue.items else h.queue.items.reduceOption

/-- How queue, worker and `close` stand to each other: the sentinel is in the queue from
when `close` puts it to when the worker takes it. -/
structure Shape (closed : Bool) (q : TaskQueue (Option (Item θ ι))) (worker : Worker θ ι)
    (closing : Closing) : Prop where
  closed : closed = true ↔ closing = .returned
  stops : TaskQueue.stops q.items
    = if worker.running = true ∧ closing.sentinelPut = true then 1 else 0
  stopped : worker.running = false → closing.sentinelPut = true
  joined : closing = .joined ∨ closing = .returned → worker = .stopped
  unfinished : q.unfinished = q.items.length + worker.unfinished

/-- After the events `os`, with a log that was in the world `w`. -/
structure Inv [DecidableEq θ] (w : World P B) (os : List (Event θ ι))
    (h : AuditLogHandler P B θ ι) : Prop where
  threads : ∀ t, (emitted os).filter (·.1 = t)
    = (settled os).filter (·.1 = t) ++ (h.emitting t).record t
  queue : queued os = appended os ++ h.pending
  shape : Shape h.closed h.queue h.worker h.closing
  world : h.world = (runCalls (appendCalls os) w).2

theorem emitted_append (os os' : List (Event θ ι)) :
    emitted (os ++ os') = emitted os ++ emitted os' := List.filterMap_append

theorem settled_append (os os' : List (Event θ ι)) :
    settled (os ++ os') = settled os ++ settled os' := List.filterMap_append

theorem queued_append (os os' : List (Event θ ι)) :
    queued (os ++ os') = queued os ++ queued os' := List.filterMap_append

theorem appended_append (os os' : List (Event θ ι)) :
    appended (os ++ os') = appended os ++ appended os' := List.filterMap_append

theorem appendCalls_append (os os' : List (Event θ ι)) :
    (appendCalls (os ++ os') : List (Call P)) = appendCalls os ++ appendCalls os' :=
  List.filterMap_append

/-! ### Queue, worker and `close` -/

namespace Shape

variable {closed : Bool} {q q' : TaskQueue (Option (Item θ ι))} {worker worker' : Worker θ ι}
  {closing : Closing} {x : Item θ ι}

/-- An entry is put into the queue. -/
theorem put (hs : Shape closed q worker closing) (x : Item θ ι) :
    Shape closed (q.put (some x)) worker closing where
  closed := hs.closed
  stops := (TaskQueue.stops_append_some _ x).trans hs.stops
  stopped := hs.stopped
  joined := hs.joined
  unfinished := by
    show q.unfinished + 1 = (q.items ++ [some x]).length + worker.unfinished
    rw [hs.unfinished, List.length_append, List.length_singleton]
    omega

/-- The worker takes an entry. -/
theorem take (hs : Shape closed q .getting closing) (hget : q.get = some (some x, q')) :
    Shape closed q' (.writing x) closing := by
  obtain ⟨hitems, hunf⟩ := TaskQueue.get_eq_some hget
  refine ⟨hs.closed, ?_, nofun, fun hj => (nomatch hs.joined hj), ?_⟩
  · rw [← TaskQueue.stops_some_cons x, ← hitems]
    exact hs.stops
  · rw [hunf, hs.unfinished, hitems]
    rfl

/-- The worker takes the sentinel, which `close` has put, once. -/
theorem stop (hs : Shape closed q .getting closing) (hget : q.get = some (none, q')) :
    Shape closed q' .stopping closing := by
  obtain ⟨hitems, hunf⟩ := TaskQueue.get_eq_some hget
  have hstops := hs.stops
  rw [hitems, TaskQueue.stops_none_cons] at hstops
  split at hstops
  · rename_i hput
    refine ⟨hs.closed, ?_, fun _ => hput.2, fun hj => (nomatch hs.joined hj), ?_⟩
    · rw [if_neg (fun hrun => by cases hrun.1)]
      exact Nat.succ.inj hstops
    · rw [hunf, hs.unfinished, hitems]
      rfl
  · cases hstops

/-- The worker goes on with its task. -/
theorem goOn (hs : Shape closed q worker closing) (hrun : worker'.running = worker.running)
    (hunf : worker'.unfinished = worker.unfinished) (hend : worker ≠ .stopped) :
    Shape closed q worker' closing where
  closed := hs.closed
  stops := by rw [hrun]; exact hs.stops
  stopped := by rw [hrun]; exact hs.stopped
  joined hj := absurd (hs.joined hj) hend
  unfinished := by rw [hunf]; exact hs.unfinished

/-- The worker declares its task finished. -/
theorem finish (hs : Shape closed q worker closing) (hrun : worker'.running = worker.running)
    (hunf : worker.unfinished = worker'.unfinished + 1) (hend : worker ≠ .stopped) :
    Shape closed q.taskDone worker' closing where
  closed := hs.closed
  stops := by rw [hrun]; exact hs.stops
  stopped := by rw [hrun]; exact hs.stopped
  joined hj := absurd (hs.joined hj) hend
  unfinished := by
    show q.unfinished - 1 = q.items.length + worker'.unfinished
    rw [hs.unfinished, hunf]
    omega

/-- Without the sentinel in the queue the loop goes on. -/
theorem running (hs : Shape closed q worker closing) (hput : closing.sentinelPut = false) :
    worker.running = true ∧ TaskQueue.stops q.items = 0 := by
  refine ⟨?_, ?_⟩
  · cases hrun : worker.running with
    | true => rfl
    | false =>
      rw [hs.stopped hrun] at hput
      cases hput
  · rw [hs.stops, if_neg]
    rintro ⟨-, hput'⟩
    rw [hput'] at hput
    cases hput

/-- `close` goes on, and puts no sentinel. -/
theorem wait {closing' : Closing} (hs : Shape closed q worker closing)
    (hput : closing'.sentinelPut = closing.sentinelPut)
    (hret : closing ≠ .returned ∧ closing' ≠ .returned)
    (hjoin : closing' = .joined → worker = .stopped) : Shape closed q worker closing' where
  closed := hs.closed.trans ⟨fun h => absurd h hret.1, fun h => absurd h hret.2⟩
  stops := by rw [hput]; exact hs.stops
  stopped := by rw [hput]; exact hs.stopped
  joined hj := hj.elim hjoin fun h => absurd h hret.2
  unfinished := hs.unfinished

/-- `close` puts the sentinel. -/
theorem putSentinel (hs : Shape closed q worker .flushed) :
    Shape closed (q.put none) worker .joining := by
  obtain ⟨hrun, hzero⟩ := hs.running rfl
  refine ⟨hs.closed.trans ⟨nofun, nofun⟩, ?_, fun _ => rfl, nofun, ?_⟩
  · rw [if_pos ⟨hrun, rfl⟩]
    show TaskQueue.stops (q.items ++ [none]) = 1
    rw [TaskQueue.stops_append_none, hzero]
  · show q.unfinished + 1 = (q.items ++ [none]).length + worker.unfinished
    rw [hs.unfinished, List.length_append, List.length_singleton]
    omega

/-- `close` is over. -/
theorem close (hs : Shape closed q worker .joined) : Shape true q worker .returned where
  closed := ⟨fun _ => rfl, fun _ => rfl⟩
  stops := hs.stops
  stopped := hs.stopped
  joined _ := hs.joined (Or.inl rfl)
  unfinished := hs.unfinished

end Shape

/-! ### One step -/

theorem emitting_goto_self [DecidableEq θ] (h : AuditLogHandler P B θ ι) (t : θ) (e : Emitting ι) :
    (h.goto t e).emitting t = e := by
  show Function.update h.emitting t e t = e
  rw [Function.update_self]

theorem emitting_goto_of_ne [DecidableEq θ] (h : AuditLogHandler P B θ ι) {t t' : θ}
    (hne : t' ≠ t) (e : Emitting ι) : (h.goto t e).emitting t' = h.emitting t' := by
  show Function.update h.emitting t e t' = _
  rw [Function.update_of_ne hne]

section

variable [DecidableEq θ] {resolve : ι → Except PyError Entry} {w : World P B}
  {os os' : List (Event θ ι)} {h : AuditLogHandler P B θ ι} {t : θ}

/-- A thread goes on with its `emit`: what it was about is still pending or settled now. -/
theorem Inv.thread (hinv : Inv w os h) {emitting' : θ → Emitting ι}
    (hothers : ∀ t', t' ≠ t → emitting' t' = h.emitting t')
    (hself : (h.emitting t).record t ++ emitted os' = settled os' ++ (emitting' t).record t)
    (honly : ∀ c ∈ emitted os' ++ settled os', c.1 = t) (t' : θ) :
    (emitted (os ++ os')).filter (·.1 = t')
      = (settled (os ++ os')).filter (·.1 = t') ++ (emitting' t').record t' := by
  rw [emitted_append, settled_append, List.filter_append, List.filter_append, hinv.threads t']
  by_cases ht : t' = t
  · subst ht
    have hall : ∀ l : List (θ × ι), (∀ c ∈ l, c.1 = t') → l.filter (·.1 = t') = l :=
      fun l hl => List.filter_eq_self.mpr fun c hc => decide_eq_true (hl c hc)
    rw [hall _ fun c hc => honly c (List.mem_append_left _ hc),
      hall _ fun c hc => honly c (List.mem_append_right _ hc), List.append_assoc, hself,
      List.append_assoc]
  · have hnone : ∀ l : List (θ × ι), (∀ c ∈ l, c.1 = t) → l.filter (·.1 = t') = [] :=
      fun l hl => List.filter_eq_nil_iff.mpr fun c hc => by
        rw [hl c hc]
        simpa using fun heq => ht heq.symm
    rw [hnone _ fun c hc => honly c (List.mem_append_left _ hc),
      hnone _ fun c hc => honly c (List.mem_append_right _ hc), List.append_nil, List.append_nil,
      hothers t' ht]

/-- No thread does anything. -/
theorem Inv.noThread (hinv : Inv w os h) (hemitted : emitted os' = []) (hsettled : settled os' = [])
    (t : θ) : (emitted (os ++ os')).filter (·.1 = t)
      = (settled (os ++ os')).filter (·.1 = t) ++ (h.emitting t).record t := by
  rw [emitted_append, settled_append, hemitted, hsettled, List.append_nil, List.append_nil]
  exact hinv.threads t

/-- A thread goes on with its `emit`, and puts nothing into the queue. -/
theorem Inv.goto (hinv : Inv w os h) (e : Emitting ι) (hqueued : queued os' = [])
    (happended : appended os' = []) (hcalls : appendCalls (P := P) os' = [])
    (hself : (h.emitting t).record t ++ emitted os' = settled os' ++ e.record t)
    (honly : ∀ c ∈ emitted os' ++ settled os', c.1 = t) : Inv w (os ++ os') (h.goto t e) where
  threads := hinv.thread (t := t) (fun _ hne => emitting_goto_of_ne h hne e)
    (by rw [emitting_goto_self, hself]) honly
  queue := by
    rw [queued_append, appended_append, hqueued, happended, List.append_nil, List.append_nil]
    exact hinv.queue
  shape := hinv.shape
  world := by
    rw [appendCalls_append, hcalls, List.append_nil]
    exact hinv.world

theorem Inv.emit (hinv : Inv w os h) (hreturned : h.emitting t = .returned) (record : ι) :
    Inv w (os ++ (h.emit t record).1) (h.emit t record).2 := by
  unfold AuditLogHandler.emit
  split
  · have hsame : h.goto t .returned = h := by
      rw [AuditLogHandler.goto, ← hreturned, Function.update_eq_self]
    have hnext : Inv w (os ++ [.emitted t record, .reported t record handlerClosed])
        (h.goto t .returned) :=
      hinv.goto .returned rfl rfl rfl (by rw [hreturned]; rfl) (by simp [emitted, settled])
    rw [hsame] at hnext
    exact hnext
  · refine hinv.goto (.checked record) rfl rfl rfl ?_ ?_
    · rw [hreturned]
      rfl
    · simp [emitted, settled]

theorem Inv.emitNext (hinv : Inv w os h) (t : θ) :
    Inv w (os ++ (h.emitNext resolve t).1) (h.emitNext resolve t).2 := by
  cases hphase : h.emitting t with
  | returned =>
    simp only [AuditLogHandler.emitNext, hphase, List.append_nil]
    exact hinv
  | checked record =>
    simp only [AuditLogHandler.emitNext, hphase]
    split
    · refine hinv.goto .returned rfl rfl rfl ?_ ?_
      · rw [hphase]
        rfl
      · simp [emitted, settled]
    · refine hinv.goto _ rfl rfl rfl ?_ (by simp [emitted, settled])
      rw [hphase]
      rfl
  | resolved record entry =>
    simp only [AuditLogHandler.emitNext, hphase]
    refine ⟨hinv.thread (t := t) (fun _ hne => emitting_goto_of_ne _ hne _) ?_ ?_, ?_,
      hinv.shape.put _, ?_⟩
    · rw [hphase, emitting_goto_self]
      rfl
    · simp [emitted, settled, Item.source]
    · -- the entry is now in the queue
      rw [queued_append, appended_append, hinv.queue]
      show _ ++ _ ++ [_] = _ ++ [] ++ (_ ++ (h.queue.items ++ [some _]).reduceOption)
      rw [List.reduceOption_append, List.reduceOption_singleton, List.append_nil]
      simp only [pending, Option.toList_some, List.append_assoc]
      rfl
    · rw [appendCalls_append]
      show _ = (runCalls (_ ++ []) w).2
      rw [List.append_nil]
      exact hinv.world

omit [DecidableEq θ] in
/-- `_write` calls `append` once, and keeps an exception for itself. -/
theorem write_spec (h : AuditLogHandler P B θ ι) (x : Item θ ι) (now : PyStr) :
    ∃ failed errorCount lastError, (failed = [] ∨ ∃ msg e, failed = [Event.failed x msg e]) ∧
      h.write x now = (.appended x now :: failed,
        { h with
          world := ((x.call now).step h.world).2
          errorCount := errorCount
          lastError := lastError }) := by
  cases happend : World.append x.entry.actor x.entry.action x.entry.subject
      (some x.entry.metadata) (some x.entry.timestamp) now h.world with
  | mk res w' =>
  cases res with
  | ok r =>
    have hexec : (x.call now : Call P).exec h.world = (.ok [r], w') := by
      rw [Item.call, Call.exec, Operation.bind_ok happend, Operation.pure_apply]
    refine ⟨[], h.errorCount, h.lastError, Or.inl rfl, ?_⟩
    rw [Call.step, hexec]
    simp only [write, happend]
  | error e =>
    have hexec : (x.call now : Call P).exec h.world = (.error e, w') := by
      rw [Item.call, Call.exec, Operation.bind_error happend]
    refine ⟨_, h.errorCount + 1, some e, Or.inr ⟨syntheticMessage P x.entry, e, rfl⟩, ?_⟩
    rw [Call.step, hexec]
    simp only [write, happend]

/-- The worker goes on, and does not write. -/
theorem Inv.idleWork (hinv : Inv w os h) {q : TaskQueue (Option (Item θ ι))} {worker : Worker θ ι}
    (hpending : worker.taken ++ q.items.reduceOption = h.pending)
    (hshape : Shape h.closed q worker h.closing) :
    Inv w (os ++ []) { h with queue := q, worker := worker } where
  threads := by
    rw [List.append_nil]
    exact hinv.threads
  queue := by
    rw [List.append_nil, hinv.queue, ← hpending]
    rfl
  shape := hshape
  world := by
    rw [List.append_nil]
    exact hinv.world

theorem Inv.work (hinv : Inv w os h) (now : PyStr) :
    Inv w (os ++ (h.work now).1) (h.work now).2 := by
  have hshape := hinv.shape
  cases hworker : h.worker with
  | getting =>
    rw [hworker] at hshape
    simp only [AuditLogHandler.work, hworker]
    split
    · rw [List.append_nil]
      exact hinv
    · rename_i q hget
      refine hinv.idleWork ?_ (hshape.stop hget)
      rw [pending, hworker, (TaskQueue.get_eq_some hget).1]
      rfl
    · rename_i x q hget
      refine hinv.idleWork ?_ (hshape.take hget)
      rw [pending, hworker, (TaskQueue.get_eq_some hget).1]
      rfl
  | writing x =>
    rw [hworker] at hshape
    obtain ⟨failed, errorCount, lastError, hfailed, hwrite⟩ := h.write_spec x now
    simp only [AuditLogHandler.work, hworker, hwrite]
    -- `append` was called with the item, and with nothing else
    have hevents : emitted failed = [] ∧ settled failed = [] ∧ queued failed = [] ∧
        appended failed = [] ∧ appendCalls (P := P) failed = [] := by
      rcases hfailed with rfl | ⟨msg, e, rfl⟩ <;> exact ⟨rfl, rfl, rfl, rfl, rfl⟩
    obtain ⟨hemitted, hsettled, hqueued, happended, hcalls⟩ := hevents
    refine ⟨hinv.noThread hemitted hsettled, ?_, hshape.goOn rfl rfl nofun, ?_⟩
    · rw [queued_append, appended_append, hinv.queue, pending, hworker]
      show _ ++ ([x] ++ _) ++ queued failed = _ ++ (x :: appended failed) ++ ([] ++ _)
      rw [hqueued, happended]
      simp only [List.append_nil, List.nil_append, List.append_assoc]
    · rw [appendCalls_append]
      show _ = (run Call.step (_ ++ (x.call now :: appendCalls failed)) w).2
      rw [hcalls, run_append, ← hinv.world]
      rfl
  | finishing =>
    rw [hworker] at hshape
    simp only [AuditLogHandler.work, hworker]
    refine hinv.idleWork ?_ (hshape.finish rfl rfl nofun)
    rw [pending, hworker]
    rfl
  | stopping =>
    rw [hworker] at hshape
    simp only [AuditLogHandler.work, hworker]
    refine hinv.idleWork ?_ (hshape.finish rfl rfl nofun)
    rw [pending, hworker]
    rfl
  | stopped =>
    simp only [AuditLogHandler.work, hworker, List.append_nil]
    exact hinv

theorem Inv.closeNext (hinv : Inv w os h) : Inv w (os ++ []) h.closeNext := by
  have hshape := hinv.shape
  rw [List.append_nil]
  cases hclosing : h.closing with
  | idle =>
    rw [hclosing] at hshape
    have hopen : h.closed = false := by
      cases hclosed : h.closed with
      | false => rfl
      | true => cases hshape.closed.mp hclosed
    simp only [AuditLogHandler.closeNext, hclosing, hopen, Bool.false_eq_true, if_false]
    rw [hopen] at hshape
    exact ⟨hinv.threads, hinv.queue, hshape.wait rfl ⟨nofun, nofun⟩ nofun, hinv.world⟩
  | flushing =>
    rw [hclosing] at hshape
    simp only [AuditLogHandler.closeNext, hclosing]
    split
    · exact ⟨hinv.threads, hinv.queue, hshape.wait rfl ⟨nofun, nofun⟩ nofun, hinv.world⟩
    · exact hinv
  | flushed =>
    rw [hclosing] at hshape
    simp only [AuditLogHandler.closeNext, hclosing]
    refine ⟨hinv.threads, ?_, hshape.putSentinel, hinv.world⟩
    rw [hinv.queue, pending, pending]
    show _ = _ ++ (_ ++ (h.queue.items ++ [none]).reduceOption)
    rw [List.reduceOption_append, List.reduceOption_singleton, Option.toList_none, List.append_nil]
  | joining =>
    rw [hclosing] at hshape
    simp only [AuditLogHandler.closeNext, hclosing]
    split
    · rename_i hended
      refine ⟨hinv.threads, hinv.queue, hshape.wait rfl ⟨nofun, nofun⟩ fun _ => ?_, hinv.world⟩
      cases hworker : h.worker with
      | stopped => rfl
      | _ =>
        rw [hworker] at hended
        cases hended
    · exact hinv
  | joined =>
    rw [hclosing] at hshape
    simp only [AuditLogHandler.closeNext, hclosing]
    exact ⟨hinv.threads, hinv.queue, hshape.close, hinv.world⟩
  | returned =>
    simp only [AuditLogHandler.closeNext, hclosing]
    exact hinv

/-- **What one action preserves.** -/
theorem Inv.step (hinv : Inv w os h) (a : Action θ ι) :
    Inv w (os ++ (a.step resolve h).1) (a.step resolve h).2 := by
  cases a with
  | emit t record =>
    simp only [Action.step]
    split
    · rename_i hreturned
      exact hinv.emit hreturned record
    · rw [List.append_nil]
      exact hinv
  | advance t => exact hinv.emitNext t
  | work now => exact hinv.work now
  | close => exact hinv.closeNext

theorem inv_start (w : World P B) : Inv w [] (start w : AuditLogHandler P B θ ι) where
  threads _ := rfl
  queue := rfl
  shape := ⟨⟨nofun, nofun⟩, rfl, nofun, nofun, rfl⟩
  world := rfl

theorem inv_run (resolve : ι → Except PyError Entry) (actions : List (Action θ ι)) (w : World P B) :
    Inv w (runHandler resolve actions (start w)).1 (runHandler resolve actions (start w)).2 :=
  run_preserves (fun _ _ => True) (Inv w) (fun a _ _ _ hinv => hinv.step a) actions _ []
    (stepsOk_of_forall (fun _ _ _ => trivial) _) (inv_start w)

end

/-! ### What gets lost -/

section

variable [DecidableEq θ] {resolve : ι → Except PyError Entry} {w : World P B}
  {os : List (Event θ ι)} {h : AuditLogHandler P B θ ι}

omit [DecidableEq θ] in
/-- An entry that is put into the queue is lost if the sentinel was put before. -/
theorem late_put (hs : Shape h.closed h.queue h.worker h.closing) (x : Item θ ι) :
    ({ h with queue := h.queue.put (some x) } : AuditLogHandler P B θ ι).late = [] ↔
      h.late = [] ∧ h.closing.sentinelPut = false := by
  have hitems : (h.queue.put (some x)).items = h.queue.items ++ [some x] := rfl
  cases hput : h.closing.sentinelPut with
  | false =>
    obtain ⟨hrun, hzero⟩ := hs.running hput
    simp only [late, hrun, if_true, hitems, TaskQueue.behindStop_eq_nil hzero, true_and, iff_true]
    exact TaskQueue.behindStop_eq_nil (by rw [TaskQueue.stops_append_some, hzero])
  | true =>
    suffices hlost : ({ h with queue := h.queue.put (some x) } : AuditLogHandler P B θ ι).late
        = h.late ++ [x] by simp [hlost]
    cases hrun : h.worker.running with
    | true =>
      have hone : TaskQueue.stops h.queue.items ≠ 0 := by
        rw [hs.stops, if_pos ⟨hrun, hput⟩]
        exact Nat.one_ne_zero
      simp only [late, hrun, if_true, hitems]
      exact TaskQueue.behindStop_append_some hone x
    | false =>
      simp only [late, hrun, Bool.false_eq_true, if_false, hitems]
      rw [List.reduceOption_append, List.reduceOption_singleton, Option.toList_some]

omit [DecidableEq θ] in
theorem late_work (h : AuditLogHandler P B θ ι) (now : PyStr) : (h.work now).2.late = h.late := by
  cases hworker : h.worker with
  | getting =>
    simp only [work, hworker]
    split
    · rfl
    · rename_i q hget
      simp only [late, hworker, (TaskQueue.get_eq_some hget).1]
      rfl
    · rename_i x q hget
      simp only [late, hworker, (TaskQueue.get_eq_some hget).1]
      rfl
  | writing x =>
    obtain ⟨failed, errorCount, lastError, -, hwrite⟩ := h.write_spec x now
    simp only [work, hworker, hwrite, late]
    rfl
  | _ => simp only [work, hworker, late, Worker.running, TaskQueue.taskDone]

omit [DecidableEq θ] in
theorem late_closeNext (hs : Shape h.closed h.queue h.worker h.closing) :
    h.closeNext.late = h.late := by
  cases hclosing : h.closing with
  | flushed =>
    obtain ⟨hrun, hzero⟩ := hs.running (by rw [hclosing]; rfl)
    simp only [closeNext, hclosing, late, hrun, if_true, TaskQueue.behindStop_eq_nil hzero]
    exact TaskQueue.behindStop_append_none hzero
  | flushing | joining =>
    simp only [closeNext, hclosing]
    split <;> rfl
  | _ => simp only [closeNext, hclosing, late]

/-- **What gets lost in one action**: an entry that is put after the sentinel. -/
theorem late_step (hinv : Inv w os h) (a : Action θ ι) :
    (a.step resolve h).2.late = [] ↔ h.late = [] ∧ a.PutsInTime h := by
  cases a with
  | emit t record =>
    simp only [Action.step, Action.PutsInTime, and_true]
    split
    · unfold emit
      split <;> rfl
    · rfl
  | advance t =>
    cases hphase : h.emitting t with
    | returned =>
      simp [Action.step, emitNext, Action.PutsInTime, hphase, Emitting.putting]
    | checked record =>
      simp only [Action.step, emitNext, Action.PutsInTime, hphase, Emitting.putting,
        Bool.false_eq_true, false_implies, and_true]
      split <;> rfl
    | resolved record entry =>
      simp only [Action.step, emitNext, Action.PutsInTime, hphase, Emitting.putting, true_implies]
      exact late_put hinv.shape _
  | work now =>
    simp only [Action.step, late_work, Action.PutsInTime, and_true]
  | close =>
    simp only [Action.step, late_closeNext hinv.shape, Action.PutsInTime, and_true]

/-- Nothing is behind the sentinel, if nothing was put there. -/
theorem late_run (resolve : ι → Except PyError Entry) (actions : List (Action θ ι))
    (w : World P B) : (runHandler resolve actions (start w)).2.late = [] ↔
      StepsOk (Action.step resolve) Action.PutsInTime actions (start w) := by
  have hrun : (runHandler resolve actions (start w)).2.late = [] ↔
      (start w : AuditLogHandler P B θ ι).late = [] ∧
        StepsOk (Action.step resolve) Action.PutsInTime actions (start w) :=
    stepsOk_iff_run Action.PutsInTime (fun h => ∃ os, Inv w os h) (fun h => h.late = [])
      (fun a _ ⟨_, hinv⟩ => ⟨_, hinv.step a⟩) (fun a _ ⟨_, hinv⟩ => late_step hinv a) actions
      ⟨[], inv_start w⟩
  exact hrun.trans (and_iff_right rfl)

end

/-! ### What is promised, and when -/

/-- Lists that agree thread by thread agree up to the order. -/
theorem perm_of_threads [DecidableEq θ] {l l' : List (θ × ι)}
    (h : ∀ t, l.filter (·.1 = t) = l'.filter (·.1 = t)) : l.Perm l' := by
  classical
  refine List.perm_iff_count.mpr fun c => ?_
  have hcount : ∀ l : List (θ × ι), l.count c = (l.filter (·.1 = c.1)).count c :=
    fun l => (List.count_filter (by simp)).symm
  rw [hcount l, hcount l', h c.1]

/-- What is settled was queued or reported. -/
theorem settled_perm (os : List (Event θ ι)) :
    (settled os).Perm ((queued os).map Item.source ++ reported os) := by
  induction os with
  | nil => exact List.Perm.refl []
  | cons o os ih =>
    cases o with
    | queued x => exact ih.cons x.source
    | reported t record e => exact (ih.cons (t, record)).trans List.perm_middle.symm
    | _ => exact ih

/-- What was queued was settled in that order. -/
theorem queued_sublist (os : List (Event θ ι)) :
    ((queued os).map Item.source).Sublist (settled os) := by
  induction os with
  | nil => exact List.Sublist.refl []
  | cons o os ih =>
    cases o with
    | queued x => exact ih.cons_cons x.source
    | reported t record e => exact ih.cons (t, record)
    | _ => exact ih

section

variable [DecidableEq θ] {w : World P B} {os : List (Event θ ι)} {h : AuditLogHandler P B θ ι}

/-- When every `emit` has returned, everything was queued or reported. -/
theorem Inv.settledAll (hinv : Inv w os h) (hreturned : ∀ t, h.emitting t = .returned) (t : θ) :
    (emitted os).filter (·.1 = t) = (settled os).filter (·.1 = t) := by
  rw [hinv.threads t, hreturned t]
  exact List.append_nil _

/-- When every `emit` has returned, exactly what is not pending was delivered. -/
theorem Inv.delivered_iff (hinv : Inv w os h) (hreturned : ∀ t, h.emitting t = .returned) :
    Delivered os ↔ h.pending = [] := by
  have hperm : (emitted os).Perm ((queued os).map Item.source ++ reported os) :=
    (perm_of_threads (hinv.settledAll hreturned)).trans (settled_perm os)
  constructor
  · rintro ⟨honce, -, -⟩
    have hlength := hperm.length_eq.symm.trans honce.length_eq
    rw [hinv.queue, List.map_append, List.length_append, List.length_append,
      List.length_append, List.length_map, List.length_map] at hlength
    exact List.eq_nil_of_length_eq_zero (by omega)
  · intro hnone
    have hqueue := hinv.queue
    rw [hnone, List.append_nil] at hqueue
    rw [hqueue] at hperm
    refine ⟨hperm, hqueue ▸ List.prefix_refl _, fun t => ?_⟩
    rw [hinv.settledAll hreturned t, ← hqueue]
    exact (queued_sublist os).filter _

/-- **Nothing is lost and nothing is written twice**, once `close` and every `emit` have
returned, if and only if no entry was put into the queue after the sentinel. -/
theorem delivers_iff (resolve : ι → Except PyError Entry) (w : World P B)
    (actions : List (Action θ ι))
    (hclosed : (runHandler resolve actions (start w)).2.closing = .returned)
    (hreturned : ∀ t, (runHandler resolve actions (start w)).2.emitting t = .returned) :
    Delivered (runHandler resolve actions (start w)).1 ↔
      StepsOk (Action.step resolve) Action.PutsInTime actions (start w) := by
  have hinv := inv_run resolve actions w
  -- the worker is gone: what is pending is what got behind the sentinel
  have hstopped := hinv.shape.joined (Or.inr hclosed)
  have hlate : (runHandler resolve actions (start w)).2.pending
      = (runHandler resolve actions (start w)).2.late := by
    rw [pending, late, hstopped]
    rfl
  rw [hinv.delivered_iff hreturned, hlate]
  exact late_run resolve actions w

end

/-- Two threads emit around `close`: a log record that cannot be resolved, one that is put
into the queue after `flush`, and one that comes too late and is reported. -/
def sampleActions : List (Action Bool Bool) :=
  [.emit true true, .advance true, .close, .emit false false, .advance false, .advance true,
    .work [], .work [], .work [], .close, .emit false true, .advance false, .advance false, .close,
    .work [], .work [], .work [], .work [], .work [], .close, .close, .emit true true]

/-- `_entry`, for log records of which one kind cannot be resolved. -/
def sampleResolve (record : Bool) : Except PyError Entry :=
  if record then .ok ⟨lit "app", lit "login", [], [], lit "2024-01-01T00:00:00Z"⟩
  else .error (valueError (lit "unsupported format character"))

instance Emitting.decidableReturned (e : Emitting ι) : Decidable (e = .returned) :=
  match e with
  | .returned => isTrue rfl
  | .checked _ | .resolved .. => isFalse nofun

theorem delivers_sample :
    (appended (runHandler sampleResolve sampleActions (start (inMemory plainLog))).1).length = 2 ∧
      Delivered (runHandler sampleResolve sampleActions (start (inMemory plainLog))).1 :=
  ⟨by decide +kernel, (delivers_iff sampleResolve (inMemory plainLog) sampleActions
    (by decide +kernel) (by decide +kernel)).mpr (by decide +kernel)⟩

/-- `emit` finds the handler open, `close` does all of its work, and then the entry gets into
the queue. -/
theorem delivers_counterexample :
    ¬∀ (P : Runtime) (B : StorageBackend) (resolve : Bool → Except PyError Entry) (w : World P B)
      (actions : List (Action Bool Bool)),
        (runHandler resolve actions (start w)).2.closing = .returned →
          (∀ t, (runHandler resolve actions (start w)).2.emitting t = .returned) →
            Delivered (runHandler resolve actions (start w)).1 := by
  intro hclaim
  have hdelivered := hclaim referenceRuntime memoryBackend.toStorageBackend sampleResolve
    (inMemory plainLog) [.emit true true, .advance true, .close, .close, .close, .work [],
      .work [], .close, .close, .advance true] (by decide +kernel) (by decide +kernel)
  exact absurd hdelivered.once.length_eq (by decide +kernel)

/-! ### The log behind the handler -/

section

variable [DecidableEq θ] (resolve : ι → Except PyError Entry) (actions : List (Action θ ι))

/-- **The log** is what appending the entries one by one, in the order of the queue, makes
it. -/
theorem world_run (w : World P B) : (runHandler resolve actions (start w)).2.world
    = (runCalls (appendCalls (runHandler resolve actions (start w)).1) w).2 :=
  (inv_run resolve actions w).world

/-- When `flush` finds nothing unfinished, everything that was queued has been written. -/
theorem written_of_flushed (w : World P B)
    (hflush : (runHandler resolve actions (start w)).2.queue.unfinished = 0) :
    appended (runHandler resolve actions (start w)).1
      = queued (runHandler resolve actions (start w)).1 := by
  have hinv := inv_run resolve actions w
  have hcount := hinv.shape.unfinished
  rw [hflush] at hcount
  have hitems := List.eq_nil_of_length_eq_zero (Nat.eq_zero_of_add_eq_zero_right hcount.symm)
  have hworker := Nat.eq_zero_of_add_eq_zero_left hcount.symm
  rw [hinv.queue, pending, hitems]
  cases hphase : (runHandler resolve actions (start w)).2.worker with
  | writing x =>
    rw [hphase] at hworker
    cases hworker
  | _ => exact (List.append_nil _).symm

/-- **A handler keeps its log verifiable**, whatever its threads do: any log, opened or rotated
before or just made, that remembers its tail rightly. -/
theorem log_verifies {B : OrderedBackend} (hP : P.SignaturesVerify)
    (w : World P B.toStorageBackend) (htail : w.TailOk) (hver : w.Verifies) :
    World.Verifies (runHandler resolve actions (start w)).2.world := by
  have happends : ∀ c ∈ appendCalls (P := P) (runHandler resolve actions (start w)).1,
      c.OnSameObject ∧ ∀ w' : World P B.toStorageBackend, c.RotatesSafely w' := by
    intro c hc
    obtain ⟨o, -, ho⟩ := List.mem_filterMap.mp hc
    cases o with
    | appended x now =>
      obtain rfl := Option.some.inj ho
      exact ⟨trivial, fun _ => trivial⟩
    | _ => cases ho
  rw [world_run]
  exact (verifies_run hP htail hver (fun c hc => (happends c hc).1)
    (stepsOk_of_forall (fun c hc => (happends c hc).2) w)).2

end

/-- A sealed log that was written to and rotated goes on verifying. -/
theorem log_verifies_sample : World.Verifies (runHandler sampleResolve sampleActions
    (start (runCalls [sampleAppend, sampleRotate] (inMemory sampleLog)).2)).2.world := by
  obtain ⟨htail, hver⟩ := verifies_run referenceRuntime_signaturesVerify
    (tailOk_of_new new_sampleConfig _) (inMemory_verifies new_sampleConfig)
    (by simp [sampleAppend, sampleRotate, Call.OnSameObject]) sampleRun_safe
  exact log_verifies (B := memoryBackend) sampleResolve sampleActions
    referenceRuntime_signaturesVerify _ htail hver

end AuditLogHandler

end AuditChain
